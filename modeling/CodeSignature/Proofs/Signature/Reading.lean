import CodeSignature.Proofs.Signature.PatternText

/-! # What is read from a text

Whatever a text is, what is read from it is a signature with a cell at least, or the text is refused
for one of two reasons. If the text holds a mask, then that is the mask of the signature.
-/

namespace CodeSignature

namespace Signature

variable {cs mask : List Char} {s : Signature} {f : Failure} {text : String}

theorem findMaskRun_spec (h : findMaskRun cs = some mask) :
    mask ≠ [] ∧ ∀ c ∈ mask, isMaskChar c = true := by
  fun_induction findMaskRun cs with
  | case1 => cases h
  | case2 rest hrun ih => exact ih h
  | case3 rest hrun =>
    obtain rfl := Option.some.inj h
    refine ⟨List.cons_ne_nil _ _, List.forall_mem_cons.mpr ⟨rfl, ?_⟩⟩
    intro c hc
    exact List.mem_takeWhile_imp hc
  | case4 c rest hc ih => exact ih h

theorem ne_nil_of_findBits {bits : List Char} (h : findBits cs = some bits) : bits ≠ [] := by
  fun_induction findBits cs with
  | case1 c b rest hlead hrun ih => exact ih h
  | case2 c b rest hlead hrun =>
    obtain rfl := Option.some.inj h
    exact hrun
  | case3 c b rest hlead ih => exact ih h
  | case4 => cases h

theorem findMask_spec (h : findMask cs = some mask) :
    mask ≠ [] ∧ ∀ c ∈ mask, isMaskChar c = true := by
  unfold findMask at h
  split at h
  next run hrun =>
    obtain rfl := Option.some.inj h
    exact findMaskRun_spec hrun
  next =>
    obtain ⟨bits, hbits, rfl⟩ := Option.map_eq_some_iff.mp h
    refine ⟨by simpa using ne_nil_of_findBits hbits, ?_⟩
    intro c hc
    obtain ⟨b, -, rfl⟩ := List.mem_map.mp (List.mem_reverse.mp hc)
    split <;> rfl

theorem maskChars_underMask {bytes : List UInt8} (hlength : bytes.length = mask.length)
    (h : ∀ c ∈ mask, isMaskChar c = true) : maskChars (underMask bytes mask) = mask := by
  induction bytes generalizing mask with
  | nil => rw [List.length_eq_zero_iff.mp hlength.symm]; rfl
  | cons b bytes ih =>
    cases mask with
    | nil => cases hlength
    | cons c mask =>
      rw [List.forall_mem_cons] at h
      have hc : (if decide (c = '?') = true then '?' else 'x') = c := by
        by_cases hmark : c = '?'
        · simp [hmark]
        · have := h.1
          simp_all [isMaskChar]
      have hrest := ih (Nat.succ.inj hlength) h.2
      simp only [underMask, maskChars, List.zipWith_cons_cons, List.map_cons] at hrest ⊢
      rw [hrest, hc]

theorem readMasked_eq_ok (h : readMasked cs mask = .ok s) :
    ∃ bytes, bytes.length = mask.length ∧ s = underMask bytes mask := by
  unfold readMasked at h
  split at h
  next lead hlead =>
    have hlength := List.find?_some hlead
    exact ⟨_, of_decide_eq_true hlength, (Except.ok.inj h).symm⟩
  next => cases h

theorem readPlain_ne_nil (h : readPlain cs = .ok s) : s ≠ [] := by
  unfold readPlain at h
  split at h
  next s' hwords =>
    obtain rfl := Except.ok.inj h
    unfold ofWords? at hwords
    split at hwords
    next => cases hwords
    next hne =>
      obtain ⟨word, rest, hcons⟩ := List.exists_cons_of_ne_nil hne
      rw [hcons, List.mapM_cons] at hwords
      obtain ⟨c, -, hwords⟩ := Option.bind_eq_some_iff.mp hwords
      obtain ⟨cells, -, hcells⟩ := Option.bind_eq_some_iff.mp hwords
      rw [← Option.some.inj hcells]
      exact List.cons_ne_nil _ _
  next =>
    split at h
    next s' hliterals =>
      obtain rfl := Except.ok.inj h
      obtain ⟨lead, hlead, rfl⟩ := Option.map_eq_some_iff.mp hliterals
      have hlength := List.find?_some hlead
      rintro hnil
      simp [List.map_eq_nil_iff.mp hnil] at hlength
    next => cases h

theorem readMasked_eq_error (h : readMasked cs mask = .error f) :
    f = .maskMismatch (String.ofList mask) := by
  unfold readMasked at h
  split at h
  next => cases h
  next => exact (Except.error.inj h).symm

theorem readPlain_eq_error (h : readPlain cs = .error f) : f = .unrecognizedText := by
  unfold readPlain at h
  split at h
  next => cases h
  next =>
    split at h
    next => cases h
    next => exact (Except.error.inj h).symm

theorem read_cases (text : String) :
    (∃ s, read text = .ok s ∧ s ≠ [] ∧
        ∀ mask, findMask text.toList = some mask → s.maskChars = mask) ∨
      ∃ f, read text = .error f ∧ (f = .unrecognizedText ∨
        ∃ mask, findMask text.toList = some mask ∧ f = .maskMismatch (String.ofList mask)) := by
  unfold read readChars
  cases hmask : findMask text.toList with
  | none =>
    dsimp only
    cases hread : readPlain text.toList with
    | ok s => exact .inl ⟨s, rfl, readPlain_ne_nil hread, nofun⟩
    | error f => exact .inr ⟨f, rfl, .inl (readPlain_eq_error hread)⟩
  | some mask =>
    dsimp only
    obtain ⟨hne, hmarks⟩ := findMask_spec hmask
    cases hread : readMasked text.toList mask with
    | ok s =>
      obtain ⟨bytes, hlength, rfl⟩ := readMasked_eq_ok hread
      have hself := maskChars_underMask hlength hmarks
      refine .inl ⟨_, rfl, ?_, fun mask' heq => hself.trans (Option.some.inj heq)⟩
      rintro hnil
      rw [hnil] at hself
      exact hne hself.symm
    | error f => exact .inr ⟨f, rfl, .inr ⟨mask, rfl, readMasked_eq_error hread⟩⟩

theorem ne_nil_of_read (h : read text = .ok s) : s ≠ [] := by
  rcases read_cases text with ⟨s', hread, hne, -⟩ | ⟨f, hread, -⟩
  · rw [h] at hread
    rwa [Except.ok.inj hread]
  · rw [h] at hread
    cases hread

end Signature

end CodeSignature
