import CodeSignature.Listing.Start
import CodeSignature.Proofs.Decoder.Sweep
import CodeSignature.Proofs.Listing.Reference
import CodeSignature.Proofs.Text.Split

/-! # Prologues

A frame pair is a prologue wherever it stands, and a large stack frame is one unless a frame pair
stands right in front of it. The search never looks back for such a pair. It remembers which addresses
the pairs have taken, and finds the same if no two instructions share an address.
-/

namespace CodeSignature

namespace Listing

variable {i j : Instruction} {l rest : Listing} {taken : List Int} {m n : Nat} {x : Int}
  {word behind : List Char}

/-- The frame register is pushed, and then the stack pointer is copied into it. -/
structure FramePair (i j : Instruction) : Prop where
  push : i.mnemonic = "push"
  frame : i.operandText = "rbp" ∨ i.operandText = "ebp"
  move : j.mnemonic = "mov"
  operands : ∃ target source, j.operandText.toList = target ++ ',' :: source ∧
    ',' ∉ target ∧ ',' ∉ source ∧ Text.strip target = i.operandText.toList ∧
    (Text.strip source = "rsp".toList ∨ Text.strip source = "esp".toList)

/-- At least 0x20 is subtracted from the stack pointer. The number ends in front of the second comma,
if there is one. -/
structure LargeFrame (i : Instruction) : Prop where
  sub : i.mnemonic = "sub"
  size : ∃ behind n, (i.operandText.toList = "rsp,".toList ++ behind ∨
      i.operandText.toList = "esp,".toList ++ behind) ∧
    Numeral.read? 16 (String.ofList (Text.strip (behind.takeWhile (· ≠ ',')))) = some n ∧
    0x20 ≤ n

theorem isFramePair_iff : isFramePair i j = true ↔ FramePair i j := by
  simp only [isFramePair, Bool.and_eq_true, Bool.or_eq_true, decide_eq_true_eq]
  constructor
  · rintro ⟨⟨⟨hpush, hframe⟩, hmove⟩, hoperands⟩
    refine ⟨hpush, hframe, hmove, ?_⟩
    split at hoperands
    next target source hpieces =>
      obtain ⟨front, _, hsplit, rfl, hmore⟩ := List.map_eq_cons_iff.mp hpieces
      obtain ⟨back, _, rfl, rfl, hnil⟩ := List.map_eq_cons_iff.mp hmore
      obtain rfl := List.map_eq_nil_iff.mp hnil
      obtain ⟨htext, hfront, hback⟩ := Text.splitAt_eq_pair_iff.mp hsplit
      simp only [Bool.and_eq_true, Bool.or_eq_true, decide_eq_true_eq] at hoperands
      exact ⟨front, back, htext, hfront, hback, hoperands⟩
    · simp at hoperands
  · rintro ⟨hpush, hframe, hmove, target, source, htext, htarget, hsource, hoperands⟩
    refine ⟨⟨⟨hpush, hframe⟩, hmove⟩, ?_⟩
    rw [Text.splitAt_eq_pair_iff.mpr ⟨htext, htarget, hsource⟩]
    simpa using hoperands

theorem lowersStack_iff : lowersStack i = true ↔ i.mnemonic = "sub" ∧
    ∃ behind, i.operandText.toList = "rsp,".toList ++ behind ∨
      i.operandText.toList = "esp,".toList ++ behind := by
  simp only [lowersStack, Bool.and_eq_true, Bool.or_eq_true, decide_eq_true_eq,
    List.isPrefixOf_iff_prefix, List.IsPrefix, exists_or, @eq_comm _ i.operandText.toList]

theorem secondNumber?_eq (h : i.operandText.toList = word ++ ',' :: behind) (hw : ',' ∉ word) :
    secondNumber? i =
      Numeral.read? 16 (String.ofList (Text.strip (behind.takeWhile (· ≠ ',')))) := by
  obtain ⟨more, hmore⟩ := Text.exists_splitAt_eq_cons ',' behind
  rw [secondNumber?, h, Text.splitAt_append_cons hw, hmore]

theorem opensLargeFrame_iff : opensLargeFrame i = true ↔ LargeFrame i := by
  have hnumber : ∀ behind, i.operandText.toList = "rsp,".toList ++ behind ∨
      i.operandText.toList = "esp,".toList ++ behind → secondNumber? i =
        Numeral.read? 16 (String.ofList (Text.strip (behind.takeWhile (· ≠ ',')))) := by
    rintro behind (h | h)
    · exact secondNumber?_eq (show _ = "rsp".toList ++ ',' :: behind from h) (by decide)
    · exact secondNumber?_eq (show _ = "esp".toList ++ ',' :: behind from h) (by decide)
  have hlarge : opensLargeFrame i = true ↔
      lowersStack i = true ∧ ∃ n, secondNumber? i = some n ∧ largeFrame ≤ n := by
    cases hn : secondNumber? i <;> simp [opensLargeFrame, hn]
  rw [hlarge, lowersStack_iff]
  constructor
  · rintro ⟨⟨hsub, behind, htext⟩, n, hn, hle⟩
    exact ⟨hsub, behind, n, htext, (hnumber behind htext).symm.trans hn, hle⟩
  · rintro ⟨hsub, behind, n, htext, hn, hle⟩
    exact ⟨⟨hsub, behind, htext⟩, n, (hnumber behind htext).trans hn, hle⟩

theorem LargeFrame.lowersStack (h : LargeFrame i) : lowersStack i = true := by
  obtain ⟨behind, -, htext, -⟩ := h.size
  exact lowersStack_iff.mpr ⟨h.sub, behind, htext⟩

def PairAt (l : Listing) (n : Nat) : Prop :=
  ∃ i j, l[n]? = some i ∧ l[n + 1]? = some j ∧ FramePair i j

def PrologueAt (l : Listing) (n : Nat) (x : Int) : Prop :=
  ∃ i, l[n]? = some i ∧ i.address = x ∧
    (l.PairAt n ∨ LargeFrame i ∧ ∀ m, m + 2 = n → ¬ l.PairAt m)

theorem pairAt_iff (hi : l[n]? = some i) (hj : l[n + 1]? = some j) :
    l.PairAt n ↔ FramePair i j := by
  simp [PairAt, hi, hj]

theorem not_pairAt_last (h : l.drop (n + 1) = []) : ¬ l.PairAt n := by
  rintro ⟨_, j, -, hj, -⟩
  simp [← List.head?_drop, h] at hj

theorem not_prologueAt_end (h : l.drop n = []) : ¬ ∃ m, n ≤ m ∧ l.PrologueAt m x := by
  rintro ⟨m, hm, i, hi, -⟩
  have hlt := (List.getElem?_eq_some_iff.mp hi).1
  have hle := List.drop_eq_nil_iff.mp h
  omega

theorem index_eq (distinct : l.addresses.Nodup) (hm : l[m]? = some i) (hn : l[n]? = some j)
    (h : i.address = j.address) : m = n := by
  have hlt : m < l.addresses.length := by
    simpa [addresses] using (List.getElem?_eq_some_iff.mp hm).1
  rw [← List.getElem?_inj hlt distinct]
  simp only [addresses, List.getElem?_map, hm, hn, Option.map_some, h]

theorem mem_frameAddresses : x ∈ frameAddresses i j rest ↔ x = i.address ∨ x = j.address ∨
    ∃ k, rest.head? = some k ∧ lowersStack k = true ∧ x = k.address := by
  cases rest with
  | nil => simp [frameAddresses]
  | cons k rest =>
    rw [frameAddresses]
    split <;> simp [*]

/-- What the search remembers when it has come to an index. Of the instructions from there on only
copies of the stack pointer and adjustments behind a pair are taken, and each adjustment behind a pair
that the search has passed is taken. -/
structure Remembers (l : Listing) (n : Nat) (taken : List Int) : Prop where
  sound : ∀ {m k}, n ≤ m → l[m]? = some k → k.address ∈ taken →
    k.mnemonic = "mov" ∨ k.mnemonic = "sub" ∧ ∃ p, p + 2 = m ∧ l.PairAt p
  complete : ∀ {p k}, p < n → l.PairAt p → l[p + 2]? = some k → lowersStack k = true →
    k.address ∈ taken

namespace Remembers

theorem start (l : Listing) : Remembers l 0 [] := ⟨nofun, nofun⟩

theorem step (h : Remembers l n taken) (marked : List Int)
    (hsound : ∀ {m k}, n < m → l[m]? = some k → k.address ∈ marked →
      k.mnemonic = "mov" ∨ k.mnemonic = "sub" ∧ ∃ p, p + 2 = m ∧ l.PairAt p)
    (hcomplete : ∀ {k}, l.PairAt n → l[n + 2]? = some k → lowersStack k = true →
      k.address ∈ marked) :
    Remembers l (n + 1) (marked ++ taken) where
  sound hm hk hmem := by
    rcases List.mem_append.mp hmem with hmem | hmem
    · exact hsound hm hk hmem
    · exact h.sound (Nat.le_of_succ_le hm) hk hmem
  complete hp hpair hk hlowers := by
    rcases Nat.lt_succ_iff_lt_or_eq.mp hp with hp | rfl
    · exact List.mem_append_right _ (h.complete hp hpair hk hlowers)
    · exact List.mem_append_left _ (hcomplete hpair hk hlowers)

theorem pass (h : Remembers l n taken) (hpair : ¬ l.PairAt n) : Remembers l (n + 1) taken :=
  h.step [] nofun fun hp => absurd hp hpair

theorem frame (h : Remembers l n taken) (distinct : l.addresses.Nodup) (hpair : ¬ l.PairAt n)
    (hi : l[n]? = some i) : Remembers l (n + 1) (i.address :: taken) := by
  refine h.step [i.address] ?_ fun hp => absurd hp hpair
  intro m k hm hk hmem
  exact absurd (index_eq distinct hi hk (List.mem_singleton.mp hmem).symm) (Nat.ne_of_lt hm)

theorem pair (h : Remembers l n taken) (distinct : l.addresses.Nodup) (hi : l[n]? = some i)
    (hj : l[n + 1]? = some j) (hpair : FramePair i j) :
    Remembers l (n + 1) (frameAddresses i j (l.drop (n + 2)) ++ taken) := by
  refine h.step _ ?_ ?_
  · intro m k hm hk hmem
    rw [mem_frameAddresses, List.head?_drop] at hmem
    -- As addresses are distinct, the address says which of the three instructions this is.
    rcases hmem with heq | heq | ⟨k', hk', hlowers, heq⟩
    · exact absurd (index_eq distinct hi hk heq.symm) (Nat.ne_of_lt hm)
    · obtain rfl := index_eq distinct hj hk heq.symm
      obtain rfl : j = k := Option.some_inj.mp (hj.symm.trans hk)
      exact Or.inl hpair.move
    · obtain rfl := index_eq distinct hk' hk heq.symm
      obtain rfl : k' = k := Option.some_inj.mp (hk'.symm.trans hk)
      exact Or.inr ⟨(lowersStack_iff.mp hlowers).1, n, rfl, i, j, hi, hj, hpair⟩
  · intro k _ hk hlowers
    exact mem_frameAddresses.mpr (Or.inr (Or.inr ⟨k, by rwa [List.head?_drop], hlowers, rfl⟩))

theorem not_pairAt (h : Remembers l n taken) (hi : l[n]? = some i) (htaken : i.address ∈ taken) :
    ¬ l.PairAt n := by
  rintro ⟨_, j, hi', -, hpair⟩
  obtain rfl := Option.some_inj.mp (hi.symm.trans hi')
  rcases h.sound le_rfl hi htaken with hmov | ⟨hsub, -⟩
  · simp [hpair.push] at hmov
  · simp [hpair.push] at hsub

/-- Whether an address is taken tells as much as a look at the two instructions in front. -/
theorem prologueAt_iff (h : Remembers l n taken) (hi : l[n]? = some i) : l.PrologueAt n x ↔
    i.address = x ∧ i.address ∉ taken ∧ (l.PairAt n ∨ LargeFrame i) := by
  constructor
  · rintro ⟨_, hi', hx, hprologue⟩
    obtain rfl := Option.some_inj.mp (hi.symm.trans hi')
    refine ⟨hx, fun htaken => ?_, hprologue.imp_right And.left⟩
    rcases hprologue with hpair | ⟨hlarge, hnot⟩
    · exact h.not_pairAt hi htaken hpair
    · rcases h.sound le_rfl hi htaken with hmov | ⟨-, p, hp, hpair⟩
      · simp [hlarge.sub] at hmov
      · exact hnot p hp hpair
  · rintro ⟨hx, htaken, hprologue⟩
    refine ⟨i, hi, hx, hprologue.imp_right fun hlarge => ⟨hlarge, ?_⟩⟩
    rintro m rfl hpair
    exact htaken (h.complete (by omega) hpair hi hlarge.lowersStack)

theorem exists_prologueAt_iff (h : Remembers l n taken) (hi : l[n]? = some i) :
    (∃ m, n ≤ m ∧ l.PrologueAt m x) ↔
      i.address = x ∧ i.address ∉ taken ∧ (l.PairAt n ∨ LargeFrame i) ∨
        ∃ m, n + 1 ≤ m ∧ l.PrologueAt m x := by
  rw [← h.prologueAt_iff hi]
  constructor
  · rintro ⟨m, hm, hprologue⟩
    rcases Nat.eq_or_lt_of_le hm with rfl | hm
    · exact Or.inl hprologue
    · exact Or.inr ⟨m, hm, hprologue⟩
  · rintro (hprologue | ⟨m, hm, hprologue⟩)
    · exact ⟨n, le_rfl, hprologue⟩
    · exact ⟨m, Nat.le_of_succ_le hm, hprologue⟩

end Remembers

/-- What the search finds from an index on, with what it remembers there. -/
theorem mem_prologuesApart (distinct : l.addresses.Nodup) (h : Remembers l n taken) :
    x ∈ prologuesApart taken (l.drop n) ↔ ∃ m, n ≤ m ∧ l.PrologueAt m x := by
  generalize hrest : l.drop n = rest
  -- By the cases of the search: the end, a taken address, the last instruction, and one with another
  -- behind it. A pair counts before a large frame does, as only a pair takes more than itself.
  fun_induction prologuesApart taken rest generalizing n with
  | case1 => simp [not_prologueAt_end hrest]
  | case2 taken i rest htaken ih =>
    obtain ⟨hi, hdrop⟩ := Sequence.drop_eq_cons_iff.mp hrest
    rw [List.contains_iff_mem] at htaken
    rw [h.exists_prologueAt_iff hi, ih (h.pass (h.not_pairAt hi htaken)) hdrop]
    simp [htaken]
  | case3 taken i htaken hlarge =>
    obtain ⟨hi, hdrop⟩ := Sequence.drop_eq_cons_iff.mp hrest
    rw [List.contains_iff_mem] at htaken
    rw [h.exists_prologueAt_iff hi, or_iff_left (not_prologueAt_end hdrop)]
    simp [htaken, opensLargeFrame_iff.mp hlarge, eq_comm]
  | case4 taken i _ hlarge =>
    obtain ⟨hi, hdrop⟩ := Sequence.drop_eq_cons_iff.mp hrest
    rw [opensLargeFrame_iff] at hlarge
    rw [h.exists_prologueAt_iff hi, or_iff_left (not_prologueAt_end hdrop)]
    simp [hlarge, not_pairAt_last hdrop]
  | case5 taken i htaken j more hpair ih =>
    obtain ⟨hi, hdrop⟩ := Sequence.drop_eq_cons_iff.mp hrest
    obtain ⟨hj, hmore⟩ := Sequence.drop_eq_cons_iff.mp hdrop
    rw [List.contains_iff_mem] at htaken
    rw [isFramePair_iff] at hpair
    have hlater := ih (hmore ▸ h.pair distinct hi hj hpair) hdrop
    rw [h.exists_prologueAt_iff hi, List.mem_cons, hlater]
    simp [htaken, pairAt_iff hi hj, hpair, eq_comm]
  | case6 taken i htaken j more hpair hlarge ih =>
    obtain ⟨hi, hdrop⟩ := Sequence.drop_eq_cons_iff.mp hrest
    obtain ⟨hj, -⟩ := Sequence.drop_eq_cons_iff.mp hdrop
    rw [List.contains_iff_mem] at htaken
    rw [isFramePair_iff, ← pairAt_iff hi hj] at hpair
    have hlater := ih (h.frame distinct hpair hi) hdrop
    rw [h.exists_prologueAt_iff hi, List.mem_cons, hlater]
    simp [htaken, opensLargeFrame_iff.mp hlarge, eq_comm]
  | case7 taken i _ j more hpair hlarge ih =>
    obtain ⟨hi, hdrop⟩ := Sequence.drop_eq_cons_iff.mp hrest
    obtain ⟨hj, -⟩ := Sequence.drop_eq_cons_iff.mp hdrop
    rw [isFramePair_iff, ← pairAt_iff hi hj] at hpair
    rw [opensLargeFrame_iff] at hlarge
    rw [h.exists_prologueAt_iff hi, ih (h.pass hpair) hdrop]
    simp [hpair, hlarge]

/-- Instructions that are laid have distinct addresses, so those of a sweep and of an image have. -/
theorem Laid.nodup_addresses (h : Laid l) : l.addresses.Nodup :=
  h.pairwise_addresses.imp Int.ne_of_lt

/-- If no two instructions share an address, then the prologues are exactly the addresses of frame
pairs and of large stack frames without a frame pair right in front of them. -/
theorem mem_prologues_iff (l : Listing) (distinct : l.addresses.Nodup) (x : Int) :
    x ∈ l.prologues ↔ ∃ n i, l[n]? = some i ∧ i.address = x ∧
      (l.PairAt n ∨ LargeFrame i ∧ ∀ m, m + 2 = n → ¬ l.PairAt m) := by
  have hall : x ∈ l.prologues ↔ ∃ m, 0 ≤ m ∧ l.PrologueAt m x :=
    mem_prologuesApart distinct (Remembers.start l)
  simpa only [Nat.zero_le, true_and, PrologueAt] using hall

/-- The first large frame belongs to a pair, the second one does not. The last one is too small. -/
theorem mem_prologues_iff_adjustments :
    let l : Listing := Encoding.sweep .bits64 0x1000
      [0x55, 0x48, 0x89, 0xE5, 0x48, 0x83, 0xEC, 0x40, 0xC3, 0x48, 0x83, 0xEC, 0x28, 0x48, 0x83,
        0xEC, 0x10]
    l.addresses = [0x1000, 0x1001, 0x1004, 0x1008, 0x1009, 0x100D] ∧ l.addresses.Nodup ∧
      (∃ i, l[2]? = some i ∧ LargeFrame i) ∧
      ∀ x, x = 0x1000 ∨ x = 0x1009 ↔ ∃ n i, l[n]? = some i ∧ i.address = x ∧
        (l.PairAt n ∨ LargeFrame i ∧ ∀ m, m + 2 = n → ¬ l.PairAt m) := by
  intro l
  have haddresses : l.addresses = [0x1000, 0x1001, 0x1004, 0x1008, 0x1009, 0x100D] := by
    unfold l
    decide +kernel
  have hadjustment : (l[2]?).any opensLargeFrame = true := by
    unfold l
    decide +kernel
  have hprologues : l.prologues = [0x1000, 0x1009] := by
    unfold l
    decide +kernel
  have hdistinct : l.addresses.Nodup := (contiguous_sweep _ _ _).laid.nodup_addresses
  obtain ⟨i, hi, hlarge⟩ := (Option.any_eq_true _ _).mp hadjustment
  refine ⟨haddresses, hdistinct, ⟨i, hi, opensLargeFrame_iff.mp hlarge⟩, fun x => ?_⟩
  rw [← mem_prologues_iff l hdistinct x, hprologues, List.mem_pair]

end Listing

end CodeSignature
