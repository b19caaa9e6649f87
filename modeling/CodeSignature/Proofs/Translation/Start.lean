import CodeSignature.Proofs.Listing.Prologue
import CodeSignature.Proofs.Translation.Instruction

/-! # Function starts in a moved listing

Whether instructions set up a frame, end a flow or pad does not depend on where they lie. So the
starts that are found in a moved listing are the moved starts.
-/

namespace CodeSignature

namespace Listing

variable {δ : Int} {i i' j j' : Instruction} {l l' : Listing}

section Instructions

variable (hi : i.Moved δ i') (hj : j.Moved δ j')

include hi

theorem isJump_moved : isJump i' = isJump i := by rw [isJump, isJump, hi.mnemonic]

theorem isPadding_moved : isPadding i' = isPadding i := by rw [isPadding, isPadding, hi.bytes]

theorem lowersStack_moved : lowersStack i' = lowersStack i := by
  rw [lowersStack, lowersStack, hi.mnemonic]
  by_cases hm : i.mnemonic = "sub"
  · have htext := hi.text (by simp [hm, frameMnemonics])
    have hp : ∀ p : List Char, '[' ∉ p →
        p.isPrefixOf i'.operandText.toList = p.isPrefixOf i.operandText.toList := by
      intro p hp
      rw [Bool.eq_iff_iff, List.isPrefixOf_iff_prefix, List.isPrefixOf_iff_prefix]
      exact (htext.prefix_iff hp).symm
    rw [hp _ (by decide), hp _ (by decide)]
  · simp [hm]

/-- The second operand of a stack adjustment is the same, or names memory and is no number. -/
theorem secondNumber?_moved (h : lowersStack i = true) : secondNumber? i' = secondNumber? i := by
  obtain ⟨hm, behind, hstack⟩ := lowersStack_iff.mp h
  obtain ⟨word, hw, hcomma, hpre⟩ : ∃ word : List Char,
      '[' ∉ word ++ [','] ∧ ',' ∉ word ∧ word ++ [','] <+: i.operandText.toList := by
    rcases hstack with htext | htext
    · exact ⟨"rsp".toList, by decide, by decide, behind, htext.symm⟩
    · exact ⟨"esp".toList, by decide, by decide, behind, htext.symm⟩
  obtain ⟨t, u, ht, hu, halike⟩ :=
    (hi.text (by simp [hm, frameMnemonics])).exists_of_front hw hpre
  rw [List.append_assoc, List.singleton_append] at ht hu
  rw [secondNumber?_eq ht hcomma, secondNumber?_eq hu hcomma]
  -- Behind the comma the texts are alike, so their next pieces are equal or both name memory.
  rcases (halike.takeWhile (· ≠ ',') (by decide)).eq_or_bracket with he | ⟨ht', hu'⟩
  · rw [he]
  · have hblank : isBlank '[' = false := by decide
    rw [Numeral.read?_of_bracket (Text.mem_strip ht' hblank),
      Numeral.read?_of_bracket (Text.mem_strip hu' hblank)]

theorem opensLargeFrame_moved : opensLargeFrame i' = opensLargeFrame i := by
  rw [opensLargeFrame, opensLargeFrame, lowersStack_moved hi]
  cases h : lowersStack i with
  | false => rfl
  | true => rw [secondNumber?_moved hi h]

include hj

theorem startsAfter_moved : startsAfter i' j' = startsAfter i j := by
  rw [startsAfter, startsAfter, hi.mnemonic, hj.mnemonic]

end Instructions

theorem isFramePair_of_bracket (h : '[' ∈ j.operandText.toList) : isFramePair i j = false := by
  rw [← Bool.not_eq_true, isFramePair_iff]
  rintro ⟨-, hframe, -, target, source, htext, -, -, htarget, hsource⟩
  have hblank : isBlank '[' = false := by decide
  rw [htext, List.mem_append, List.mem_cons] at h
  rcases h with hb | hb | hb
  · have hstrip := Text.mem_strip hb hblank
    rw [htarget] at hstrip
    rcases hframe with hr | hr <;> rw [hr] at hstrip <;> revert hstrip <;> decide
  · simp at hb
  · have hstrip := Text.mem_strip hb hblank
    rcases hsource with hr | hr <;> rw [hr] at hstrip <;> revert hstrip <;> decide

theorem isFramePair_moved (hi : i.Moved δ i') (hj : j.Moved δ j') :
    isFramePair i' j' = isFramePair i j := by
  by_cases hm : i.mnemonic = "push" ∧ j.mnemonic = "mov"
  · have hpush : i.mnemonic ∈ frameMnemonics := by simp [hm.1, frameMnemonics]
    have hmov : j.mnemonic ∈ frameMnemonics := by simp [hm.2, frameMnemonics]
    rcases (hj.text hmov).eq_or_bracket with hjt | ⟨ht, ht'⟩
    · rcases (hi.text hpush).eq_or_bracket with hit | ⟨hs, hs'⟩
      · rw [String.toList_inj] at hit hjt
        simp only [isFramePair, hi.mnemonic, hj.mnemonic, hit, hjt]
      · have hne : ∀ {k : Instruction} {s : String}, '[' ∈ k.operandText.toList →
            '[' ∉ s.toList → k.operandText ≠ s := by
          rintro k s hk hs rfl
          exact hs hk
        simp [isFramePair, hne hs, hne hs']
    · rw [isFramePair_of_bracket ht, isFramePair_of_bracket ht']
  · rw [not_and_or] at hm
    simp only [isFramePair, hi.mnemonic, hj.mnemonic]
    rcases hm with hm | hm <;> simp [hm]

variable (h : List.Forall₂ (Instruction.Moved δ) l l')
include h

theorem addresses_moved : addresses l' = (addresses l).map (· + δ) := by
  induction h with
  | nil => rfl
  | cons hi _ ih =>
    simp only [addresses, List.map_cons, hi.address] at ih ⊢
    rw [ih]

theorem filterMap_branchTarget_moved (test : Instruction → Prop) [DecidablePred test]
    (ht : ∀ {i i'}, Instruction.Moved δ i i' → (test i' ↔ test i)) :
    (l'.filterMap fun i => if test i then i.branchTarget else none) =
      (l.filterMap fun i => if test i then i.branchTarget else none).map (· + δ) := by
  induction h with
  | nil => rfl
  | @cons i i' l l' hi _ ih =>
    simp only [List.filterMap_cons, ih, ht hi, hi.branchTarget]
    by_cases hti : test i
    · cases hb : i.branchTarget <;> simp [hti]
    · simp [hti]

theorem jumpTargets_moved : jumpTargets l' = (jumpTargets l).map (· + δ) :=
  filterMap_branchTarget_moved h (isJump · = true) fun hi => by rw [isJump_moved hi]

theorem callTargets_moved : callTargets l' = (callTargets l).map (· + δ) := by
  have ht := filterMap_branchTarget_moved h (·.mnemonic = "call") fun hi => by rw [hi.mnemonic]
  simp only [callTargets, ht, addresses_moved h, Sequence.filter_contains_map_add]

theorem afterSeparators_moved : afterSeparators l' = (afterSeparators l).map (· + δ) := by
  induction h with
  | nil => rfl
  | cons hi hl ih =>
    cases hl with
    | nil => rfl
    | cons hj _ =>
      simp only [afterSeparators, startsAfter_moved hi hj, ih, hj.address]
      split <;> rfl

theorem frameAddresses_moved (hi : i.Moved δ i') (hj : j.Moved δ j') :
    frameAddresses i' j' l' = (frameAddresses i j l).map (· + δ) := by
  cases h with
  | nil => simp [frameAddresses, hi.address, hj.address]
  | cons hk _ =>
    simp only [frameAddresses, lowersStack_moved hk, hi.address, hj.address, hk.address]
    split <;> rfl

theorem prologuesApart_moved (taken : List Int) :
    prologuesApart (taken.map (· + δ)) l' = (prologuesApart taken l).map (· + δ) := by
  induction h generalizing taken with
  | nil => rfl
  | cons hi hl ih =>
    cases hl with
    | nil =>
      simp only [prologuesApart, hi.address, opensLargeFrame_moved hi, Sequence.contains_map_add]
      split
      · rfl
      · split <;> rfl
    | cons hj hmore =>
      simp only [prologuesApart, hi.address, opensLargeFrame_moved hi, isFramePair_moved hi hj,
        Sequence.contains_map_add, frameAddresses_moved hmore hi hj, ← List.map_append,
        ← List.map_cons (f := (· + δ)), ih]
      split
      · rfl
      · split
        · rfl
        · split <;> rfl

theorem afterPaddingRun_moved (run : Nat) (terminated : Bool) :
    afterPaddingRun run terminated l' = (afterPaddingRun run terminated l).map (· + δ) := by
  induction h generalizing run terminated with
  | nil => rfl
  | cons hi _ ih =>
    simp only [afterPaddingRun, isPadding_moved hi, hi.mnemonic, hi.address, ih]
    split
    · rfl
    · split <;> rfl

end Listing

end CodeSignature
