import CodeSignature.Encoding.Decode
import CodeSignature.Listing.Padding
import CodeSignature.Proofs.Sequence
import Mathlib.Data.List.Basic

/-! # Code after padding

A block of padding is a run of padding without padding in front of it, whatever search has come upon it.
The walk from block to block and the one from instruction to instruction find the same: exactly the
code right behind a block that has two instructions or a terminator in front of it.
-/

namespace CodeSignature

namespace Listing

variable {l front before block before' block' rest : Listing} {i : Instruction} {x : Int} {k : Nat}

theorem isPadding_iff : isPadding i = true ↔ i.bytes = [0xCC] ∨ i.bytes = [0x90] := by
  simp [isPadding]

theorem isPadding_eq_false_iff : isPadding i = false ↔ i.bytes ≠ [0xCC] ∧ i.bytes ≠ [0x90] := by
  simp [isPadding]

theorem paddedAt_eq_true_iff :
    l.paddedAt k = true ↔ ∃ i, l.drop k = i :: l.drop (k + 1) ∧ isPadding i = true := by
  simp only [paddedAt, Option.any_eq_true, Sequence.drop_eq_cons_iff, and_true]

theorem paddedAt_blockStop (l : Listing) (k : Nat) : l.paddedAt (l.blockStop k) = false := by
  fun_induction blockStop l k with
  | case1 k _ _ ih => exact ih
  | case2 k h => simpa using h

theorem exists_drop_eq_blockStop (l : Listing) (k : Nat) :
    ∃ block : Listing, l.drop k = block ++ l.drop (l.blockStop k) ∧
      l.blockStop k = k + block.length ∧ ∀ b ∈ block, isPadding b = true := by
  fun_induction blockStop l k with
  | case1 k h _ ih =>
    obtain ⟨i, hdrop, hi⟩ := paddedAt_eq_true_iff.mp h
    obtain ⟨block, heq, hstop, hblock⟩ := ih
    refine ⟨i :: block, by rw [hdrop, heq, List.cons_append], ?_,
      List.forall_mem_cons.mpr ⟨hi, hblock⟩⟩
    rw [hstop, List.length_cons]
    omega
  | case2 k _ => exact ⟨[], rfl, rfl, by simp⟩

theorem afterPaddingRun_append (h : ∀ b ∈ block, isPadding b = true) (run : Nat) (t : Bool)
    (rest : Listing) :
    afterPaddingRun run t (block ++ rest) = afterPaddingRun (run + block.length) t rest := by
  induction block generalizing run with
  | nil => rfl
  | cons b block ih =>
    rw [List.forall_mem_cons] at h
    rw [List.cons_append, afterPaddingRun, if_pos h.1, ih h.2, List.length_cons]
    congr 1
    omega

theorem afterPaddingRun_zero (h : isPadding i = false) (t : Bool) (rest : Listing) :
    afterPaddingRun 0 t (i :: rest) = afterPaddingRun 0 (isTerminator i) rest := by
  simp [afterPaddingRun, h, isTerminator]

/-- What the outer walk finds behind a block is what the other walk finds there. -/
theorem afterPaddingRun_drop (hstop : l.blockStop k = k + block.length) (t : Bool) :
    afterPaddingRun block.length (l.terminatedAt k) (l.drop (l.blockStop k)) =
      l.foundAt k (l.blockStop k) ++ afterPaddingRun 0 t (l.drop (l.blockStop k)) := by
  have hlength : l.blockStop k - k = block.length := by omega
  cases hdrop : l.drop (l.blockStop k) with
  | nil =>
    have hnone : l[l.blockStop k]? = none := by rw [← List.head?_drop, hdrop, List.head?_nil]
    simp [foundAt, hnone, afterPaddingRun]
  | cons i rest =>
    obtain ⟨hsome, -⟩ := Sequence.drop_eq_cons_iff.mp hdrop
    have hi : isPadding i = false := by simpa [paddedAt, hsome] using l.paddedAt_blockStop k
    rw [afterPaddingRun_zero hi]
    simp only [afterPaddingRun, hi, foundAt, hsome, separates, hlength, isTerminator,
      Bool.false_eq_true, if_false, Bool.and_eq_true, Bool.or_eq_true, decide_eq_true_eq]
    split <;> rfl

theorem afterBlocksFrom_eq (l : Listing) (k : Nat) :
    l.afterBlocksFrom k = afterPaddingRun 0 (l.terminatedAt k) (l.drop k) := by
  fun_induction afterBlocksFrom l k with
  | case1 k hk hpadded _ ih =>
    obtain ⟨block, heq, hstop, hblock⟩ := l.exists_drop_eq_blockStop k
    rw [heq, afterPaddingRun_append hblock, Nat.zero_add, ih, afterPaddingRun_drop hstop]
  | case2 k hk hnot ih =>
    have hi : isPadding l[k] = false := by simpa [paddedAt, hk] using hnot
    have hterminated : l.terminatedAt (k + 1) = isTerminator l[k] := by simp [terminatedAt, hk]
    rw [ih, List.drop_eq_getElem_cons hk, afterPaddingRun_zero hi, hterminated]
  | case3 k hk => rw [List.drop_eq_nil_of_le (Nat.le_of_not_lt hk), afterPaddingRun]

theorem afterBlocks_eq (l : Listing) : l.afterBlocks = l.afterPadding := afterBlocksFrom_eq l 0

/-- A listing that ends in a block of padding, which may be empty, and what is in front of it. -/
structure EndsIn (front before block : Listing) : Prop where
  eq : front = before ++ block
  padded : ∀ b ∈ block, isPadding b = true
  maximal : ∀ p, before.getLast? = some p → isPadding p = false

namespace EndsIn

theorem nil : EndsIn [] [] [] := ⟨rfl, nofun, nofun⟩

theorem concat_padding (h : EndsIn front before block) (hi : isPadding i = true) :
    EndsIn (front ++ [i]) before (block ++ [i]) where
  eq := by rw [h.eq, List.append_assoc]
  padded b hb := by
    rcases List.mem_append.mp hb with hb | hb
    · exact h.padded b hb
    · exact List.mem_singleton.mp hb ▸ hi
  maximal := h.maximal

theorem concat (hi : isPadding i = false) (front : Listing) :
    EndsIn (front ++ [i]) (front ++ [i]) [] where
  eq := (List.append_nil _).symm
  padded := nofun
  maximal p hp := by
    rw [List.getLast?_concat, Option.some_inj] at hp
    exact hp ▸ hi

theorem takeWhile_reverse (h : EndsIn front before block) :
    front.reverse.takeWhile isPadding = block.reverse := by
  have hbefore : before.reverse.takeWhile isPadding = [] := by
    cases hreverse : before.reverse with
    | nil => rfl
    | cons p rest =>
      have hp := h.maximal p (by rw [← List.head?_reverse, hreverse, List.head?_cons])
      rw [List.takeWhile_cons_of_neg (by simp [hp])]
  have hblock : ∀ b ∈ block.reverse, isPadding b = true := by simpa using h.padded
  rw [h.eq, List.reverse_append, List.takeWhile_append_of_pos hblock, hbefore, List.append_nil]

theorem unique (h : EndsIn front before block) (h' : EndsIn front before' block') :
    before = before' ∧ block = block' := by
  have hblock := List.reverse_inj.mp (h.takeWhile_reverse.symm.trans h'.takeWhile_reverse)
  exact List.append_inj' (h.eq.symm.trans h'.eq) (congrArg List.length hblock)

end EndsIn

/-- Code stands right behind a block of padding with two instructions, or with one and a terminator in
front of it. -/
def StartsAfterPadding (front : Listing) (i : Instruction) : Prop :=
  isPadding i = false ∧ i.mnemonic ≠ "db" ∧ ∃ before block, EndsIn front before block ∧
    (2 ≤ block.length ∨ block.length = 1 ∧ before.getLast?.any isTerminator = true)

theorem startsAfterPadding_iff (h : EndsIn front before block) :
    StartsAfterPadding front i ↔ isPadding i = false ∧ i.mnemonic ≠ "db" ∧
      (2 ≤ block.length ∨ block.length = 1 ∧ before.getLast?.any isTerminator = true) := by
  refine and_congr_right fun _ => and_congr_right fun _ => ⟨?_, fun hb => ⟨before, block, h, hb⟩⟩
  rintro ⟨before', block', h', hb⟩
  obtain ⟨rfl, rfl⟩ := h.unique h'
  exact hb

theorem exists_cons_eq_append {P : Listing → Instruction → Prop} :
    (∃ more j back, i :: rest = more ++ j :: back ∧ P more j) ↔
      P [] i ∨ ∃ more j back, rest = more ++ j :: back ∧ P (i :: more) j := by
  constructor
  · rintro ⟨_ | ⟨_, more⟩, j, back, heq, hP⟩
    · obtain ⟨rfl, rfl⟩ := List.cons.inj heq
      exact Or.inl hP
    · obtain ⟨rfl, rfl⟩ := List.cons.inj heq
      exact Or.inr ⟨more, j, back, rfl, hP⟩
  · rintro (hP | ⟨more, j, back, rfl, hP⟩)
    · exact ⟨[], i, rest, rfl, hP⟩
    · exact ⟨i :: more, j, back, rfl, hP⟩

/-- What is found in the rest of a listing when the search has come to the end of its front part. -/
theorem mem_afterPaddingRun (h : EndsIn front before block) (l : Listing) :
    x ∈ afterPaddingRun block.length (before.getLast?.any isTerminator) l ↔
      ∃ more i back, l = more ++ i :: back ∧
        (i.address = x ∧ StartsAfterPadding (front ++ more) i) := by
  induction l generalizing front before block with
  | nil => simp [afterPaddingRun]
  | cons i rest ih =>
    rw [exists_cons_eq_append, List.append_nil, afterPaddingRun]
    by_cases hi : isPadding i = true
    · have hnot : ¬ StartsAfterPadding front i := fun hs => by simp [hs.1] at hi
      have hlater := ih (h.concat_padding hi)
      simp only [List.append_assoc, List.singleton_append, List.length_append,
        List.length_singleton] at hlater
      simp only [if_pos hi, hlater, hnot, and_false, false_or]
    · rw [Bool.not_eq_true] at hi
      have hlater := ih (EndsIn.concat hi front)
      simp only [List.append_assoc, List.singleton_append, List.getLast?_concat, Option.any_some,
        List.length_nil, isTerminator] at hlater
      rw [← hlater, startsAfterPadding_iff h, if_neg (by simp [hi])]
      dsimp only
      split
      next hfound =>
        rw [List.mem_cons]
        refine or_congr_left ⟨fun hx => ⟨hx.symm, hi, hfound.2, hfound.1⟩, fun hx => hx.1.symm⟩
      next hfound =>
        rw [or_iff_right]
        rintro ⟨-, -, hdb, hblock⟩
        exact hfound ⟨hblock, hdb⟩

theorem mem_afterPadding_iff (l : Listing) :
    x ∈ l.afterPadding ↔ ∃ before block i back,
      l = before ++ block ++ i :: back ∧ i.address = x ∧ i.mnemonic ≠ "db" ∧
      isPadding i = false ∧ block ≠ [] ∧ (∀ b ∈ block, isPadding b = true) ∧
      (∀ p, before.getLast? = some p → isPadding p = false) ∧
      (2 ≤ block.length ∨ ∃ p, before.getLast? = some p ∧ p.mnemonic ∈ terminators) := by
  have hterminated : ∀ before : Listing, before.getLast?.any isTerminator = true ↔
      ∃ p, before.getLast? = some p ∧ p.mnemonic ∈ terminators := by
    simp [Option.any_eq_true, isTerminator]
  refine (mem_afterPaddingRun EndsIn.nil l).trans ?_
  simp only [StartsAfterPadding, hterminated, List.nil_append]
  constructor
  · rintro ⟨_, i, back, rfl, hx, hi, hdb, before, block, ⟨rfl, hpadded, hmaximal⟩, hsize⟩
    have hne : block ≠ [] := List.length_pos_iff.mp (by omega)
    exact ⟨before, block, i, back, rfl, hx, hdb, hi, hne, hpadded, hmaximal,
      hsize.imp_right And.right⟩
  · rintro ⟨before, block, i, back, rfl, hx, hdb, hi, hne, hpadded, hmaximal, hsize⟩
    have hpos := List.length_pos_iff.mpr hne
    refine ⟨before ++ block, i, back, rfl, hx, hi, hdb, before, block, ⟨rfl, hpadded, hmaximal⟩, ?_⟩
    rcases hsize with hsize | hp
    · exact Or.inl hsize
    · exact (Nat.eq_or_lt_of_le hpos).symm.imp_right fun h => ⟨h.symm, hp⟩

/-- The search ends, and what it finds is exactly the code that stands right behind a whole block of
padding of two or more instructions, or of one instruction behind a terminator. -/
theorem mem_afterBlocks_iff (l : Listing) :
    l.afterBlocks = l.afterPadding ∧
      ∀ x, x ∈ l.afterBlocks ↔ ∃ before block i back,
        l = before ++ block ++ i :: back ∧ i.address = x ∧ i.mnemonic ≠ "db" ∧
        (i.bytes ≠ [0xCC] ∧ i.bytes ≠ [0x90]) ∧ block ≠ [] ∧
        (∀ b ∈ block, b.bytes = [0xCC] ∨ b.bytes = [0x90]) ∧
        (∀ p, before.getLast? = some p → p.bytes ≠ [0xCC] ∧ p.bytes ≠ [0x90]) ∧
        (2 ≤ block.length ∨
          ∃ p, before.getLast? = some p ∧ p.mnemonic ∈ ["ret", "retn", "jmp", "iret"]) := by
  refine ⟨l.afterBlocks_eq, fun x => ?_⟩
  simp only [afterBlocks_eq, mem_afterPadding_iff, isPadding_iff, isPadding_eq_false_iff, terminators]

/-- One padding byte behind `ret` and two behind `push` separate functions, one behind `pop` does
not. -/
example : afterBlocks (Encoding.sweep .bits64 0x1000
    [0xC3, 0x90, 0x55, 0xCC, 0x90, 0x5D, 0xCC, 0xC3]) = [0x1002, 0x1005] := by
  decide +kernel

end Listing

end CodeSignature
