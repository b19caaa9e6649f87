import CodeSignature.Proofs.Sequence
import CodeSignature.Text.Blank
import Mathlib.Data.List.Basic

/-! # Pieces between separators

A text is split at its first separator into the piece in front of it and the pieces of the rest. So
the pieces are known from where separators stand in the text.
-/

namespace CodeSignature

namespace Text

variable {sep c : Char} {cs word front back : List Char} {more : List (List Char)}

/-- The first piece is the run up to the first separator. -/
theorem exists_splitAt_eq_cons (sep : Char) (cs : List Char) :
    ∃ more, splitAt sep cs = cs.takeWhile (· ≠ sep) :: more := by
  induction cs with
  | nil => exact ⟨[], rfl⟩
  | cons c cs ih =>
    obtain ⟨more, hm⟩ := ih
    by_cases hc : c = sep
    · exact ⟨cs.takeWhile (· ≠ sep) :: more, by simp [splitAt, hm, hc]⟩
    · exact ⟨more, by simp [splitAt, hm, hc]⟩

theorem splitAt_append_cons (h : sep ∉ word) (cs : List Char) :
    splitAt sep (word ++ sep :: cs) = word :: splitAt sep cs := by
  induction word with
  | nil =>
    obtain ⟨more, hm⟩ := exists_splitAt_eq_cons sep cs
    simp [splitAt, hm]
  | cons c word ih =>
    rw [List.mem_cons, not_or] at h
    simp [splitAt, ih h.2, Ne.symm h.1]

theorem splitAt_of_not_mem (h : sep ∉ cs) : splitAt sep cs = [cs] := by
  induction cs with
  | nil => rfl
  | cons c cs ih =>
    rw [List.mem_cons, not_or] at h
    simp [splitAt, ih h.2, Ne.symm h.1]

theorem splitAt_eq_cons_iff : splitAt sep cs = front :: more ↔
    sep ∉ front ∧ (cs = front ∧ more = [] ∨
      ∃ back, cs = front ++ sep :: back ∧ splitAt sep back = more) := by
  constructor
  · intro h
    by_cases hsep : sep ∈ cs
    · obtain ⟨word, back, rfl, hword⟩ := List.eq_append_cons_of_mem hsep
      rw [splitAt_append_cons hword] at h
      obtain ⟨rfl, hmore⟩ := List.cons.inj h
      exact ⟨hword, Or.inr ⟨back, rfl, hmore⟩⟩
    · rw [splitAt_of_not_mem hsep] at h
      obtain ⟨rfl, hmore⟩ := List.cons.inj h
      exact ⟨hsep, Or.inl ⟨rfl, hmore.symm⟩⟩
  · rintro ⟨hfront, ⟨rfl, rfl⟩ | ⟨back, rfl, rfl⟩⟩
    · exact splitAt_of_not_mem hfront
    · exact splitAt_append_cons hfront back

theorem splitAt_ne_nil (sep : Char) (cs : List Char) : splitAt sep cs ≠ [] := by
  obtain ⟨more, hm⟩ := exists_splitAt_eq_cons sep cs
  simp [hm]

theorem splitAt_eq_pair_iff : splitAt sep cs = [front, back] ↔
    cs = front ++ sep :: back ∧ sep ∉ front ∧ sep ∉ back := by
  rw [splitAt_eq_cons_iff]
  simp only [splitAt_eq_cons_iff, splitAt_ne_nil, and_false, exists_false, or_false, and_true,
    reduceCtorEq, false_or]
  constructor
  · rintro ⟨hfront, _, rfl, hback, rfl⟩
    exact ⟨rfl, hfront, hback⟩
  · rintro ⟨rfl, hfront, hback⟩
    exact ⟨hfront, back, rfl, hback, rfl⟩

theorem mem_strip (hc : c ∈ cs) (h : isBlank c = false) : c ∈ strip cs :=
  Sequence.mem_dropEndWhile (Sequence.mem_dropWhile hc h) h

end Text

end CodeSignature
