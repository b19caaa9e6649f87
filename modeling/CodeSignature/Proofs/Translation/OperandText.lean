import CodeSignature.Proofs.Text.Split
import CodeSignature.Text.Numeral

/-! # Operand texts that differ behind a bracket

The text of a memory operand may name an address between brackets. Texts that agree up to such a
bracket split, strip and compare alike wherever no bracket is expected, and no bracket is part of a
numeral.
-/

namespace CodeSignature

namespace Numeral

variable {cs : List Char}

theorem digits_of_bracket (h : '[' ∈ cs) (separated : Bool) (value : Nat) :
    digits 16 separated value cs = none := by
  induction cs generalizing separated value with
  | nil => simp at h
  | cons c cs ih =>
    rcases List.mem_cons.mp h with rfl | h
    · have hd : digit? 16 '[' = none := by decide
      simp [digits, hd]
    · simp only [digits, ih h]
      split
      · split <;> rfl
      · cases digit? 16 c <;> rfl

theorem magnitude_of_bracket (h : '[' ∈ cs) : magnitude 16 cs = none := by
  cases cs with
  | nil => simp at h
  | cons c cs =>
    rcases List.mem_cons.mp h with rfl | h
    · have hd : digit? 16 '[' = none := by decide
      simp [magnitude, hd]
    · simp only [magnitude, digits_of_bracket h]
      cases digit? 16 c <;> rfl

theorem bracket_mem_dropMark (h : '[' ∈ cs) : '[' ∈ dropMark 16 cs := by
  unfold dropMark
  split
  next lead x rest =>
    split
    next hmark =>
      obtain ⟨-, hlead, hx⟩ := hmark
      have hne : '[' ≠ lead := by rintro rfl; simp [DecimalDigit.value?] at hlead
      have hnx : '[' ≠ x := by rintro rfl; simp at hx
      simp only [List.mem_cons, hne, hnx, false_or] at h
      split
      · simpa using h
      · exact h
    · exact h
  · exact h

theorem bracket_mem_splitSign (h : '[' ∈ cs) : '[' ∈ (splitSign cs).2 := by
  unfold splitSign
  split <;> simpa using h

theorem read?_of_bracket (h : '[' ∈ cs) : read? 16 (String.ofList cs) = none := by
  have hm : isMargin '[' = false := by decide
  have hcs := bracket_mem_splitSign (Sequence.mem_dropEndWhile (Sequence.mem_dropWhile h hm) hm)
  simp [read?, magnitude_of_bracket (bracket_mem_dropMark hcs)]

end Numeral

namespace Text

/-- Texts that are equal or agree up to a bracket that both have. -/
inductive Alike : List Char → List Char → Prop where
  | same (t : List Char) : Alike t t
  | bracket (front r r' : List Char) : Alike (front ++ '[' :: r) (front ++ '[' :: r')

namespace Alike

variable {t t' u u' p : List Char}

theorem append_left (s : List Char) (h : Alike t t') : Alike (s ++ t) (s ++ t') := by
  cases h with
  | same => exact .same _
  | bracket front r r' =>
    rw [← List.append_assoc, ← List.append_assoc]
    exact .bracket ..

theorem append (h : Alike t t') (h' : Alike u u') : Alike (t ++ u) (t' ++ u') := by
  cases h with
  | same => exact h'.append_left _
  | bracket front r r' =>
    rw [List.append_assoc, List.append_assoc]
    exact .bracket ..

theorem intercalate (sep : List Char) {ts us : List (List Char)} (h : List.Forall₂ Alike ts us) :
    Alike (sep.intercalate ts) (sep.intercalate us) := by
  induction h with
  | nil => exact .same _
  | @cons t u ts us htu hrest ih =>
    cases hrest with
    | nil => simpa using htu
    | cons =>
      rw [List.intercalate_cons_cons, List.intercalate_cons_cons, List.append_assoc,
        List.append_assoc]
      exact htu.append (ih.append_left sep)

theorem eq_or_bracket (h : Alike t u) : t = u ∨ '[' ∈ t ∧ '[' ∈ u := by
  cases h with
  | same => exact Or.inl rfl
  | bracket => simp

theorem exists_of_front (h : Alike t u) (hp : '[' ∉ p) (ht : p <+: t) :
    ∃ t' u', t = p ++ t' ∧ u = p ++ u' ∧ Alike t' u' := by
  cases h with
  | same =>
    obtain ⟨t', rfl⟩ := ht
    exact ⟨t', t', rfl, rfl, .same _⟩
  | bracket front r r' =>
    have hfront : p <+: front := by
      rcases List.prefix_or_prefix_of_prefix ht (List.prefix_append front ('[' :: r)) with hf | hf
      · exact hf
      · obtain ⟨_ | ⟨c, tail⟩, rfl⟩ := hf
        · simp
        · obtain ⟨rfl, -⟩ := List.cons_prefix_cons.mp ((List.prefix_append_right_inj front).mp ht)
          simp at hp
    obtain ⟨front', rfl⟩ := hfront
    exact ⟨front' ++ '[' :: r, front' ++ '[' :: r', by simp, by simp, .bracket ..⟩

theorem symm (h : Alike t u) : Alike u t := by
  cases h with
  | same => exact .same _
  | bracket => exact .bracket ..

theorem prefix_iff (h : Alike t u) (hp : '[' ∉ p) : p <+: t ↔ p <+: u := by
  constructor <;> intro hpre
  · obtain ⟨_, u', -, rfl, -⟩ := h.exists_of_front hp hpre
    exact List.prefix_append p u'
  · obtain ⟨_, t', -, rfl, -⟩ := h.symm.exists_of_front hp hpre
    exact List.prefix_append p t'

theorem takeWhile (h : Alike t u) (test : Char → Bool) (hb : test '[' = true) :
    Alike (t.takeWhile test) (u.takeWhile test) := by
  cases h with
  | same => exact .same _
  | bracket front r r' =>
    by_cases hf : ∀ c ∈ front, test c = true
    · rw [List.takeWhile_append_of_pos hf, List.takeWhile_append_of_pos hf,
        List.takeWhile_cons_of_pos hb, List.takeWhile_cons_of_pos hb]
      exact .bracket ..
    · have hne : ¬ (front.takeWhile test).length = front.length := by
        rw [← List.takeWhile_eq_self_iff] at hf
        exact fun hl => hf ((List.takeWhile_prefix test).eq_of_length hl)
      rw [List.takeWhile_append, List.takeWhile_append, if_neg hne, if_neg hne]
      exact .same _

end Alike

end Text

end CodeSignature
