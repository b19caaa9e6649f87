import CodeSignature.Json.Reader
import CodeSignature.Json.Writer
import Mathlib

/-! # Whole numbers in JSON

A whole number is read as it was written if it has no more digits than are converted, and if what
follows it does not go on as a number does.
-/

namespace CodeSignature.Json

variable {m : Nat} {n : Int} {c : Char} {rest : List Char}

/-- What may stand behind a written value: nothing, a comma or a new line. -/
def Ends (rest : List Char) : Prop := ∀ c ∈ rest.head?, c = ',' ∨ c = '\n'

theorem ends_nil : Ends [] := nofun

theorem ends_comma (rest : List Char) : Ends (',' :: rest) := by simp [Ends]

theorem ends_lineBreak (depth : Nat) (rest : List Char) : Ends (lineBreak depth rest) := by
  simp [Ends, lineBreak]

theorem splitDigits_append {digits : List Char} (hdigits : ∀ c ∈ digits, c.isDigit)
    (hrest : ∀ c ∈ rest.head?, c.isDigit = false) :
    splitDigits (digits ++ rest) = (digits, rest) := by
  rw [splitDigits, List.span_eq_takeWhile_dropWhile, List.takeWhile_append_of_pos hdigits,
    List.dropWhile_append_of_pos hdigits]
  cases rest with
  | nil => simp
  | cons c rest => simp [hrest c rfl]

theorem Ends.not_isDigit (h : Ends rest) : ∀ c ∈ rest.head?, c.isDigit = false := by
  intro c hc
  rcases h c hc with rfl | rfl <;> rfl

theorem natOfDigits_toDigits (m : Nat) : natOfDigits (Nat.toDigits 10 m) = m :=
  Nat.ofDigitChars_toDigits (by decide) (by decide)

theorem isDigit_of_toDigits {cs : List Char} (h : Nat.toDigits 10 m = c :: cs) : c.isDigit :=
  Nat.isDigit_of_mem_toDigits (b := 10) (n := m) (by decide) (by decide) (by simp [h])

theorem head?_toDigits (h : 0 < m) : (Nat.toDigits 10 m).head? ≠ some '0' := by
  induction m using Nat.strongRecOn with
  | ind m ih =>
    rw [Nat.toDigits_eq_if (by decide)]
    split
    · interval_cases m <;> decide
    · rw [List.head?_append_of_ne_nil _ Nat.toDigits_ne_nil]
      exact ih (m / 10) (by omega) (by omega)

theorem readWhole_toDigits (h : Ends rest) (m : Nat) :
    readWhole (Nat.toDigits 10 m ++ rest) = some (Nat.toDigits 10 m, rest) := by
  rcases Nat.eq_zero_or_pos m with rfl | hm
  · rfl
  have hsplit : splitDigits (Nat.toDigits 10 m ++ rest) = (Nat.toDigits 10 m, rest) :=
    splitDigits_append (fun c => Nat.isDigit_of_mem_toDigits (by decide) (by decide)) h.not_isDigit
  have hhead := head?_toDigits hm
  obtain ⟨c, cs, hdigits⟩ := List.exists_cons_of_ne_nil (Nat.toDigits_ne_nil (n := m) (b := 10))
  rw [hdigits] at hsplit hhead ⊢
  have hc : c ≠ '0' := fun heq => hhead (by rw [heq]; rfl)
  unfold readWhole
  split
  next heq => exact absurd (List.cons.inj heq).1 hc
  next => rw [hsplit]

theorem readFraction_of_ends (h : Ends rest) : readFraction rest = (none, rest) := by
  unfold readFraction
  split
  next cs => rcases h '.' rfl with h | h <;> cases h
  next => rfl

theorem readExponent_of_ends (h : Ends rest) : readExponent rest = (none, rest) := by
  cases rest with
  | nil => rfl
  | cons c cs => rcases h c rfl with rfl | rfl <;> simp [readExponent]

theorem readNumber_toDigits (hm : m < 10 ^ maxDigits) (h : Ends rest) (negative : Bool) :
    readNumber negative (Nat.toDigits 10 m ++ rest) =
      .ok (.integer (if negative then -m else m), rest) := by
  have hlength : ¬maxDigits < (Nat.toDigits 10 m).length :=
    Nat.not_lt.mpr ((Nat.length_toDigits_le_iff (by decide) (by decide)).mpr hm)
  simp only [readNumber, readWhole_toDigits h, readFraction_of_ends h, readExponent_of_ends h,
    Option.isNone_none, and_self, if_true, if_neg hlength, natOfDigits_toDigits]

theorem toList_toString (n : Int) :
    (toString n).toList =
      if n < 0 then '-' :: Nat.toDigits 10 n.natAbs else Nat.toDigits 10 n.natAbs := by
  cases n with
  | ofNat m => simp [toString, Int.repr]
  | negSucc m => simp [toString, Int.repr]

theorem exists_toString_eq_cons (n : Int) (rest : List Char) :
    ∃ c cs, (toString n).toList ++ rest = c :: cs ∧ (c = '-' ∨ c.isDigit = true) ∧
      rest.length ≤ cs.length := by
  obtain ⟨c, cs, hdigits⟩ :=
    List.exists_cons_of_ne_nil (Nat.toDigits_ne_nil (n := n.natAbs) (b := 10))
  rw [toList_toString, hdigits]
  split
  · refine ⟨'-', c :: (cs ++ rest), rfl, .inl rfl, ?_⟩
    simp only [List.length_cons, List.length_append]
    omega
  · exact ⟨c, cs ++ rest, rfl, .inr (isDigit_of_toDigits hdigits), by simp⟩

theorem wordValues_of_isDigit (hc : c.isDigit) (rest : List Char) :
    (wordValues.findSome? fun (word, value) => (dropWord? word (c :: rest)).map (value, ·)) = none ∧
    (wordValues.findSome? fun (word, value) => (dropWord? word ('-' :: c :: rest)).map (value, ·)) =
      none := by
  have hne : ∀ d : Char, d.isDigit = false → ¬d = c := by
    rintro d hd rfl
    simp [hc] at hd
  simp [wordValues, dropWord?, hne]

theorem readScalar_integer (hn : n.natAbs < 10 ^ maxDigits) (h : Ends rest) :
    readScalar ((toString n).toList ++ rest) = .ok (.integer n, rest) := by
  obtain ⟨c, cs, hdigits⟩ :=
    List.exists_cons_of_ne_nil (Nat.toDigits_ne_nil (n := n.natAbs) (b := 10))
  have hc := isDigit_of_toDigits hdigits
  obtain ⟨hword, hsigned⟩ := wordValues_of_isDigit hc (cs ++ rest)
  have hnumber := readNumber_toDigits hn h
  rw [hdigits, List.cons_append] at hnumber
  rw [toList_toString, hdigits]
  split
  next hneg =>
    have hvalue : -(n.natAbs : Int) = n := by omega
    simp only [List.cons_append, readScalar, hsigned, hnumber, if_true, hvalue]
  next hpos =>
    have hvalue : (n.natAbs : Int) = n := by omega
    have hne : c ≠ '-' := by
      rintro rfl
      cases hc
    unfold readScalar
    rw [List.cons_append, hword]
    split
    next hnone => cases hnone
    next =>
      split
      next heq => exact absurd (List.cons.inj heq).1 hne
      next => rw [hnumber, if_neg (by decide), hvalue]

theorem not_mem_toString (n : Int) (h : '\r' ∉ rest) : '\r' ∉ (toString n).toList ++ rest := by
  have hdigits : '\r' ∉ Nat.toDigits 10 n.natAbs := fun hmem => by
    cases Nat.isDigit_of_mem_toDigits (by decide) (by decide) hmem
  rw [toList_toString]
  split <;> simp [hdigits, h]

end CodeSignature.Json
