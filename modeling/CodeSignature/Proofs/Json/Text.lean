import CodeSignature.Json.Reader
import CodeSignature.Json.Writer
import Mathlib

/-! # Texts in JSON

A text without surrogates is read as it was written: each escape gives back its character, and the two
units of a character outside the basic plane are joined again.
-/

namespace CodeSignature.Json

variable {n : Nat} {c : Char} {rest : List Char}

theorem digit?_digitChar (h : n < 16) : Hex.digit? n.digitChar = some n := by
  interval_cases n <;> decide

theorem fixedDigits_four (h : n < 0x10000) :
    Quoted.fixedDigits 4 n =
      [(n / 4096).digitChar, (n / 256 % 16).digitChar, (n / 16 % 16).digitChar,
        (n % 16).digitChar] := by
  have hstep : ∀ m, Nat.toDigits 16 m =
      if m < 16 then [m.digitChar] else Nat.toDigits 16 (m / 16) ++ [(m % 16).digitChar] :=
    fun m => Nat.toDigits_eq_if (by decide)
  have h256 : n / 16 / 16 = n / 256 := Nat.div_div_eq_div_mul n 16 16
  have h4096 : n / 256 / 16 = n / 4096 := Nat.div_div_eq_div_mul n 256 16
  unfold Quoted.fixedDigits
  rw [hstep n]
  split
  · have : n / 4096 = 0 ∧ n / 256 = 0 ∧ n / 16 = 0 ∧ n % 16 = n := by omega
    simp [this]
  rw [hstep (n / 16)]
  split
  · have : n / 4096 = 0 ∧ n / 256 = 0 ∧ n / 16 % 16 = n / 16 := by omega
    simp [this]
  rw [hstep (n / 16 / 16), h256]
  split
  · have : n / 4096 = 0 ∧ n / 256 % 16 = n / 256 := by omega
    simp [this]
  rw [hstep (n / 256 / 16), h4096, if_pos (by omega)]
  simp

theorem readUnits_unitEscape (h : n < 0x10000) (rest : List Char) :
    readUnits .plain (unitEscape n ++ rest) = consUnit n (readUnits .plain rest) := by
  have h3 := digit?_digitChar (n := n / 4096) (by omega)
  have h2 := digit?_digitChar (n := n / 256 % 16) (by omega)
  have h1 := digit?_digitChar (n := n / 16 % 16) (by omega)
  have h0 := digit?_digitChar (n := n % 16) (by omega)
  have hn : 16 * (16 * (16 * (n / 4096) + n / 256 % 16) + n / 16 % 16) + n % 16 = n := by omega
  simp [unitEscape, fixedDigits_four h, readUnits, h3, h2, h1, h0, hn]

def unitsOf (c : Char) : List Nat :=
  if c.toNat < 0x10000 then [c.toNat]
  else [0xD800 + (c.toNat - 0x10000) / 0x400, 0xDC00 + (c.toNat - 0x10000) % 0x400]

theorem not_isSurrogate (c : Char) : c.toNat < 0xD800 ∨ 0xE000 ≤ c.toNat ∧ c.toNat < 0x110000 := by
  have hvalid := c.valid
  simp only [UInt32.isValidChar, Nat.isValidChar] at hvalid
  have : c.toNat = c.val.toNat := rfl
  omega

theorem readUnits_escapePoint (c : Char) (rest : List Char) :
    readUnits .plain (escapePoint (.char c) ++ rest) =
      (readUnits .plain rest).map fun (units, rest) => (unitsOf c ++ units, rest) := by
  dsimp only [escapePoint]
  split_ifs with hquote hslash hfeed hreturn htab hback hform hplain hbasic
  all_goals try (subst c; simp [readUnits, escaped?, consUnit, unitsOf])
  · have hctl : ¬c.toNat < 32 := by omega
    have hbasic : c.toNat < 0x10000 := by omega
    simp [readUnits, hquote, hslash, hctl, unitsOf, hbasic, consUnit]
  · rw [readUnits_unitEscape hbasic]
    simp [unitsOf, hbasic, consUnit]
  · have hbound := not_isSurrogate c
    rw [List.append_assoc, readUnits_unitEscape (by omega), readUnits_unitEscape (by omega)]
    simp [unitsOf, hbasic, consUnit, Function.comp_def]

theorem readUnits_quoted (cs rest : List Char) :
    readUnits .plain ((cs.map CodePoint.char).flatMap escapePoint ++ '\x22' :: rest) =
      some (cs.flatMap unitsOf, rest) := by
  induction cs with
  | nil => simp [readUnits]
  | cons c cs ih =>
    rw [List.map_cons, List.flatMap_cons, List.append_assoc, readUnits_escapePoint, ih]
    rfl

theorem joinUnits_cons (h : n < 0xD800 ∨ 0xDC00 ≤ n) (units : List Nat) :
    joinUnits (n :: units) = .ofValue n :: joinUnits units := by
  cases units with
  | nil => rfl
  | cons low rest => rw [joinUnits, if_neg (by omega)]

theorem joinUnits_unitsOf (c : Char) (units : List Nat) :
    joinUnits (unitsOf c ++ units) = .char c :: joinUnits units := by
  have hbound := not_isSurrogate c
  have hvalue : CodePoint.ofValue c.toNat = .char c := CodePoint.ofValue_value (.char c)
  unfold unitsOf
  split_ifs with h
  · rw [List.singleton_append, joinUnits_cons (by omega), hvalue]
  · have hsum : 0x10000 + (0xD800 + (c.toNat - 0x10000) / 0x400 - 0xD800) * 0x400 +
        (0xDC00 + (c.toNat - 0x10000) % 0x400 - 0xDC00) = c.toNat := by omega
    simp only [List.cons_append, List.nil_append]
    rw [joinUnits, if_pos (by omega), hsum, hvalue]

theorem joinUnits_flatMap (cs : List Char) :
    joinUnits (cs.flatMap unitsOf) = cs.map CodePoint.char := by
  induction cs with
  | nil => rfl
  | cons c cs ih => rw [List.flatMap_cons, joinUnits_unitsOf, ih, List.map_cons]

/-- A text without surrogates is read again behind its opening mark. -/
theorem readText_quoted (s : String) (rest : List Char) :
    readText ((WideString.ofString s).points.flatMap escapePoint ++ '\x22' :: rest) =
      some (.ofString s, rest) := by
  simp only [readText, WideString.ofString, readUnits_quoted, Option.map_some, joinUnits_flatMap]

theorem not_mem_unitEscape (h : n < 0x10000) : '\r' ∉ unitEscape n := by
  have hdigit : ∀ k < 16, '\r' ≠ k.digitChar := by decide
  simp [unitEscape, fixedDigits_four h, hdigit (n / 4096) (by omega),
    hdigit (n / 256 % 16) (by omega), hdigit (n / 16 % 16) (by omega), hdigit (n % 16) (by omega)]

theorem not_mem_escapePoint (c : Char) : '\r' ∉ escapePoint (.char c) := by
  dsimp only [escapePoint]
  split_ifs with hquote hslash hfeed hreturn htab hback hform hplain hbasic
  any_goals decide
  · simpa using Ne.symm hreturn
  · exact not_mem_unitEscape hbasic
  · have hbound := not_isSurrogate c
    rw [List.mem_append, not_or]
    exact ⟨not_mem_unitEscape (by omega), not_mem_unitEscape (by omega)⟩

end CodeSignature.Json
