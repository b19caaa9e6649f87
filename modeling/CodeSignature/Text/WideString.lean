/-! # Wide strings

Strings in which a surrogate may stand on its own. No encoded text holds such a string, but an escape
inside a text can name it.
-/

namespace CodeSignature

/-- A character, or a surrogate without its partner. -/
inductive CodePoint where
  | char (c : Char)
  | surrogate (index : Fin 0x800)
deriving DecidableEq, Repr

namespace CodePoint

def value : CodePoint → Nat
  | .char c => c.toNat
  | .surrogate index => 0xD800 + index

/-- The code point of a value below 0x110000. -/
def ofValue (n : Nat) : CodePoint :=
  if h : 0xD800 ≤ n ∧ n < 0xE000 then .surrogate ⟨n - 0xD800, by omega⟩ else .char (Char.ofNat n)

theorem ofValue_value (p : CodePoint) : ofValue p.value = p := by
  cases p with
  | char c =>
    have h : ¬(0xD800 ≤ c.toNat ∧ c.toNat < 0xE000) := by
      have := c.valid
      simp only [UInt32.isValidChar, Nat.isValidChar] at this
      have : c.toNat = c.val.toNat := rfl
      omega
    simp only [value, ofValue, dif_neg h, Char.ofNat_toNat]
  | surrogate index =>
    have h : 0xD800 ≤ 0xD800 + index.val ∧ 0xD800 + index.val < 0xE000 := by omega
    simp [value, ofValue, h]

end CodePoint

structure WideString where
  points : List CodePoint
deriving DecidableEq, Repr

namespace WideString

def ofString (s : String) : WideString := ⟨s.toList.map .char⟩

instance : Coe String WideString := ⟨ofString⟩

def chars? : List CodePoint → Option (List Char)
  | [] => some []
  | .char c :: rest => (chars? rest).map (c :: ·)
  | .surrogate _ :: _ => none

def toString? (s : WideString) : Option String := (chars? s.points).map String.ofList

theorem chars?_map (cs : List Char) : chars? (cs.map .char) = some cs := by
  induction cs with
  | nil => rfl
  | cons c cs ih => simp [chars?, ih]

@[simp] theorem toString?_ofString (s : String) : (ofString s).toString? = some s := by
  simp [toString?, ofString, chars?_map]

end WideString

end CodeSignature
