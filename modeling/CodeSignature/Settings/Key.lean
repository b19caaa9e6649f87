import CodeSignature.Json.Basic

/-! # Keys of settings

What the fields of the settings are known by. A settings file may also use values that are no texts as
keys. Numbers are one key if they are equal, whole or not, and the truth values count as one and zero;
a text is never the same key as a value that is no text, even if both are written alike.
-/

namespace CodeSignature

inductive SettingKey where
  | null
  | bool (value : Bool)
  | integer (value : Int)
  | real (value : Binary64)
  | text (value : WideString)
deriving Repr

namespace SettingKey

/-- A value as a key. Arrays and objects are no keys. -/
def ofJson? : Json → Option SettingKey
  | .null => some .null
  | .bool b => some (.bool b)
  | .integer n => some (.integer n)
  | .real x => some (.real x)
  | .text s => some (.text s)
  | .array _ => none
  | .object _ => none

def name : SettingKey → WideString
  | .null => "null"
  | .bool b => if b then "true" else "false"
  | .integer n => toString n
  | .real x => x.text "NaN" "Infinity"
  | .text s => s

/-- What equal keys have in common. -/
inductive Identity where
  | null
  | text (value : WideString)
  | notNumber
  | infinite (negative : Bool)
  /-- A quotient in lowest terms. -/
  | number (numerator : Int) (denominator : Nat)
deriving DecidableEq, Repr

def identity : SettingKey → Identity
  | .null => .null
  | .bool b => .number (if b then 1 else 0) 1
  | .integer n => .number n 1
  | .real .nan => .notNumber
  | .real (.infinite negative) => .infinite negative
  | .real x => .number x.lowestTerms.1 x.lowestTerms.2
  | .text s => .text s

instance : BEq SettingKey := ⟨fun a b => a.identity = b.identity⟩

theorem beq_iff {a b : SettingKey} : (a == b) = true ↔ a.identity = b.identity :=
  decide_eq_true_iff

instance : EquivBEq SettingKey where
  rfl := beq_iff.2 rfl
  symm h := beq_iff.2 (beq_iff.1 h).symm
  trans h h' := beq_iff.2 ((beq_iff.1 h).trans (beq_iff.1 h'))

end SettingKey

end CodeSignature
