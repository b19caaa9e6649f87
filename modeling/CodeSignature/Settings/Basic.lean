import CodeSignature.Listing.Routine
import CodeSignature.Search.Growth
import CodeSignature.Settings.Key

/-! # Settings

The settings are fields with JSON values. Every known setting has a default; other fields are kept but
mean nothing. A setting may have a value of any type, and is read as the type it is used as.
-/

namespace CodeSignature

inductive Setting where
  | outputFormat
  | wildcardOperands
  | continueOutside
  | signatureLimit
  | askLonger
  | referenceLimit
  | referenceCount
  | copyToClipboard
  | prologues
  | separators
  | padding
deriving DecidableEq, Repr

namespace Setting

def all : List Setting :=
  [.outputFormat, .wildcardOperands, .continueOutside, .signatureLimit, .askLonger,
    .referenceLimit, .referenceCount, .copyToClipboard, .prologues, .separators, .padding]

def name : Setting → String
  | .outputFormat => "output_format"
  | .wildcardOperands => "wildcard_operands"
  | .continueOutside => "continue_outside_function"
  | .signatureLimit => "max_signature_length"
  | .askLonger => "ask_longer_signature"
  | .referenceLimit => "xref_max_length"
  | .referenceCount => "xref_top_count"
  | .copyToClipboard => "copy_to_clipboard"
  | .prologues => "use_prologue_heuristic"
  | .separators => "use_separator_heuristic"
  | .padding => "use_padding_heuristic"

def key (k : Setting) : SettingKey := .text k.name

def default : Setting → Json
  | .outputFormat => .text Dialect.ida.name
  | .wildcardOperands => .bool true
  | .continueOutside => .bool false
  | .signatureLimit => .integer 1000
  | .askLonger => .bool true
  | .referenceLimit => .integer 250
  | .referenceCount => .integer 5
  | .copyToClipboard => .bool true
  | .prologues => .bool true
  | .separators => .bool true
  | .padding => .bool true

end Setting

def Dialect.ofJson : Json → Except Fault Dialect
  | .text name => Dialect.named name
  | value => .error (.unknownDialect value.display)

/-- A value as a length limit. Lengths are whole, so a real limit is as good as its floor. -/
def Limit.ofJson : Json → Limit
  | .integer n => .bytes n
  | .bool b => .bytes (if b then 1 else 0)
  | .real .nan => .unlimited
  | .real (.infinite negative) => if negative then .bytes (-1) else .unlimited
  | .real x => .bytes x.floor
  | _ => .unusable

inductive Share where
  /-- The first ones; a negative number leaves out as many at the end. -/
  | first (count : Int)
  /-- A number of another type than whole numbers, which is only announced, by its integer part. -/
  | fractional (announced : Int)
  | boundless (cause : Fault)
  | unusable
deriving DecidableEq, Repr

def Share.ofJson (value : Json) (available : Nat) : Share :=
  match value with
  | .integer n => .first (min n available)
  | .bool b => .first (min (if b then 1 else 0) available)
  | .real x =>
    if x.greaterThanInt available then .first available
    else
      match x with
      | .nan => .boundless .noIntegerOfNaN
      | .infinite _ => .boundless .noIntegerOfInfinity
      | .finite _ _ _ => .fractional x.truncate
  | _ => .unusable

/-- The first entries, or all but the last ones if the number is negative. -/
def Share.take {α : Type} (count : Int) (xs : List α) : List α :=
  xs.take (if count < 0 then xs.length + count else count).toNat

structure Settings where
  fields : Association SettingKey Json
deriving Repr

namespace Settings

def defaults : Settings := ⟨Setting.all.map fun k => (k.key, k.default)⟩

def get (s : Settings) (k : Setting) : Json := (s.fields.get? k.key).getD k.default

def set (s : Settings) (k : Setting) (value : Json) : Settings := ⟨s.fields.set k.key value⟩

/-- Gives fields new values; new fields come last. -/
def update (s : Settings) (changes : List (SettingKey × Json)) : Settings :=
  ⟨s.fields.update changes⟩

def change (s : Settings) (fields : Fields) : Settings :=
  s.update (fields.map fun (name, value) => (.text name, value))

/-- The settings as an object. Keys that are no texts are named by the text they are written as. -/
def toJson (s : Settings) : Json := .object (s.fields.map fun (key, value) => (key.name, value))

def enables (s : Settings) (k : Setting) : Bool := (s.get k).truthy

def dialect (s : Settings) : Except Fault Dialect := Dialect.ofJson (s.get .outputFormat)

def heuristics (s : Settings) : Heuristics where
  prologues := s.enables .prologues
  separators := s.enables .separators
  padding := s.enables .padding

def growthOptions (s : Settings) : GrowthOptions where
  wildcards := s.enables .wildcardOperands
  outside := s.enables .continueOutside
  limit := .ofJson (s.get .signatureLimit)
  prompt := s.enables .askLonger

def referenceOptions (s : Settings) : GrowthOptions where
  wildcards := s.enables .wildcardOperands
  outside := s.enables .continueOutside
  limit := .ofJson (s.get .referenceLimit)
  prompt := false

theorem get_set (s : Settings) (k j : Setting) (value : Json) :
    (s.set k value).get j = if k.key == j.key then value else s.get j := by
  simp only [get, set, Association.get?_set]
  split <;> simp

end Settings

end CodeSignature
