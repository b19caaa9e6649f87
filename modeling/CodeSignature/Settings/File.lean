import CodeSignature.Json.Reader
import CodeSignature.Json.Writer
import CodeSignature.Settings.Basic
import CodeSignature.Settings.Directory

/-! # Settings files

The settings are kept in a JSON text. A text that is no JSON counts like none. What it holds changes
the defaults: the fields of an object, or the pairs of a list.
-/

namespace CodeSignature.Settings

/-- The members of a value that stands for a pair: items, characters, or keys. -/
def membersOf : Json → Except Fault (List Json)
  | .array items => .ok items
  | .text s => .ok (s.points.map fun p => .text ⟨[p]⟩)
  | .object fields => .ok (fields.map fun (key, _) => .text key)
  | _ => .error .wrongType

def keyOf (value : Json) : Except Fault SettingKey :=
  match SettingKey.ofJson? value with
  | some key => .ok key
  | none => .error .wrongType

def fieldOf (index : Nat) (item : Json) : Except Fault (SettingKey × Json) := do
  match ← membersOf item with
  | [key, value] => return (← keyOf key, value)
  | members => .error (.notPair index members.length)

def fieldsFrom : Nat → List Json → Except Fault (List (SettingKey × Json))
  | _, [] => .ok []
  | index, item :: rest => do
    let field ← fieldOf index item
    let fields ← fieldsFrom (index + 1) rest
    return field :: fields

/-- The settings changed by a value: by the fields of an object, or by the pairs of a list. -/
def merge (s : Settings) : Json → Except Fault Settings
  | .object fields => .ok (s.change fields)
  | .null | .bool _ | .integer _ | .real _ => .error .wrongType
  | value => do return s.update (← fieldsFrom 0 (← membersOf value))

def ofText (text : String) : Except Fault Settings :=
  match Json.read text with
  | .ok value => defaults.merge value
  | .error .malformed => .ok defaults
  | .error (.longInteger digits) => .error (.longInteger digits)
  | .error .tooDeep => .error .deepNesting

def toText (s : Settings) : String := Json.toText s.toJson

def ofFile (content : Option String) : Except Fault Settings :=
  match content with
  | some text => ofText text
  | none => .ok defaults

def isBroken (path : String) : Bool := path.toList.contains '\x00'

/-- The settings under what reading the file at a path gives. A file that cannot be found counts like
one that holds no JSON. -/
def load (path : String) (found : Except PathProblem String) : Except Fault Settings :=
  if isBroken path then .error .nulInPath
  else
    match found with
    | .ok text => ofText text
    | .error .notFound => .ok defaults
    | .error p => .error (.unreadable (p.message path))

def save (s : Settings) (d : Directory) (path : String) : Except PathProblem Directory :=
  d.write path s.toText

def saveFailure (path : String) (p : PathProblem) : String :=
  "Failed to save settings to " ++ path ++ ": " ++ p.message path

end CodeSignature.Settings
