import CodeSignature.Association
import CodeSignature.Number.Shortest
import CodeSignature.Text.Quoted

/-! # JSON values

Values with integers of any size. The fields of an object keep the order in which their keys were
first given.
-/

namespace CodeSignature

inductive Json where
  | null
  | bool (value : Bool)
  | integer (value : Int)
  | real (value : Binary64)
  | text (value : WideString)
  | array (items : List Json)
  | object (fields : List (WideString × Json))
deriving Repr

abbrev Fields := Association WideString Json

namespace Json

/-- Null, false, zero and everything empty count as false. -/
def truthy : Json → Bool
  | .null => false
  | .bool b => b
  | .integer n => n ≠ 0
  | .real x => !x.isZero
  | .text s => !s.points.isEmpty
  | .array items => !items.isEmpty
  | .object fields => !fields.isEmpty

mutual

def display : Json → String
  | .null => "None"
  | .bool b => if b then "True" else "False"
  | .integer n => toString n
  | .real x => x.text "nan" "inf"
  | .text s => Quoted.encode s
  | .array items => "[" ++ displayItems items ++ "]"
  | .object fields => "\x7b" ++ displayFields fields ++ "\x7d"

def displayItems : List Json → String
  | [] => ""
  | [item] => item.display
  | item :: rest => item.display ++ ", " ++ displayItems rest

def displayFields : List (WideString × Json) → String
  | [] => ""
  | [(key, value)] => Quoted.encode key ++ ": " ++ value.display
  | (key, value) :: rest => Quoted.encode key ++ ": " ++ value.display ++ ", " ++ displayFields rest

end

end Json

end CodeSignature
