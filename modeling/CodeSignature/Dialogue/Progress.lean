import CodeSignature.Failure
import CodeSignature.Number.Binary64

/-! # Progress lines

How far a piece of work has come, told right before an item is taken up. The percentage counts the
items before it and has one decimal place.
-/

namespace CodeSignature.Progress

/-- The part of the work that lies before an item. Its sign is that of a quotient, also for zero. -/
def share (current total : Int) : Binary64 :=
  .ofQuotient ((current - 1 < 0) != (total < 0)) (current - 1).natAbs total.natAbs

/-- The share as a percentage; work without items is done. -/
def percent (current total : Int) : Binary64 :=
  if total = 0 then .finite false 100 0 else (share current total).scale 100

def line (label : String) (current total : Int) : String :=
  "Processing " ++ label ++ " " ++ toString current ++ " of " ++ toString total ++ " (" ++
    (percent current total).oneDecimal ++ "%)..."

def report (label : String) (current total : Int) : Except Fault String :=
  match share current total with
  | .infinite _ => if total = 0 then .ok (line label current total) else .error .outOfRange
  | _ => .ok (line label current total)

end CodeSignature.Progress
