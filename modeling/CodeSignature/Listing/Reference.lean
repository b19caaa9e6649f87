import CodeSignature.Listing.Start
import CodeSignature.Sequence

/-! # References

Which instructions refer to an address: branches to it, and memory operands or immediates with its
value.
-/

namespace CodeSignature

/-- The kinds of operands whose value is an address that is referred to. -/
def referringKinds : List OperandKind := [.near, .far, .memory, .immediate]

/-- Whether an address lies in a range, which excludes its end; without a range every one does. -/
def inRange (range : Option (Int × Int)) (address : Int) : Bool :=
  match range with
  | some (low, high) => low ≤ address && address < high
  | none => true

/-- Pairs of a target and the address of an instruction that refers to it. -/
def Listing.references (range : Option (Int × Int)) (listing : Listing) : List (Int × Int) :=
  listing.flatMap fun i => i.operands.filterMap fun o =>
    match o.value with
    | some target =>
      if referringKinds.contains o.kind && inRange range target then some (target, i.address)
      else none
    | none => none

/-- Targets in ascending order, each with the ascending addresses that refer to it. -/
structure References where
  entries : List (Int × List Int)

namespace References

def ofPairs (pairs : List (Int × Int)) : References where
  entries := (Sequence.ascending (pairs.map (·.1))).map fun target =>
    (target, Sequence.ascending ((pairs.filter (·.1 = target)).map (·.2)))

/-- References given target by target; of equal targets the last one counts. -/
def ofTable (table : List (Int × List Int)) : References where
  entries := (Sequence.ascending (table.map (·.1))).map fun target =>
    (target, Sequence.ascending (((table.reverse.find? (·.1 = target)).map (·.2)).getD []))

def origins (r : References) (target : Int) : List Int :=
  ((r.entries.find? (·.1 = target)).map (·.2)).getD []

end References

end CodeSignature
