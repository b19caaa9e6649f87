import CodeSignature.Listing.Start
import CodeSignature.Sequence

/-! # Functions

The functions of a listing. Each runs from its start to the next start or to the end of the
contiguous run of instructions that it lies in.
-/

namespace CodeSignature

/-- A function: its first address, the address after it, and its name. -/
structure Routine where
  start : Int
  stop : Int
  name : String
deriving DecidableEq, Repr

def Routine.contains (r : Routine) (address : Int) : Bool := r.start ≤ address && address < r.stop

/-- Which kinds of starts are looked for besides the entry point and the targets of calls. -/
structure Heuristics where
  prologues : Bool
  separators : Bool
  padding : Bool
deriving DecidableEq, Repr

/-- Instructions that follow one another without a gap: the first address and the last end. -/
structure Run where
  start : Int
  stop : Int
deriving DecidableEq, Repr

namespace Listing

/-- The runs of a listing that goes on after an instruction of a run. -/
def runsFrom (start : Int) (previous : Instruction) : Listing → List Run
  | [] => [⟨start, previous.next⟩]
  | i :: rest =>
    if previous.next = i.address then runsFrom start i rest
    else ⟨start, previous.next⟩ :: runsFrom i.address i rest

def runs : Listing → List Run
  | [] => []
  | i :: rest => runsFrom i.address i rest

def startsBefore (a b : Run) : Bool := a.start ≤ b.start

def orderedRuns (listing : Listing) : List Run := listing.runs.mergeSort startsBefore

/-- The end of the last run that starts at an address or below; of the last run of all if none
does. -/
def limitIn (ordered : List Run) (address : Int) : Int :=
  match Sequence.lastAtMost? (·.start) address ordered with
  | some run => run.stop
  | none => ((ordered.getLast?).map (·.stop)).getD 0

/-- The starts found by the chosen heuristics. Jumps stay inside a function, so their targets do not
count. -/
def heuristicStarts (listing : Listing) (h : Heuristics) : List Int :=
  let jumps := listing.jumpTargets
  ((if h.prologues then listing.prologues else []) ++
    (if h.separators then listing.afterSeparators else []) ++
    (if h.padding then listing.afterPadding else [])).filter fun a => !jumps.contains a

/-- An entry point other than 0. -/
def entryStarts (entry : Option Int) : List Int :=
  match entry with
  | some a => if a = 0 then [] else [a]
  | none => []

def starts (listing : Listing) (entry : Option Int) (h : Heuristics) : List Int :=
  let known := listing.addresses
  Sequence.ascending
    ((entryStarts entry ++ listing.callTargets ++ listing.heuristicStarts h).filter
      fun a => known.contains a)

def defaultName (start : Int) : String := "sub_" ++ Hex.ofInt start

/-- The label of an address, of which the last one counts, or a name made of the address. -/
def nameOf (labels : List (Int × String)) (start : Int) : String :=
  match labels.reverse.find? (·.1 = start) with
  | some (_, name) => name
  | none => defaultName start

/-- Functions with ascending starts, each cut at the next start and at a limit. -/
def cut (name : Int → String) (limit : Int → Int) : List Int → List Routine
  | [] => []
  | [a] => [⟨a, limit a, name a⟩]
  | a :: b :: rest => ⟨a, min b (limit a), name a⟩ :: cut name limit (b :: rest)

def routines (listing : Listing) (entry : Option Int) (labels : List (Int × String))
    (h : Heuristics) : List Routine :=
  cut (nameOf labels) (limitIn listing.orderedRuns) (listing.starts entry h)

end Listing

structure RoutineMap where
  routines : List Routine

namespace RoutineMap

def startsBefore (a b : Routine) : Bool := a.start ≤ b.start

/-- The map of functions in any order; functions with the same start keep their order. -/
def ofList (routines : List Routine) : RoutineMap := ⟨routines.mergeSort startsBefore⟩

/-- The function that contains an address. Of the functions that start there or below, only the
last one is considered. -/
def containing? (m : RoutineMap) (address : Int) : Option Routine :=
  (Sequence.lastAtMost? (·.start) address m.routines).filter (·.contains address)

end RoutineMap

end CodeSignature
