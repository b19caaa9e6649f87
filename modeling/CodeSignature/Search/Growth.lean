import CodeSignature.Search.Analysis
import CodeSignature.Signature.Dialect

/-! # Growing a signature

Instructions are appended from an address on until the signature occurs exactly once. The search ends
early where the code ends, at the end of the function, when it is cancelled, or when the signature
gets long and is not to be continued.
-/

namespace CodeSignature

/-- How long a signature may get before it is asked whether to go on. -/
inductive Limit where
  | bytes (count : Int)
  | unlimited
  /-- Not a number, so that no length can be compared with it. -/
  | unusable
deriving DecidableEq, Repr

def Limit.exceeded (limit : Limit) (length : Int) : Except Fault Bool :=
  match limit with
  | .bytes count => .ok (count < length)
  | .unlimited => .ok false
  | .unusable => .error .wrongType

structure GrowthOptions where
  wildcards : Bool
  outside : Bool
  limit : Limit
  prompt : Bool
deriving DecidableEq, Repr

/-- A signature that grows: the address of the next instruction, the cells so far, and the number of
bytes since the last question. -/
structure Growth where
  address : Int
  cells : Signature
  part : Int
deriving DecidableEq, Repr

namespace Growth

def start (address : Int) : Growth := ⟨address, [], 0⟩

def writeNotUnique (origin : Int) (s : Signature) (d : Dialogue) : Dialogue :=
  d.write .warning
    ("NOT UNIQUE Signature for " ++ Hex.upperOfInt origin ++ ": " ++ Dialect.ida.render s)

def atEnd (origin : Int) (g : Growth) (d : Dialogue) : Failure × Dialogue :=
  if g.cells = [] then (.decodeFailed, d)
  else (.notUnique g.cells, writeNotUnique origin g.cells (Analysis.writeEnd g.address d))

def question (length : Nat) : String :=
  "Signature is already at " ++ toString length ++ " bytes. Continue?"

def afterAnswer (origin : Int) (g : Growth) (answer : Answer) (d : Dialogue) :
    Except Failure Growth × Dialogue :=
  match answer with
  | .yes => (.ok { g with part := 0 }, d)
  | .no => (.error (.notUnique g.cells), writeNotUnique origin g.cells d)
  | .cancel => (.error .aborted, d)

/-- Goes on if the limit is not exceeded, or if that is agreed to. -/
def allow (o : GrowthOptions) (origin : Int) (g : Growth) (d : Dialogue) :
    Except Failure Growth × Dialogue :=
  match o.limit.exceeded g.part with
  | .error cause => (.error (.fault cause), d)
  | .ok false => (.ok g, d)
  | .ok true =>
    if o.prompt then
      let (answer, d) := d.ask (question g.cells.length)
      g.afterAnswer origin answer d
    else (.error .lengthExceeded, d)

def append (a : Analysis) (wildcards : Bool) (g : Growth) (i : Instruction) : Growth :=
  ⟨g.address + i.size, g.cells ++ a.cells wildcards i, g.part + i.size⟩

def writeTrial (origin : Int) (s : Signature) (d : Dialogue) : Dialogue :=
  d.write .debug ("Trying " ++ Hex.upperOfInt origin ++ ": " ++ Dialect.ida.render s)

/-- Whether a search that began in a function may go on at an address. -/
def staysInside (a : Analysis) (o : GrowthOptions) (origin : Option Routine) (address : Int) :
    Bool :=
  o.outside || origin.isNone || a.routines.containing? address == origin

def run (a : Analysis) (o : GrowthOptions) (origin : Int) (routine : Option Routine) :
    Nat → Growth → Dialogue → Except Failure Signature × Dialogue
  | steps, g, d =>
    match d.poll with
    | (true, d) => (.error .aborted, d)
    | (false, d) =>
      match steps, a.decoder.decode? g.address with
      | steps + 1, some i =>
        match g.allow o origin d with
        | (.error f, d) => (.error f, d)
        | (.ok g, d) =>
          let g := g.append a o.wildcards i
          let d := writeTrial origin g.cells d
          if g.cells = [] then (.error .emptyPattern, d)
          else if a.image.occursOnce g.cells.pattern then (.ok g.cells.trim, d)
          else if staysInside a o routine g.address then run a o origin routine steps g d
          else (.error .leftFunction, d)
      | _, _ =>
        let (f, d) := g.atEnd origin d
        (.error f, d)

end Growth

namespace Analysis

/-- The shortest signature that starts at an address and occurs exactly once. -/
def grow (a : Analysis) (o : GrowthOptions) (address : Int) (d : Dialogue) :
    Except Failure Signature × Dialogue :=
  if address = Image.badAddress ∨ !a.image.contains address then (.error .invalidAddress, d)
  else if !a.image.isCode address then (.error .notCode, d)
  else
    Growth.run a o address (a.routines.containing? address) (a.patience d) (.start address) d

end Analysis

end CodeSignature
