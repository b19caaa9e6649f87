import CodeSignature.Image.Basic
import CodeSignature.Signature.Reader

/-! # Occurrences

Where a pattern matches. Each segment is searched on its own, at every position, so matches may
overlap but never span two segments.
-/

namespace CodeSignature

namespace Pattern

def fits (place : Option UInt8) (b : UInt8) : Bool :=
  match place with
  | some value => value = b
  | none => true

def matchesFront : Pattern → List UInt8 → Bool
  | [], _ => true
  | _ :: _, [] => false
  | place :: pattern, b :: bytes => fits place b && matchesFront pattern bytes

/-- The addresses at which a non-empty pattern matches bytes that start at the given address. -/
def occurrences (pattern : Pattern) (address : Int) : List UInt8 → List Int
  | [] => []
  | b :: rest =>
    if matchesFront pattern (b :: rest) then address :: occurrences pattern (address + 1) rest
    else occurrences pattern (address + 1) rest

def firstOccurrences (pattern : Pattern) : Nat → Int → List UInt8 → List Int
  | 0, _, _ => []
  | _, _, [] => []
  | limit + 1, address, b :: rest =>
    if matchesFront pattern (b :: rest) then
      address :: firstOccurrences pattern limit (address + 1) rest
    else firstOccurrences pattern (limit + 1) (address + 1) rest

end Pattern

namespace Image

def occurrences (image : Image) (pattern : Pattern) : List Int :=
  image.segments.flatMap fun s => pattern.occurrences s.start s.data

def firstIn (pattern : Pattern) (limit : Nat) : List Segment → List Int
  | [] => []
  | s :: rest =>
    let found := pattern.firstOccurrences limit s.start s.data
    found ++ firstIn pattern (limit - found.length) rest

/-- The first occurrences of a pattern. A limit is tested after an address is found, so at least
one is reported. -/
def firstOccurrences (image : Image) (pattern : Pattern) (limit : Int) : List Int :=
  firstIn pattern (max limit.toNat 1) image.segments

def find (image : Image) (text : String) (limit : Option Int) : Except Failure (List Int) := do
  let pattern ← Pattern.read text
  return match limit with
    | some limit => image.firstOccurrences pattern limit
    | none => image.occurrences pattern

/-- Whether a pattern occurs exactly once; two occurrences are enough to know that it does not. -/
def occursOnce (image : Image) (pattern : Pattern) : Bool :=
  (image.firstOccurrences pattern 2).length = 1

def isUnique (image : Image) (text : String) : Except Failure Bool := do
  return image.occursOnce (← Pattern.read text)

/-- Reads a signature in any dialect and reports where it occurs. Its trailing wildcards count. -/
def search (image : Image) (text : String) : Except Failure (Signature × List Int) := do
  let signature ← Signature.read text
  return (signature, image.occurrences signature.pattern)

end Image

end CodeSignature
