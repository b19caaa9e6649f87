import CodeSignature.Search.Growth

/-! # Ranking references

The signatures of the code that refers to an address, the shortest first. A reference without a unique
signature is left out.
-/

namespace CodeSignature

/-- Whether a failure ends the whole ranking instead of one reference. -/
def Failure.endsRanking : Failure → Bool
  | .aborted => true
  | .fault _ => true
  | _ => false

structure Ranked where
  origin : Int
  signature : Signature
deriving DecidableEq, Repr

def Ranked.noLonger (x y : Ranked) : Bool := x.signature.length ≤ y.signature.length

namespace Analysis

def codeOrigins (a : Analysis) (target : Int) : List Int :=
  (a.references.origins target).filter a.image.isCode

def writeSkipped (origin : Int) (f : Failure) (d : Dialogue) : Dialogue :=
  d.write .debug ("No signature for xref @ " ++ Hex.upperOfInt origin ++ ": " ++ f.message)

def consRanked (r : Ranked) :
    Except Failure (List Ranked) × Dialogue → Except Failure (List Ranked) × Dialogue
  | (.ok more, d) => (.ok (r :: more), d)
  | (.error f, d) => (.error f, d)

/-- The signatures at references in their order. The first argument is the total number of references
and the second the number of those before. -/
def growEach (a : Analysis) (o : GrowthOptions) (total : Nat) :
    Nat → List Int → Dialogue → Except Failure (List Ranked) × Dialogue
  | _, [], d => (.ok [], d)
  | done, origin :: rest, d =>
    match d.poll with
    | (true, d) => (.error .aborted, d)
    | (false, d) =>
      match a.grow o origin (d.progress (done + 1) total) with
      | (.ok s, d) => consRanked ⟨origin, s⟩ (growEach a o total (done + 1) rest d)
      | (.error f, d) =>
        if f.endsRanking then (.error f, d)
        else growEach a o total (done + 1) rest (writeSkipped origin f d)

/-- Orders results by length; equally long ones keep their order. -/
def ordered (results : List Ranked) : List Ranked := results.mergeSort Ranked.noLonger

/-- The signatures of the code that refers to a target. It is never asked whether to go on. -/
def rank (a : Analysis) (o : GrowthOptions) (target : Int) (d : Dialogue) :
    Except Failure (List Ranked) × Dialogue :=
  let origins := a.codeOrigins target
  match a.growEach { o with prompt := false } origins.length 0 origins d with
  | (.ok results, d) => (.ok (ordered results), d)
  | (.error f, d) => (.error f, d)

end Analysis

end CodeSignature
