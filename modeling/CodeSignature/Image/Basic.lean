import CodeSignature.Sequence

/-! # Images

A program in memory: segments of bytes at addresses, some of them executable. The segments are kept
in ascending order of their starts. Addresses are unbounded.
-/

namespace CodeSignature

structure Segment where
  name : String
  start : Int
  data : List UInt8
  executable : Bool
deriving DecidableEq, Repr

namespace Segment

def stop (s : Segment) : Int := s.start + s.data.length

def contains (s : Segment) (address : Int) : Bool := s.start ≤ address && address < s.stop

def startsBefore (a b : Segment) : Bool := a.start ≤ b.start

/-- The bytes from an address of the segment on, at most so many. -/
def read (s : Segment) (address count : Int) : List UInt8 :=
  (s.data.drop (address - s.start).toNat).take count.toNat

end Segment

structure Image where
  segments : List Segment
  processor : String
  bitness : Int
  entryPoint : Option Int
  ascending : segments.Pairwise fun a b => a.start ≤ b.start

namespace Image

def badAddress : Int := 0xFFFFFFFFFFFFFFFF

/-- Orders segments by their starts; segments with the same start keep their order. -/
def arrange (segments : List Segment) : List Segment := segments.mergeSort Segment.startsBefore

theorem pairwise_arrange (segments : List Segment) :
    (arrange segments).Pairwise fun a b => a.start ≤ b.start := by
  have h : (arrange segments).Pairwise fun a b => Segment.startsBefore a b = true :=
    List.pairwise_mergeSort
      (fun a b c hab hbc => by simp only [Segment.startsBefore, decide_eq_true_eq] at *; omega)
      (fun a b => by
        simp only [Segment.startsBefore, Bool.or_eq_true, decide_eq_true_eq]; omega) segments
  exact h.imp fun hab => of_decide_eq_true hab

def ofSegments (segments : List Segment) (processor : String) (bitness : Int)
    (entryPoint : Option Int) : Image :=
  ⟨arrange segments, processor, bitness, entryPoint, pairwise_arrange segments⟩

def flat (data : List UInt8) (base : Int) (executable : Bool) (processor : String)
    (bitness : Int) : Image :=
  ofSegments [⟨".flat", base, data, executable⟩] processor bitness none

/-- The start of the first segment, 0 if there is none. -/
def lowest (image : Image) : Int := (image.segments.head?.map (·.start)).getD 0

def highest (image : Image) : Int := ((image.segments.map (·.stop)).max?).getD 0

/-- The segment at an address. Of the segments that start there or below, only the last one is
considered. -/
def segmentAt? (image : Image) (address : Int) : Option Segment :=
  (Sequence.lastAtMost? (·.start) address image.segments).filter (·.contains address)

def contains (image : Image) (address : Int) : Bool := (image.segmentAt? address).isSome

def isCode (image : Image) (address : Int) : Bool :=
  match image.segmentAt? address with
  | some s => s.executable
  | none => false

/-- The bytes from an address on, at most so many; reading stops at the end of the segment. -/
def read (image : Image) (address count : Int) : List UInt8 :=
  match image.segmentAt? address with
  | some s => s.read address count
  | none => []

end Image

end CodeSignature
