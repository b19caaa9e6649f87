import CodeSignature.Proofs.Image.Occurrences

/-! # Moving an image

An image can be loaded at another base: every segment and the entry point move by one distance.
What is found at an address is then found at the moved address.
-/

namespace CodeSignature

namespace Segment

def moved (δ : Int) (s : Segment) : Segment := { s with start := s.start + δ }

variable (δ : Int) (s : Segment) (x : Int)

@[simp] theorem start_moved : (s.moved δ).start = s.start + δ := rfl

@[simp] theorem data_moved : (s.moved δ).data = s.data := rfl

@[simp] theorem stop_moved : (s.moved δ).stop = s.stop + δ := by
  simp only [stop, start_moved, data_moved]
  omega

@[simp] theorem contains_moved : (s.moved δ).contains (x + δ) = s.contains x := by
  simp [contains]

@[simp] theorem read_moved (n : Int) : (s.moved δ).read (x + δ) n = s.read x n := by
  simp only [read, start_moved, data_moved]
  congr 3
  omega

end Segment

theorem Pattern.occurrences_moved (p : Pattern) (δ x : Int) (bytes : List UInt8) :
    p.occurrences (x + δ) bytes = (p.occurrences x bytes).map (· + δ) := by
  induction bytes generalizing x with
  | nil => rfl
  | cons b bytes ih =>
    have hnext : x + δ + 1 = x + 1 + δ := by omega
    simp only [occurrences, hnext, ih]
    split <;> rfl

namespace Image

/-- The image loaded at another base. -/
def moved (δ : Int) (image : Image) : Image where
  segments := image.segments.map (·.moved δ)
  processor := image.processor
  bitness := image.bitness
  entryPoint := image.entryPoint.map (· + δ)
  ascending := by
    refine List.pairwise_map.mpr (image.ascending.imp fun h => ?_)
    simpa using h

variable (δ : Int) (image : Image) (x : Int) {p : Pattern}

@[simp] theorem segments_moved : (image.moved δ).segments = image.segments.map (·.moved δ) := rfl

@[simp] theorem processor_moved : (image.moved δ).processor = image.processor := rfl

@[simp] theorem entryPoint_moved :
    (image.moved δ).entryPoint = image.entryPoint.map (· + δ) := rfl

@[simp] theorem segmentAt?_moved :
    (image.moved δ).segmentAt? (x + δ) = (image.segmentAt? x).map (·.moved δ) := by
  rw [segmentAt?, segments_moved, Sequence.lastAtMost?_map (Segment.start_moved δ),
    Option.filter_map, segmentAt?]
  congr 2
  funext s
  exact s.contains_moved δ x

@[simp] theorem contains_moved : (image.moved δ).contains (x + δ) = image.contains x := by
  simp [contains]

@[simp] theorem isCode_moved : (image.moved δ).isCode (x + δ) = image.isCode x := by
  rw [isCode, segmentAt?_moved, isCode]
  cases image.segmentAt? x <;> rfl

@[simp] theorem read_moved (n : Int) : (image.moved δ).read (x + δ) n = image.read x n := by
  rw [read, segmentAt?_moved, read]
  cases image.segmentAt? x with
  | none => rfl
  | some s => exact s.read_moved δ x n

theorem find?_contains_moved :
    (image.moved δ).segments.find? (·.contains (x + δ)) =
      (image.segments.find? (·.contains x)).map (·.moved δ) := by
  rw [segments_moved, List.find?_map]
  congr 2
  funext s
  exact s.contains_moved δ x

@[simp] theorem occurrences_moved :
    (image.moved δ).occurrences p = (image.occurrences p).map (· + δ) := by
  simp only [occurrences, segments_moved, List.flatMap_map, List.map_flatMap,
    Segment.start_moved, Segment.data_moved, Pattern.occurrences_moved]

@[simp] theorem occursOnce_moved : (image.moved δ).occursOnce p = image.occursOnce p := by
  rw [Bool.eq_iff_iff, occursOnce_iff, occursOnce_iff, occurrences_moved]
  constructor
  · rintro ⟨y, hy⟩
    obtain ⟨z, hz, -⟩ := List.map_eq_singleton_iff.mp hy
    exact ⟨z, hz⟩
  · rintro ⟨y, hy⟩
    exact ⟨y + δ, by rw [hy]; rfl⟩

theorem lengths_moved :
    (image.moved δ).segments.map (·.data.length) = image.segments.map (·.data.length) := by
  simp [Function.comp_def]

end Image

end CodeSignature
