import CodeSignature.Proofs.Search.Cells
import CodeSignature.Proofs.Translation.Image
import CodeSignature.Proofs.Translation.Routine

/-! # The analysis of a moved image

Decoding, functions and masking of a moved image are those of the image itself at moved addresses,
and the cells of its instructions are the same.
-/

namespace CodeSignature

namespace Masking

def rangeIn? (masking : Masking) (s : Instruction.Shape) : Option (Int × Int) :=
  match masking with
  | .fields =>
    (s.operands.find? fun o => o.1 ≠ .void ∧ o.2 ≠ 0).map fun o => (o.2, s.size - o.2)
  | .arm =>
    (s.operands.find? fun o => armKinds.contains o.1).bind fun o =>
      (armLength? s.size).map (o.2, ·)

theorem range?_eq_rangeIn? (masking : Masking) (i : Instruction) :
    masking.range? i = masking.rangeIn? i.shape := by
  cases masking with
  | fields =>
    simp only [range?, rangeIn?, Instruction.shape, List.find?_map, Option.map_map]
    rfl
  | arm =>
    simp only [range?, rangeIn?, Instruction.shape, List.find?_map, Function.comp_def]
    cases i.operands.find? fun o => armKinds.contains o.kind <;> rfl

end Masking

namespace Decoder

theorem decode?_ofImage_moved (image : Image) (mode : Mode) (x δ : Int) :
    Option.Rel (Instruction.Moved δ) ((ofImage image mode).decode? x)
      ((ofImage (image.moved δ) mode).decode? (x + δ)) := by
  simp only [ofImage, Image.find?_contains_moved]
  cases image.segments.find? (·.contains x) with
  | none => exact .none
  | some s => exact Encoding.decodeAt?_moved ..

theorem listing_ofImage_moved (image : Image) (mode : Mode) (δ : Int) :
    List.Forall₂ (Instruction.Moved δ) (ofImage image mode).listing
      (ofImage (image.moved δ) mode).listing := by
  simp only [ofImage, Image.segments_moved, List.filter_map, List.flatMap_map]
  have hkept : (fun s => s.executable) ∘ Segment.moved δ = fun s => s.executable := rfl
  rw [hkept]
  induction image.segments.filter (·.executable) with
  | nil => exact .nil
  | cons s rest ih =>
    rw [List.flatMap_cons, List.flatMap_cons]
    exact List.rel_append (Encoding.sweep_moved ..) ih

theorem reach_ofImage_moved (image : Image) (mode : Mode) (δ : Int) :
    (ofImage (image.moved δ) mode).reach = (ofImage image mode).reach :=
  congrArg Sequence.total (image.lengths_moved δ)

end Decoder

namespace Analysis

/-- The analysis of the same image at another base, as far as a search makes use of it. -/
structure Moved (δ : Int) (a a' : Analysis) : Prop where
  image : a'.image = a.image.moved δ
  decode? : ∀ x, Option.Rel (Instruction.Moved δ) (a.decoder.decode? x)
    (a'.decoder.decode? (x + δ))
  reach : a'.decoder.reach = a.decoder.reach
  routines : a'.routines = a.routines.moved δ
  unlabelled : a.routines.Unlabelled
  masking : a'.masking = a.masking

variable {a a' : Analysis} {image : Image} {δ : Int} {h : Heuristics}

theorem moved_ofImage (he : image.entryPoint ≠ some 0)
    (he' : (image.moved δ).entryPoint ≠ some 0) (ha : ofImage image h = .ok a) :
    ∃ a', ofImage (image.moved δ) h = .ok a' ∧ a.Moved δ a' := by
  obtain ⟨hp, rfl⟩ := eq_of_ofImage ha
  refine ⟨ofDecoder (image.moved δ) (.ofImage (image.moved δ) (Decoder.modeOf image)) h,
    ?_, ?_⟩
  · simp only [ofImage, decoderFor, Image.processor_moved, hp]
    rfl
  · exact {
      image := rfl
      decode? := fun x => Decoder.decode?_ofImage_moved image _ x δ
      reach := Decoder.reach_ofImage_moved image _ δ
      routines := by
        simp only [ofDecoder, Image.entryPoint_moved]
        rw [Listing.routines_moved (Decoder.listing_ofImage_moved image _ δ) he he',
          RoutineMap.ofList_moved]
      unlabelled := RoutineMap.unlabelled_ofList_routines _ _ _
      masking := rfl }

namespace Moved

variable (hm : a.Moved δ a')
include hm

theorem bytes (wildcard : Bool) (x n : Int) :
    a'.bytes wildcard (x + δ) n = a.bytes wildcard x n := by
  rw [Analysis.bytes, hm.image, Image.read_moved, Analysis.bytes]

theorem cells (wildcards : Bool) {i i' : Instruction} (hi : i.Moved δ i') :
    a'.cells wildcards i' = a.cells wildcards i := by
  have hadd : ∀ n : Int, i.address + δ + n = i.address + n + δ := fun n => by omega
  simp only [Analysis.cells, hm.masking, Masking.range?_eq_rangeIn?, hi.shape, hi.address, hi.size,
    hadd, hm.bytes]

theorem patience (d : Dialogue) : a'.patience d = a.patience d := by
  simp only [Analysis.patience, hm.reach, hm.image, Image.lengths_moved]

end Moved

end Analysis

end CodeSignature
