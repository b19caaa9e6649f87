import CodeSignature.Proofs.Image.Gap
import CodeSignature.Proofs.Listing.Reference
import CodeSignature.Proofs.Search.Cells
import Mathlib

/-! # Recorded targets

The targets of references are kept if they are in the range of the image, which has the gaps between
its segments in it. So a recorded target lies in the image unless it lies in a gap.
-/

namespace CodeSignature

namespace Analysis

variable {a : Analysis} {image : Image} {h : Heuristics}

theorem mem_targets_iff (hi : image.Separated) (ha : ofImage image h = .ok a) {target : Int} :
    target ∈ a.references.targets ↔
      (∃ i ∈ a.decoder.listing, i.refersTo target = true) ∧
        (image.contains target = true ∨ image.InGap target) := by
  obtain ⟨-, rfl⟩ := eq_of_ofImage ha
  rw [ofDecoder, Listing.mem_targets_references, hi.inRange_iff]
  exact and_comm

/-- Each address of the image and each address in a gap is recorded if an instruction refers to it. So
all recorded targets lie in the image exactly if no instruction refers to an address in a gap. -/
theorem targets_contained_iff (hi : image.Separated) (ha : ofImage image h = .ok a) :
    (∀ target, target ∈ a.references.targets ↔
      (∃ i ∈ a.decoder.listing, i.refersTo target = true) ∧
        (image.contains target = true ∨ image.InGap target)) ∧
      ((∀ target ∈ a.references.targets, image.contains target = true) ↔
        ∀ i ∈ a.decoder.listing, ∀ target, i.refersTo target = true → ¬ image.InGap target) := by
  refine ⟨fun target => mem_targets_iff hi ha, ?_, ?_⟩
  · intro hcontained i hmem target hrefers hgap
    have hc := hcontained target ((mem_targets_iff hi ha).mpr ⟨⟨i, hmem, hrefers⟩, Or.inr hgap⟩)
    rw [hgap.not_contains] at hc
    cases hc
  · intro hnone target htarget
    obtain ⟨⟨i, hmem, hrefers⟩, hc | hgap⟩ := (mem_targets_iff hi ha).mp htarget
    · exact hc
    · exact absurd hgap (hnone i hmem target hrefers)

/-- One call leads to code and one to a gap. -/
theorem targets_contained_iff_calls :
    let image := Image.ofSegments [⟨"data", 0x2000, [0x00], false⟩,
      ⟨"text", 0x1000, [0xE8, 0xFB, 0xFF, 0xFF, 0xFF, 0xE8, 0x06, 0x00, 0x00, 0x00], true⟩]
      "metapc" 64 none
    ∃ a, image.Separated ∧ ofImage image ⟨true, true, true⟩ = .ok a ∧
      a.references.targets = [0x1000, 0x1010] ∧ image.contains 0x1000 = true ∧ image.InGap 0x1010 ∧
      (∃ i ∈ a.decoder.listing, i.refersTo 0x1010 = true) ∧
      ¬ ∀ target ∈ a.references.targets, image.contains target = true := by
  intro image
  have hi : image.Separated :=
    Image.separated_ofSegments (by decide) (by simp [Segment.Apart, Segment.stop])
  let a := ofDecoder image (.ofImage image .bits64) ⟨true, true, true⟩
  have ha : ofImage image ⟨true, true, true⟩ = .ok a := rfl
  have htargets : a.references.targets = [0x1000, 0x1010] := by
    unfold a image
    cbv
  have hcontained : image.contains 0x1000 = true := by cbv
  have hgap : image.InGap 0x1010 :=
    ⟨by cbv, ⟨_, Image.mem_arrange.mpr (List.mem_cons_of_mem _ List.mem_cons_self), by decide⟩,
      ⟨_, Image.mem_arrange.mpr List.mem_cons_self, by decide⟩⟩
  obtain ⟨hmem, hall⟩ := targets_contained_iff hi ha
  obtain ⟨⟨i, hlisted, hrefers⟩, -⟩ := (hmem 0x1010).mp (by simp [htargets])
  exact ⟨a, hi, ha, htargets, hcontained, hgap, ⟨i, hlisted, hrefers⟩,
    fun hc => hall.mp hc i hlisted 0x1010 hrefers hgap⟩

/-- A call refers to an address in a gap. -/
theorem target_in_gap :
    let image := Image.ofSegments [⟨"text", 0x1000, [0xE8, 0x0B, 0x00, 0x00, 0x00], true⟩,
      ⟨"data", 0x2000, [0x00], false⟩] "metapc" 64 none
    image.Separated ∧
      ∃ a, ofImage image ⟨true, true, true⟩ = .ok a ∧
        ∃ target ∈ a.references.targets, image.contains target = false := by
  intro image
  have hi : image.Separated :=
    Image.separated_ofSegments (by decide) (by simp [Segment.Apart, Segment.stop])
  have htargets : (ofDecoder image (.ofImage image .bits64) ⟨true, true, true⟩).references.targets =
      [0x1010] := by
    unfold image
    cbv
  exact ⟨hi, _, rfl, 0x1010, htargets ▸ List.mem_cons_self, by cbv⟩

end Analysis

end CodeSignature
