import CodeSignature.Proofs.Decoder.Sweep
import CodeSignature.Proofs.Listing.Division
import CodeSignature.Proofs.Search.Cells

/-! # Functions at the borders of segments

A listing does not tell where one segment ends and the next begins, so a run goes on into an adjacent
executable segment. A function consists of code, but it stays in its segment only if no executable
segment is adjacent, or if another function begins in time.
-/

namespace CodeSignature

variable {image : Image} {mode : Mode} {r : Run} {s : Segment} {x : Int}

namespace Decoder

/-- The addresses in entries of the listing are those of the executable segments. -/
theorem spans_listing_iff (hi : image.Separated) :
    Listing.Spans (ofImage image mode).listing x ↔ image.isCode x = true := by
  rw [hi.isCode_iff]
  constructor
  · rintro ⟨i, hmem, hbegin, hend⟩
    obtain ⟨s, hs, hexecutable, hmem⟩ := mem_listing_iff.mp hmem
    have hbounds := (Listing.contiguous_sweep mode s.start s.data).bounds hmem
    exact ⟨s, hs, hexecutable, Segment.contains_iff.mpr ⟨by omega, by unfold Segment.stop; omega⟩⟩
  · rintro ⟨s, hs, hexecutable, hc⟩
    obtain ⟨hstart, hstop⟩ := Segment.contains_iff.mp hc
    obtain ⟨i, hmem, hspan⟩ :=
      (Listing.contiguous_sweep mode s.start s.data).exists_spanning hstart hstop
    exact ⟨i, mem_listing_iff.mpr ⟨s, hs, hexecutable, hmem⟩, hspan⟩

theorem stop_le_stop_iff (hi : image.Separated) (hr : Listing.IsRun (ofImage image mode).listing r)
    (hs : s ∈ image.segments) (hexecutable : s.executable = true) (hc : s.contains x = true)
    (hbegin : r.start ≤ x) (hend : x < r.stop) :
    r.stop ≤ s.stop ↔ ∀ t ∈ image.segments, t.executable = true → t.start ≠ s.stop := by
  obtain ⟨hstart, hstop⟩ := Segment.contains_iff.mp hc
  have hle : s.stop ≤ r.stop := hr.le_stop hend fun z hxz hz => by
    rw [spans_listing_iff hi, hi.isCode_iff]
    exact ⟨s, hs, hexecutable, Segment.contains_iff.mpr ⟨by omega, hz⟩⟩
  constructor
  · intro hover t ht htexecutable hadjacent
    have hlt := Segment.start_lt_stop (hi.data_ne_nil t ht)
    refine hr.after ?_
    rw [spans_listing_iff hi, hi.isCode_iff]
    exact ⟨t, ht, htexecutable, Segment.contains_iff.mpr ⟨by omega, by omega⟩⟩
  · intro hgap
    by_contra hover
    have hspan := hr.spans s.stop (by omega) (by omega)
    rw [spans_listing_iff hi, hi.isCode_iff] at hspan
    obtain ⟨t, ht, htexecutable, htc⟩ := hspan
    exact hgap t ht htexecutable (hi.start_eq_stop hs ht htc)

end Decoder

namespace Analysis

variable {a : Analysis} {h : Heuristics} {f : Routine}

theorem routines_of_ofImage (ha : ofImage image h = .ok a) :
    a.routines.routines = Listing.routines (Decoder.ofImage image (Decoder.modeOf image)).listing
      image.entryPoint [] h := by
  obtain ⟨-, rfl⟩ := eq_of_ofImage ha
  exact Listing.routines_ofList ..

/-- A function consists of code. It lies in the segment that it begins in exactly if no executable
segment begins where that one ends, or another function begins no later. -/
theorem routine_stop_le_iff (hi : image.Separated) (ha : ofImage image h = .ok a)
    (hf : f ∈ a.routines.routines) :
    (∀ x, f.contains x = true → image.isCode x = true) ∧
      ∃ s ∈ image.segments, s.executable = true ∧ s.contains f.start = true ∧
        (f.stop ≤ s.stop ↔
          (∀ t ∈ image.segments, t.executable = true → t.start ≠ s.stop) ∨
            ∃ g ∈ a.routines.routines, f.start < g.start ∧ g.start ≤ s.stop) := by
  rw [routines_of_ofImage ha] at hf ⊢
  obtain ⟨r, hr, hbegin, hlt, hend, hstop⟩ :=
    (Decoder.laid_listing hi _).exists_isRun_of_routine hf
  have hcode : ∀ x, f.contains x = true → image.isCode x = true := by
    intro x hx
    have := Routine.contains_iff.mp hx
    exact (Decoder.spans_listing_iff hi).mp (hr.spans x (by omega) (by omega))
  obtain ⟨s, hs, hexecutable, hc⟩ := Image.exists_segment_of_isCode
    (hcode f.start (Routine.contains_iff.mpr ⟨Int.le_refl _, hlt⟩))
  refine ⟨hcode, s, hs, hexecutable, hc, ?_⟩
  rw [hstop, Decoder.stop_le_stop_iff hi hr hs hexecutable hc hbegin (by omega)]

/-- The first function goes on into the next segment, the second one stays in its own. -/
theorem routine_stop_le_iff_return :
    let image := Image.ofSegments [⟨"second", 0x1004, [0xC3, 0x31, 0xC0], true⟩,
      ⟨"first", 0x1000, [0x55, 0x48, 0x89, 0xE5], true⟩] "metapc" 64 none
    let f : Routine := ⟨0x1000, 0x1005, "sub_1000"⟩
    let g : Routine := ⟨0x1005, 0x1007, "sub_1005"⟩
    ∃ a, image.Separated ∧ ofImage image ⟨true, true, true⟩ = .ok a ∧ a.routines.routines = [f, g] ∧
      ∀ r ∈ [f, g], (∀ x, r.contains x = true → image.isCode x = true) ∧
        ∃ s ∈ image.segments, s.executable = true ∧ s.contains r.start = true ∧
          (r.stop ≤ s.stop ↔
            (∀ t ∈ image.segments, t.executable = true → t.start ≠ s.stop) ∨
              ∃ r' ∈ [f, g], r.start < r'.start ∧ r'.start ≤ s.stop) := by
  intro image f g
  have hi : image.Separated :=
    Image.separated_ofSegments (by decide) (by simp [Segment.Apart, Segment.stop])
  have ha : ofImage image ⟨true, true, true⟩ = .ok _ := rfl
  have hroutines : (ofDecoder image (.ofImage image .bits64)
      ⟨true, true, true⟩).routines.routines = [f, g] := by
    unfold image
    cbv
  refine ⟨_, hi, ha, hroutines, fun r hr => ?_⟩
  rw [← hroutines] at hr ⊢
  exact routine_stop_le_iff hi ha hr

/-- No segment holds the whole function. -/
theorem routine_across_segments :
    let image := Image.ofSegments [⟨"first", 0x1000, [0x55, 0x48, 0x89, 0xE5], true⟩,
      ⟨"second", 0x1004, [0xC3], true⟩] "metapc" 64 none
    image.Separated ∧
      ∃ a, ofImage image ⟨true, true, true⟩ = .ok a ∧
        ∃ f ∈ a.routines.routines, ∀ s ∈ image.segments, ¬ (s.start ≤ f.start ∧ f.stop ≤ s.stop) := by
  intro image
  have hi : image.Separated :=
    Image.separated_ofSegments (by decide) (by simp [Segment.Apart, Segment.stop])
  have hroutines : (ofDecoder image (.ofImage image .bits64) ⟨true, true, true⟩).routines.routines =
      [⟨0x1000, 0x1005, "sub_1000"⟩] := by
    unfold image
    cbv
  refine ⟨hi, _, rfl, _, hroutines ▸ List.mem_cons_self, fun s hs => ?_⟩
  have hs := Image.mem_arrange.mp hs
  simp only [List.mem_cons, List.not_mem_nil, or_false] at hs
  rcases hs with rfl | rfl <;> decide

end Analysis

end CodeSignature
