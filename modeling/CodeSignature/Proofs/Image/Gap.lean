import CodeSignature.Listing.Reference
import CodeSignature.Proofs.Image.Separated

/-! # Gaps between segments

All segments lie between the lowest and the highest address of their image. An address from the one to
the other lies in a segment or in a gap.
-/

namespace CodeSignature

namespace Image

variable {image : Image} {s : Segment} {x : Int}

theorem lowest_le_start (hs : s ∈ image.segments) : image.lowest ≤ s.start := by
  have hascending := image.ascending
  unfold lowest
  cases hsegments : image.segments with
  | nil => simp [hsegments] at hs
  | cons t rest =>
    rw [hsegments] at hs hascending
    rcases List.mem_cons.mp hs with rfl | hs
    · exact Int.le_refl _
    · exact (List.pairwise_cons.mp hascending).1 s hs

theorem exists_start_eq_lowest (hne : image.segments ≠ []) :
    ∃ s ∈ image.segments, s.start = image.lowest := by
  obtain ⟨s, rest, hsegments⟩ := List.exists_cons_of_ne_nil hne
  exact ⟨s, by simp [hsegments], by simp [lowest, hsegments]⟩

theorem max?_stops (hne : image.segments ≠ []) :
    (image.segments.map (·.stop)).max? = some image.highest := by
  unfold highest
  cases hmax : (image.segments.map (·.stop)).max? with
  | none =>
    rw [List.max?_eq_none_iff, List.map_eq_nil_iff] at hmax
    exact absurd hmax hne
  | some n => rfl

theorem stop_le_highest (hs : s ∈ image.segments) : s.stop ≤ image.highest :=
  (List.max?_eq_some_iff.mp (max?_stops (List.ne_nil_of_mem hs))).2 _ (List.mem_map_of_mem hs)

theorem exists_stop_eq_highest (hne : image.segments ≠ []) :
    ∃ s ∈ image.segments, s.stop = image.highest :=
  List.mem_map.mp (List.max?_eq_some_iff.mp (max?_stops hne)).1

/-- The address lies in no segment, but behind one and in front of another. -/
structure InGap (image : Image) (x : Int) : Prop where
  not_contains : image.contains x = false
  behind : ∃ s ∈ image.segments, s.stop ≤ x
  before : ∃ t ∈ image.segments, x < t.start

/-- The range of an image is made of its segments and the gaps between them. -/
theorem Separated.inRange_iff (hi : image.Separated) :
    inRange (some (image.lowest, image.highest)) x = true ↔
      image.contains x = true ∨ image.InGap x := by
  simp only [inRange, Bool.and_eq_true, decide_eq_true_eq]
  constructor
  · rintro ⟨hlow, hhigh⟩
    by_cases hc : image.contains x = true
    · exact Or.inl hc
    · have hne : image.segments ≠ [] := by
        intro hnil
        simp only [lowest, highest, hnil, List.head?_nil, Option.map_none, List.map_nil, List.max?_nil,
          Option.getD_none] at hlow hhigh
        omega
      have hout : ∀ s ∈ image.segments, ¬ (s.start ≤ x ∧ x < s.stop) := fun s hs hsx =>
        hc (hi.contains_iff.mpr ⟨s, hs, Segment.contains_iff.mpr hsx⟩)
      obtain ⟨s, hs, hstart⟩ := exists_start_eq_lowest hne
      obtain ⟨t, ht, hstop⟩ := exists_stop_eq_highest hne
      have hsx := hout s hs
      have htx := hout t ht
      exact Or.inr ⟨by simpa using hc, ⟨s, hs, by omega⟩, ⟨t, ht, by omega⟩⟩
  · rintro (hc | ⟨-, ⟨s, hs, hsx⟩, t, ht, htx⟩)
    · obtain ⟨s, hs, hsx⟩ := hi.contains_iff.mp hc
      obtain ⟨hstart, hstop⟩ := Segment.contains_iff.mp hsx
      have hlow := lowest_le_start hs
      have hhigh := stop_le_highest hs
      omega
    · have hlow := lowest_le_start hs
      have hhigh := stop_le_highest ht
      have hs := Segment.start_lt_stop (hi.data_ne_nil s hs)
      have ht := Segment.start_lt_stop (hi.data_ne_nil t ht)
      omega

end Image

end CodeSignature
