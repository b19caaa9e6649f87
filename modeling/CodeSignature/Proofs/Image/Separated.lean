import CodeSignature.Image.Basic
import CodeSignature.Proofs.Sequence
import Mathlib.Data.List.Pairwise

/-! # Separated images

In an image whose segments are non-empty and share no address, every look-up of an address gives
the one segment that contains it, and bytes are read from its rest.
-/

namespace CodeSignature

namespace Segment

def rest (s : Segment) (x : Int) : List UInt8 := s.data.drop (x - s.start).toNat

/-- One segment ends where the other starts or before. -/
def Apart (s t : Segment) : Prop := s.stop ≤ t.start ∨ t.stop ≤ s.start

/-- No address lies in both segments. An empty segment may be anywhere. -/
def Disjoint (s t : Segment) : Prop := ∀ x, s.contains x = true → ¬ t.contains x = true

variable {s t : Segment} {x : Int}

theorem contains_iff : s.contains x = true ↔ s.start ≤ x ∧ x < s.stop := by
  simp [contains]

theorem Apart.symm (h : s.Apart t) : t.Apart s := Or.symm h

theorem Apart.disjoint (h : s.Apart t) : s.Disjoint t := by
  intro x hs ht
  rw [contains_iff] at hs ht
  unfold Apart at h
  omega

theorem Disjoint.symm (h : s.Disjoint t) : t.Disjoint s := fun x ht hs => h x hs ht

theorem start_lt_stop (h : s.data ≠ []) : s.start < s.stop := by
  have hl : 0 < s.data.length := List.length_pos_iff.mpr h
  unfold stop; omega

theorem data_ne_nil_of_contains (h : s.contains x = true) : s.data ≠ [] := by
  intro hnil
  rw [contains_iff, stop, hnil, List.length_nil] at h
  omega

theorem length_rest (h : s.start ≤ x) : ((s.rest x).length : Int) = max (s.stop - x) 0 := by
  simp only [rest, List.length_drop, stop]
  omega

theorem length_rest_of_contains (h : s.contains x = true) :
    ((s.rest x).length : Int) = s.stop - x := by
  rw [contains_iff] at h
  rw [length_rest h.1]; omega

theorem rest_add (h : s.start ≤ x) (n : Nat) : s.rest (x + n) = (s.rest x).drop n := by
  simp only [rest, List.drop_drop]
  congr 1; omega

theorem rest_add_toNat {n : Int} (h : s.start ≤ x) (hn : 0 ≤ n) :
    s.rest (x + n) = (s.rest x).drop n.toNat := by
  rw [← rest_add h, Int.toNat_of_nonneg hn]

end Segment

namespace Image

/-- The segments hold at least one byte each, and no two of them share an address. -/
structure Separated (image : Image) : Prop where
  data_ne_nil : ∀ s ∈ image.segments, s.data ≠ []
  apart : image.segments.Pairwise Segment.Apart

theorem mem_arrange {segments : List Segment} {s : Segment} :
    s ∈ arrange segments ↔ s ∈ segments := by
  simp [arrange]

theorem separated_ofSegments {segments : List Segment} {processor : String} {bitness : Int}
    {entryPoint : Option Int} (hn : ∀ s ∈ segments, s.data ≠ [])
    (ha : segments.Pairwise Segment.Apart) :
    (ofSegments segments processor bitness entryPoint).Separated where
  data_ne_nil s hs := hn s (mem_arrange.mp hs)
  apart := ha.perm (List.mergeSort_perm segments _).symm fun h => h.symm

theorem separated_flat {data : List UInt8} (h : data ≠ []) (base : Int) (executable : Bool)
    (processor : String) (bitness : Int) :
    (flat data base executable processor bitness).Separated :=
  separated_ofSegments (by simpa using h) (List.pairwise_singleton _ _)

@[simp] theorem segments_flat (data : List UInt8) (base : Int) (executable : Bool)
    (processor : String) (bitness : Int) :
    (flat data base executable processor bitness).segments =
      [⟨".flat", base, data, executable⟩] := by
  simp [flat, ofSegments, arrange]

section Lookup

variable {image : Image} {s t : Segment} {x : Int}

theorem Separated.stop_le_start (h : image.Separated) :
    image.segments.Pairwise fun s t => s.stop ≤ t.start := by
  refine List.Pairwise.imp_of_mem ?_ (h.apart.and image.ascending)
  rintro s t hs ht ⟨ha, hle⟩
  have hlt := Segment.start_lt_stop (h.data_ne_nil t ht)
  unfold Segment.Apart at ha
  omega

theorem Separated.apart_of_ne (h : image.Separated) (hs : s ∈ image.segments)
    (ht : t ∈ image.segments) (hne : s ≠ t) : s.Apart t := by
  have : Std.Symm Segment.Apart := ⟨fun _ _ => Segment.Apart.symm⟩
  exact h.apart.forall hs ht hne

theorem Separated.eq_of_contains (h : image.Separated) (hs : s ∈ image.segments)
    (ht : t ∈ image.segments) (hsx : s.contains x = true) (htx : t.contains x = true) : s = t := by
  by_contra hne
  exact (h.apart_of_ne hs ht hne).disjoint x hsx htx

theorem Separated.segmentAt?_eq_some_iff (h : image.Separated) :
    image.segmentAt? x = some s ↔ s ∈ image.segments ∧ s.contains x = true := by
  constructor
  · intro hat
    obtain ⟨hlast, hc⟩ := Option.filter_eq_some_iff.mp hat
    exact ⟨Sequence.mem_of_lastAtMost? hlast, hc⟩
  · rintro ⟨hs, hc⟩
    obtain ⟨hstart, hstop⟩ := Segment.contains_iff.mp hc
    have hordered : image.segments.Pairwise fun s t => s.start < t.start ∧ s.stop ≤ t.start := by
      refine h.stop_le_start.imp_of_mem ?_
      intro s t hs _ hle
      have hlt := Segment.start_lt_stop (h.data_ne_nil s hs)
      exact ⟨by omega, hle⟩
    have hlast := Sequence.lastAtMost?_of_between hordered hs hstart hstop
    exact Option.filter_eq_some_iff.mpr ⟨hlast, hc⟩

theorem Separated.segmentAt?_eq_none_iff (h : image.Separated) :
    image.segmentAt? x = none ↔ ∀ s ∈ image.segments, s.contains x = false := by
  simp only [Option.eq_none_iff_forall_ne_some, ne_eq, h.segmentAt?_eq_some_iff, not_and,
    Bool.not_eq_true]

theorem Separated.find?_contains_eq_some_iff (h : image.Separated) :
    image.segments.find? (·.contains x) = some s ↔
      s ∈ image.segments ∧ s.contains x = true := by
  constructor
  · intro hf
    exact ⟨List.mem_of_find?_eq_some hf, by simpa using List.find?_some hf⟩
  · rintro ⟨hs, hc⟩
    obtain ⟨t, ht⟩ := Option.isSome_iff_exists.mp
      (List.find?_isSome.mpr ⟨s, hs, hc⟩ : (image.segments.find? (·.contains x)).isSome)
    have htc : t.contains x = true := by simpa using List.find?_some ht
    rw [ht, h.eq_of_contains (List.mem_of_find?_eq_some ht) hs htc hc]

theorem Separated.contains_iff (h : image.Separated) :
    image.contains x = true ↔ ∃ s ∈ image.segments, s.contains x = true := by
  simp only [contains, Option.isSome_iff_exists, h.segmentAt?_eq_some_iff]

theorem Separated.isCode_eq (h : image.Separated) (hs : s ∈ image.segments)
    (hc : s.contains x = true) : image.isCode x = s.executable := by
  rw [isCode, h.segmentAt?_eq_some_iff.mpr ⟨hs, hc⟩]

theorem exists_segment_of_isCode (hcode : image.isCode x = true) :
    ∃ s ∈ image.segments, s.executable = true ∧ s.contains x = true := by
  unfold isCode at hcode
  split at hcode
  next s hat =>
    obtain ⟨hlast, hc⟩ := Option.filter_eq_some_iff.mp hat
    exact ⟨s, Sequence.mem_of_lastAtMost? hlast, hcode, hc⟩
  · simp at hcode

theorem Separated.isCode_iff (h : image.Separated) :
    image.isCode x = true ↔ ∃ s ∈ image.segments, s.executable = true ∧ s.contains x = true := by
  refine ⟨exists_segment_of_isCode, ?_⟩
  rintro ⟨s, hs, hexecutable, hc⟩
  rw [h.isCode_eq hs hc, hexecutable]

theorem Separated.start_eq_stop (h : image.Separated) (hs : s ∈ image.segments)
    (ht : t ∈ image.segments) (hc : t.contains s.stop = true) : t.start = s.stop := by
  have htc := Segment.contains_iff.mp hc
  have hlt := Segment.start_lt_stop (h.data_ne_nil s hs)
  have hne : s ≠ t := by
    rintro rfl
    omega
  have ha := h.apart_of_ne hs ht hne
  unfold Segment.Apart at ha
  omega

theorem Separated.read_eq (h : image.Separated) (hs : s ∈ image.segments)
    (hc : s.contains x = true) (n : Int) : image.read x n = (s.rest x).take n.toNat := by
  rw [Image.read, h.segmentAt?_eq_some_iff.mpr ⟨hs, hc⟩]
  rfl

/-- Two reads, the second from where the first ends, are one read if both begin in one segment. -/
theorem Separated.read_append (h : image.Separated) (hs : s ∈ image.segments)
    (hstart : s.start ≤ x) {m n : Int} (hm : 0 ≤ m) (hn : 0 ≤ n) (hstop : x + m < s.stop) :
    image.read x m ++ image.read (x + m) n = image.read x (m + n) := by
  have hfirst : s.contains x = true := Segment.contains_iff.mpr ⟨hstart, by omega⟩
  have hsecond : s.contains (x + m) = true := Segment.contains_iff.mpr ⟨by omega, hstop⟩
  have hsum : (m + n).toNat = m.toNat + n.toNat := by omega
  rw [h.read_eq hs hfirst, h.read_eq hs hsecond, h.read_eq hs hfirst,
    Segment.rest_add_toNat hstart hm, hsum, List.take_add]

theorem Separated.read_add_eq_iff (h : image.Separated) (hs : s ∈ image.segments)
    (hc : s.contains x = true) {n more : Int} (hn : 0 ≤ n) (hmore : 0 ≤ more)
    (hstop : x + n ≤ s.stop) :
    ((image.read x (n + more)).length : Int) = n ∧ image.read x (n + more) = image.read x n ↔
      more = 0 ∨ x + n = s.stop := by
  have hrest := Segment.length_rest_of_contains hc
  rw [h.read_eq hs hc, h.read_eq hs hc, List.length_take, List.take_eq_take_iff]
  omega

end Lookup

end Image

end CodeSignature
