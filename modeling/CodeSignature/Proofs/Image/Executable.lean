import CodeSignature.Image.Executable
import CodeSignature.Proofs.Image.Separated
import Mathlib

/-! # Loading executable files

If the sections of an executable share no address, then its image consists of them: each byte of a
section is a byte of its data, or zero behind the end of the data, and nothing lies outside them.
-/

namespace CodeSignature

theorem Segment.Disjoint.apart {s t : Segment} (h : s.Disjoint t) (hs : s.data ≠ [])
    (ht : t.data ≠ []) : s.Apart t := by
  have hs := start_lt_stop hs
  have ht := start_lt_stop ht
  have hcommon := h (max s.start t.start)
  simp only [contains_iff] at hcommon
  unfold Apart
  omega

namespace Executable

namespace Section

variable {s : Section} {base : Int}

theorem content_eq (s : Section) : s.content = (s.data.take s.size).rightpad s.size 0 := by
  rw [content, List.rightpad, List.length_take]
  congr 2
  omega

@[simp] theorem length_content (s : Section) : s.content.length = s.size := by
  rw [content, List.length_append, List.length_take, List.length_replicate]
  omega

theorem isExecutable_iff :
    s.isExecutable = true ↔ s.characteristics &&& (0x20000000 ||| 0x20) ≠ 0 := by
  have hbit (k : Nat) : s.characteristics &&& 2 ^ k = 0 ↔ s.characteristics.testBit k = false := by
    rw [Nat.and_two_pow]
    cases s.characteristics.testBit k <;> simp
  have hexecute : s.characteristics &&& 0x20000000 = 0 ↔ _ := hbit 29
  have hcode : s.characteristics &&& 0x20 = 0 ↔ _ := hbit 5
  rw [Nat.and_or_distrib_left, Ne, Nat.or_eq_zero_iff, hexecute, hcode, isExecutable,
    Bool.or_eq_true, not_and_or, Bool.not_eq_false, Bool.not_eq_false]

@[simp] theorem start_segment (base : Int) (s : Section) :
    (s.segment base).start = base + s.address := rfl

@[simp] theorem data_segment (base : Int) (s : Section) : (s.segment base).data = s.content := rfl

@[simp] theorem executable_segment (base : Int) (s : Section) :
    (s.segment base).executable = s.isExecutable := rfl

theorem data_segment_ne_nil : (s.segment base).data ≠ [] ↔ s.size ≠ 0 := by
  rw [← List.length_pos_iff, data_segment, length_content, Nat.pos_iff_ne_zero]

end Section

variable {e : Executable} {s : Section} {x : Int}

/-- The address lies in a section as it is mapped. -/
def Maps (e : Executable) (s : Section) (x : Int) : Prop :=
  e.imageBase + s.address ≤ x ∧ x < e.imageBase + s.address + s.size

theorem contains_segment_iff : (s.segment e.imageBase).contains x = true ↔ e.Maps s x := by
  rw [Segment.contains_iff, Segment.stop, Section.data_segment, Section.length_content,
    Section.start_segment, Maps]

/-- No address lies in two sections. Sections without a size may be anywhere. -/
def Disjoint (e : Executable) : Prop :=
  e.sections.Pairwise fun s t => ∀ x, e.Maps s x → ¬ e.Maps t x

theorem mem_segments_image {segment : Segment} :
    segment ∈ e.image.segments ↔
      ∃ s ∈ e.sections, s.size ≠ 0 ∧ s.segment e.imageBase = segment := by
  simp only [image, Image.ofSegments, Image.mem_arrange, List.mem_map, List.mem_filter,
    decide_eq_true_eq, and_assoc]

theorem Disjoint.separated_image (h : e.Disjoint) : e.image.Separated := by
  apply Image.separated_ofSegments
  · intro segment hmem
    obtain ⟨s, hs, rfl⟩ := List.mem_map.mp hmem
    exact Section.data_segment_ne_nil.mpr (of_decide_eq_true (List.mem_filter.mp hs).2)
  · rw [List.pairwise_map, List.pairwise_filter]
    refine h.imp fun hst hs ht => ?_
    apply Segment.Disjoint.apart
    · intro x hsx htx
      exact hst x (contains_segment_iff.mp hsx) (contains_segment_iff.mp htx)
    · exact Section.data_segment_ne_nil.mpr (of_decide_eq_true hs)
    · exact Section.data_segment_ne_nil.mpr (of_decide_eq_true ht)

/-- Reading in a section gives its data, cut or padded with zeros to its size. It is code exactly if one
of the two marks is set, and no other address than those of the sections is in the image. -/
theorem image_maps_sections (h : e.Disjoint) :
    (∀ s ∈ e.sections, ∀ i < s.size,
      (∀ n : Nat, e.image.read (e.imageBase + s.address + i) n =
        (((s.data.take s.size).rightpad s.size 0).drop i).take n) ∧
      (e.image.isCode (e.imageBase + s.address + i) = true ↔
        s.characteristics &&& (0x20000000 ||| 0x20) ≠ 0)) ∧
    ∀ x, e.image.contains x = true ↔ ∃ s ∈ e.sections, e.Maps s x := by
  have hi := h.separated_image
  refine ⟨fun s hs i hlt => ?_, fun x => ?_⟩
  · have hmem : s.segment e.imageBase ∈ e.image.segments :=
      mem_segments_image.mpr ⟨s, hs, by omega, rfl⟩
    have hc : (s.segment e.imageBase).contains (e.imageBase + s.address + i) = true :=
      contains_segment_iff.mpr ⟨by omega, by omega⟩
    constructor
    · intro n
      have hoffset : (e.imageBase + s.address + i - (e.imageBase + s.address)).toNat = i := by omega
      rw [hi.read_eq hmem hc, Segment.rest, Section.start_segment, Section.data_segment,
        Section.content_eq, hoffset, Int.toNat_natCast]
    · rw [hi.isCode_eq hmem hc, Section.executable_segment, Section.isExecutable_iff]
  · rw [hi.contains_iff]
    constructor
    · rintro ⟨segment, hmem, hc⟩
      obtain ⟨s, hs, -, rfl⟩ := mem_segments_image.mp hmem
      exact ⟨s, hs, contains_segment_iff.mp hc⟩
    · rintro ⟨s, hs, hx⟩
      have hsize : s.size ≠ 0 := by
        unfold Maps at hx
        omega
      exact ⟨_, mem_segments_image.mpr ⟨s, hs, hsize, rfl⟩, contains_segment_iff.mpr hx⟩

/-- The data of one section is padded and that of another one cut. A third one has the size of its
data, and one is empty. -/
theorem image_maps_sections_padded :
    let e : Executable := ⟨0x8664, 0x20B, 0x400000, 0x1000,
      [⟨[], 0x2000, [0x01, 0x02], 6, 0x40⟩, ⟨[], 0x1000, [], 0, 0x20⟩,
        ⟨[], 0x1000, [0x55, 0xC3, 0x90], 2, 0x20⟩, ⟨[], 0x1002, [0xCC], 0, 0x20000000⟩]⟩
    e.Disjoint ∧
      e.image.read 0x402001 9 = [0x02, 0x00, 0x00, 0x00, 0x00] ∧ e.image.isCode 0x402001 = false ∧
      e.image.read 0x401000 9 = [0x55, 0xC3] ∧ e.image.isCode 0x401000 = true ∧
      e.image.read 0x401002 9 = [0xCC] ∧ e.image.isCode 0x401002 = true ∧
      e.image.contains 0x402006 = false := by
  intro e
  have h : e.Disjoint := by
    simp [Disjoint, Maps, Section.size, e]
    and_intros <;> omega
  obtain ⟨hsections, hcontains⟩ := image_maps_sections h
  have hdata := hsections ⟨[], 0x2000, [0x01, 0x02], 6, 0x40⟩ (by simp [e]) 1 (by decide)
  have htext := hsections ⟨[], 0x1000, [0x55, 0xC3, 0x90], 2, 0x20⟩ (by simp [e]) 0 (by decide)
  have htail := hsections ⟨[], 0x1002, [0xCC], 0, 0x20000000⟩ (by simp [e]) 0 (by decide)
  have houtside : ¬ ∃ s ∈ e.sections, e.Maps s 0x402006 := by
    simp [Maps, Section.size, e]
  refine ⟨h, hdata.1 9, ?_, htext.1 9, htext.2.mpr (by decide), htail.1 9, htail.2.mpr (by decide), ?_⟩
  · exact Bool.eq_false_iff.mpr fun hcode => hdata.2.mp hcode (by decide)
  · exact Bool.eq_false_iff.mpr fun hc => houtside ((hcontains 0x402006).mp hc)

end Executable

end CodeSignature
