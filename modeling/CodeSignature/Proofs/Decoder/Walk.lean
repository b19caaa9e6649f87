import CodeSignature.Decoder
import CodeSignature.Proofs.Encoding.Head
import CodeSignature.Proofs.Image.Separated
import Mathlib.Algebra.Ring.Int.Defs

/-! # Walks

A walk decodes instructions one after the other, each at the address where the last one ends. In a
separated image an instruction lies in one segment, and a walk leaves a segment only by its end,
where another segment has to begin.
-/

namespace CodeSignature

namespace Decoder

/-- Consecutive instructions from an address up to the address after the last one. -/
inductive Walk (d : Decoder) : Int → List Instruction → Int → Prop where
  | nil (x : Int) : Walk d x [] x
  | cons {x y : Int} {i : Instruction} {is : List Instruction} :
      d.decode? x = some i → Walk d (x + i.size) is y → Walk d x (i :: is) y

variable {d : Decoder} {x y : Int} {i : Instruction} {is : List Instruction}

theorem Walk.single (h : d.decode? x = some i) : d.Walk x [i] (x + i.size) := .cons h (.nil _)

theorem Walk.append {js : List Instruction} {z : Int} (h : d.Walk x is y) (h' : d.Walk y js z) :
    d.Walk x (is ++ js) z := by
  induction h with
  | nil => exact h'
  | cons hd _ ih => exact .cons hd (ih h')

theorem Walk.of_append {js : List Instruction} (h : d.Walk x (is ++ js) y) :
    d.Walk (x + (is.map (·.size)).sum) js y := by
  induction is generalizing x with
  | nil => simpa using h
  | cons i is ih =>
    cases h with
    | cons _ hw =>
      rw [List.map_cons, List.sum_cons, ← Int.add_assoc]
      exact ih hw

theorem Walk.stop_eq (h : d.Walk x is y) : y = x + (is.map (·.size)).sum := by
  induction h with
  | nil => simp
  | cons _ _ ih =>
    rw [List.map_cons, List.sum_cons]
    omega

theorem Walk.prefix_of_length_le {js : List Instruction} {z : Int} (h : d.Walk x is y)
    (h' : d.Walk x js z) (hl : is.length ≤ js.length) : is <+: js := by
  induction h generalizing js with
  | nil => exact List.nil_prefix
  | cons hd _ ih =>
    cases h' with
    | nil => simp at hl
    | cons hd' hw' =>
      obtain rfl := Option.some.inj (hd.symm.trans hd')
      exact List.cons_prefix_cons.mpr ⟨rfl, ih hw' (by simpa using hl)⟩

theorem Walk.of_prefix {js : List Instruction} (h : d.Walk x is y) (hp : js <+: is) :
    ∃ z, d.Walk x js z := by
  induction h generalizing js with
  | nil x =>
    rw [List.prefix_nil.mp hp]
    exact ⟨x, .nil x⟩
  | @cons x y i is hd _ ih =>
    cases js with
    | nil => exact ⟨x, .nil x⟩
    | cons j js =>
      obtain ⟨rfl, hjs⟩ := List.cons_prefix_cons.mp hp
      obtain ⟨z, hz⟩ := ih hjs
      exact ⟨z, .cons hd hz⟩

theorem Walk.exists_of_mem (h : d.Walk x is y) (hi : i ∈ is) : ∃ z, d.decode? z = some i := by
  induction h with
  | nil => simp at hi
  | cons hd _ ih =>
    rcases List.mem_cons.mp hi with rfl | hi
    · exact ⟨_, hd⟩
    · exact ih hi

section OfImage

variable {image : Image} {mode : Mode} {s t : Segment}

/-- In a separated image an address is decoded in the one segment that contains it. -/
theorem decode?_ofImage_iff (hi : image.Separated) :
    (ofImage image mode).decode? x = some i ↔
      ∃ s ∈ image.segments, s.contains x = true ∧ Encoding.decode? mode x (s.rest x) = some i := by
  simp only [ofImage, Option.bind_eq_some_iff, hi.find?_contains_eq_some_iff, and_assoc]
  refine exists_congr fun s => and_congr_right fun _ => and_congr_right fun hc => ?_
  have hc' := Segment.contains_iff.mp hc
  rw [Encoding.decodeAt?, if_pos (by simpa [Segment.stop] using hc')]
  rfl

theorem decode?_ofImage_eq (hi : image.Separated) (hs : s ∈ image.segments)
    (hc : s.contains x = true) :
    (ofImage image mode).decode? x = Encoding.decode? mode x (s.rest x) := by
  refine Option.ext fun i => (decode?_ofImage_iff hi).trans ⟨?_, fun h => ⟨s, hs, hc, h⟩⟩
  rintro ⟨t, ht, htc, h⟩
  obtain rfl := hi.eq_of_contains ht hs htc hc
  exact h

theorem bytes_of_decode?_ofImage (hi : image.Separated) (hs : s ∈ image.segments)
    (hc : s.contains x = true) (h : (ofImage image mode).decode? x = some i) :
    i.address = x ∧ 0 < i.size ∧ x + i.size ≤ s.stop ∧
      i.bytes = (s.rest x).take i.size.toNat := by
  rw [decode?_ofImage_eq hi hs hc] at h
  obtain ⟨ha, hp, hl, hb⟩ := Encoding.bytes_of_decode? h
  have hr := Segment.length_rest_of_contains hc
  exact ⟨ha, hp, by omega, hb⟩

theorem length_bytes_of_decode?_ofImage (hi : image.Separated)
    (h : (ofImage image mode).decode? x = some i) : (i.bytes.length : Int) = i.size := by
  obtain ⟨s, hs, hc, -⟩ := (decode?_ofImage_iff hi).mp h
  obtain ⟨-, hp, hl, hbytes⟩ := bytes_of_decode?_ofImage hi hs hc h
  have hr := Segment.length_rest_of_contains hc
  rw [hbytes, List.length_take]
  omega

theorem size_pos_of_decode?_ofImage (hi : image.Separated)
    (h : (ofImage image mode).decode? x = some i) : 0 < i.size := by
  obtain ⟨s, -, -, hdec⟩ := (decode?_ofImage_iff hi).mp h
  exact (Encoding.bytes_of_decode? hdec).2.1

theorem exists_start_of_decode?_stop (hi : image.Separated) (hs : s ∈ image.segments)
    (h : (ofImage image mode).decode? s.stop = some i) :
    ∃ t ∈ image.segments, t.start = s.stop := by
  obtain ⟨t, ht, hc, -⟩ := (decode?_ofImage_iff hi).mp h
  exact ⟨t, ht, hi.start_eq_stop hs ht hc⟩

theorem Walk.le_stop (hi : image.Separated) (hs : s ∈ image.segments)
    (hend : ∀ t ∈ image.segments, t.start ≠ s.stop) (h : (ofImage image mode).Walk x is y)
    (hc : s.contains x = true) : y ≤ s.stop := by
  induction h with
  | nil x => exact Int.le_of_lt (Segment.contains_iff.mp hc).2
  | @cons x y i is hd hw ih =>
    obtain ⟨-, hp, hle, -⟩ := bytes_of_decode?_ofImage hi hs hc hd
    rcases Int.lt_or_eq_of_le hle with hlt | heq
    · have hx := Segment.contains_iff.mp hc
      exact ih (Segment.contains_iff.mpr ⟨by omega, hlt⟩)
    · cases hw with
      | nil => omega
      | cons hd' _ =>
        rw [heq] at hd'
        obtain ⟨t, ht, hstart⟩ := exists_start_of_decode?_stop hi hs hd'
        exact absurd hstart (hend t ht)

end OfImage

end Decoder

end CodeSignature
