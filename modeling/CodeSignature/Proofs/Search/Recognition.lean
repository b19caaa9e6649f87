import CodeSignature.Proofs.Search.Cells
import CodeSignature.Proofs.Signature.PatternText
import Mathlib

/-! # What a masked signature recognises

Wherever the masked cells of consecutive instructions match, as many instructions of the same shapes
are decoded: the wildcards stand for displacements, immediates and branch distances alone, which
have no influence on how long an instruction is and what its operands are.
-/

namespace CodeSignature

namespace Analysis

variable {a : Analysis} {x y m : Int} {i : Instruction} {is : List Instruction} {t : Segment}

section BuiltIn

variable (hb : a.BuiltIn) (hi : a.image.Separated)
include hb hi

theorem exists_decode?_of_match (hd : a.decoder.decode? x = some i) (ht : t ∈ a.image.segments)
    (hm : t.start ≤ m)
    (hmatch : (a.cells true i).pattern.matchesFront (t.rest m) = true) :
    ∃ j, a.decoder.decode? m = some j ∧ j.shape = i.shape := by
  obtain ⟨mode, hdecoder⟩ := hb.decoder
  have hlen := length_bytes_of_decode? hb hi hd
  have hroom := Pattern.length_le_of_matchesFront hmatch
  rw [cells_eq_masked hb hi hd] at hmatch hroom
  rw [Signature.length_pattern, Instruction.length_masked] at hroom
  rw [Instruction.masked, Signature.pattern_append, Pattern.matchesFront_append,
    Signature.pattern_ofBytes_literal, Pattern.matchesFront_literals] at hmatch
  rw [hdecoder] at hd ⊢
  have hpos := Decoder.size_pos_of_decode?_ofImage hi hd
  obtain ⟨s, -, -, hdec⟩ := (Decoder.decode?_ofImage_iff hi).mp hd
  obtain ⟨j, hj, hshape⟩ := Encoding.decode?_of_literals (y := m) hdec hmatch.1 (by omega)
  have hrest := Segment.length_rest hm
  have hc : t.contains m = true := Segment.contains_iff.mpr ⟨hm, by omega⟩
  exact ⟨j, (Decoder.decode?_ofImage_iff hi).mpr ⟨t, ht, hc, hj⟩, hshape⟩

/-- Where the masked cells of a walk match, there is a walk over instructions of the same shapes. -/
theorem exists_walk_of_match (hw : a.decoder.Walk x is y) (ht : t ∈ a.image.segments)
    (hm : t.start ≤ m)
    (hmatch : (a.cellsOf true is).pattern.matchesFront (t.rest m) = true) :
    ∃ js z, a.decoder.Walk m js z ∧
      js.map Instruction.shape = is.map Instruction.shape := by
  induction hw generalizing m with
  | nil => exact ⟨[], m, .nil _, rfl⟩
  | @cons x y i is hd _ ih =>
    rw [cellsOf_cons, Signature.pattern_append, Pattern.matchesFront_append] at hmatch
    obtain ⟨j, hj, hshape⟩ := exists_decode?_of_match hb hi hd ht hm hmatch.1
    have hsize : j.size = i.size := congrArg Instruction.Shape.size hshape
    have hlen := length_cells hb hi hd true
    have hpos : 0 < i.size := by
      obtain ⟨mode, hdecoder⟩ := hb.decoder
      rw [hdecoder] at hd
      exact Decoder.size_pos_of_decode?_ofImage hi hd
    have hrest : (t.rest m).drop (a.cells true i).pattern.length = t.rest (m + j.size) := by
      rw [← Segment.rest_add hm, Signature.length_pattern, hlen, hsize]
    rw [hrest] at hmatch
    obtain ⟨js, z, hjs, hshapes⟩ := ih (m := m + j.size) (by omega) hmatch.2
    exact ⟨j :: js, z, .cons hj hjs, by rw [List.map_cons, List.map_cons, hshape, hshapes]⟩

end BuiltIn

/-- Masking keeps the shape of code: every place that the untrimmed signature of consecutive
instructions finds holds instructions of the same sizes, mnemonics, operand kinds and offsets. -/
theorem shapes_of_found (hb : a.BuiltIn) (hi : a.image.Separated)
    (hw : a.decoder.Walk x is y) (hne : is ≠ []) :
    ∃ found, a.image.find (Dialect.ida.render (a.cellsOf true is)) none = .ok found ∧
      ∀ m ∈ found, ∃ js z, a.decoder.Walk m js z ∧
        js.map Instruction.shape = is.map Instruction.shape := by
  have hcells : a.cellsOf true is ≠ [] := by
    cases hw with
    | nil => exact absurd rfl hne
    | cons hd _ =>
      obtain ⟨c, hc, -⟩ := exists_literal_mem_cells hb hi hd true
      exact List.ne_nil_of_mem (List.mem_append_left _ hc)
  refine ⟨_, Image.find_render hcells, fun m hm => ?_⟩
  obtain ⟨t, ht, hc, hmatch⟩ := Image.mem_occurrences_iff.mp hm
  exact exists_walk_of_match hb hi hw ht (Segment.contains_iff.mp hc).1 hmatch

/-- Two loads that differ in their displacement alone. -/
theorem shapes_of_found_load :
    let i : Instruction := ⟨0, 3, "mov", "eax, dword ptr [rbp + 0x8]", [0x8B, 0x45, 0x08], false,
      [⟨.register, 0, none⟩, ⟨.displaced, 2, none⟩]⟩
    ∃ a, ofImage (.flat [0x8B, 0x45, 0x08, 0x8B, 0x45, 0x10] 0 true "metapc" 64)
        ⟨true, true, true⟩ = .ok a ∧
      a.BuiltIn ∧ a.image.Separated ∧ a.decoder.Walk 0 [i] 3 ∧ [i] ≠ [] ∧
      ∃ found, a.image.find (Dialect.ida.render (a.cellsOf true [i])) none = .ok found ∧
        ∀ m ∈ found, ∃ js z, a.decoder.Walk m js z ∧
          js.map Instruction.shape = [i].map Instruction.shape := by
  intro i
  have ha : ofImage (.flat [0x8B, 0x45, 0x08, 0x8B, 0x45, 0x10] 0 true "metapc" 64)
      ⟨true, true, true⟩ = .ok _ := rfl
  have hb := builtIn_of_ofImage ha
  have hi : (Image.flat [0x8B, 0x45, 0x08, 0x8B, 0x45, 0x10] 0 true "metapc" 64).Separated :=
    Image.separated_flat (by decide) ..
  have hd : (Decoder.ofImage (.flat [0x8B, 0x45, 0x08, 0x8B, 0x45, 0x10] 0 true "metapc" 64)
      .bits64).decode? 0 = some i := by cbv
  exact ⟨_, ha, hb, hi, .single hd, by decide, shapes_of_found hb hi (.single hd) (by decide)⟩

end Analysis

end CodeSignature
