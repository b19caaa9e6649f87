import CodeSignature.Proofs.Decoder.Sweep
import CodeSignature.Proofs.Encoding.Delimited

/-! # Look-ups, decoding and the sweep

The segment at an address, the instruction that is decoded there and the entry of the listing that
begins there are found in different ways. In a separated image they are about the same bytes.
-/

namespace CodeSignature

namespace Decoder

variable {image : Image} {mode : Mode} {x : Int} {i e : Instruction}

theorem of_decode?_ofImage (hi : image.Separated) (h : (ofImage image mode).decode? x = some i) :
    i.address = x ∧ 1 ≤ i.size ∧ (i.bytes.length : Int) = i.size ∧ i.bytes = image.read x i.size ∧
      ∃ s, image.segmentAt? x = some s ∧ s.start ≤ x ∧ x + i.size ≤ s.stop := by
  obtain ⟨s, hs, hc, -⟩ := (decode?_ofImage_iff hi).mp h
  obtain ⟨haddress, hpos, hle, hbytes⟩ := bytes_of_decode?_ofImage hi hs hc h
  have hread := hbytes.trans (hi.read_eq hs hc i.size).symm
  have hat := hi.segmentAt?_eq_some_iff.mpr ⟨hs, hc⟩
  exact ⟨haddress, hpos, length_bytes_of_decode?_ofImage hi h, hread, s, hat,
    (Segment.contains_iff.mp hc).1, hle⟩

theorem decode?_address_of_mem_listing (hi : image.Separated)
    (he : e ∈ (ofImage image mode).listing) :
    (ofImage image mode).decode? e.address = if e.mnemonic = "db" then none else some e := by
  obtain ⟨s, hs, -, hc, hone⟩ := exists_segment_of_mem_listing he
  have hne : s.rest e.address ≠ [] := by
    rw [← List.length_pos_iff]
    have hrest := Segment.length_rest_of_contains hc
    have := Segment.contains_iff.mp hc
    omega
  obtain ⟨-, hpos, -, -⟩ := Encoding.bytes_of_decodeOne mode e.address hne
  have hdecode := Encoding.decodeOne_eq mode e.address hne
  rw [hone] at hpos hdecode
  rw [decode?_ofImage_eq hi hs hc, ← hdecode]
  simp only [hpos.ne', or_false]

/-- The segments are given in any order. None is empty, and no two share an address. -/
theorem look_ups_agree {segments : List Segment} (hn : ∀ s ∈ segments, s.data ≠ [])
    (ha : segments.Pairwise Segment.Apart) (processor : String) (bitness : Int)
    (entryPoint : Option Int) (mode : Mode) :
    let image := Image.ofSegments segments processor bitness entryPoint
    let d := ofImage image mode
    (∀ x s, image.segmentAt? x = some s ↔ s ∈ segments ∧ s.contains x = true) ∧
      (∀ x, image.segmentAt? x = none ↔ ∀ s ∈ segments, s.contains x = false) ∧
      (∀ x i, d.decode? x = some i →
        i.address = x ∧ 1 ≤ i.size ∧ (i.bytes.length : Int) = i.size ∧
          i.bytes = image.read x i.size ∧
          ∃ s, image.segmentAt? x = some s ∧ s.start ≤ x ∧ x + i.size ≤ s.stop) ∧
      ∀ e ∈ d.listing,
        d.decode? e.address = (if e.mnemonic = "db" then none else some e) ∧
          image.isCode e.address = true := by
  intro image d
  have hi : image.Separated := Image.separated_ofSegments hn ha
  have hmem : ∀ s, s ∈ image.segments ↔ s ∈ segments := fun s => Image.mem_arrange
  refine ⟨fun x s => ?_, fun x => ?_, fun x i h => of_decode?_ofImage hi h, fun e he => ?_⟩
  · rw [hi.segmentAt?_eq_some_iff, hmem]
  · simp only [hi.segmentAt?_eq_none_iff, hmem]
  · exact ⟨decode?_address_of_mem_listing hi he, isCode_of_mem_listing hi he⟩

/-- A move, a byte that begins no instruction, and a return right before a segment of data. -/
theorem look_ups_agree_move :
    let data : Segment := ⟨".data", 0x1005, [0x90], false⟩
    let text : Segment := ⟨".text", 0x1000, [0x48, 0x89, 0xE5, 0x06, 0xC3], true⟩
    let move : Instruction := ⟨0x1000, 3, "mov", "rbp, rsp", [0x48, 0x89, 0xE5], false,
      [⟨.register, 0, none⟩, ⟨.register, 0, none⟩]⟩
    let image := Image.ofSegments [data, text] "metapc" 64 none
    let d := ofImage image .bits64
    [data, text].Pairwise Segment.Apart ∧ image.segmentAt? 0x1004 = some text ∧
      image.segmentAt? 0x1005 = some data ∧ image.segmentAt? 0x1006 = none ∧
      d.decode? 0x1000 = some move ∧ move.bytes = image.read 0x1000 3 ∧
      ∃ e ∈ d.listing, e.address = 0x1003 ∧ d.decode? 0x1003 = none ∧ image.isCode 0x1003 = true := by
  intro data text move image d
  have ha : [data, text].Pairwise Segment.Apart := by
    simp [Segment.Apart, Segment.stop, data, text]
  have hmove : d.decode? 0x1000 = some move := by
    unfold move d image
    cbv
  have hsweep : d.listing =
      [move, Encoding.unknown 0x1003 [0x06], ⟨0x1004, 1, "ret", "", [0xC3], false, []⟩] := by
    unfold move d image
    cbv
  have hunknown : Encoding.unknown 0x1003 [0x06] ∈ d.listing := by simp [hsweep]
  have hn : ∀ s ∈ [data, text], s.data ≠ [] := by decide
  obtain ⟨hat, hnone, hdecode, hlisting⟩ := look_ups_agree hn ha "metapc" 64 none .bits64
  obtain ⟨-, -, -, hbytes, -⟩ := hdecode 0x1000 move hmove
  obtain ⟨he, hcode⟩ := hlisting _ hunknown
  exact ⟨ha, (hat _ _).mpr ⟨by simp, by decide⟩, (hat _ _).mpr ⟨by simp, by decide⟩,
    (hnone _).mpr (by decide), hmove, hbytes, _, hunknown, rfl, he, hcode⟩

end Decoder

end CodeSignature
