import CodeSignature.Proofs.Decoder.Walk
import CodeSignature.Proofs.Encoding.Partition
import CodeSignature.Proofs.Listing.Run

/-! # The listing of an image

Each executable segment of a separated image is swept without a gap, so the listing of the image is
laid. A walk has no gaps either, and where an entry of the listing begins nothing else can be decoded.
-/

namespace CodeSignature

namespace Encoding

variable {mode : Mode} {x : Int} {bytes : List UInt8} {i : Instruction}

theorem decodeOne_of_decode? (h : decode? mode x bytes = some i) : decodeOne mode x bytes = i := by
  have hne : bytes ≠ [] := by
    rintro rfl
    obtain ⟨-, hpos, hle, -⟩ := bytes_of_decode? h
    rw [List.length_nil] at hle
    omega
  rw [decodeOne, if_neg hne, h, Option.getD_some]

theorem decodeOne_of_mem_sweep (hi : i ∈ sweep mode x bytes) :
    x ≤ i.address ∧ i.address < x + bytes.length ∧
      decodeOne mode i.address (bytes.drop (i.address - x).toNat) = i := by
  induction hn : bytes.length using Nat.strong_induction_on generalizing x bytes with
  | _ n ih =>
    have hne : bytes ≠ [] := by
      rintro rfl
      simp [sweep] at hi
    obtain ⟨haddress, hpos, hle, -⟩ := bytes_of_decodeOne mode x hne
    rw [sweep_of_ne_nil mode x hne] at hi
    rcases List.mem_cons.mp hi with rfl | hi
    · refine ⟨haddress.ge, by omega, ?_⟩
      simp [haddress]
    · obtain ⟨hstart, hstop, hone⟩ := ih _ (by rw [List.length_drop]; omega) hi rfl
      rw [List.length_drop] at hstop
      rw [List.drop_drop] at hone
      refine ⟨by omega, by omega, ?_⟩
      convert hone using 3
      omega

end Encoding

namespace Listing

theorem contiguous_of_tiles {x : Int} {is : List Instruction} {code : List UInt8}
    (h : Tiles x is code) : Contiguous x is (x + code.length) := by
  induction h with
  | nil x => simpa using Contiguous.nil x
  | @cons x i is rest haddress hsize hbytes _ ih =>
    refine .cons haddress hsize ?_
    rw [List.length_append, Nat.cast_add, hbytes, ← Int.add_assoc]
    rwa [Instruction.next, haddress]

theorem contiguous_sweep (mode : Mode) (x : Int) (code : List UInt8) :
    Contiguous x (Encoding.sweep mode x code) (x + code.length) :=
  contiguous_of_tiles (Encoding.tiles_sweep mode x code)

theorem laid_flatMap_sweep (mode : Mode) {segments : List Segment}
    (h : segments.Pairwise fun s t => s.stop ≤ t.start) :
    Laid (segments.flatMap fun s => Encoding.sweep mode s.start s.data) :=
  Laid.flatMap (fun s => contiguous_sweep mode s.start s.data) h

end Listing

namespace Decoder

variable {image : Image} {mode : Mode} {x y : Int} {i j : Instruction} {is : List Instruction}

theorem Walk.contiguous (hi : image.Separated) (h : (ofImage image mode).Walk x is y) :
    Listing.Contiguous x is y := by
  induction h with
  | nil => exact .nil _
  | cons hd _ ih =>
    obtain ⟨s, hs, hc, -⟩ := (decode?_ofImage_iff hi).mp hd
    obtain ⟨rfl, hpos, -, -⟩ := bytes_of_decode?_ofImage hi hs hc hd
    exact .cons rfl hpos ih

theorem laid_listing (hi : image.Separated) (mode : Mode) :
    Listing.Laid (ofImage image mode).listing :=
  Listing.laid_flatMap_sweep mode (hi.stop_le_start.sublist List.filter_sublist)

theorem mem_listing_iff :
    i ∈ (ofImage image mode).listing ↔
      ∃ s ∈ image.segments, s.executable = true ∧ i ∈ Encoding.sweep mode s.start s.data := by
  simp only [ofImage, List.mem_flatMap, List.mem_filter, and_assoc]

theorem exists_segment_of_mem_listing (hj : j ∈ (ofImage image mode).listing) :
    ∃ s ∈ image.segments, s.executable = true ∧ s.contains j.address = true ∧
      Encoding.decodeOne mode j.address (s.rest j.address) = j := by
  obtain ⟨s, hs, hexecutable, hj⟩ := mem_listing_iff.mp hj
  obtain ⟨hstart, hstop, hone⟩ := Encoding.decodeOne_of_mem_sweep hj
  exact ⟨s, hs, hexecutable, Segment.contains_iff.mpr ⟨hstart, hstop⟩, hone⟩

theorem isCode_of_mem_listing (hi : image.Separated) (hj : j ∈ (ofImage image mode).listing) :
    image.isCode j.address = true := by
  obtain ⟨s, hs, hexecutable, hc, -⟩ := exists_segment_of_mem_listing hj
  rw [hi.isCode_eq hs hc, hexecutable]

/-- An instruction that is decoded where an entry of the listing begins is that entry. -/
theorem eq_of_decode?_of_mem_listing (hi : image.Separated) (hj : j ∈ (ofImage image mode).listing)
    (h : (ofImage image mode).decode? j.address = some i) : i = j := by
  obtain ⟨s, hs, -, hc, hone⟩ := exists_segment_of_mem_listing hj
  rw [decode?_ofImage_eq hi hs hc] at h
  rw [← hone]
  exact (Encoding.decodeOne_of_decode? h).symm

end Decoder

end CodeSignature
