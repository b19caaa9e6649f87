import CodeSignature.Proofs.Decoder.Walk
import CodeSignature.Proofs.Instruction.Shape
import CodeSignature.Proofs.Signature.Trim
import CodeSignature.Search.Analysis

/-! # The cells of decoded instructions

Under the built-in decoder the cells of an instruction are its bytes, of which those from the first
operand field on are wildcards. The cells of a walk agree with the memory that the walk begins in.
-/

namespace CodeSignature

namespace Instruction

def keptSize (wildcards : Bool) (i : Instruction) : Nat :=
  if wildcards then i.literalSize else i.size.toNat

/-- The bytes of an instruction as cells, wildcards from the first operand field on. -/
def masked (wildcards : Bool) (i : Instruction) : Signature :=
  .ofBytes false (i.bytes.take (i.keptSize wildcards)) ++
    .ofBytes true (i.bytes.drop (i.keptSize wildcards))

@[simp] theorem values_masked (w : Bool) (i : Instruction) : (i.masked w).values = i.bytes := by
  simp [masked]

@[simp] theorem length_masked (w : Bool) (i : Instruction) :
    (i.masked w).length = i.bytes.length := by
  rw [← Signature.length_values, values_masked]

end Instruction

namespace Analysis

/-- The instructions are decoded from the image itself, and masked from their first field on. -/
structure BuiltIn (a : Analysis) : Prop where
  decoder : ∃ mode, a.decoder = .ofImage a.image mode
  masking : a.masking = .fields

variable {a : Analysis} {image : Image} {h : Heuristics} {wildcards : Bool} {x y : Int}
  {i : Instruction} {is : List Instruction} {s : Segment}

theorem eq_of_ofImage (ha : ofImage image h = .ok a) :
    Masking.isArm image.processor = false ∧
      a = ofDecoder image (.ofImage image (Decoder.modeOf image)) h := by
  unfold ofImage decoderFor at ha
  split at ha
  · simp [Except.map] at ha
  next hp =>
    simp only [Except.map, Except.ok.injEq] at ha
    exact ⟨by simpa using hp, ha.symm⟩

theorem image_of_ofImage (ha : ofImage image h = .ok a) : a.image = image := by
  obtain ⟨-, rfl⟩ := eq_of_ofImage ha
  rfl

theorem builtIn_of_ofImage (ha : ofImage image h = .ok a) : a.BuiltIn := by
  obtain ⟨hp, rfl⟩ := eq_of_ofImage ha
  exact ⟨⟨_, rfl⟩, by simp [ofDecoder, Masking.forProcessor, hp]⟩

@[simp] theorem cellsOf_nil (a : Analysis) (wildcards : Bool) : a.cellsOf wildcards [] = [] := rfl

@[simp] theorem cellsOf_cons (a : Analysis) (wildcards : Bool) (i : Instruction)
    (is : List Instruction) :
    a.cellsOf wildcards (i :: is) = a.cells wildcards i ++ a.cellsOf wildcards is := rfl

theorem cellsOf_append (a : Analysis) (wildcards : Bool) (is js : List Instruction) :
    a.cellsOf wildcards (is ++ js) = a.cellsOf wildcards is ++ a.cellsOf wildcards js :=
  List.flatMap_append

theorem cellsOf_prefix (a : Analysis) (wildcards : Bool) {js : List Instruction} (h : js <+: is) :
    a.cellsOf wildcards js <+: a.cellsOf wildcards is := by
  obtain ⟨rest, rfl⟩ := h
  exact ⟨a.cellsOf wildcards rest, (a.cellsOf_append wildcards js rest).symm⟩

theorem literal_of_mem_cellsOf {c : Cell} (hc : c ∈ a.cellsOf false is) : c.wildcard = false := by
  obtain ⟨i, -, hi⟩ := List.mem_flatMap.mp hc
  obtain ⟨b, -, rfl⟩ := List.mem_map.mp (hi : c ∈ a.bytes false i.address i.size)
  rfl

section Separated

variable (hb : a.BuiltIn) (hi : a.image.Separated)
include hb hi

theorem bytes_of_decode? (hs : s ∈ a.image.segments) (hc : s.contains x = true)
    (h : a.decoder.decode? x = some i) :
    i.address = x ∧ 0 < i.size ∧ x + i.size ≤ s.stop ∧
      i.bytes = (s.rest x).take i.size.toNat := by
  obtain ⟨mode, hd⟩ := hb.decoder
  rw [hd] at h
  exact Decoder.bytes_of_decode?_ofImage hi hs hc h

theorem exists_segment_of_decode? (h : a.decoder.decode? x = some i) :
    ∃ mode, ∃ s ∈ a.image.segments,
      s.contains x = true ∧ Encoding.decode? mode x (s.rest x) = some i := by
  obtain ⟨mode, hd⟩ := hb.decoder
  rw [hd] at h
  exact ⟨mode, (Decoder.decode?_ofImage_iff hi).mp h⟩

theorem length_bytes_of_decode? (h : a.decoder.decode? x = some i) :
    (i.bytes.length : Int) = i.size := by
  obtain ⟨mode, hd⟩ := hb.decoder
  rw [hd] at h
  exact Decoder.length_bytes_of_decode?_ofImage hi h

theorem cells_eq_masked (h : a.decoder.decode? x = some i) (wildcards : Bool) :
    a.cells wildcards i = i.masked wildcards := by
  obtain ⟨mode, s, hs, hc, hdec⟩ := exists_segment_of_decode? hb hi h
  obtain ⟨rfl, hp, hl, hbytes⟩ := bytes_of_decode? hb hi hs hc h
  have hlen := length_bytes_of_decode? hb hi h
  have hall : ∀ n : Nat, i.size ≤ n → a.bytes false i.address i.size =
      .ofBytes false (i.bytes.take n) ++ .ofBytes true (i.bytes.drop n) := by
    intro n hn
    rw [bytes, hi.read_eq hs hc, ← hbytes, List.take_of_length_le (by omega),
      List.drop_of_length_le (by omega)]
    simp [Signature.ofBytes]
  simp only [cells, hb.masking, Masking.range?, Instruction.masked, Instruction.keptSize]
  cases wildcards with
  | false => exact hall i.size.toNat (by omega)
  | true =>
    simp only [if_true, Instruction.literalSize]
    cases hfind : i.operands.find? fun o => o.kind ≠ .void ∧ o.offset ≠ 0 with
    | none => exact hall i.size.toNat (by omega)
    | some o =>
      have ho := List.find?_some hfind
      simp only [decide_eq_true_eq] at ho
      have hpos := Encoding.offset_nonneg hdec (List.mem_of_find?_eq_some hfind)
      simp only [Option.map_some]
      split
      next hfield =>
        -- The field starts inside the instruction, so it is read from the same segment.
        have hx := Segment.contains_iff.mp hc
        have hc' : s.contains (i.address + o.offset) = true :=
          Segment.contains_iff.mpr ⟨by omega, by omega⟩
        rw [if_neg (by omega), List.append_nil, bytes, bytes, hi.read_eq hs hc,
          hi.read_eq hs hc', Segment.rest_add_toNat hx.1 hpos, hbytes, List.take_take,
          List.drop_take]
        congr 3 <;> omega
      next => exact hall _ (by omega)

theorem values_cells (h : a.decoder.decode? x = some i) (wildcards : Bool) :
    (a.cells wildcards i).values = a.image.read i.address i.size := by
  obtain ⟨-, s, hs, hc, -⟩ := exists_segment_of_decode? hb hi h
  obtain ⟨rfl, -, -, hbytes⟩ := bytes_of_decode? hb hi hs hc h
  rw [cells_eq_masked hb hi h, Instruction.values_masked, hi.read_eq hs hc, hbytes]

theorem length_cells (h : a.decoder.decode? x = some i) (wildcards : Bool) :
    ((a.cells wildcards i).length : Int) = i.size := by
  rw [cells_eq_masked hb hi h, Instruction.length_masked, length_bytes_of_decode? hb hi h]

theorem exists_cells_eq_cons (h : a.decoder.decode? x = some i) (wildcards : Bool) :
    ∃ (c : Cell) (rest : Signature), a.cells wildcards i = c :: rest ∧ c.wildcard = false := by
  obtain ⟨mode, s, hs, hc, hdec⟩ := exists_segment_of_decode? hb hi h
  obtain ⟨head, hread, -, hhead⟩ := Encoding.decode?_eq_some_iff.mp hdec
  have hp := (bytes_of_decode? hb hi hs hc h).2.1
  have hkept : 0 < i.keptSize wildcards := by
    have hl := head.size_le_literalSize x ((s.rest x).take head.total)
    have := Head.size_pos hread
    rw [← hhead] at hl
    unfold Instruction.keptSize
    split <;> omega
  have hlen := length_bytes_of_decode? hb hi h
  obtain ⟨b, rest, hbytes⟩ : ∃ b rest, i.bytes = b :: rest := by
    refine List.exists_cons_of_ne_nil fun hnil => ?_
    rw [hnil, List.length_nil] at hlen
    omega
  obtain ⟨n, hn⟩ := Nat.exists_eq_add_one_of_ne_zero (Nat.ne_of_gt hkept)
  rw [cells_eq_masked hb hi h, Instruction.masked, hbytes, hn]
  exact ⟨⟨b, false⟩, _, rfl, rfl⟩

theorem exists_literal_mem_cells (h : a.decoder.decode? x = some i) (wildcards : Bool) :
    ∃ c ∈ a.cells wildcards i, c.wildcard = false := by
  obtain ⟨c, rest, hcells, hliteral⟩ := exists_cells_eq_cons hb hi h wildcards
  exact ⟨c, hcells ▸ List.mem_cons_self, hliteral⟩

theorem length_cellsOf (h : a.decoder.Walk x is y) (wildcards : Bool) :
    ((a.cellsOf wildcards is).length : Int) = y - x := by
  induction h with
  | nil => simp
  | cons hd _ ih =>
    have := length_cells hb hi hd wildcards
    rw [cellsOf_cons, List.length_append]
    omega

/-- The cells of a walk agree with the segment it begins in, even if the walk leaves it. -/
theorem agrees_cellsOf (hs : s ∈ a.image.segments) (hc : s.contains x = true)
    (h : a.decoder.Walk x is y) (wildcards : Bool) :
    (a.cellsOf wildcards is).Agrees (s.rest x) := by
  induction h with
  | nil => exact Signature.agrees_nil _
  | @cons x y i is hd hw ih =>
    obtain ⟨-, hp, hl, hbytes⟩ := bytes_of_decode? hb hi hs hc hd
    have hlen := length_cells hb hi hd wildcards
    have hx := Segment.contains_iff.mp hc
    have hrest : (s.rest x).drop (a.cells wildcards i).length = s.rest (x + i.size) := by
      rw [← Segment.rest_add hx.1, hlen]
    rw [cellsOf_cons]
    refine Signature.Agrees.append ?_ ?_
    · rw [cells_eq_masked hb hi hd, Instruction.values_masked, hbytes, Instruction.length_masked,
        hbytes, List.length_take, List.take_eq_take_iff]
      omega
    · rw [hrest]
      rcases Int.lt_or_eq_of_le hl with hlt | heq
      · exact ih (Segment.contains_iff.mpr ⟨by omega, hlt⟩)
      · have hnil : s.rest (x + i.size) = [] := by
          rw [← List.length_eq_zero_iff]
          have := Segment.length_rest (s := s) (x := x + i.size) (by omega)
          omega
        intro k c b _ hb
        simp [hnil] at hb

/-- A front part of a walk's cells occurs at the start exactly if the segment has room for it. -/
theorem mem_occurrences_start_iff (hs : s ∈ a.image.segments) (hc : s.contains x = true)
    (h : a.decoder.Walk x is y) {wildcards : Bool} {cells : Signature}
    (hp : cells <+: a.cellsOf wildcards is) :
    x ∈ a.image.occurrences cells.pattern ↔ x + cells.length ≤ s.stop := by
  have hagree := (agrees_cellsOf hb hi hs hc h wildcards).of_front hp
  rw [Image.mem_occurrences_iff]
  constructor
  · rintro ⟨t, ht, htc, hm⟩
    obtain rfl := hi.eq_of_contains ht hs htc hc
    simpa using Image.add_length_le_of_matchesFront htc hm
  · intro hl
    refine ⟨s, hs, hc, hagree.matchesFront_iff.mpr ?_⟩
    have := Segment.length_rest_of_contains hc
    omega

end Separated

end Analysis

end CodeSignature
