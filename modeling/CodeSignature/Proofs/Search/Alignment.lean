import CodeSignature.Proofs.Encoding.Field
import CodeSignature.Proofs.Search.Cells
import CodeSignature.Search.Growth

/-! # Alignment

The cells of a decoded instruction are its bytes, and the wildcards among them are the bytes from the
first field on. With any other decoder the cells are consecutive bytes of memory, but a masked range
whose length is guessed may reach over the end of the instruction.
-/

namespace CodeSignature

variable {a : Analysis} {s : Segment} {x : Int} {i : Instruction}

/-! ### Decoded instructions -/

theorem Instruction.wildcard_masked_iff {wildcards : Bool} {k : Nat} {c : Cell}
    (hc : (i.masked wildcards)[k]? = some c) :
    c.wildcard = true ↔ i.keptSize wildcards ≤ k := by
  have hlength := (List.getElem?_eq_some_iff.mp hc).1
  rw [length_masked] at hlength
  simp only [masked, Signature.ofBytes] at hc
  rcases Nat.lt_or_ge k (i.keptSize wildcards) with hlt | hge
  · rw [List.getElem?_append_left (by simp; omega), List.getElem?_map] at hc
    obtain ⟨b, -, rfl⟩ := Option.map_eq_some_iff.mp hc
    exact iff_of_false Bool.false_ne_true (Nat.not_le.mpr hlt)
  · rw [List.getElem?_append_right (by simp; omega), List.getElem?_map] at hc
    obtain ⟨b, -, rfl⟩ := Option.map_eq_some_iff.mp hc
    exact iff_of_true rfl hge

namespace Encoding

variable {mode : Mode} {bytes : List UInt8}

theorem literalSize_cases (h : decode? mode x bytes = some i) :
    (∀ o ∈ i.operands, o.offset = 0) ∧ i.literalSize = i.size.toNat ∨
      ∃ o ∈ i.operands, 0 < o.offset ∧ o.offset < i.size ∧ i.literalSize = o.offset.toNat ∧
        ∀ other ∈ i.operands, other.offset ≠ 0 → o.offset ≤ other.offset := by
  obtain ⟨head, hread, hi⟩ := exists_own_head h
  have hkind : ∀ o ∈ i.operands, o.kind ≠ .void := by
    rw [hi]
    exact fun o ho => Head.kind_ne_void ho
  have hmem : ∀ o ∈ i.operands, o.offset = 0 ∨ 0 < o.offset ∧ o.offset < i.size := by
    rw [hi]
    exact fun o ho => Head.offset_mem hread ho
  have hordered : i.operands.Pairwise fun o later =>
      o.offset ≠ 0 → later.offset ≠ 0 → o.offset ≤ later.offset := by
    rw [hi]
    exact Head.pairwise_offset hread x i.bytes
  unfold Instruction.literalSize
  cases hfind : i.operands.find? fun o => o.kind ≠ .void ∧ o.offset ≠ 0 with
  | none =>
    refine .inl ⟨fun o ho => ?_, rfl⟩
    by_contra hne
    simpa [hkind o ho, hne] using List.find?_eq_none.mp hfind o ho
  | some o =>
    obtain ⟨hfield, before, after, hsplit, hbefore⟩ := List.find?_eq_some_iff_append.mp hfind
    simp only [decide_eq_true_eq] at hfield
    have ho := List.mem_of_find?_eq_some hfind
    obtain ⟨hpos, hlt⟩ := (hmem o ho).resolve_left hfield.2
    refine .inr ⟨o, ho, hpos, hlt, rfl, fun other hother hne => ?_⟩
    have hk := hkind other hother
    -- What stands in front of the operand that is found has no field.
    rw [hsplit] at hordered hother
    rcases List.mem_append.mp hother with hfront | hback
    · simpa [hk, hne] using hbefore other hfront
    · rcases List.mem_cons.mp hback with rfl | hafter
      · exact Int.le_refl _
      · have hlater := (List.pairwise_append.mp hordered).2.1
        exact List.rel_of_pairwise_cons hlater hafter hfield.2 hne

theorem range?_cases (h : decode? mode x bytes = some i) :
    Masking.fields.range? i = none ∧ i.literalSize = i.size.toNat ∨
      Masking.fields.range? i = some ((i.literalSize : Int), i.size - i.literalSize) ∧
        0 < i.literalSize ∧ i.literalSize < i.size := by
  have hcases := literalSize_cases h
  simp only [Masking.range?]
  unfold Instruction.literalSize at hcases ⊢
  cases hfind : i.operands.find? fun o => o.kind ≠ .void ∧ o.offset ≠ 0 with
  | none => exact .inl ⟨rfl, rfl⟩
  | some o =>
    have hne : o.kind ≠ .void ∧ o.offset ≠ 0 := by simpa using List.find?_some hfind
    rw [hfind] at hcases
    rcases hcases with ⟨hzero, -⟩ | ⟨o', -, hpos, hlt, hsize, -⟩
    · exact absurd (hzero o (List.mem_of_find?_eq_some hfind)) hne.2
    · dsimp only at hsize ⊢
      have hoffset : o.offset = o.offset.toNat := by omega
      rw [Option.map_some, ← hoffset]
      exact .inr ⟨rfl, by omega, by omega⟩

end Encoding

namespace Analysis

/-- An appended instruction contributes its bytes, the first of them literal. Its wildcards are the
bytes from the smallest offset of an operand field on, if there is a field. -/
theorem append_masked (hb : a.BuiltIn) (hi : a.image.Separated)
    (h : a.decoder.decode? x = some i) (g : Growth) :
    (∀ wildcards, (g.append a wildcards i).cells = g.cells ++ a.cells wildcards i ∧
      ((a.cells wildcards i).length : Int) = i.size ∧
      (a.cells wildcards i).values = a.image.read x i.size ∧
      ∃ c, (a.cells wildcards i).head? = some c ∧ c.wildcard = false) ∧
    (∀ c ∈ a.cells false i, c.wildcard = false) ∧
    ((∀ o ∈ i.operands, o.offset = 0) ∧ (∀ c ∈ a.cells true i, c.wildcard = false) ∨
      ∃ o ∈ i.operands, 0 < o.offset ∧ o.offset < i.size ∧
        (∀ other ∈ i.operands, other.offset ≠ 0 → o.offset ≤ other.offset) ∧
        ∀ (k : Nat) c, (a.cells true i)[k]? = some c → (c.wildcard = true ↔ o.offset ≤ k)) := by
  obtain ⟨mode, s, hs, hc, hdec⟩ := exists_segment_of_decode? hb hi h
  obtain ⟨rfl, -⟩ := bytes_of_decode? hb hi hs hc h
  have hmask : ∀ {k : Nat} {c}, (a.cells true i)[k]? = some c →
      (c.wildcard = true ↔ i.literalSize ≤ k) := by
    intro k c hk
    rw [cells_eq_masked hb hi h] at hk
    exact Instruction.wildcard_masked_iff hk
  refine ⟨fun w => ⟨rfl, length_cells hb hi h w, values_cells hb hi h w, ?_⟩, ?_, ?_⟩
  · obtain ⟨c, rest, hcells, hliteral⟩ := exists_cells_eq_cons hb hi h w
    exact ⟨c, by rw [hcells, List.head?_cons], hliteral⟩
  · intro c hmem
    have hmem' : c ∈ a.cellsOf false [i] := by simpa using hmem
    exact literal_of_mem_cellsOf hmem'
  · rcases Encoding.literalSize_cases hdec with ⟨hnone, hsize⟩ | ⟨o, ho, hpos, hlt, hsize, hleast⟩
    · refine .inl ⟨hnone, fun c hmem => ?_⟩
      obtain ⟨k, hk⟩ := List.mem_iff_getElem?.mp hmem
      have hlength := length_cells hb hi h true
      have hlt := (List.getElem?_eq_some_iff.mp hk).1
      rw [← Bool.not_eq_true, hmask hk]
      omega
    · refine .inr ⟨o, ho, hpos, hlt, hleast, fun k c hk => ?_⟩
      rw [hmask hk]
      omega

/-- A store with a displacement and an immediate field is masked from the displacement on. -/
theorem append_masked_store :
    let i : Instruction := ⟨0, 7, "mov", "dword ptr [rbp - 0x4], 0x1",
      [0xC7, 0x45, 0xFC, 0x01, 0x00, 0x00, 0x00], false,
      [⟨.displaced, 2, none⟩, ⟨.immediate, 3, some 1⟩]⟩
    ∃ a, ofImage (.flat [0xC7, 0x45, 0xFC, 0x01, 0x00, 0x00, 0x00, 0xC3] 0 true "metapc" 64)
        ⟨true, true, true⟩ = .ok a ∧
      a.BuiltIn ∧ a.image.Separated ∧ a.decoder.decode? 0 = some i ∧
      ((Growth.start 0).append a true i).cells = a.cells true i ∧
      ∀ (k : Nat) c, (a.cells true i)[k]? = some c → (c.wildcard = true ↔ 2 ≤ k) := by
  intro i
  have ha : ofImage (.flat [0xC7, 0x45, 0xFC, 0x01, 0x00, 0x00, 0x00, 0xC3] 0 true "metapc" 64)
      ⟨true, true, true⟩ = .ok _ := rfl
  have hb := builtIn_of_ofImage ha
  have hi : (Image.flat [0xC7, 0x45, 0xFC, 0x01, 0x00, 0x00, 0x00, 0xC3] 0 true "metapc"
      64).Separated := Image.separated_flat (by decide) ..
  have hd : (Decoder.ofImage (.flat [0xC7, 0x45, 0xFC, 0x01, 0x00, 0x00, 0x00, 0xC3] 0 true
      "metapc" 64) .bits64).decode? 0 = some i := by cbv
  obtain ⟨hcells, -, hmask⟩ := append_masked hb hi hd (Growth.start 0)
  refine ⟨_, ha, hb, hi, hd, (hcells true).1, ?_⟩
  rcases hmask with ⟨hnone, -⟩ | ⟨o, ho, -, -, hleast, hwildcards⟩
  · exact absurd (hnone ⟨.displaced, 2, none⟩ (by simp [i])) (by decide)
  · have hoffset := hleast ⟨.displaced, 2, none⟩ (by simp [i]) (by decide)
    obtain rfl : o = ⟨.displaced, 2, none⟩ := by
      simp only [i, List.mem_cons, List.not_mem_nil, or_false] at ho
      rcases ho with rfl | rfl
      · rfl
      · exact absurd hoffset (by decide)
    intro k c hk
    rw [hwildcards k c hk]
    exact Int.ofNat_le

end Analysis

/-! ### Any decoder -/

namespace Masking

/-- How many bytes of the masked range lie behind the instruction. -/
def overrun (masking : Masking) (i : Instruction) : Int :=
  match masking.range? i with
  | some (offset, length) => max (offset + length - i.size) 0
  | none => 0

variable {masking : Masking}

theorem armLength?_eq_some_iff {size length : Int} :
    armLength? size = some length ↔ (size = 4 ∨ size = 8) ∧ length = size - 1 := by
  unfold armLength?
  split
  · rw [Option.some.injEq]
    omega
  · split
    · rw [Option.some.injEq]
      omega
    · refine ⟨nofun, ?_⟩
      omega

theorem range?_arm {offset length : Int} :
    Masking.arm.range? i = some (offset, length) ↔
      ((i.size = 4 ∨ i.size = 8) ∧ length = i.size - 1) ∧
        ∃ o, i.operands.find? (fun o => armKinds.contains o.kind) = some o ∧ o.offset = offset := by
  simp only [range?]
  cases i.operands.find? fun o => armKinds.contains o.kind with
  | none => simp
  | some o =>
    simp only [Option.map_eq_some_iff, Prod.mk.injEq, Option.some.injEq, exists_eq_left',
      ← armLength?_eq_some_iff]
    constructor
    · rintro ⟨l, hl, ho, rfl⟩
      exact ⟨hl, ho⟩
    · rintro ⟨hl, ho⟩
      exact ⟨length, hl, ho, rfl⟩

theorem overrun_pos_iff :
    0 < masking.overrun i ↔ masking = .arm ∧ (i.size = 4 ∨ i.size = 8) ∧
      ∃ o, i.operands.find? (fun o => armKinds.contains o.kind) = some o ∧ 2 ≤ o.offset := by
  unfold overrun
  cases masking with
  | fields =>
    simp only [reduceCtorEq, false_and, iff_false]
    split
    next offset length hrange =>
      obtain ⟨o, -, heq⟩ := Option.map_eq_some_iff.mp hrange
      obtain ⟨rfl, rfl⟩ := Prod.mk.inj heq
      omega
    next => omega
  | arm =>
    constructor
    · intro hpos
      split at hpos
      next offset length hrange =>
        obtain ⟨⟨hsize, rfl⟩, o, hfind, rfl⟩ := range?_arm.mp hrange
        exact ⟨rfl, hsize, o, hfind, by omega⟩
      next => omega
    · rintro ⟨-, hsize, o, hfind, hoffset⟩
      rw [range?_arm.mpr ⟨⟨hsize, rfl⟩, o, hfind, rfl⟩]
      dsimp only
      omega

theorem overrun_nonneg (masking : Masking) (i : Instruction) : 0 ≤ masking.overrun i := by
  unfold overrun
  split
  · exact Int.le_max_right ..
  · exact Int.le_refl 0

theorem range?_bounds {offset length : Int}
    (hoffsets : ∀ o ∈ i.operands, 0 ≤ o.offset ∧ o.offset < i.size)
    (h : masking.range? i = some (offset, length)) :
    0 ≤ offset ∧ offset < i.size ∧ 0 < length ∧ length < i.size ∧
      (offset ≠ 0 → i.size ≤ offset + length) := by
  cases masking with
  | fields =>
    obtain ⟨o, hfind, heq⟩ := Option.map_eq_some_iff.mp h
    have ho := hoffsets o (List.mem_of_find?_eq_some hfind)
    have hfield := List.find?_some hfind
    simp only [decide_eq_true_eq] at hfield
    obtain ⟨rfl, rfl⟩ := Prod.mk.inj heq
    omega
  | arm =>
    obtain ⟨hsize, o, hfind, rfl⟩ := range?_arm.mp h
    have ho := hoffsets o (List.mem_of_find?_eq_some hfind)
    omega

end Masking

namespace Analysis

section Segment

variable (hi : a.image.Separated) (hs : s ∈ a.image.segments) (hstart : s.start ≤ i.address)
  (hstop : i.next ≤ s.stop) (hoffsets : ∀ o ∈ i.operands, 0 ≤ o.offset ∧ o.offset < i.size)
include hi hs hstart hstop hoffsets

theorem values_cells_overrun (wildcards : Bool) :
    (a.cells wildcards i).values =
      a.image.read i.address (i.size + if wildcards then a.masking.overrun i else 0) := by
  cases wildcards with
  | false => simp [cells, bytes]
  | true =>
    have hend : i.address + i.size ≤ s.stop := hstop
    simp only [cells, if_true, Masking.overrun]
    cases hrange : a.masking.range? i with
    | none => simp [bytes]
    | some range =>
      obtain ⟨offset, length⟩ := range
      obtain ⟨hzero, hlt, hpos, hless, hreach⟩ := Masking.range?_bounds hoffsets hrange
      simp only [if_pos hpos, bytes, Signature.values_append, Signature.values_ofBytes]
      rw [hi.read_append hs hstart hzero (by omega) (by omega)]
      split
      next heq =>
        -- The range begins with the instruction, and what it leaves of it is appended too.
        rw [Signature.values_ofBytes, heq, Int.zero_add,
          hi.read_append hs hstart (by omega) (by omega) (by omega)]
        congr 1
        omega
      next hne =>
        -- Nothing is appended behind the range, and it ends where the instruction does or later.
        have := hreach hne
        refine (List.append_nil _).trans ?_
        congr 1
        omega

/-- An appended instruction contributes consecutive bytes from its address on: its own and those that
its masked range reaches behind it. So it contributes its own bytes alone, unless the length of the
range is guessed and its offset is not 0 or 1, and the segment goes on. -/
theorem append_aligned_iff (hsize : 1 ≤ i.size) (g : Growth) (wildcards : Bool) :
    (g.append a wildcards i).cells = g.cells ++ a.cells wildcards i ∧
    (a.cells wildcards i).values =
      a.image.read i.address (i.size + if wildcards then a.masking.overrun i else 0) ∧
    (((a.cells wildcards i).length : Int) = i.size ∧
        (a.cells wildcards i).values = a.image.read i.address i.size ↔
      ¬ (wildcards = true ∧ i.next < s.stop ∧ a.masking = .arm ∧ (i.size = 4 ∨ i.size = 8) ∧
        ∃ o, i.operands.find? (fun o => Masking.armKinds.contains o.kind) = some o ∧
          2 ≤ o.offset)) := by
  have hvalues := values_cells_overrun hi hs hstart hstop hoffsets wildcards
  have hnext : i.address + i.size ≤ s.stop := hstop
  have hc : s.contains i.address = true := Segment.contains_iff.mpr ⟨hstart, by omega⟩
  have hmore := a.masking.overrun_nonneg i
  refine ⟨rfl, hvalues, ?_⟩
  rw [← Signature.length_values, hvalues, ← Masking.overrun_pos_iff,
    hi.read_add_eq_iff hs hc (by omega) (by split <;> omega) hnext]
  rw [Instruction.next]
  cases wildcards with
  | false => simp
  | true =>
    simp only [if_true, true_and]
    omega

end Segment

/-- An instruction with an operand in its second byte is masked up to its end. -/
theorem append_aligned_iff_second :
    let i : Instruction := ⟨0, 4, "op", "", [1, 2, 3, 4], false, [⟨.immediate, 1, some 0⟩]⟩
    let a := ofDecoder (.flat [1, 2, 3, 4, 5] 0 true "ARM" 64) (.ofTable [i]) ⟨true, true, true⟩
    let s : Segment := ⟨".flat", 0, [1, 2, 3, 4, 5], true⟩
    a.image.Separated ∧ s ∈ a.image.segments ∧ s.start ≤ i.address ∧ i.next ≤ s.stop ∧
      (∀ o ∈ i.operands, 0 ≤ o.offset ∧ o.offset < i.size) ∧ 1 ≤ i.size ∧
      ((a.cells true i).length : Int) = i.size ∧
      (a.cells true i).values = a.image.read i.address i.size := by
  intro i a s
  have hi : a.image.Separated := Image.separated_flat (by decide) ..
  have hs : s ∈ a.image.segments := by simp [a, s, ofDecoder]
  have hoffsets : ∀ o ∈ i.operands, 0 ≤ o.offset ∧ o.offset < i.size := by simp [i]
  obtain ⟨-, -, haligned⟩ :=
    append_aligned_iff hi hs (by decide) (by decide) hoffsets (by decide) (.start 0) true
  refine ⟨hi, hs, by decide, by decide, hoffsets, by decide, haligned.mpr ?_⟩
  rintro ⟨-, -, -, -, o, hfind, hoffset⟩
  obtain rfl := Option.some.inj hfind
  exact absurd hoffset (by decide)

/-- With the operand in the third byte, the byte behind the instruction is appended as well. -/
theorem append_misaligned :
    let i : Instruction := ⟨0, 4, "op", "", [1, 2, 3, 4], false, [⟨.immediate, 2, some 0⟩]⟩
    let a := ofDecoder (.flat [1, 2, 3, 4, 5] 0 true "ARM" 64) (.ofTable [i]) ⟨true, true, true⟩
    let s : Segment := ⟨".flat", 0, [1, 2, 3, 4, 5], true⟩
    a.image.Separated ∧ s ∈ a.image.segments ∧ s.start ≤ i.address ∧ i.next ≤ s.stop ∧
      (∀ o ∈ i.operands, 0 ≤ o.offset ∧ o.offset < i.size) ∧ 1 ≤ i.size ∧
      (a.cells true i).values = [1, 2, 3, 4, 5] ∧ ((a.cells true i).length : Int) ≠ i.size := by
  intro i a s
  have hi : a.image.Separated := Image.separated_flat (by decide) ..
  have hs : s ∈ a.image.segments := by simp [a, s, ofDecoder]
  have hcells : a.cells true i =
      [⟨1, false⟩, ⟨2, false⟩, ⟨3, true⟩, ⟨4, true⟩, ⟨5, true⟩] := by cbv
  exact ⟨hi, hs, by decide, by decide, by simp [i], by decide, by rw [hcells]; rfl,
    by rw [hcells]; decide⟩

end Analysis

end CodeSignature
