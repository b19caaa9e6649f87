import CodeSignature.Proofs.Encoding.Delimited
import CodeSignature.Proofs.Instruction.Shape

/-! # Operand fields

Behind its head an instruction has a displacement and an immediate field, either of which may be
empty. An operand with a field points to one of them, and its value is what the bytes from there on
stand for.
-/

namespace CodeSignature

/-- No place follows an operand with an immediate field, as the displacement comes first. -/
def Template.Ordered (t : Template) : Prop :=
  t.operands.Pairwise fun form later => form.field? = none ∨ later.isPlace = false

instance : DecidablePred Template.Ordered := fun _ => inferInstanceAs (Decidable (List.Pairwise ..))

def Slot.isImmediate : Slot → Bool
  | .signed | .unsigned | .branch => true
  | _ => false

def memoryKinds : List OperandKind := [.memory, .phrase, .displaced]

/-- The position of the ModR/M byte, right behind the prefixes and the opcode, if the opcode has one. -/
def modRMPosition? (mode : Mode) (bytes : List UInt8) : Option Nat :=
  match Opcode.read mode (Prefixes.read mode bytes).2 with
  | some (.modRM _, _, rest) => some (bytes.length - rest.length)
  | _ => none

variable {mode : Mode} {p : Prefixes} {bytes own rest : List UInt8} {m : ModRM} {t : Template}
  {meaning : Opcode} {head : Head} {slot : Slot} {x : Int} {i : Instruction} {o : Operand}

theorem Bytes.between_natCast (bytes : List UInt8) (start stop : Nat) :
    between bytes start stop = (bytes.take stop).drop start := by
  have hstart : ¬ (start : Int) < 0 := by omega
  have hstop : ¬ (stop : Int) < 0 := by omega
  simp only [between, position, if_neg hstart, if_neg hstop, Int.toNat_natCast]

theorem Addressing.kind_mem (a : Addressing) : a.kind ∈ memoryKinds := by
  cases a with
  | relative => decide
  | absolute index => cases index <;> simp [kind, memoryKinds]
  | based base index d => cases d <;> simp [kind, memoryKinds]

theorem Addressing.kind_ne (a : Addressing) {kind : OperandKind} (h : kind ∉ memoryKinds) :
    a.kind ≠ kind :=
  fun heq => h (heq ▸ a.kind_mem)

namespace OperandForm

theorem isImmediate_slot (mode : Mode) (p : Prefixes) (opcode : UInt8) (m : ModRM)
    (form : OperandForm) : (form.slot mode p opcode m).isImmediate = form.field?.isSome := by
  cases form with
  | place w =>
    simp only [slot, field?]
    split <;> rfl
  | reg | low | accumulator | signed | unsigned | branch | counter | one | trap => rfl

theorem slot_eq_memory_iff {opcode : UInt8} {form : OperandForm} {a : Addressing} :
    (∃ w segment, form.slot mode p opcode m = .memory w segment a) ↔
      form.isPlace = true ∧ m.place = .memory a := by
  cases form with
  | place w =>
    simp only [slot, isPlace, true_and]
    split
    next hplace => simp [hplace]
    next hplace => simp [hplace]
  | reg | low | accumulator | signed | unsigned | branch | counter | one | trap =>
    simp [slot, isPlace]

end OperandForm

theorem Opcode.ordered_template {r : List UInt8} {last : UInt8}
    (hopcode : read mode bytes = some (meaning, last, r))
    (hoperands : meaning.readOperands mode p r = some (m, rest))
    (ht : meaning.template? m.reg = some t) : t.Ordered := by
  have hone : ∀ n : Fin 256, ∀ found ∈ oneByte? mode (UInt8.ofFin n),
      found.Each Template.Ordered := by
    cases mode <;> decide +kernel
  have htwo : ∀ n : Fin 256, ∀ found ∈ twoByte? (UInt8.ofFin n), found.Each Template.Ordered := by
    decide +kernel
  exact (each_of_read hone htwo hopcode).template hoperands ht

namespace Head

theorem immediate_eq_between (head : Head) (bytes : List UInt8) :
    head.immediate bytes = Bytes.between bytes head.immediateOffset head.total := by
  rw [Bytes.between_natCast, immediate, total, List.drop_take, immediateOffset]
  congr 1
  omega

theorem displacement_eq_between (head : Head) (bytes : List UInt8) :
    head.displacement bytes =
      Bytes.between bytes head.size (head.size + head.displacementSize : Nat) := by
  rw [Bytes.between_natCast, displacement, List.drop_take]
  congr 1
  omega

/-- An operand is a register, or a number that no field holds, or one of memory, of the immediate field
or of a branch. -/
theorem operand_cases (h : head.slotOperand? x own slot = some o) :
    (o.kind = .register ∧ o.offset = 0) ∨
    (o.kind = .immediate ∧ o.offset = 0) ∨
    (∃ w segment a, slot = .memory w segment a ∧ o.kind = a.kind ∧
      o.offset = head.displacementOffset a ∧
      o.value = a.value? (head.displacement own) (head.next x)) ∨
    (slot.isImmediate = true ∧ o.kind = .immediate ∧ o.offset = head.immediateOffset ∧
      o.value = some (Bytes.unsigned (head.immediate own) : Int)) ∨
    (slot.isImmediate = true ∧ o.kind = .near ∧ o.offset = head.immediateOffset ∧
      o.value = some (head.next x + Bytes.signed (head.immediate own))) := by
  cases slot with
  | register =>
    obtain rfl := Option.some.inj h
    exact .inl ⟨rfl, rfl⟩
  | one =>
    obtain rfl := Option.some.inj h
    exact .inr (.inl ⟨rfl, rfl⟩)
  | memory w segment a =>
    obtain rfl := Option.some.inj h
    exact .inr (.inr (.inl ⟨w, segment, a, rfl, rfl, rfl, rfl⟩))
  | signed | unsigned =>
    obtain rfl := Option.some.inj h
    exact .inr (.inr (.inr (.inl ⟨rfl, rfl, rfl, rfl⟩)))
  | branch =>
    obtain rfl := Option.some.inj h
    exact .inr (.inr (.inr (.inr ⟨rfl, rfl, rfl, rfl⟩)))
  | trap => simp [slotOperand?] at h

theorem offset_cases (h : head.slotOperand? x own slot = some o) :
    o.offset = 0 ∨
      (∃ w segment a, slot = .memory w segment a ∧ 0 < a.fieldSize ∧ o.offset = head.size) ∨
      slot.isImmediate = true ∧ o.offset = head.immediateOffset := by
  rcases operand_cases h with ⟨-, hzero⟩ | ⟨-, hzero⟩ | ⟨w, segment, a, hslot, -, hoffset, -⟩ |
    ⟨hi, -, hoffset, -⟩ | ⟨hi, -, hoffset, -⟩
  · exact .inl hzero
  · exact .inl hzero
  · rw [hoffset, displacementOffset]
    split
    · exact .inl rfl
    next hfield => exact .inr (.inl ⟨w, segment, a, hslot, Nat.pos_of_ne_zero hfield, rfl⟩)
  · exact .inr (.inr ⟨hi, hoffset⟩)
  · exact .inr (.inr ⟨hi, hoffset⟩)

theorem kind_ne_void (ho : o ∈ (head.instruction x own).operands) : o.kind ≠ .void := by
  obtain ⟨slot, -, hslot⟩ := List.mem_filterMap.mp ho
  rcases operand_cases hslot with ⟨hk, -⟩ | ⟨hk, -⟩ | ⟨-, -, a, -, hk, -⟩ | ⟨-, hk, -⟩ | ⟨-, hk, -⟩
  · simp [hk]
  · simp [hk]
  · rw [hk]
    exact a.kind_ne (by decide)
  · simp [hk]
  · simp [hk]

section Read

variable (h : Head.read mode bytes = some head)
include h

theorem exists_ordered_template : ∃ (p : Prefixes) (last : UInt8) (m : ModRM) (t : Template),
    t.Ordered ∧ head.slots = t.operands.map (OperandForm.slot mode p last m) ∧
    head.displacementSize = Sequence.total (head.slots.map (·.displacementSize)) ∧
    head.immediateSize = t.immediateSize p := by
  obtain ⟨p, r, meaning, last, r', m, rest, t, -, hopcode, hoperands, ht, rfl⟩ :=
    exists_template h
  exact ⟨p, last, m, t, Opcode.ordered_template hopcode hoperands ht, rfl, rfl, rfl⟩

theorem immediateSize_pos (hs : slot ∈ head.slots) (hi : slot.isImmediate = true) :
    0 < head.immediateSize := by
  obtain ⟨p, last, m, t, -, hslots, -, hsize⟩ := exists_ordered_template h
  rw [hslots] at hs
  obtain ⟨form, hform, rfl⟩ := List.mem_map.mp hs
  rw [OperandForm.isImmediate_slot] at hi
  have hsome : (t.operands.findSome? OperandForm.field?).isSome = true :=
    List.findSome?_isSome_iff.mpr ⟨form, hform, hi⟩
  obtain ⟨r, hr⟩ := Option.isSome_iff_exists.mp hsome
  rw [hsize, Template.immediateSize, hr]
  exact r.resolve_pos p

theorem fieldSize_le_displacementSize {w : Width} {segment : Option String} {a : Addressing}
    (hs : .memory w segment a ∈ head.slots) : a.fieldSize ≤ head.displacementSize := by
  obtain ⟨-, -, -, -, -, -, hsize, -⟩ := exists_ordered_template h
  rw [hsize]
  exact Sequence.le_total_of_mem (List.mem_map.mpr ⟨_, hs, rfl⟩)

theorem offset_mem (ho : o ∈ (head.instruction x own).operands) :
    o.offset = 0 ∨ 0 < o.offset ∧ o.offset < head.total := by
  obtain ⟨slot, hs, hslot⟩ := List.mem_filterMap.mp ho
  have htotal : head.total = head.size + head.displacementSize + head.immediateSize := rfl
  have hpos := size_pos h
  rcases offset_cases hslot with hzero | ⟨w, segment, a, rfl, hfield, hoffset⟩ | ⟨hi, hoffset⟩
  · exact .inl hzero
  · right
    have := fieldSize_le_displacementSize h hs
    omega
  · right
    have := immediateSize_pos h hs hi
    rw [hoffset, immediateOffset]
    omega

/-- Operands with fields stand in the order of their fields. -/
theorem pairwise_offset (x : Int) (own : List UInt8) :
    (head.instruction x own).operands.Pairwise fun o later =>
      o.offset ≠ 0 → later.offset ≠ 0 → o.offset ≤ later.offset := by
  obtain ⟨p, last, m, t, hordered, hslots, -, -⟩ := exists_ordered_template h
  simp only [instruction, hslots]
  rw [List.pairwise_filterMap, List.pairwise_map]
  refine hordered.imp ?_
  intro form later hform o ho o' ho' hne hne'
  have hle : (head.size : Int) ≤ head.immediateOffset := by
    rw [immediateOffset]
    omega
  rcases offset_cases ho with hzero | ⟨-, -, -, -, -, hoffset⟩ | ⟨hi, hoffset⟩
  · exact absurd hzero hne
  · rcases offset_cases ho' with hzero | ⟨-, -, -, -, -, hoffset'⟩ | ⟨-, hoffset'⟩
    · exact absurd hzero hne'
    · omega
    · omega
  · rcases offset_cases ho' with hzero | ⟨w, segment, a, hmemory, -, -⟩ | ⟨-, hoffset'⟩
    · exact absurd hzero hne'
    · -- A place behind an immediate field would be out of order.
      rw [OperandForm.isImmediate_slot] at hi
      have hplace := (OperandForm.slot_eq_memory_iff.mp ⟨w, segment, hmemory⟩).1
      rcases hform with hnone | hplace'
      · simp [hnone] at hi
      · simp [hplace] at hplace'
    · omega

theorem near_operand (ho : o ∈ (head.instruction x own).operands) (hk : o.kind = .near) :
    0 < o.offset ∧ o.offset < head.total ∧
      o.value = some (x + head.total + Bytes.signed (Bytes.between own o.offset head.total)) := by
  have hmem := offset_mem h ho
  have hpos := size_pos h
  obtain ⟨slot, hs, hslot⟩ := List.mem_filterMap.mp ho
  rcases operand_cases hslot with ⟨hr, -⟩ | ⟨hi, -⟩ | ⟨-, -, a, -, ha, -⟩ | ⟨-, hi, -⟩ |
    ⟨-, -, hoffset, hvalue⟩
  · cases hr.symm.trans hk
  · cases hi.symm.trans hk
  · exact absurd (ha.symm.trans hk) (a.kind_ne (by decide))
  · cases hi.symm.trans hk
  · have hle : head.size ≤ head.immediateOffset := Nat.le_add_right ..
    rw [hvalue, hoffset, ← immediate_eq_between]
    exact ⟨by omega, by omega, rfl⟩

theorem immediate_operand (ho : o ∈ (head.instruction x own).operands) (hk : o.kind = .immediate)
    (hne : o.offset ≠ 0) :
    0 < o.offset ∧ o.offset < head.total ∧
      o.value = some (Bytes.unsigned (Bytes.between own o.offset head.total) : Int) := by
  have hmem := offset_mem h ho
  obtain ⟨slot, hs, hslot⟩ := List.mem_filterMap.mp ho
  rcases operand_cases hslot with ⟨hr, -⟩ | ⟨-, hzero⟩ | ⟨-, -, a, -, ha, -⟩ |
    ⟨-, -, hoffset, hvalue⟩ | ⟨-, hn, -⟩
  · cases hr.symm.trans hk
  · exact absurd hzero hne
  · exact absurd (ha.symm.trans hk) (a.kind_ne (by decide))
  · refine ⟨by omega, by omega, ?_⟩
    rw [hvalue, hoffset, ← immediate_eq_between]
  · cases hn.symm.trans hk

end Read

/-- In 64-bit mode a ModR/M byte with `mod` 0 and `rm` 5 names a place by its distance from the end
of the instruction. -/
theorem exists_relative_template {k : Nat} {b : UInt8} (h : Head.read .bits64 bytes = some head)
    (hk : modRMPosition? .bits64 bytes = some k) (hb : bytes[k]? = some b)
    (hmod : b.toNat / 64 = 0) (hrm : b.toNat % 8 = 5) :
    ∃ (p : Prefixes) (last : UInt8) (m : ModRM) (t : Template),
      m.place = .memory .relative ∧ t.Placed ∧ head = ofTemplate .bits64 p last m (k + 1) t := by
  obtain ⟨p, r, meaning, last, r', m, rest, t, hp, hopcode, hoperands, ht, rfl⟩ :=
    exists_template h
  cases meaning with
  | plain u => simp [modRMPosition?, hp, hopcode] at hk
  | modRM group =>
    obtain ⟨own, rfl, -⟩ := Prefixes.exists_own_of_read hp
    obtain ⟨c, opcodeBytes, rfl, -⟩ := Opcode.read_append hopcode
    have hposition : own.length + (c :: opcodeBytes).length = k := by
      simp only [modRMPosition?, hp, hopcode, Option.some.injEq, List.length_append] at hk
      omega
    have hfront : r'.head? = some b := by
      rw [← hb, ← hposition, ← List.append_assoc, ← List.length_append, ← List.head?_drop,
        List.drop_left]
    obtain ⟨r, rfl⟩ := List.head?_eq_some_iff.mp hfront
    have hread : ModRM.read .bits64 p (b :: r) =
        some (⟨b.toNat / 8 % 8, .memory .relative⟩, r) := by
      simp [ModRM.read, ModRM.plainAddressing, hmod, hrm]
    have heq := Option.some.inj (hread.symm.trans hoperands)
    obtain ⟨rfl, rfl⟩ := Prod.mk.inj heq
    have hsize : (own ++ (c :: opcodeBytes ++ b :: r)).length - r.length = k + 1 := by
      simp only [List.length_append, List.length_cons] at hposition ⊢
      omega
    have hplaced := ((Opcode.sound_of_read hopcode).1 ⟨b.toNat / 8 % 8, by omega⟩ t ht).2
    exact ⟨p, last, _, t, rfl, hplaced, by rw [hsize]⟩

section Relative

variable {n : Nat} {last : UInt8} (hplace : m.place = .memory .relative) (hplaced : t.Placed)
include hplace hplaced

theorem exists_memory_operand (mode : Mode) (p : Prefixes) (x : Int) (own : List UInt8) :
    ∃ o ∈ ((ofTemplate mode p last m n t).instruction x own).operands, o.kind ∈ memoryKinds := by
  obtain ⟨form, hform, hisPlace⟩ : ∃ form ∈ t.operands, form.isPlace = true :=
    List.countP_pos_iff.mp (by rw [hplaced.1]; exact Nat.one_pos)
  obtain ⟨w, segment, hslot⟩ : ∃ w segment, form.slot mode p last m = .memory w segment .relative :=
    OperandForm.slot_eq_memory_iff.mpr ⟨hisPlace, hplace⟩
  have hmem : form.slot mode p last m ∈ (ofTemplate mode p last m n t).slots :=
    List.mem_map.mpr ⟨form, hform, rfl⟩
  rw [hslot] at hmem
  exact ⟨_, List.mem_filterMap.mpr ⟨_, hmem, rfl⟩, Addressing.kind_mem .relative⟩

theorem relative_operand (ho : o ∈ ((ofTemplate mode p last m n t).instruction x own).operands)
    (hk : o.kind ∈ memoryKinds) :
    o.kind = .memory ∧ o.offset = n ∧ n + 4 ≤ (ofTemplate mode p last m n t).total ∧
      o.value = some ((x + (ofTemplate mode p last m n t).total +
        Bytes.signed (Bytes.between own o.offset (o.offset + 4))) % 0x10000000000000000) := by
  have hsize : (ofTemplate mode p last m n t).displacementSize = 4 := by
    rw [Indexed.displacementSize_ofTemplate, hplaced.1, hplace]
    rfl
  have hfield := displacement_eq_between (ofTemplate mode p last m n t) own
  rw [hsize] at hfield
  obtain ⟨slot, hs, hslot⟩ := List.mem_filterMap.mp ho
  rcases operand_cases hslot with ⟨hr, -⟩ | ⟨hi, -⟩ | ⟨w, segment, a, rfl, ha, hoffset, hvalue⟩ |
    ⟨-, hi, -⟩ | ⟨-, hn, -⟩
  · exact absurd hk (by rw [hr]; decide)
  · exact absurd hk (by rw [hi]; decide)
  · obtain ⟨form, -, hform⟩ := List.mem_map.mp hs
    have hplace' := (OperandForm.slot_eq_memory_iff.mp ⟨w, segment, hform⟩).2
    obtain rfl : Addressing.relative = a := Place.memory.inj (hplace.symm.trans hplace')
    have hoffset : o.offset = n := hoffset
    refine ⟨ha, hoffset, ?_, ?_⟩
    · rw [total, hsize]
      exact Nat.le_add_right ..
    · rw [hvalue, hoffset, hfield]
      rfl
  · exact absurd hk (by rw [hi]; decide)
  · exact absurd hk (by rw [hn]; decide)

end Relative

end Head

namespace Encoding

theorem exists_own_head (h : decode? mode x bytes = some i) :
    ∃ head, Head.read mode i.bytes = some head ∧ i = head.instruction x i.bytes := by
  obtain ⟨head, hread, -, hi⟩ := decode?_eq_some_iff.mp (decode?_bytes h)
  have hbytes : i.bytes.take head.total = i.bytes := (congrArg Instruction.bytes hi).symm
  rw [hbytes] at hi
  exact ⟨head, hread, hi⟩

/-- What an operand stands for agrees with its field: the target of a branch lies at the signed
distance in the field from the end of the instruction, an immediate operand with a field is the
unsigned number in it, and a place relative to the end of the instruction has its signed distance in
the four bytes behind the ModR/M byte, whatever follows them. -/
theorem values_of_fields {base : Int} {code : List UInt8}
    (h : decodeAt? mode base code x = some i) :
    (∀ o ∈ i.operands, o.kind = .near → 0 < o.offset ∧ o.offset < i.size ∧
      o.value = some (i.address + i.size +
        Bytes.signed (Bytes.between i.bytes o.offset i.size))) ∧
    (∀ o ∈ i.operands, o.kind = .immediate → o.offset ≠ 0 → 0 < o.offset ∧ o.offset < i.size ∧
      o.value = some (Bytes.unsigned (Bytes.between i.bytes o.offset i.size) : Int)) ∧
    ∀ k b, mode = .bits64 → modRMPosition? mode i.bytes = some k → i.bytes[k]? = some b →
      b.toNat / 64 = 0 → b.toNat % 8 = 5 →
      (∃ o ∈ i.operands, o.kind ∈ memoryKinds) ∧
      ∀ o ∈ i.operands, o.kind ∈ memoryKinds →
        o.kind = .memory ∧ o.offset = k + 1 ∧ o.offset + 4 ≤ i.size ∧
        o.value = some ((i.address + i.size +
          Bytes.signed (Bytes.between i.bytes o.offset (o.offset + 4))) %
            0x10000000000000000) := by
  obtain ⟨head, hread, hi⟩ := exists_own_head (decodeAt?_eq_some_iff.mp h).2
  generalize i.bytes = own at hread hi ⊢
  subst hi
  refine ⟨fun o ho hk => Head.near_operand hread ho hk,
    fun o ho hk hne => Head.immediate_operand hread ho hk hne, ?_⟩
  rintro k b rfl hk hb hmod hrm
  obtain ⟨p, last, m, t, hplace, hplaced, rfl⟩ :=
    Head.exists_relative_template hread hk hb hmod hrm
  refine ⟨Head.exists_memory_operand hplace hplaced _ p x own, fun o ho hmemory => ?_⟩
  obtain ⟨hkind, hoffset, hroom, hvalue⟩ := Head.relative_operand hplace hplaced ho hmemory
  exact ⟨hkind, hoffset, by rw [hoffset]; exact Int.ofNat_le.mpr hroom, hvalue⟩

/-- A comparison with a prefix whose immediate field follows a distance backwards. -/
theorem values_of_fields_compare :
    let own : List UInt8 := [0x66, 0x81, 0x3D, 0xF0, 0xFF, 0xFF, 0xFF, 0x34, 0x12]
    let i : Instruction := ⟨0x1000, 9, "cmp", "word ptr [0xff9], 0x1234", own, false,
      [⟨.memory, 3, some 0xFF9⟩, ⟨.immediate, 7, some 0x1234⟩]⟩
    decodeAt? .bits64 0x1000 (own ++ [0x90]) 0x1000 = some i ∧
      modRMPosition? .bits64 own = some 2 ∧ own[2]? = some 0x3D ∧
      some 0xFF9 = some ((0x1000 + 9 + Bytes.signed (Bytes.between own 3 7)) %
        0x10000000000000000) ∧
      some 0x1234 = some (Bytes.unsigned (Bytes.between own 7 9) : Int) := by
  intro own i
  have h : decodeAt? .bits64 0x1000 (own ++ [0x90]) 0x1000 = some i := by cbv
  have hk : modRMPosition? .bits64 own = some 2 := by cbv
  obtain ⟨-, himmediate, hrelative⟩ := values_of_fields h
  obtain ⟨-, hall⟩ := hrelative 2 0x3D rfl hk rfl (by decide) (by decide)
  obtain ⟨-, -, -, hmemory⟩ := hall ⟨.memory, 3, some 0xFF9⟩ (by simp [i]) (by decide)
  obtain ⟨-, -, hnumber⟩ :=
    himmediate ⟨.immediate, 7, some 0x1234⟩ (by simp [i]) rfl (by decide)
  exact ⟨h, hk, rfl, hmemory, hnumber⟩

end Encoding

end CodeSignature
