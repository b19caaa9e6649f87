import CodeSignature.Encoding.Indexed
import CodeSignature.Proofs.Encoding.Sound

/-! # Reading by position never fails

The tests before each reading suffice: no byte, no field and no name that is asked for is missing,
whatever the code is and wherever it ends. The decoder by position is the decoder.
-/

namespace CodeSignature

variable {mode : Mode} {p : Prefixes} {bytes buffer code rest : List UInt8} {b : UInt8} {m : ModRM}
  {t : Template} {k number : Nat}

namespace Indexed

@[simp] theorem ok_bind {α β : Type} (x : α) (f : α → Except Missing β) :
    (Except.ok x >>= f) = f x := rfl

@[simp] theorem pure_eq_ok {α : Type} (x : α) : (pure x : Except Missing α) = .ok x := rfl

theorem byte_eq (h : bytes.drop k = b :: rest) : byte bytes k = .ok b := by
  rw [byte, (Sequence.drop_eq_cons_iff.mp h).1]

theorem length_eq (h : bytes.drop k = b :: rest) : bytes.length = k + (rest.length + 1) := by
  have hlength := congrArg List.length h
  rw [List.length_drop, List.length_cons] at hlength
  omega

theorem field_eq {size : Nat} (h : k + size ≤ bytes.length) :
    field bytes k size = .ok ((bytes.drop k).take size) := by
  have hsize : ((bytes.drop k).take size).length = size := by
    rw [List.length_take, List.length_drop]
    omega
  simp [field, hsize]

theorem field?_eq (bytes : List UInt8) (k size : Nat) :
    field? bytes k size =
      .ok (if bytes.length < k + size then none else some ((bytes.drop k).take size)) := by
  unfold field?
  split
  · rfl
  next hroom =>
    rw [field_eq (by omega)]
    rfl

theorem register_eq (h : p.Reaches number) (width : Width) :
    register number width p.rex.isSome = .ok (Register.name number width p.rex.isSome) := by
  have hlt : number < (Register.names width p.rex.isSome).length := by
    unfold Prefixes.Reaches at h
    cases hrex : p.rex with
    | none =>
      have h8 : number < 8 := by simpa [hrex] using h
      cases width <;> exact Nat.lt_of_lt_of_le h8 (by decide)
    | some rex =>
      have h16 : number < 16 := by simpa [hrex] using h
      cases width <;> exact h16
  rw [register, Register.name_eq_getD, List.getD_eq_getElem?_getD, List.getElem?_eq_getElem hlt]
  rfl

theorem everyRegister_eq (h : p.Reaches number) : everyRegister number p.rex.isSome = .ok () := by
  simp [everyRegister, register_eq h]

theorem legacyEnd_eq (code : List UInt8) (k : Nat) :
    legacyEnd code k = .ok (k + ((code.drop k).takeWhile isLegacyPrefix).length) := by
  induction k using legacyEnd.induct code with
  | case1 k hk ih =>
    have hdrop := List.drop_eq_getElem_cons hk
    rw [legacyEnd, if_pos hk, byte_eq hdrop, ok_bind, hdrop]
    by_cases hb : isLegacyPrefix code[k]
    · rw [if_pos hb, ih, List.takeWhile_cons_of_pos hb, List.length_cons]
      congr 1
      omega
    · rw [if_neg hb, List.takeWhile_cons_of_neg hb]
      rfl
  | case2 k hk =>
    rw [legacyEnd, if_neg hk, List.drop_eq_nil_of_le (by omega)]
    rfl

theorem prefixes_eq (mode : Mode) (code : List UInt8) (k : Nat) :
    prefixes mode code k = .ok (Prefixes.read mode (code.drop k)).1 := by
  have hrun : (code.drop k).takeWhile isLegacyPrefix <+: code.drop k := List.takeWhile_prefix _
  have hsplit : (code.drop k).takeWhile isLegacyPrefix ++ (code.drop k).dropWhile isLegacyPrefix =
    code.drop k := List.takeWhile_append_dropWhile
  have htail : code.drop (k + ((code.drop k).takeWhile isLegacyPrefix).length) =
      (code.drop k).dropWhile isLegacyPrefix := by
    rw [← List.drop_drop]
    exact List.append_cancel_left ((List.prefix_iff_eq_append.mp hrun).trans hsplit.symm)
  have hlegacy : (code.take (k + ((code.drop k).takeWhile isLegacyPrefix).length)).drop k =
      (code.drop k).takeWhile isLegacyPrefix := by
    rw [List.drop_take, Nat.add_sub_cancel_left]
    exact (List.prefix_iff_eq_take.mp hrun).symm
  rw [prefixes, legacyEnd_eq, ok_bind]
  simp only [hlegacy]
  cases mode with
  | bits32 => simp [Prefixes.read]
  | bits64 =>
    cases hd : (code.drop k).dropWhile isLegacyPrefix with
    | nil =>
      rw [hd, List.drop_eq_nil_iff] at htail
      rw [if_neg (by omega)]
      simp [Prefixes.read, hd]
    | cons b rest =>
      rw [hd] at htail
      have hlength := length_eq htail
      rw [if_pos ⟨rfl, by omega⟩, byte_eq htail]
      by_cases hrex : isRex b <;> simp [Prefixes.read, hd, hrex]

theorem opcode_eq (h : buffer.drop k = b :: rest) :
    opcode mode buffer k = .ok ((Opcode.read mode (b :: rest)).map fun (meaning, last, rest) =>
      (meaning, last, buffer.length - rest.length)) := by
  have hlength := length_eq h
  rw [opcode, byte_eq h, ok_bind]
  simp only [Opcode.read]
  by_cases hb : b = 0x0F
  · rw [if_pos hb, if_pos hb]
    cases rest with
    | nil =>
      rw [List.length_nil] at hlength
      rw [if_neg (by omega)]
      rfl
    | cons second rest =>
      rw [List.length_cons] at hlength
      have htwo : buffer.length - rest.length = k + 2 := by omega
      rw [if_pos (by omega), byte_eq (Sequence.drop_eq_cons_iff.mp h).2, ok_bind, Option.map_map]
      simp [Function.comp_def, htwo]
  · have hone : buffer.length - rest.length = k + 1 := by omega
    rw [if_neg hb, if_neg hb, Option.map_map]
    simp [Function.comp_def, hone]

theorem index_eq (mode : Mode) (p : Prefixes) (sib : Nat) :
    index mode p sib = .ok (ModRM.index? mode p sib) := by
  have hreach : p.Reaches (p.extendIndex (sib / 8 % 8)) :=
    Prefixes.reaches_extend 1 (Nat.mod_lt _ (by decide))
  simp only [index, ModRM.index?, register_eq hreach]
  split <;> rfl

theorem sibAddressing_eq (mode : Mode) (p : Prefixes) (mod sib : Nat) :
    sibAddressing mode p mod sib = .ok (ModRM.sibAddressing mode p mod sib) := by
  have hreach : p.Reaches (p.extendBase (sib % 8)) :=
    Prefixes.reaches_extend 0 (Nat.mod_lt _ (by decide))
  simp only [sibAddressing, ModRM.sibAddressing, register_eq hreach, index_eq]
  split <;> rfl

theorem plainAddressing_eq {rm : Nat} (mode : Mode) (p : Prefixes) (mod : Nat) (h : rm < 8) :
    plainAddressing mode p mod rm = .ok (ModRM.plainAddressing mode p mod rm) := by
  have hreach : p.Reaches (p.extendBase rm) := Prefixes.reaches_extend 0 h
  simp only [plainAddressing, ModRM.plainAddressing, register_eq hreach]
  split
  · cases mode <;> rfl
  · rfl

theorem modRM_eq (mode : Mode) (p : Prefixes) (buffer : List UInt8) (k : Nat) :
    modRM mode p buffer k = .ok ((ModRM.read mode p (buffer.drop k)).map fun (m, rest) =>
      (m, buffer.length - rest.length)) := by
  cases hd : buffer.drop k with
  | nil =>
    rw [modRM, if_neg (by rw [List.drop_eq_nil_iff] at hd; omega)]
    rfl
  | cons b rest =>
    have hlength := length_eq hd
    have hreg : p.Reaches (p.extendReg (b.toNat / 8 % 8)) :=
      Prefixes.reaches_extend 2 (Nat.mod_lt _ (by decide))
    have hrm : b.toNat % 8 < 8 := Nat.mod_lt _ (by decide)
    have hplace : p.Reaches (p.extendBase (b.toNat % 8)) := Prefixes.reaches_extend 0 hrm
    have hone : buffer.length - rest.length = k + 1 := by omega
    rw [modRM, if_pos (by omega), byte_eq hd]
    simp only [ok_bind, everyRegister_eq hreg, everyRegister_eq hplace, ModRM.read]
    split
    · simp [hone]
    · split
      · cases rest with
        | nil =>
          rw [if_neg (by simp at hlength; omega)]
          rfl
        | cons sib rest =>
          rw [List.length_cons] at hlength
          have htwo : buffer.length - rest.length = k + 2 := by omega
          rw [if_pos (by omega), byte_eq (Sequence.drop_eq_cons_iff.mp hd).2]
          simp [sibAddressing_eq, htwo]
      · simp [plainAddressing_eq mode p _ hrm, hone]

theorem slot_eq (hm : m.Sound p) (mode : Mode) (opcode : UInt8) (form : OperandForm) :
    slot mode p opcode m form = .ok (form.slot mode p opcode m) := by
  cases form with
  | place w =>
    cases hplace : m.place with
    | register number =>
      simp [slot, OperandForm.slot, hplace, register_eq (hm.place number hplace)]
    | memory a => simp [slot, OperandForm.slot, hplace]
  | reg w => simp [slot, OperandForm.slot, Prefixes.extendReg,
      register_eq (Prefixes.reaches_extend 2 hm.reg)]
  | low w => simp [slot, OperandForm.slot, Prefixes.extendBase,
      register_eq (Prefixes.reaches_extend 0 (Nat.mod_lt opcode.toNat (by decide : 0 < 8)))]
  | accumulator w => simp [slot, OperandForm.slot,
      register_eq (Prefixes.reaches_of_lt (by decide : 0 < 8))]
  | signed | unsigned | branch | counter | one | trap => rfl

theorem ofTemplate_eq (ht : t.Sound) (hm : m.Sound p) (mode : Mode) (opcode : UInt8) (size : Nat) :
    ofTemplate mode p opcode m size t = .ok (Head.ofTemplate mode p opcode m size t) := by
  have hslot : slot mode p opcode m = fun form => pure (form.slot mode p opcode m) := by
    funext form
    exact slot_eq hm mode opcode form
  rw [ofTemplate, hslot, List.mapM_pure, pure_eq_ok, ok_bind, if_neg ht.1]
  rfl

theorem immediateSize_mem_operandFormats (h : t.Placed) : t.immediateSize p ∈ operandFormats := by
  unfold Template.immediateSize
  cases hf : t.operands.findSome? OperandForm.field? with
  | none => simp [operandFormats]
  | some r =>
    obtain ⟨form, hform, hr⟩ := List.exists_of_findSome?_eq_some hf
    cases r with
    | full => exact absurd hr (h.2 form hform)
    | byte | word | dword => simp [operandFormats, FieldRule.resolve]
    | operand =>
      simp only [Option.map_some, Option.getD_some, FieldRule.resolve]
      split <;> simp [operandFormats]

/-- The displacement counts once for each operand that stands for the place. -/
theorem displacementSize_ofTemplate (mode : Mode) (p : Prefixes) (opcode : UInt8) (m : ModRM)
    (size : Nat) (t : Template) :
    (Head.ofTemplate mode p opcode m size t).displacementSize =
      t.operands.countP (·.isPlace) * m.place.fieldSize := by
  obtain ⟨name, forms⟩ := t
  simp only [Head.ofTemplate]
  induction forms with
  | nil => simp
  | cons form forms ih =>
    simp only [List.map_cons, Sequence.total_cons, ih]
    cases form with
    | place w =>
      have hslot : (OperandForm.slot mode p opcode m (.place w)).displacementSize =
          m.place.fieldSize := by
        cases hplace : m.place <;>
          simp [OperandForm.slot, hplace, Slot.displacementSize, Place.fieldSize]
      rw [hslot, List.countP_cons_of_pos rfl, Nat.add_mul, Nat.one_mul, Nat.add_comm]
    | reg | low | accumulator | signed | unsigned | branch | counter | one | trap =>
      rw [List.countP_cons_of_neg (by simp [OperandForm.isPlace])]
      exact Nat.zero_add _

def withDisplacement? (buffer : List UInt8) (h : Head) : Option (Head × List UInt8) :=
  if buffer.length < h.size + h.displacementSize then none else some (h, h.displacement buffer)

/-- The place is an operand of each template, so its displacement is that of the head. -/
theorem groupHead_eq {group : Nat → Option Template} (hsound : (Opcode.modRM group).Sound)
    (hrest : rest <:+ buffer) (mode : Mode) (p : Prefixes) (last : UInt8) :
    groupHead mode p buffer last (buffer.length - rest.length) group =
      .ok (((ModRM.read mode p rest).bind fun (m, r) =>
        (group m.reg).map (Head.ofTemplate mode p last m (buffer.length - r.length))).bind
          (withDisplacement? buffer)) := by
  rw [groupHead, modRM_eq, ← List.suffix_iff_eq_drop.mp hrest]
  cases hoperands : ModRM.read mode p rest with
  | none => rfl
  | some operands =>
    obtain ⟨m, r⟩ := operands
    obtain ⟨hm, -⟩ := ModRM.sound_of_read hoperands
    simp only [Option.map_some, Option.bind_some, field?_eq, ok_bind]
    cases ht : group m.reg with
    | none => split <;> rfl
    | some t =>
      obtain ⟨hsoundt, hplaced⟩ := hsound ⟨m.reg, hm.reg⟩ t ht
      have hsize := displacementSize_ofTemplate mode p last m (buffer.length - r.length) t
      rw [hplaced.1, Nat.one_mul] at hsize
      have hfront : (Head.ofTemplate mode p last m (buffer.length - r.length) t).size =
          buffer.length - r.length := rfl
      simp only [ofTemplate_eq hsoundt hm, ok_bind, pure_eq_ok,
        if_pos (immediateSize_mem_operandFormats hplaced), Option.map_some, Option.bind_some,
        withDisplacement?, hfront, hsize, Head.displacement]
      by_cases hroom : buffer.length < buffer.length - r.length + m.place.fieldSize
      · rw [if_pos hroom, if_pos hroom]
      · rw [if_neg hroom, if_neg hroom]

theorem head_eq (hp : Prefixes.read mode buffer = (p, b :: rest)) :
    head mode p buffer = .ok ((Head.read mode buffer).bind (withDisplacement? buffer)) := by
  obtain ⟨own, hbuffer, hown⟩ := Prefixes.exists_own_of_read hp
  have hdrop : buffer.drop p.size = b :: rest := by rw [hbuffer, ← hown, List.drop_left]
  rw [head, opcode_eq hdrop, Head.read_eq, hp]
  cases hopcode : Opcode.read mode (b :: rest) with
  | none => rfl
  | some found =>
    obtain ⟨meaning, last, r⟩ := found
    obtain ⟨hsound, -⟩ := Opcode.sound_of_read hopcode
    cases meaning with
    | plain t =>
      have hm : ModRM.Sound p ⟨0, .register 0⟩ := by
        refine ⟨by decide, fun number hnumber => ?_⟩
        obtain rfl := Place.register.inj hnumber
        exact Prefixes.reaches_of_lt (by decide)
      have hsize := displacementSize_ofTemplate mode p last ⟨0, .register 0⟩
        (buffer.length - r.length) t
      simp only [Place.fieldSize, Nat.mul_zero] at hsize
      have hfront : ¬ buffer.length < (Head.ofTemplate mode p last ⟨0, .register 0⟩
          (buffer.length - r.length) t).size := by
        simp only [Head.ofTemplate]
        omega
      simp [Opcode.readOperands, Opcode.template?, ofTemplate_eq hsound hm, withDisplacement?,
        hsize, hfront, Head.displacement]
    | modRM group =>
      obtain ⟨c, opcodeBytes, hr, -⟩ := Opcode.read_append hopcode
      have hsuffix : r <:+ buffer := ⟨own ++ (c :: opcodeBytes), by rw [hbuffer, hr]; simp⟩
      exact groupHead_eq hsound hsuffix mode p last

theorem complete_eq (address : Int) {h : Head}
    (hroom : h.size + h.displacementSize ≤ buffer.length) :
    complete address buffer h (h.displacement buffer) =
      .ok (if buffer.length < h.total then none
        else some (h.instruction address (buffer.take h.total))) := by
  have htotal : h.total = h.size + h.displacementSize + h.immediateSize := rfl
  have hlength : (h.displacement buffer).length = h.displacementSize := by
    rw [Head.displacement, List.length_take, List.length_drop]
    omega
  have hjoin : (buffer.drop 0).take h.size ++ h.displacement buffer ++
      (buffer.drop (h.size + h.displacementSize)).take h.immediateSize = buffer.take h.total := by
    rw [htotal, List.take_add, List.take_add]
    rfl
  rw [complete, field?_eq, hlength, ← htotal, ok_bind]
  by_cases hshort : buffer.length < h.total
  · rw [if_pos hshort, if_pos hshort]
    rfl
  · rw [if_neg hshort, if_neg hshort]
    have hfront : 0 + h.size ≤ buffer.length := by omega
    simp only [field_eq hfront, ok_bind, hjoin, pure_eq_ok]

theorem instruction_eq (hp : Prefixes.read mode buffer = (p, b :: rest)) (address : Int) :
    instruction mode address p buffer = .ok (Encoding.decode? mode address buffer) := by
  rw [instruction, head_eq hp, ok_bind]
  cases hhead : Head.read mode buffer with
  | none => simp [Encoding.decode?, hhead]
  | some h =>
    have htotal : h.total = h.size + h.displacementSize + h.immediateSize := rfl
    simp only [Encoding.decode?, hhead, Option.bind_eq_bind, Option.bind_some, withDisplacement?]
    by_cases hroom : buffer.length < h.size + h.displacementSize
    · rw [if_pos hroom, if_neg (by rw [List.length_take]; omega)]
      rfl
    · rw [if_neg hroom]
      simp only [complete_eq address (Nat.le_of_not_lt hroom)]
      by_cases hlength : buffer.length < h.total
      · rw [if_pos hlength, if_neg (by rw [List.length_take]; omega)]
      · rw [if_neg hlength, if_pos (by rw [List.length_take]; omega)]

theorem unknown_eq {offset size : Nat} (h : offset + size ≤ code.length) (address : Int) :
    unknown address code offset size =
      Encoding.unknown address ((code.drop offset).take size) := by
  have hsize : ((code.drop offset).take size).length = size := by
    rw [List.length_take, List.length_drop]
    omega
  simp [unknown, Encoding.unknown, hsize]

theorem read_take_eq {n : Nat} (hp : Prefixes.read mode bytes = (p, b :: rest)) :
    Prefixes.read mode (bytes.take (p.size + (n + 1))) = (p, b :: rest.take n) := by
  obtain ⟨own, rfl, hmore⟩ := Prefixes.read_append hp
  obtain ⟨own', heq, hown⟩ := Prefixes.exists_own_of_read hp
  obtain rfl : own = own' := List.append_cancel_right heq
  rw [← hown, List.take_length_add_append, List.take_succ_cons]
  exact hmore _

theorem unknownSize_eq (hp : Prefixes.read mode bytes = (p, b :: rest)) :
    Encoding.unknownSize mode bytes =
      if b = 0x0F ∧ 0 < rest.length then p.size + 2 else p.size + 1 := by
  cases rest with
  | nil => simp [Encoding.unknownSize, hp]
  | cons second rest => simp [Encoding.unknownSize, hp]

/-- At every offset before the end there is an entry, and it is found without a failure. -/
theorem entry_eq {offset : Nat} (h : offset < code.length) (base : Int) :
    entry mode base code offset =
      .ok (Encoding.decodeOne mode (base + offset) (code.drop offset)) := by
  have hne : code.drop offset ≠ [] := by
    rw [ne_eq, List.drop_eq_nil_iff]
    omega
  have hlength := List.length_drop (i := offset) (l := code)
  rw [entry, prefixes_eq, ok_bind, Encoding.decodeOne, if_neg hne]
  rcases hp : Prefixes.read mode (code.drop offset) with ⟨p, rest⟩
  obtain ⟨own, hcode, hown⟩ := Prefixes.exists_own_of_read hp
  rw [hcode, List.length_append, hown] at hlength
  cases rest with
  | nil =>
    rw [List.length_nil] at hlength
    have hnone : Encoding.decode? mode (base + offset) (code.drop offset) = none := by
      simp [Encoding.decode?, Head.read, hp, Opcode.read]
    simp only
    rw [if_pos (by omega), if_neg (by omega), unknown_eq (by omega), hnone]
    simp [Encoding.unknownSize, hp]
  | cons b rest =>
    rw [List.length_cons] at hlength
    have hbuffer : Prefixes.read mode ((code.drop offset).take (p.size + window)) =
        (p, b :: rest.take 14) := read_take_eq hp
    have hdrop : ((code.drop offset).take (p.size + window)).drop p.size = b :: rest.take 14 := by
      rw [hcode, ← hown, List.take_length_add_append, List.drop_left]
      rfl
    have hwindow : window = 15 := rfl
    have hsecond : p.size + 1 < ((code.drop offset).take (p.size + window)).length ↔
        0 < rest.length := by
      rw [List.length_take, List.length_drop]
      omega
    have hsize := unknownSize_eq hp
    have hmin : min (Encoding.unknownSize mode (code.drop offset)) (code.length - offset) =
        Encoding.unknownSize mode (code.drop offset) := by
      rw [hsize]
      split <;> omega
    simp only
    rw [if_neg (by omega), instruction_eq hbuffer, Encoding.decode?_take hp (by omega),
      ok_bind]
    cases Encoding.decode? mode (base + offset) (code.drop offset) with
    | some i => rfl
    | none =>
      simp only [byte_eq hdrop, ok_bind, hsecond, ← hsize, hmin, pure_eq_ok]
      rw [unknown_eq (by omega)]
      rfl

end Indexed

end CodeSignature
