import CodeSignature.Proofs.Encoding.Delimited

/-! # How long instructions get

What follows the prefixes of an instruction has eleven bytes at most, so four prefixes still make no
more than fifteen. The number of prefixes has no bound, and neither has the length of an instruction:
some prefixes change nothing but that.
-/

namespace CodeSignature

/-- Address size, lock and repetition prefixes, which no operand depends on. -/
def isIdlePrefix (b : UInt8) : Bool := b = 0x67 || b = 0xF0 || b = 0xF2 || b = 0xF3

variable {mode : Mode} {p q : Prefixes} {bytes rest : List UInt8} {b opcode : UInt8} {m : ModRM}
  {t : Template} {head : Head} {x : Int} {n : Nat} {i : Instruction}

theorem isIdlePrefix_iff : isIdlePrefix b = true ↔ b = 0x67 ∨ b = 0xF0 ∨ b = 0xF2 ∨ b = 0xF3 := by
  simp only [isIdlePrefix, Bool.or_eq_true, decide_eq_true_eq, or_assoc]

theorem isLegacyPrefix_of_idle (h : isIdlePrefix b = true) : isLegacyPrefix b = true := by
  rcases isIdlePrefix_iff.mp h with rfl | rfl | rfl | rfl <;> decide

namespace Prefixes

/-- Prefixes that have the same effect: the REX byte, the operand size and the last segment. -/
structure Alike (p q : Prefixes) : Prop where
  rex : p.rex = q.rex
  narrow : p.narrow = q.narrow
  segment : p.segment? = q.segment?

theorem alike_idle_cons (hb : isIdlePrefix b = true) (p : Prefixes) :
    Alike ⟨b :: p.legacy, p.rex⟩ p where
  rex := rfl
  narrow := by
    rcases isIdlePrefix_iff.mp hb with rfl | rfl | rfl | rfl <;> simp [Prefixes.narrow]
  segment := by
    have hnone : segmentOverride? b = none := by
      rcases isIdlePrefix_iff.mp hb with rfl | rfl | rfl | rfl <;> rfl
    simp [segment?, hnone]

theorem read_idle_cons (hb : isIdlePrefix b = true) (h : read mode bytes = (p, rest)) :
    read mode (b :: bytes) = (⟨b :: p.legacy, p.rex⟩, rest) := by
  have hlegacy := isLegacyPrefix_of_idle hb
  unfold read at h ⊢
  rw [List.takeWhile_cons_of_pos hlegacy, List.dropWhile_cons_of_pos hlegacy]
  cases mode with
  | bits32 =>
    obtain ⟨rfl, rfl⟩ := Prod.mk.inj h
    rfl
  | bits64 =>
    cases hd : bytes.dropWhile isLegacyPrefix with
    | nil =>
      rw [hd] at h
      obtain ⟨rfl, rfl⟩ := Prod.mk.inj h
      rfl
    | cons c r =>
      simp only [hd] at h ⊢
      split at h
      next hrex =>
        obtain ⟨rfl, rfl⟩ := Prod.mk.inj h
        rw [if_pos hrex]
      next hrex =>
        obtain ⟨rfl, rfl⟩ := Prod.mk.inj h
        rw [if_neg hrex]

namespace Alike

theorem extend (h : p.Alike q) : p.extend = q.extend := by
  obtain ⟨legacy, rex⟩ := p
  obtain ⟨legacy', rex'⟩ := q
  obtain rfl : rex = rex' := h.rex
  rfl

theorem prefixed (h : p.Alike q) (w : Width) : WidthRule.prefixed p w = WidthRule.prefixed q w := by
  have hwide : p.wide = q.wide := by simp only [wide, rexBit, h.rex]
  simp only [WidthRule.prefixed, hwide, h.narrow]

theorem resolve (h : p.Alike q) (w : WidthRule) : w.resolve mode p = w.resolve mode q := by
  cases w <;> simp only [WidthRule.resolve, h.prefixed]

theorem resolve_field (h : p.Alike q) (r : FieldRule) : r.resolve p = r.resolve q := by
  cases r <;> simp only [FieldRule.resolve, h.prefixed]

theorem modRM (h : p.Alike q) (bytes : List UInt8) :
    ModRM.read mode p bytes = ModRM.read mode q bytes := by
  obtain ⟨legacy, rex⟩ := p
  obtain ⟨legacy', rex'⟩ := q
  obtain rfl : rex = rex' := h.rex
  cases bytes <;> rfl

theorem slot (h : p.Alike q) (form : OperandForm) :
    form.slot mode p opcode m = form.slot mode q opcode m := by
  cases form <;> simp only [OperandForm.slot, extendReg, extendBase, h.extend, h.rex, h.segment,
    h.resolve]

theorem ofTemplate (h : p.Alike q) :
    Head.ofTemplate mode p opcode m n t = Head.ofTemplate mode q opcode m n t := by
  have hslot : OperandForm.slot mode p opcode m = OperandForm.slot mode q opcode m :=
    funext h.slot
  have hresolve : FieldRule.resolve p = FieldRule.resolve q := funext h.resolve_field
  have hfield : t.immediateSize p = t.immediateSize q := by
    simp only [Template.immediateSize, hresolve]
  simp only [Head.ofTemplate, hslot, hfield]

theorem readOperands (h : p.Alike q) (meaning : Opcode) (bytes : List UInt8) :
    meaning.readOperands mode p bytes = meaning.readOperands mode q bytes := by
  cases meaning with
  | plain t => rfl
  | modRM group => exact h.modRM bytes

end Alike

end Prefixes

theorem Head.read_idle_cons (hb : isIdlePrefix b = true) (h : Head.read mode bytes = some head) :
    Head.read mode (b :: bytes) = some { head with size := head.size + 1 } := by
  obtain ⟨p, r, meaning, last, r', m, rest, t, hp, hopcode, hoperands, ht, rfl⟩ :=
    exists_template h
  have halike := p.alike_idle_cons hb
  have hlength : rest.length ≤ bytes.length := by
    obtain ⟨own, rfl, -⟩ := Prefixes.exists_own_of_read hp
    obtain ⟨c, opcodeBytes, rfl, -⟩ := Opcode.read_append hopcode
    obtain ⟨operandBytes, rfl, -⟩ := Opcode.readOperands_append hoperands
    simp only [List.length_append]
    omega
  rw [read_eq, Prefixes.read_idle_cons hb hp]
  simp only [hopcode, Option.bind_some, halike.readOperands, hoperands, ht, Option.map_some,
    halike.ofTemplate, List.length_cons, Nat.succ_sub hlength]
  rfl

theorem Head.prefixes_lt_size (h : Head.read mode bytes = some head)
    (hp : Prefixes.read mode bytes = (p, rest)) : p.size < head.size := by
  obtain ⟨p', r, meaning, last, r', m, rest', t, hp', hopcode, hoperands, ht, rfl⟩ :=
    exists_template h
  obtain ⟨rfl, rfl⟩ := Prod.mk.inj (hp'.symm.trans hp)
  obtain ⟨own, rfl, hown⟩ := Prefixes.exists_own_of_read hp
  obtain ⟨c, opcodeBytes, rfl, -⟩ := Opcode.read_append hopcode
  obtain ⟨operandBytes, rfl, -⟩ := Opcode.readOperands_append hoperands
  simp only [ofTemplate, List.length_append, List.length_cons]
  omega

namespace Encoding

theorem decode?_idle_cons (hb : isIdlePrefix b = true) (h : decode? mode x bytes = some i) :
    ∃ j, decode? mode x (b :: bytes) = some j ∧ j.size = i.size + 1 ∧ j.mnemonic = i.mnemonic ∧
      j.bytes = b :: i.bytes := by
  obtain ⟨head, hread, htotal, rfl⟩ := decode?_eq_some_iff.mp h
  have hlonger : ({ head with size := head.size + 1 } : Head).total = head.total + 1 := by
    simp only [Head.total]
    omega
  refine ⟨_, decode?_eq_some_iff.mpr ⟨_, Head.read_idle_cons hb hread, ?_, rfl⟩, ?_, rfl, ?_⟩
  · rw [hlonger, List.length_cons]
    omega
  · simp only [Head.instruction, hlonger]
    rfl
  · simp only [Head.instruction, hlonger, List.take_succ_cons]

/-- Idle prefixes in front lengthen an instruction, however many there are. -/
theorem decode?_idle_append {front : List UInt8} (hf : ∀ b ∈ front, isIdlePrefix b = true)
    (h : decode? mode x bytes = some i) :
    ∃ j, decode? mode x (front ++ bytes) = some j ∧ j.size = i.size + front.length ∧
      j.mnemonic = i.mnemonic ∧ j.bytes = front ++ i.bytes := by
  induction front with
  | nil => exact ⟨i, h, by simp, rfl, rfl⟩
  | cons b front ih =>
    obtain ⟨hb, hfront⟩ := List.forall_mem_cons.mp hf
    obtain ⟨j, hj, hsize, hmnemonic, hbytes⟩ := ih hfront
    obtain ⟨k, hk, hsize', hmnemonic', hbytes'⟩ := decode?_idle_cons hb hj
    refine ⟨k, hk, ?_, hmnemonic'.trans hmnemonic, ?_⟩
    · rw [hsize', hsize, List.length_cons]
      omega
    · rw [hbytes', hbytes]
      rfl

/-- Behind its prefixes an instruction has between one and eleven bytes. -/
theorem size_mem_of_decode? (h : decode? mode x bytes = some i) :
    (Prefixes.read mode bytes).1.size < i.size ∧
      i.size ≤ (Prefixes.read mode bytes).1.size + 11 := by
  obtain ⟨head, hread, -, rfl⟩ := decode?_eq_some_iff.mp h
  rcases hp : Prefixes.read mode bytes with ⟨p, rest⟩
  constructor
  · have hfront := Head.prefixes_lt_size hread hp
    simp only [Head.instruction, Head.total]
    omega
  · exact Int.ofNat_le.mpr (Head.total_le hp hread)

/-- With four prefixes an instruction has fifteen bytes at most, as it has no more than eleven behind
its prefixes. Any number of idle prefixes can be put in front of it, and each one counts. -/
theorem size_le_of_prefixes {base : Int} {code : List UInt8}
    (h : decodeAt? mode base code x = some i) :
    let count := (Prefixes.read mode i.bytes).1.size
    count < i.size ∧ i.size ≤ count + 11 ∧ (count ≤ 4 → i.size ≤ 15) ∧
      ∀ front : List UInt8, (∀ b ∈ front, isIdlePrefix b = true) →
        ∃ j, decodeAt? mode x (front ++ i.bytes) x = some j ∧
          j.size = i.size + front.length ∧ j.mnemonic = i.mnemonic ∧ j.bytes = front ++ i.bytes := by
  intro count
  have hown := decode?_bytes (decodeAt?_eq_some_iff.mp h).2
  obtain ⟨hlt, hle⟩ := size_mem_of_decode? hown
  refine ⟨hlt, hle, fun hfour => by omega, fun front hfront => ?_⟩
  obtain ⟨j, hj, hsize, hmnemonic, hbytes⟩ := decode?_idle_append hfront hown
  refine ⟨j, decodeAt?_eq_some_iff.mpr ⟨⟨Int.le_refl _, ?_⟩, ?_⟩, hsize, hmnemonic, hbytes⟩
  · obtain ⟨-, hpos, hroom, -⟩ := bytes_of_decode? hj
    omega
  · rwa [Int.sub_self, Int.toNat_zero, List.drop_zero]

/-- The longest form with four prefixes has fifteen bytes, and one prefix more makes it sixteen. -/
theorem size_le_of_prefixes_move :
    let own : List UInt8 :=
      [0x2E, 0x2E, 0x2E, 0x2E, 0xC7, 0x84, 0x24, 0x10, 0, 0, 0, 0x01, 0, 0, 0]
    let i : Instruction := ⟨0x1000, 15, "mov", "dword ptr [cs:rsp + 0x10], 0x1", own, false,
      [⟨.displaced, 7, none⟩, ⟨.immediate, 11, some 1⟩]⟩
    decodeAt? .bits64 0x1000 own 0x1000 = some i ∧ i.size ≤ 15 ∧
      ∃ j, decodeAt? .bits64 0x1000 (0xF0 :: own) 0x1000 = some j ∧ j.size = 16 ∧
        j.mnemonic = "mov" := by
  intro own i
  have h : decodeAt? .bits64 0x1000 own 0x1000 = some i := by cbv
  obtain ⟨-, -, hfour, hlonger⟩ := size_le_of_prefixes h
  obtain ⟨j, hj, hsize, hmnemonic, -⟩ := hlonger [0xF0] (List.forall_mem_singleton.mpr rfl)
  exact ⟨h, hfour (by decide), j, hj, hsize, hmnemonic⟩

/-- Fifteen operand size prefixes and an instruction of one byte. -/
theorem sixteen_bytes_decoded :
    ∃ i, decodeAt? .bits64 0 (List.replicate 15 0x66 ++ [0x90]) 0 = some i ∧ ¬ i.size ≤ 15 :=
  ⟨_, rfl, by decide⟩

end Encoding

end CodeSignature
