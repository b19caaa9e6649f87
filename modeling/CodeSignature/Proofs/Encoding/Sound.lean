import CodeSignature.Proofs.Encoding.Head

/-! # Sound templates

Every template of the opcode map has a name and short fields, which is a finite check. So what follows
the prefixes of an instruction is shorter than the window in which it is looked for.
-/

namespace CodeSignature

def FieldRule.longest : FieldRule → Nat
  | .byte => 1
  | .word => 2
  | .dword => 4
  | .operand => 4
  | .full => 8

theorem FieldRule.resolve_le_longest (p : Prefixes) (r : FieldRule) : r.resolve p ≤ r.longest := by
  cases r with
  | byte | word | dword => exact Nat.le_refl _
  | operand =>
    simp only [resolve, longest]
    split <;> omega
  | full =>
    simp only [resolve, longest]
    split <;> omega

def OperandForm.longest : OperandForm → Nat
  | .place _ => 4
  | .signed r => r.longest
  | .unsigned r => r.longest
  | .branch r => r.longest
  | _ => 0

/-- A template with a name, whose fields have eight bytes at most. -/
def Template.Sound (t : Template) : Prop :=
  t.mnemonic ≠ "" ∧ Sequence.total (t.operands.map (·.longest)) ≤ 8

instance : DecidablePred Template.Sound := fun _ => inferInstanceAs (Decidable (_ ∧ _))

def OperandForm.isPlace : OperandForm → Bool
  | .place _ => true
  | _ => false

/-- A template after a ModR/M byte has the place as an operand, and no immediate field as wide as a
64-bit operand. -/
def Template.Placed (t : Template) : Prop :=
  t.operands.countP (·.isPlace) = 1 ∧ ∀ form ∈ t.operands, form.field? ≠ some .full

instance : DecidablePred Template.Placed := fun _ => inferInstanceAs (Decidable (_ ∧ _))

def Opcode.Sound : Opcode → Prop
  | .plain t => t.Sound
  | .modRM group => ∀ reg : Fin 8, ∀ t ∈ group reg, t.Sound ∧ t.Placed

instance : DecidablePred Opcode.Sound
  | .plain t => inferInstanceAs (Decidable t.Sound)
  | .modRM group =>
    inferInstanceAs (Decidable (∀ reg : Fin 8, ∀ t ∈ group reg, t.Sound ∧ t.Placed))

/-- A condition on every template that an opcode may choose. -/
def Opcode.Each (P : Template → Prop) : Opcode → Prop
  | .plain t => P t
  | .modRM group => ∀ reg : Fin 8, ∀ t ∈ group reg, P t

instance {P : Template → Prop} [DecidablePred P] : DecidablePred (Opcode.Each P)
  | .plain t => inferInstanceAs (Decidable (P t))
  | .modRM group => inferInstanceAs (Decidable (∀ reg : Fin 8, ∀ t ∈ group reg, P t))

/-- The numbers of the registers that there are: eight, and sixteen with a REX byte. -/
def Prefixes.Reaches (p : Prefixes) (number : Nat) : Prop :=
  number < if p.rex.isSome then 16 else 8

/-- The register numbers of a ModR/M byte are those of registers. -/
structure ModRM.Sound (p : Prefixes) (m : ModRM) : Prop where
  reg : m.reg < 8
  place : ∀ number, m.place = .register number → p.Reaches number

variable {mode : Mode} {p : Prefixes} {bytes rest : List UInt8} {m : ModRM} {t : Template}
  {meaning : Opcode} {number : Nat}

theorem Prefixes.reaches_of_lt (h : number < 8) : p.Reaches number := by
  unfold Reaches
  split <;> omega

theorem Prefixes.reaches_extend (bit : Nat) (h : number < 8) : p.Reaches (p.extend bit number) := by
  unfold Reaches extend rexBit
  cases p.rex with
  | none => simpa using h
  | some rex =>
    simp only [Option.isSome_some, if_true]
    split <;> omega

theorem OperandForm.fieldSizes_le_longest (mode : Mode) (p : Prefixes) (opcode : UInt8) (m : ModRM)
    (form : OperandForm) :
    (form.slot mode p opcode m).displacementSize + ((form.field?).map (·.resolve p)).getD 0 ≤
      form.longest := by
  cases form with
  | place w =>
    simp only [slot, field?, longest]
    split
    · simp [Slot.displacementSize]
    next a _ =>
      cases a with
      | relative | absolute => exact Nat.le_refl _
      | based base index d => cases d <;> simp [Slot.displacementSize, Addressing.fieldSize,
          Displacement.size]
  | signed r | unsigned r | branch r =>
    simpa [slot, field?, longest, Slot.displacementSize] using r.resolve_le_longest p
  | reg | low | accumulator | counter | one | trap =>
    simp [slot, field?, longest, Slot.displacementSize]

namespace Template

/-- The fields of a template are those of its operands, where only the first immediate counts. -/
theorem fieldSizes_le_longest (mode : Mode) (p : Prefixes) (opcode : UInt8) (m : ModRM) (size : Nat)
    (t : Template) :
    (Head.ofTemplate mode p opcode m size t).displacementSize +
      (Head.ofTemplate mode p opcode m size t).immediateSize ≤
        Sequence.total (t.operands.map (·.longest)) := by
  obtain ⟨name, forms⟩ := t
  simp only [Head.ofTemplate, immediateSize]
  induction forms with
  | nil => exact Nat.le_refl _
  | cons form forms ih =>
    have hform := form.fieldSizes_le_longest mode p opcode m
    rw [List.findSome?_cons]
    simp only [List.map_cons, Sequence.total_cons]
    cases hf : form.field? with
    | none =>
      rw [hf] at hform
      simp only [Option.map_none, Option.getD_none] at hform ⊢
      omega
    | some r =>
      rw [hf] at hform
      simp only [Option.map_some, Option.getD_some] at hform ⊢
      omega

end Template

namespace Opcode

theorem sound_oneByte? {opcode : UInt8} (h : oneByte? mode opcode = some meaning) :
    meaning.Sound := by
  have hall : ∀ n : Fin 256, ∀ found ∈ oneByte? mode (UInt8.ofFin n), found.Sound := by
    cases mode <;> decide +kernel
  exact hall opcode.toFin meaning h

theorem sound_twoByte? {opcode : UInt8} (h : twoByte? opcode = some meaning) :
    meaning.Sound := by
  have hall : ∀ n : Fin 256, ∀ found ∈ twoByte? (UInt8.ofFin n), found.Sound := by
    decide +kernel
  exact hall opcode.toFin meaning h

theorem sound_of_read {last : UInt8} (h : read mode bytes = some (meaning, last, rest)) :
    meaning.Sound ∧ bytes.length ≤ rest.length + 2 := by
  rcases eq_of_read h with ⟨rfl, -, hm⟩ | ⟨rfl, hm⟩
  · exact ⟨sound_oneByte? hm, Nat.le_succ _⟩
  · exact ⟨sound_twoByte? hm, Nat.le_refl _⟩

end Opcode

theorem ModRM.sound_of_read (h : read mode p bytes = some (m, rest)) :
    m.Sound p ∧ bytes.length ≤ rest.length + 2 := by
  cases bytes with
  | nil => simp [read] at h
  | cons b bytes =>
    have hreg : b.toNat / 8 % 8 < 8 := Nat.mod_lt _ (by decide)
    simp only [read] at h
    split at h
    · simp only [Option.some.injEq, Prod.mk.injEq] at h
      obtain ⟨rfl, rfl⟩ := h
      refine ⟨⟨hreg, fun number hnumber => ?_⟩, Nat.le_succ _⟩
      obtain rfl := Place.register.inj hnumber
      exact Prefixes.reaches_extend 0 (Nat.mod_lt _ (by decide))
    · split at h
      · cases bytes with
        | nil => simp at h
        | cons sib bytes =>
          simp only [Option.some.injEq, Prod.mk.injEq] at h
          obtain ⟨rfl, rfl⟩ := h
          exact ⟨⟨hreg, fun _ hnumber => by cases hnumber⟩, Nat.le_refl _⟩
      · simp only [Option.some.injEq, Prod.mk.injEq] at h
        obtain ⟨rfl, rfl⟩ := h
        exact ⟨⟨hreg, fun _ hnumber => by cases hnumber⟩, Nat.le_succ _⟩

namespace Opcode

theorem Each.template {P : Template → Prop} {r : List UInt8} (h : meaning.Each P)
    (hoperands : meaning.readOperands mode p r = some (m, rest))
    (ht : meaning.template? m.reg = some t) : P t := by
  cases meaning with
  | plain u =>
    obtain rfl : u = t := by simpa [template?] using ht
    exact h
  | modRM group =>
    obtain ⟨hm, -⟩ := ModRM.sound_of_read hoperands
    exact h ⟨m.reg, hm.reg⟩ t ht

theorem each_of_read {P : Template → Prop} {r : List UInt8} {last : UInt8}
    (hone : ∀ n : Fin 256, ∀ found ∈ oneByte? mode (UInt8.ofFin n), found.Each P)
    (htwo : ∀ n : Fin 256, ∀ found ∈ twoByte? (UInt8.ofFin n), found.Each P)
    (h : read mode bytes = some (meaning, last, r)) : meaning.Each P := by
  rcases eq_of_read h with ⟨-, -, hm⟩ | ⟨-, hm⟩
  · exact hone last.toFin meaning hm
  · exact htwo last.toFin meaning hm

theorem Sound.each (h : meaning.Sound) : meaning.Each Template.Sound := by
  cases meaning with
  | plain u => exact h
  | modRM group => exact fun reg t ht => (h reg t ht).1

theorem length_le_of_readOperands {r : List UInt8}
    (h : meaning.readOperands mode p r = some (m, rest)) : r.length ≤ rest.length + 2 := by
  cases meaning with
  | plain u =>
    simp only [readOperands, Option.some.injEq, Prod.mk.injEq] at h
    obtain ⟨-, rfl⟩ := h
    exact Nat.le_add_right ..
  | modRM group => exact (ModRM.sound_of_read h).2

theorem short_twoByte? {opcode : UInt8} (h : twoByte? opcode = some meaning) :
    meaning.Each fun t => Sequence.total (t.operands.map (·.longest)) ≤ 4 := by
  have hall : ∀ n : Fin 256, ∀ found ∈ twoByte? (UInt8.ofFin n),
      found.Each fun t => Sequence.total (t.operands.map (·.longest)) ≤ 4 := by
    decide +kernel
  exact hall opcode.toFin meaning h

theorem length_add_longest_le {r r' : List UInt8} {last : UInt8}
    (hopcode : read mode r = some (meaning, last, r'))
    (hoperands : meaning.readOperands mode p r' = some (m, rest))
    (ht : meaning.template? m.reg = some t) :
    r.length + Sequence.total (t.operands.map (·.longest)) ≤ rest.length + 11 := by
  have hlength := length_le_of_readOperands hoperands
  rcases eq_of_read hopcode with ⟨rfl, -, hm⟩ | ⟨rfl, hm⟩
  · have hsound := (sound_oneByte? hm).each.template hoperands ht
    have hfields := hsound.2
    rw [List.length_cons]
    omega
  · have hfields := (short_twoByte? hm).template hoperands ht
    rw [List.length_cons, List.length_cons]
    omega

end Opcode

theorem Prefixes.exists_own_of_read (h : read mode bytes = (p, rest)) :
    ∃ own, bytes = own ++ rest ∧ own.length = p.size := by
  have hsplit : bytes.takeWhile isLegacyPrefix ++ bytes.dropWhile isLegacyPrefix = bytes :=
    List.takeWhile_append_dropWhile
  cases mode with
  | bits32 =>
    obtain ⟨rfl, rfl⟩ := Prod.mk.inj h
    exact ⟨_, hsplit.symm, rfl⟩
  | bits64 =>
    cases hd : bytes.dropWhile isLegacyPrefix with
    | nil =>
      simp only [read, hd, Prod.mk.injEq] at h
      obtain ⟨rfl, rfl⟩ := h
      exact ⟨_, hd ▸ hsplit.symm, rfl⟩
    | cons b r =>
      simp only [read, hd] at h
      split at h
      · simp only [Prod.mk.injEq] at h
        obtain ⟨rfl, rfl⟩ := h
        refine ⟨bytes.takeWhile isLegacyPrefix ++ [b], ?_, by simp [size]⟩
        rw [List.append_assoc, List.singleton_append, ← hd, hsplit]
      · simp only [Prod.mk.injEq] at h
        obtain ⟨rfl, rfl⟩ := h
        exact ⟨_, hd ▸ hsplit.symm, rfl⟩

/-- After its prefixes an instruction takes eleven bytes at most. -/
theorem Head.total_le {head : Head} (hp : Prefixes.read mode bytes = (p, rest))
    (h : Head.read mode bytes = some head) : head.total ≤ p.size + 11 := by
  obtain ⟨p', r, meaning, last, r', m, rest', t, hp', hopcode, hoperands, ht, rfl⟩ :=
    exists_template h
  obtain ⟨rfl, rfl⟩ := Prod.mk.inj (hp'.symm.trans hp)
  have hlength := Opcode.length_add_longest_le hopcode hoperands ht
  have hsound := (Opcode.sound_of_read hopcode).1.each.template hoperands ht
  obtain ⟨own, rfl, hsize⟩ := Prefixes.exists_own_of_read hp
  have hfields := t.fieldSizes_le_longest mode p' last m ((own ++ r).length - rest'.length)
  have hshort := hsound.2
  have hfront : (ofTemplate mode p' last m ((own ++ r).length - rest'.length) t).size ≤
      p'.size + r.length - rest'.length := by
    simp only [ofTemplate, List.length_append]
    omega
  rw [total]
  omega

theorem Encoding.decode?_take {n : Nat} (hp : Prefixes.read mode bytes = (p, rest))
    (hn : p.size + 11 ≤ n) (x : Int) : decode? mode x (bytes.take n) = decode? mode x bytes := by
  refine Option.ext fun i => ?_
  rw [decode?_eq_some_iff, decode?_eq_some_iff]
  constructor
  · rintro ⟨head, hhead, hlength, rfl⟩
    rw [List.length_take] at hlength
    have hmin : min head.size n = head.size := by
      rw [Head.total] at hlength
      omega
    have hfull : Head.read mode bytes = some head :=
      Head.read_of_take_eq hhead (by rw [List.take_take, hmin])
    exact ⟨head, hfull, by omega, by rw [List.take_take, Nat.min_eq_left (by omega)]⟩
  · rintro ⟨head, hhead, hlength, rfl⟩
    have htotal := Head.total_le hp hhead
    have hmin : min head.size n = head.size := by
      rw [Head.total] at htotal
      omega
    have hfront : Head.read mode (bytes.take n) = some head :=
      Head.read_of_take_eq hhead (by rw [List.take_take, hmin])
    exact ⟨head, hfront, by rw [List.length_take]; omega,
      by rw [List.take_take, Nat.min_eq_left (by omega)]⟩

end CodeSignature
