import CodeSignature.Encoding.Decode
import CodeSignature.Proofs.Sequence

/-! # The head of an instruction

The prefixes, the opcode, the ModR/M and the SIB byte delimit themselves: what follows them does not
change how they are read. An instruction is therefore known from its head and its fields alone.
-/

namespace CodeSignature

variable {mode : Mode} {p : Prefixes} {bytes rest : List UInt8}

theorem Prefixes.read_append {b : UInt8} (h : read mode bytes = (p, b :: rest)) :
    ∃ own, bytes = own ++ b :: rest ∧ ∀ more, read mode (own ++ b :: more) = (p, b :: more) := by
  have hsplit : bytes.takeWhile isLegacyPrefix ++ bytes.dropWhile isLegacyPrefix = bytes :=
    List.takeWhile_append_dropWhile
  cases hd : bytes.dropWhile isLegacyPrefix with
  | nil => cases mode <;> simp [read, hd] at h
  | cons c r =>
    have hspan := Sequence.span_append_cons hd
    rw [hd] at hsplit
    cases mode with
    | bits32 =>
      simp only [read, hd, Prod.mk.injEq, List.cons.injEq] at h
      obtain ⟨rfl, rfl, rfl⟩ := h
      exact ⟨_, hsplit.symm, fun more => by simp [read, hspan more]⟩
    | bits64 =>
      simp only [read, hd] at h
      split at h
      next hrex =>
        -- A REX byte is the last prefix, so any byte may come after it.
        simp only [Prod.mk.injEq] at h
        obtain ⟨rfl, rfl⟩ := h
        exact ⟨_, by rw [List.append_cons] at hsplit; exact hsplit.symm,
          fun more => by simp [read, hspan (b :: more), hrex]⟩
      next hrex =>
        simp only [Prod.mk.injEq, List.cons.injEq] at h
        obtain ⟨rfl, rfl, rfl⟩ := h
        exact ⟨_, hsplit.symm, fun more => by simp [read, hspan more, hrex]⟩

theorem Opcode.eq_of_read {meaning : Opcode} {last : UInt8}
    (h : read mode bytes = some (meaning, last, rest)) :
    (bytes = last :: rest ∧ last ≠ 0x0F ∧ oneByte? mode last = some meaning) ∨
      (bytes = 0x0F :: last :: rest ∧ twoByte? last = some meaning) := by
  cases bytes with
  | nil => simp [read] at h
  | cons b bytes =>
    simp only [read] at h
    split at h
    next hb =>
      cases bytes with
      | nil => simp at h
      | cons second bytes =>
        obtain ⟨meaning', hm, heq⟩ := Option.map_eq_some_iff.mp h
        simp only [Prod.mk.injEq] at heq
        obtain ⟨rfl, rfl, rfl⟩ := heq
        exact Or.inr ⟨by rw [hb], hm⟩
    next hb =>
      obtain ⟨meaning', hm, heq⟩ := Option.map_eq_some_iff.mp h
      simp only [Prod.mk.injEq] at heq
      obtain ⟨rfl, rfl, rfl⟩ := heq
      exact Or.inl ⟨rfl, hb, hm⟩

theorem Opcode.read_append {meaning : Opcode} {last : UInt8}
    (h : read mode bytes = some (meaning, last, rest)) :
    ∃ b own, bytes = b :: own ++ rest ∧
      ∀ more, read mode (b :: own ++ more) = some (meaning, last, more) := by
  rcases eq_of_read h with ⟨rfl, hb, hm⟩ | ⟨rfl, hm⟩
  · exact ⟨last, [], rfl, fun more => by simp [read, hb, hm]⟩
  · exact ⟨0x0F, [last], rfl, fun more => by simp [read, hm]⟩

theorem ModRM.read_append {m : ModRM} (h : read mode p bytes = some (m, rest)) :
    ∃ own, bytes = own ++ rest ∧ ∀ more, read mode p (own ++ more) = some (m, more) := by
  cases bytes with
  | nil => simp [read] at h
  | cons b bytes =>
    simp only [read] at h
    split at h
    next hmod =>
      simp only [Option.some.injEq, Prod.mk.injEq] at h
      obtain ⟨rfl, rfl⟩ := h
      exact ⟨[b], rfl, fun more => by simp [read, hmod]⟩
    next hmod =>
      split at h
      next hrm =>
        cases bytes with
        | nil => simp at h
        | cons sib bytes =>
          simp only [Option.some.injEq, Prod.mk.injEq] at h
          obtain ⟨rfl, rfl⟩ := h
          exact ⟨[b, sib], rfl, fun more => by simp [read, hmod, hrm]⟩
      next hrm =>
        simp only [Option.some.injEq, Prod.mk.injEq] at h
        obtain ⟨rfl, rfl⟩ := h
        exact ⟨[b], rfl, fun more => by simp [read, hmod, hrm]⟩

namespace Opcode

/-- The operand bytes that an opcode reads before it chooses a template. Without a ModR/M byte there
are none. -/
def readOperands (mode : Mode) (p : Prefixes) (bytes : List UInt8) :
    Opcode → Option (ModRM × List UInt8)
  | .plain _ => some (⟨0, .register 0⟩, bytes)
  | .modRM _ => ModRM.read mode p bytes

def template? (reg : Nat) : Opcode → Option Template
  | .plain t => some t
  | .modRM group => group reg

theorem readOperands_append {meaning : Opcode} {m : ModRM}
    (h : meaning.readOperands mode p bytes = some (m, rest)) :
    ∃ own, bytes = own ++ rest ∧
      ∀ more, meaning.readOperands mode p (own ++ more) = some (m, more) := by
  cases meaning with
  | plain t =>
    simp only [readOperands, Option.some.injEq, Prod.mk.injEq] at h
    obtain ⟨rfl, rfl⟩ := h
    exact ⟨[], rfl, fun more => rfl⟩
  | modRM group => exact ModRM.read_append h

end Opcode

namespace Head

theorem read_eq (mode : Mode) (bytes : List UInt8) :
    read mode bytes =
      (Opcode.read mode (Prefixes.read mode bytes).2).bind fun (meaning, last, r) =>
        (meaning.readOperands mode (Prefixes.read mode bytes).1 r).bind fun (m, rest) =>
          (meaning.template? m.reg).map
            (ofTemplate mode (Prefixes.read mode bytes).1 last m (bytes.length - rest.length)) := by
  rcases hp : Prefixes.read mode bytes with ⟨p, r⟩
  simp only [read, hp]
  cases Opcode.read mode r with
  | none => rfl
  | some found =>
    obtain ⟨meaning, last, r'⟩ := found
    cases meaning with
    | plain t => rfl
    | modRM group =>
      simp only [Opcode.readOperands, Opcode.template?, Option.bind_eq_bind, Option.bind_some]
      cases ModRM.read mode p r' with
      | none => rfl
      | some operands =>
        simp only [Option.bind_some]
        cases group operands.1.reg <;> rfl

theorem exists_template {head : Head} (h : read mode bytes = some head) :
    ∃ p r meaning last r' m rest t, Prefixes.read mode bytes = (p, r) ∧
      Opcode.read mode r = some (meaning, last, r') ∧
      meaning.readOperands mode p r' = some (m, rest) ∧ meaning.template? m.reg = some t ∧
      head = ofTemplate mode p last m (bytes.length - rest.length) t := by
  rw [read_eq] at h
  obtain ⟨⟨meaning, last, r'⟩, hopcode, h⟩ := Option.bind_eq_some_iff.mp h
  obtain ⟨⟨m, rest⟩, hoperands, h⟩ := Option.bind_eq_some_iff.mp h
  obtain ⟨t, ht, rfl⟩ := Option.map_eq_some_iff.mp h
  exact ⟨_, _, meaning, last, r', m, rest, t, rfl, hopcode, hoperands, ht, rfl⟩

/-- The head of an instruction is a front part of the bytes, and what follows it does not matter. -/
theorem read_append {head : Head} (h : read mode bytes = some head) :
    ∃ own rest, bytes = own ++ rest ∧ own.length = head.size ∧ own ≠ [] ∧
      ∀ more, read mode (own ++ more) = some head := by
  obtain ⟨p, r, meaning, last, r', m, rest, t, hp, hopcode, hoperands, ht, rfl⟩ :=
    exists_template h
  obtain ⟨b, opcodeBytes, rfl, hopcode'⟩ := Opcode.read_append hopcode
  obtain ⟨operandBytes, rfl, hoperands'⟩ := Opcode.readOperands_append hoperands
  obtain ⟨prefixBytes, rfl, hp'⟩ := Prefixes.read_append hp
  refine ⟨prefixBytes ++ b :: opcodeBytes ++ operandBytes, rest, by simp, ?_, by simp,
    fun more => ?_⟩
  · simp [ofTemplate]; omega
  · have hmore := hp' (opcodeBytes ++ operandBytes ++ more)
    have hassoc : prefixBytes ++ b :: opcodeBytes ++ operandBytes ++ more =
        prefixBytes ++ b :: (opcodeBytes ++ operandBytes ++ more) := by simp
    rw [read_eq, hassoc, hmore]
    have hop := hopcode' (operandBytes ++ more)
    rw [List.cons_append, ← List.append_assoc] at hop
    simp only [hop, Option.bind_some, hoperands', ht, Option.map_some]
    congr 2
    simp; omega

theorem read_of_take_eq {head : Head} {bytes' : List UInt8} (h : read mode bytes = some head)
    (ht : bytes'.take head.size = bytes.take head.size) : read mode bytes' = some head := by
  obtain ⟨own, rest, rfl, hl, -, hmore⟩ := read_append h
  rw [← hl, List.take_left] at ht
  rw [← List.take_append_drop own.length bytes', ht]
  exact hmore _

theorem size_pos {head : Head} (h : read mode bytes = some head) : 0 < head.size := by
  obtain ⟨own, rest, -, hl, hne, -⟩ := read_append h
  rw [← hl]
  exact List.length_pos_iff.mpr hne

end Head

namespace Encoding

variable {x : Int} {i : Instruction}

/-- An instruction is decoded where its head is read and its fields are complete. -/
theorem decode?_eq_some_iff :
    decode? mode x bytes = some i ↔
      ∃ head, Head.read mode bytes = some head ∧ head.total ≤ bytes.length ∧
        i = head.instruction x (bytes.take head.total) := by
  simp only [decode?, Option.bind_eq_bind, Option.bind_eq_some_iff, List.length_take]
  refine exists_congr fun head => and_congr_right fun _ => ?_
  split
  next h =>
    rw [Option.some.injEq]
    exact ⟨fun he => ⟨by omega, he.symm⟩, fun he => he.2.symm⟩
  next h => exact ⟨fun he => by simp at he, fun he => absurd he.1 (by omega)⟩

theorem bytes_of_decode? (h : decode? mode x bytes = some i) :
    i.address = x ∧ 0 < i.size ∧ i.size ≤ bytes.length ∧ i.bytes = bytes.take i.size.toNat := by
  obtain ⟨head, hh, hl, rfl⟩ := decode?_eq_some_iff.mp h
  have hp := Head.size_pos hh
  refine ⟨rfl, ?_, ?_, rfl⟩
  · simp only [Head.instruction, Head.total]; omega
  · simpa [Head.instruction] using hl

end Encoding

end CodeSignature
