import CodeSignature.Instruction.Masking
import CodeSignature.Proofs.Encoding.Head

/-! # The shape of an instruction

Size, mnemonic, and the kinds and offsets of the operands. The head of an instruction determines
them, and no operand field starts inside the head. So the bytes in front of the first field contain
the head, and whatever stands in the fields leaves the shape as it is.
-/

namespace CodeSignature

namespace Instruction

/-- What does not depend on the address and on the contents of the fields. -/
structure Shape where
  size : Int
  mnemonic : String
  operands : List (OperandKind × Int)
deriving DecidableEq, Repr

def shape (i : Instruction) : Shape :=
  ⟨i.size, i.mnemonic, i.operands.map fun o => (o.kind, o.offset)⟩

/-- The number of bytes in front of the first known operand field, or all of them. -/
def literalSize (i : Instruction) : Nat :=
  match i.operands.find? fun o => o.kind ≠ .void ∧ o.offset ≠ 0 with
  | some o => o.offset.toNat
  | none => i.size.toNat

end Instruction

namespace Head

variable {head : Head} {x : Int} {bytes : List UInt8}

theorem shape_instruction (head : Head) (x y : Int) (bytes bytes' : List UInt8) :
    (head.instruction x bytes).shape = (head.instruction y bytes').shape := by
  simp only [Instruction.shape, instruction, List.map_filterMap, Instruction.Shape.mk.injEq,
    true_and]
  congr 1
  funext slot
  cases slot <;> rfl

theorem size_le_offset {o : Operand} (h : o ∈ (head.instruction x bytes).operands) :
    o.offset = 0 ∨ (head.size : Int) ≤ o.offset := by
  obtain ⟨slot, -, hs⟩ := List.mem_filterMap.mp h
  cases slot with
  | memory w segment a =>
    simp only [slotOperand?, Option.some.injEq] at hs
    subst hs
    simp only [displacementOffset]
    split
    · exact Or.inl rfl
    · exact Or.inr (Int.le_refl _)
  | signed | unsigned | branch =>
    simp only [slotOperand?, Option.some.injEq] at hs
    subst hs
    right
    simp only [immediateOffset]
    omega
  | register | one =>
    simp only [slotOperand?, Option.some.injEq] at hs
    subst hs
    exact Or.inl rfl
  | trap => simp [slotOperand?] at hs

theorem size_le_literalSize (head : Head) (x : Int) (bytes : List UInt8) :
    head.size ≤ (head.instruction x bytes).literalSize := by
  unfold Instruction.literalSize
  split
  next o hfind =>
    have ho := List.find?_some hfind
    simp only [decide_eq_true_eq] at ho
    have := size_le_offset (List.mem_of_find?_eq_some hfind)
    omega
  next => simp only [instruction, total]; omega

end Head

namespace Encoding

variable {mode : Mode} {bytes bytes' : List UInt8} {x y : Int} {i : Instruction}

theorem offset_nonneg (h : decode? mode x bytes = some i) {o : Operand} (ho : o ∈ i.operands) :
    0 ≤ o.offset := by
  obtain ⟨head, -, -, rfl⟩ := decode?_eq_some_iff.mp h
  have := Head.size_le_offset ho
  omega

/-- Where the bytes in front of the first field agree and nothing is missing, an instruction of the
same shape is decoded. -/
theorem decode?_of_literals (h : decode? mode x bytes = some i)
    (hl : i.bytes.take i.literalSize <+: bytes') (hs : i.size ≤ bytes'.length) :
    ∃ j, decode? mode y bytes' = some j ∧ j.shape = i.shape := by
  obtain ⟨head, hread, htotal, rfl⟩ := decode?_eq_some_iff.mp h
  have hliteral := head.size_le_literalSize x (bytes.take head.total)
  have hle : head.size ≤ head.total := by simp only [Head.total]; omega
  have hown : (bytes.take head.total).take head.size = bytes.take head.size := by
    rw [List.take_take, Nat.min_eq_left hle]
  have htake : bytes'.take head.size = bytes.take head.size := by
    have hpre := (List.take_prefix_take_left (l := bytes.take head.total) hliteral).trans hl
    rw [hown, List.prefix_iff_eq_take, List.length_take, Nat.min_eq_left (by omega)] at hpre
    exact hpre.symm
  refine ⟨head.instruction y (bytes'.take head.total), decode?_eq_some_iff.mpr
    ⟨head, Head.read_of_take_eq hread htake, ?_, rfl⟩, head.shape_instruction ..⟩
  simpa [Head.instruction] using hs

end Encoding

end CodeSignature
