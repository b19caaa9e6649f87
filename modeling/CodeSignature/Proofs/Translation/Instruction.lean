import CodeSignature.Proofs.Encoding.Steady
import CodeSignature.Proofs.Instruction.Shape
import CodeSignature.Proofs.Translation.OperandText
import Mathlib.Data.List.Forall2

/-! # Moving an instruction

The same bytes decoded at another address make an instruction of the same shape whose branch target
moves along. Its text may change, but only in the target of a branch or between brackets, and
neither has an influence on whether a frame is set up.
-/

namespace CodeSignature

/-- What decoding at another address leaves as it is. -/
structure Instruction.Moved (δ : Int) (i j : Instruction) : Prop where
  address : j.address = i.address + δ
  shape : j.shape = i.shape
  bytes : j.bytes = i.bytes
  branchTarget : j.branchTarget = i.branchTarget.map (· + δ)
  text : i.mnemonic ∈ frameMnemonics → Text.Alike i.operandText.toList j.operandText.toList

namespace Instruction.Moved

variable {δ : Int} {i j : Instruction} (h : i.Moved δ j)
include h

theorem size : j.size = i.size := congrArg Shape.size h.shape

theorem mnemonic : j.mnemonic = i.mnemonic := congrArg Shape.mnemonic h.shape

theorem next : j.next = i.next + δ := by
  rw [Instruction.next, Instruction.next, h.address, h.size]
  omega

end Instruction.Moved

namespace Head

variable {mode : Mode} {bytes : List UInt8} {head : Head} {x : Int}

theorem next_add (head : Head) (x δ : Int) : head.next (x + δ) = head.next x + δ := by
  simp only [next]
  omega

theorem branchTarget_instruction (head : Head) (x : Int) (bytes : List UInt8) :
    (head.instruction x bytes).branchTarget =
      if Slot.branch ∈ head.slots then
        some (head.next x + Bytes.signed (head.immediate bytes))
      else none := by
  simp only [Instruction.branchTarget, instruction]
  induction head.slots with
  | nil => rfl
  | cons slot slots ih =>
    cases slot with
    | branch => simp [slotOperand?]
    | memory w segment a =>
      have hkind : a.kind ≠ .near ∧ a.kind ≠ .far := by
        unfold Addressing.kind
        split <;> decide
      simpa [slotOperand?, hkind] using ih
    | register | signed | unsigned | one | trap => simpa [slotOperand?] using ih

theorem slotText_alike (head : Head) (x y : Int) (bytes : List UInt8) {slot : Slot}
    (h : slot ≠ .branch) :
    Text.Alike (head.slotText x bytes slot).toList (head.slotText y bytes slot).toList := by
  cases slot with
  | branch => exact absurd rfl h
  | memory w segment a =>
    have hptr : " ptr [".toList = " ptr ".toList ++ ['['] := by decide
    simp only [slotText, String.toList_append, hptr, List.append_assoc,
      List.cons_append]
    refine Text.Alike.append_left _ (Text.Alike.append_left _ ?_)
    exact .bracket [] _ _
  | register | signed | unsigned | one | trap => exact .same _

theorem moved_instruction (h : read mode bytes = some head) (x δ : Int) (own : List UInt8) :
    (head.instruction x own).Moved δ (head.instruction (x + δ) own) where
  address := rfl
  shape := head.shape_instruction ..
  bytes := rfl
  branchTarget := by
    rw [branchTarget_instruction, branchTarget_instruction, next_add]
    split
    · rw [Option.map_some]
      congr 1
      omega
    · rfl
  text hm := by
    have hslots := branch_not_mem_slots h hm
    simp only [instruction, String.toList_intercalate, List.map_map]
    refine Text.Alike.intercalate _ ?_
    rw [List.forall₂_map_left_iff, List.forall₂_map_right_iff, List.forall₂_same]
    rintro slot hslot
    exact head.slotText_alike _ _ _ fun he => hslots (he ▸ hslot)

end Head

namespace Encoding

variable {δ : Int}

theorem moved_unknown (x δ : Int) (bytes : List UInt8) :
    (unknown x bytes).Moved δ (unknown (x + δ) bytes) where
  address := rfl
  shape := rfl
  bytes := rfl
  branchTarget := rfl
  text _ := .same _

theorem decode?_moved (mode : Mode) (x δ : Int) (bytes : List UInt8) :
    Option.Rel (Instruction.Moved δ) (decode? mode x bytes) (decode? mode (x + δ) bytes) := by
  unfold decode?
  cases hread : Head.read mode bytes with
  | none => exact .none
  | some head =>
    simp only [Option.bind_eq_bind, Option.bind_some]
    split
    · exact .some (Head.moved_instruction hread ..)
    · exact .none

theorem decodeAt?_moved (mode : Mode) (base x δ : Int) (code : List UInt8) :
    Option.Rel (Instruction.Moved δ) (decodeAt? mode base code x)
      (decodeAt? mode (base + δ) code (x + δ)) := by
  have hrange : (base + δ ≤ x + δ ∧ x + δ < base + δ + code.length) ↔
      (base ≤ x ∧ x < base + code.length) := by omega
  have hoffset : x + δ - (base + δ) = x - base := by omega
  simp only [decodeAt?, hrange, hoffset]
  split
  · exact decode?_moved ..
  · exact .none

theorem decodeOne_moved (mode : Mode) (x δ : Int) (bytes : List UInt8) (hne : bytes ≠ []) :
    (decodeOne mode x bytes).Moved δ (decodeOne mode (x + δ) bytes) := by
  rw [decodeOne, decodeOne, if_neg hne, if_neg hne]
  have h := decode?_moved mode x δ bytes
  cases hd : decode? mode x bytes <;> cases hd' : decode? mode (x + δ) bytes <;>
    rw [hd, hd'] at h
  case none.none => exact moved_unknown ..
  case none.some => cases h
  case some.none => cases h
  case some.some =>
    cases h with
    | some h => exact h

theorem sweep_moved (mode : Mode) (x δ : Int) (bytes : List UInt8) :
    List.Forall₂ (Instruction.Moved δ) (sweep mode x bytes) (sweep mode (x + δ) bytes) := by
  induction x, bytes using sweep.induct mode with
  | case1 x => simp [sweep]
  | case2 x b rest entry ih =>
    have hentry := decodeOne_moved mode x δ (b :: rest) (by simp)
    rw [sweep, sweep]
    refine .cons hentry ?_
    rw [hentry.bytes, hentry.next]
    exact ih

end Encoding

end CodeSignature
