import CodeSignature.Proofs.Encoding.Head

/-! # Steady instructions

The mnemonics that set up a frame on the stack never stand for a branch. So the text of such an
instruction does not depend on where it lies, unless it names memory relative to that place.
-/

namespace CodeSignature

def frameMnemonics : List String := ["push", "mov", "sub"]

/-- A template that sets up a frame has no branch operand. -/
def Template.Steady (t : Template) : Prop :=
  t.mnemonic ∈ frameMnemonics → ∀ r, OperandForm.branch r ∉ t.operands

namespace Opcode

def Steady (meaning : Opcode) : Prop :=
  ∀ reg t, meaning.template? reg = some t → t.Steady

variable {mode : Mode} {meaning : Opcode} {t : Template}

theorem steady_plain (h : t.Steady) : (Opcode.plain t).Steady := by
  intro reg u hu
  obtain rfl : t = u := by simpa [template?] using hu
  exact h

theorem steady_operands {mnemonic : String} {forms : List OperandForm}
    (hf : ∀ r, OperandForm.branch r ∉ forms) : (operands mnemonic forms).Steady := by
  intro reg u hu
  obtain rfl : (⟨mnemonic, forms⟩ : Template) = u := by simpa [operands, template?] using hu
  exact fun _ => hf

theorem steady_arithmeticGroup (width : WidthRule) (field : FieldRule) :
    (arithmeticGroup width field).Steady := by
  intro reg u hu
  simp only [arithmeticGroup, template?, Option.some.injEq] at hu
  subst hu
  simp [Template.Steady]

theorem steady_shiftGroup (width : WidthRule) {count : OperandForm}
    (hc : ∀ r, OperandForm.branch r ≠ count) : (shiftGroup width count).Steady := by
  intro reg u hu
  simp only [shiftGroup, template?, Option.some.injEq] at hu
  subst hu
  simp [Template.Steady, hc]

theorem steady_onlyZero (h : t.Steady) : (onlyZero t).Steady := by
  intro reg u hu
  simp only [onlyZero, template?, Option.ite_none_right_eq_some, Option.some.injEq] at hu
  obtain ⟨-, rfl⟩ := hu
  exact h

theorem steady_unaryGroup : unaryGroup.Steady := by
  intro reg u hu
  simp only [unaryGroup, template?] at hu
  split at hu <;> cases hu <;> simp [Template.Steady]

theorem steady_indirectGroup : indirectGroup.Steady := by
  intro reg u hu
  simp only [indirectGroup, template?] at hu
  split at hu <;> cases hu <;> simp [Template.Steady]

theorem steady_condition (n : Nat) (field : FieldRule) :
    (Opcode.plain ⟨conditionNames.getD n "", [.branch field]⟩).Steady := by
  have hname : conditionNames.getD n "" ∉ frameMnemonics := by
    rcases Nat.lt_or_ge n 16 with hn | hn
    · have : ∀ k : Fin 16, conditionNames.getD k "" ∉ frameMnemonics := by decide
      exact this ⟨n, hn⟩
    · rw [List.getD_eq_getElem?_getD, List.getElem?_eq_none (by simpa [conditionNames] using hn)]
      decide
  exact steady_plain fun hm => absurd hm hname

theorem steady_arithmetic? {row column : Nat} (h : arithmetic? row column = some meaning) :
    meaning.Steady := by
  unfold arithmetic? at h
  dsimp only at h
  split at h
  case h_1 | h_3 => cases h; exact steady_operands (by simp)
  case h_2 | h_4 =>
    obtain ⟨-, h⟩ := Option.ite_none_right_eq_some.mp h
    cases h
    exact steady_operands (by simp)
  case h_5 | h_6 => cases h; exact steady_plain (by simp [Template.Steady])
  case h_7 => cases h

theorem steady_single? {n : Nat} (h : single? n = some meaning) : meaning.Steady := by
  unfold single? at h
  split at h
  all_goals cases h
  all_goals first
    | exact steady_plain (by simp [Template.Steady, frameMnemonics])
    | exact steady_onlyZero (by simp [Template.Steady])
    | exact steady_operands (by simp)
    | exact steady_arithmeticGroup _ _
    | exact steady_shiftGroup _ (by simp)
    | exact steady_unaryGroup
    | exact steady_indirectGroup

theorem steady_oneByte? {opcode : UInt8} (h : oneByte? mode opcode = some meaning) :
    meaning.Steady := by
  unfold oneByte? at h
  dsimp only at h
  split at h
  · exact steady_arithmetic? h
  split at h
  · cases mode with
    | bits32 => cases h; exact steady_plain (by simp [Template.Steady])
    | bits64 => cases h
  split at h
  · cases h; exact steady_plain (by simp [Template.Steady])
  split at h
  · cases h; exact steady_plain (by simp [Template.Steady])
  split at h
  · cases h; exact steady_condition _ _
  split at h
  · cases h; exact steady_plain (by simp [Template.Steady])
  · exact steady_single? h

theorem steady_twoByte? {opcode : UInt8} (h : twoByte? opcode = some meaning) :
    meaning.Steady := by
  unfold twoByte? at h
  dsimp only at h
  split at h
  · cases h; exact steady_condition _ _
  split at h
  case h_7 => cases h
  all_goals
    cases h
    exact steady_operands (by simp)

theorem steady_of_read {bytes rest : List UInt8} {last : UInt8}
    (h : read mode bytes = some (meaning, last, rest)) : meaning.Steady := by
  rcases eq_of_read h with ⟨-, -, hm⟩ | ⟨-, hm⟩
  · exact steady_oneByte? hm
  · exact steady_twoByte? hm

end Opcode

theorem Head.branch_not_mem_slots {mode : Mode} {bytes : List UInt8} {head : Head}
    (h : read mode bytes = some head) (hm : head.mnemonic ∈ frameMnemonics) :
    Slot.branch ∉ head.slots := by
  obtain ⟨p, r, meaning, last, r', m, rest, t, -, hopcode, -, ht, rfl⟩ := exists_template h
  have hsteady := Opcode.steady_of_read hopcode m.reg t ht hm
  simp only [ofTemplate, List.mem_map, not_exists, not_and]
  rintro form hform hslot
  cases form with
  | branch field => exact hsteady field hform
  | place w =>
    simp only [OperandForm.slot] at hslot
    split at hslot <;> cases hslot
  | reg | low | accumulator | signed | unsigned | counter | one | trap => cases hslot

end CodeSignature
