import CodeSignature.Encoding.Decode
import CodeSignature.Proofs.Listing.Routine
import Mathlib

/-! # Where functions start

The entry point and the targets of calls start functions. What a heuristic finds starts one only if no
jump leads there.
-/

namespace CodeSignature

namespace Listing

variable {l : Listing} {entry : Option Int} {labels : List (Int × String)}
  {heuristics : Heuristics} {x : Int}

def Called (l : Listing) (x : Int) : Prop :=
  ∃ i ∈ l, i.mnemonic = "call" ∧ i.branchTarget = some x

def Jumped (l : Listing) (x : Int) : Prop := ∃ i ∈ l, isJump i = true ∧ i.branchTarget = some x

/-- The address is an entry point, for which 0 does not count. -/
def Entered (entry : Option Int) (x : Int) : Prop := entry = some x ∧ x ≠ 0

inductive Suggested (l : Listing) (heuristics : Heuristics) (x : Int) : Prop where
  | prologue : heuristics.prologues = true → x ∈ l.prologues → Suggested l heuristics x
  | separator : heuristics.separators = true → x ∈ l.afterSeparators → Suggested l heuristics x
  | padding : heuristics.padding = true → x ∈ l.afterPadding → Suggested l heuristics x

theorem mem_callTargets : x ∈ l.callTargets ↔ x ∈ l.addresses ∧ l.Called x := by
  simp only [callTargets, Called, List.mem_filter, List.mem_filterMap, List.contains_iff_mem,
    Option.ite_none_right_eq_some]
  exact and_comm

theorem mem_jumpTargets : x ∈ l.jumpTargets ↔ l.Jumped x := by
  simp only [jumpTargets, Jumped, List.mem_filterMap, Option.ite_none_right_eq_some]

theorem mem_entryStarts : x ∈ entryStarts entry ↔ Entered entry x := by
  unfold entryStarts Entered
  cases entry with
  | none => simp
  | some a =>
    dsimp only
    rw [Option.some_inj, List.mem_ite_nil_left, List.mem_singleton]
    constructor
    · rintro ⟨ha, rfl⟩
      exact ⟨rfl, ha⟩
    · rintro ⟨rfl, ha⟩
      exact ⟨ha, rfl⟩

theorem mem_heuristicStarts :
    x ∈ l.heuristicStarts heuristics ↔ l.Suggested heuristics x ∧ ¬ l.Jumped x := by
  simp only [heuristicStarts, List.mem_filter, List.mem_append, List.mem_ite_nil_right,
    Bool.not_eq_true', ← Bool.not_eq_true, List.contains_iff_mem, mem_jumpTargets]
  refine and_congr_left fun _ => ⟨?_, ?_⟩
  · rintro ((⟨h, hx⟩ | ⟨h, hx⟩) | ⟨h, hx⟩)
    · exact .prologue h hx
    · exact .separator h hx
    · exact .padding h hx
  · rintro (⟨h, hx⟩ | ⟨h, hx⟩ | ⟨h, hx⟩)
    · exact Or.inl (Or.inl ⟨h, hx⟩)
    · exact Or.inl (Or.inr ⟨h, hx⟩)
    · exact Or.inr ⟨h, hx⟩

/-- Which addresses start a function. -/
theorem mem_starts_iff :
    x ∈ l.starts entry heuristics ↔ x ∈ l.addresses ∧
      (Entered entry x ∨ l.Called x ∨ l.Suggested heuristics x ∧ ¬ l.Jumped x) := by
  simp only [starts, Sequence.mem_ascending, List.mem_filter, List.mem_append,
    List.contains_iff_mem, mem_entryStarts, mem_callTargets, mem_heuristicStarts]
  constructor
  · rintro ⟨(hentry | ⟨-, hcalled⟩) | hsuggested, hx⟩
    · exact ⟨hx, Or.inl hentry⟩
    · exact ⟨hx, Or.inr (Or.inl hcalled)⟩
    · exact ⟨hx, Or.inr (Or.inr hsuggested)⟩
  · rintro ⟨hx, hentry | hcalled | hsuggested⟩
    · exact ⟨Or.inl (Or.inl hentry), hx⟩
    · exact ⟨Or.inl (Or.inr ⟨hx, hcalled⟩), hx⟩
    · exact ⟨Or.inr hsuggested, hx⟩

/-- A function starts where a call leads and at the entry point, whatever heuristics are chosen. Where
a jump leads no other function starts. -/
theorem starts_at_branch_targets (l : Listing) (entry : Option Int) (labels : List (Int × String))
    (heuristics : Heuristics) :
    let fs := l.routines entry labels heuristics
    (∀ x ∈ l.addresses, l.Called x ∨ Entered entry x → ∃ f ∈ fs, f.start = x) ∧
      ∀ f ∈ fs, l.Jumped f.start → l.Called f.start ∨ Entered entry f.start := by
  intro fs
  constructor
  · intro x hx hanchor
    apply exists_routine_start labels
    rw [mem_starts_iff]
    rcases hanchor with hcalled | hentered
    · exact ⟨hx, Or.inr (Or.inl hcalled)⟩
    · exact ⟨hx, Or.inl hentered⟩
  · intro f hf hjumped
    obtain ⟨-, hstart⟩ := mem_starts_iff.mp (mem_starts_of_mem_routines hf)
    rcases hstart with hentered | hcalled | ⟨-, hnot⟩
    · exact Or.inr hentered
    · exact Or.inl hcalled
    · exact absurd hjumped hnot

/-- A call and a jump lead to the prologue, which starts a function. A jump leads to what follows the
first jump, too, so no function starts there. -/
theorem starts_at_branch_targets_prologue :
    let l : Listing := Encoding.sweep .bits64 0x1000
      [0x55, 0x48, 0x89, 0xE5, 0xE8, 0xF7, 0xFF, 0xFF, 0xFF, 0xEB, 0xF5, 0x31, 0xC0, 0xEB, 0xFC]
    let fs := l.routines (some 0x1009) [] ⟨true, true, true⟩
    (∀ x ∈ [0x1000, 0x1009], x ∈ l.addresses ∧ (l.Called x ∨ Entered (some 0x1009) x) ∧
      ∃ f ∈ fs, f.start = x) ∧
    (∃ f ∈ fs, l.Jumped f.start ∧ (l.Called f.start ∨ Entered (some 0x1009) f.start)) ∧
    l.Jumped 0x100B ∧ l.Suggested ⟨true, true, true⟩ 0x100B ∧ ¬ ∃ f ∈ fs, f.start = 0x100B := by
  intro l fs
  have hcalls : l.callTargets = [0x1000] := by
    unfold l
    cbv
  have hjumps : l.jumpTargets = [0x1000, 0x100B] := by
    unfold l
    cbv
  have hseparators : l.afterSeparators = [0x100B] := by
    unfold l
    cbv
  have hstarts : fs.map (·.start) = [0x1000, 0x1009] := by
    unfold fs l
    cbv
  have haddress : (0x1009 : Int) ∈ l.addresses := by
    rw [← List.contains_iff_mem]
    unfold l
    cbv
  have hcall : 0x1000 ∈ l.callTargets := by simp [hcalls]
  obtain ⟨hcallee, hcalled⟩ := mem_callTargets.mp hcall
  obtain ⟨hanchor, hjumped⟩ := starts_at_branch_targets l (some 0x1009) [] ⟨true, true, true⟩
  have hentered : Entered (some 0x1009) 0x1009 := ⟨rfl, by decide⟩
  have hsecond : l.Jumped 0x100B := mem_jumpTargets.mp (by simp [hjumps])
  refine ⟨?_, ?_, hsecond, .separator rfl (by simp [hseparators]), ?_⟩
  · intro x hx
    rcases List.mem_pair.mp hx with rfl | rfl
    · exact ⟨hcallee, Or.inl hcalled, hanchor _ hcallee (Or.inl hcalled)⟩
    · exact ⟨haddress, Or.inr hentered, hanchor _ haddress (Or.inr hentered)⟩
  · obtain ⟨f, hf, hstart⟩ := hanchor _ hcallee (Or.inl hcalled)
    have hfirst : l.Jumped f.start := mem_jumpTargets.mp (by simp [hstart, hjumps])
    exact ⟨f, hf, hfirst, hjumped f hf hfirst⟩
  · intro hstart
    have hmem := List.mem_map.mpr hstart
    rw [hstarts] at hmem
    revert hmem
    decide

end Listing

end CodeSignature
