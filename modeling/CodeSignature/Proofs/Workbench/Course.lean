import CodeSignature.Proofs.Search.Course
import CodeSignature.Workbench

/-! # The course of an action

An action leads from a dialogue to another by exchanges alone. It has the same result, and the same
happens in it, whether or not a cancellation is left over from before: a search forgets it at the
start, and the look-up of a signature never polls.
-/

namespace CodeSignature

open Dialogue

variable {d e : Dialogue}

namespace Dialogue

theorem resume_interruptIfReached (d : Dialogue) : d.interruptIfReached.resume = d.resume := by
  unfold interruptIfReached
  split
  · split <;> rfl
  · rfl

theorem resume_write_congr (h : d.resume = e.resume) (level : Level) (text : String) :
    (d.write level text).resume = (e.write level text).resume := by
  have hwrite : ∀ d : Dialogue, (d.write level text).resume =
      if level.rank < d.resume.threshold.rank then d.resume
      else d.resume.record (.logged level text) := by
    intro d
    unfold write
    split
    · exact (if_pos ‹_›).symm
    · rw [resume_interruptIfReached]
      exact (if_neg ‹_›).symm
  rw [hwrite, hwrite, h]

end Dialogue

namespace Workbench

variable {w : Workbench}

theorem load_congr {settings : Settings} {image : Image} (h : (empty settings).load image d = (.ok w, e))
    (d' : Dialogue) : ∃ e', (empty settings).load image d' = (.ok w, e') ∧ w.settings = settings := by
  unfold load at h ⊢
  split at h
  next a ha =>
    obtain ⟨rfl, -⟩ := Prod.mk.inj h |>.imp_left Except.ok.inj
    exact ⟨_, rfl, rfl⟩
  next => cases (Prod.mk.inj h).1

theorem reaches_copy (w : Workbench) (text : String) (d : Dialogue) :
    d.Reaches (w.copy text d) := by
  have hcopy : d.Reaches (d.copy text).2 := Reaches.refl.copy text
  unfold copy
  split
  · split
    next e heq => rwa [heq] at hcopy
    next e heq =>
      rw [heq] at hcopy
      exact hcopy.write _ _
  · exact .refl

theorem reaches_deliver (w : Workbench) (heading : String) (p : Except Failure Signature × Dialogue) :
    p.2.Reaches (w.deliver heading p).2 := by
  unfold deliver
  split
  · exact .refl
  · exact Reaches.refl.write _ _
  · split
    · exact .refl
    · exact (Reaches.refl.write _ _).trans (reaches_copy ..)

theorem reaches_uniqueSignature (w : Workbench) (address : Int) (d : Dialogue) :
    d.resume.Reaches (w.uniqueSignature address d).2 := by
  unfold uniqueSignature
  split
  · exact .refl
  · exact (Analysis.consults_grow ..).reaches.trans (reaches_deliver ..)

theorem reaches_rangeSignature (w : Workbench) (start stop : Int) (d : Dialogue) :
    d.resume.Reaches (w.rangeSignature start stop d).2 := by
  unfold rangeSignature
  split
  · exact .refl
  · exact (Analysis.consults_transcribe ..).reaches.trans (reaches_deliver ..)

theorem consults_showRanked (dialect : Dialect) (before : Nat) (ranking : List Ranked)
    (d : Dialogue) : d.Consults (showRanked dialect before ranking d).2 := by
  induction ranking generalizing before d with
  | nil => exact .refl
  | cons r rest ih => exact (Consults.refl.write _ _).trans (ih _ _)

theorem reaches_showBest (w : Workbench) (best : List Ranked) (d : Dialogue) :
    d.Reaches (w.showBest best d).2 := by
  unfold showBest
  split
  · exact .refl
  · split
    · exact .refl
    · exact (consults_showRanked ..).reaches.trans (reaches_copy ..)

theorem reaches_showRanking (w : Workbench) (target : Int) (ranking : List Ranked) (d : Dialogue) :
    d.Reaches (w.showRanking target ranking d).2 := by
  unfold showRanking
  dsimp only
  split
  · exact (Reaches.refl.write _ _).trans (reaches_showBest ..)
  · exact Reaches.refl.write _ _
  · exact .refl
  · exact .refl

theorem reaches_referenceSignatures (w : Workbench) (target : Int) (d : Dialogue) :
    d.resume.Reaches (w.referenceSignatures target d).2 := by
  unfold referenceSignatures
  split
  · exact .refl
  next a _ =>
    have hrank := (Analysis.consults_rank a w.settings.referenceOptions target d.resume).reaches
    split
    next heq => rwa [heq] at hrank
    next heq =>
      rw [heq] at hrank
      exact hrank.write _ _
    next heq =>
      rw [heq] at hrank
      exact hrank.write _ _
    next heq =>
      rw [heq] at hrank
      exact hrank.trans (reaches_showRanking ..)

theorem reaches_showMatches (addresses : List Int) (d : Dialogue) :
    d.Reaches (showMatches addresses d) := by
  induction addresses generalizing d with
  | nil => exact .refl
  | cons address rest ih => exact (Reaches.refl.write _ _).trans (ih _)

theorem reaches_search (w : Workbench) (text : String) (d : Dialogue) :
    d.Reaches (w.search text d).2 := by
  unfold search
  split
  · exact .refl
  · split
    · exact .refl
    · exact Reaches.refl.write _ _
    · dsimp only
      split
      · exact (Reaches.refl.write _ _).write _ _
      · exact (Reaches.refl.write _ _).trans (reaches_showMatches ..)

theorem resume_showMatches_congr (h : d.resume = e.resume) (addresses : List Int) :
    (showMatches addresses d).resume = (showMatches addresses e).resume := by
  induction addresses generalizing d e with
  | nil => exact h
  | cons address rest ih => exact ih (resume_write_congr h _ _)

theorem search_congr (h : d.resume = e.resume) (w : Workbench) (text : String) :
    (w.search text d).1 = (w.search text e).1 ∧
      (w.search text d).2.resume = (w.search text e).2.resume := by
  unfold search
  cases w.analysis with
  | none => exact ⟨rfl, h⟩
  | some a =>
    dsimp only
    split
    · exact ⟨rfl, h⟩
    · exact ⟨rfl, resume_write_congr h _ _⟩
    · split
      · exact ⟨rfl, resume_write_congr (resume_write_congr h _ _) _ _⟩
      · exact ⟨rfl, resume_showMatches_congr (resume_write_congr h _ _) _⟩

end Workbench

end CodeSignature
