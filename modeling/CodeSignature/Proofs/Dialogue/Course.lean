import CodeSignature.Proofs.Dialogue.Cancelled

/-! # The course of a dialogue

All that is done with a dialogue is to poll, to ask, to log, to report and to copy. What each of these
keeps is kept in the end: where nothing cancels the dialogue, no poll says to stop. Where nothing is
handed out to be copied, the record of what was copied stays as it is.
-/

namespace CodeSignature

namespace Dialogue

/-- One dialogue comes of another by any number of exchanges. -/
inductive Reaches (d : Dialogue) : Dialogue → Prop where
  | refl : Reaches d d
  | poll {e : Dialogue} : Reaches d e → Reaches d e.poll.2
  | ask {e : Dialogue} (question : String) : Reaches d e → Reaches d (e.ask question).2
  | write {e : Dialogue} (level : Level) (text : String) :
      Reaches d e → Reaches d (e.write level text)
  | progress {e : Dialogue} (current total : Nat) :
      Reaches d e → Reaches d (e.progress current total)
  | copy {e : Dialogue} (text : String) : Reaches d e → Reaches d (e.copy text).2

/-- One dialogue comes of another by exchanges that hand nothing out to be copied. -/
inductive Consults (d : Dialogue) : Dialogue → Prop where
  | refl : Consults d d
  | poll {e : Dialogue} : Consults d e → Consults d e.poll.2
  | ask {e : Dialogue} (question : String) : Consults d e → Consults d (e.ask question).2
  | write {e : Dialogue} (level : Level) (text : String) :
      Consults d e → Consults d (e.write level text)
  | progress {e : Dialogue} (current total : Nat) :
      Consults d e → Consults d (e.progress current total)

variable {d e f : Dialogue}

theorem Reaches.trans (h : d.Reaches e) (h' : e.Reaches f) : d.Reaches f := by
  induction h' with
  | refl => exact h
  | poll _ ih => exact ih.poll
  | ask question _ ih => exact ih.ask question
  | write level text _ ih => exact ih.write level text
  | progress current total _ ih => exact ih.progress current total
  | copy text _ ih => exact ih.copy text

theorem Consults.trans (h : d.Consults e) (h' : e.Consults f) : d.Consults f := by
  induction h' with
  | refl => exact h
  | poll _ ih => exact ih.poll
  | ask question _ ih => exact ih.ask question
  | write level text _ ih => exact ih.write level text
  | progress current total _ ih => exact ih.progress current total

theorem Consults.reaches (h : d.Consults e) : d.Reaches e := by
  induction h with
  | refl => exact .refl
  | poll _ ih => exact ih.poll
  | ask question _ ih => exact ih.ask question
  | write level text _ ih => exact ih.write level text
  | progress current total _ ih => exact ih.progress current total

theorem consults_poll {stop : Bool} (h : d.poll = (stop, e)) : d.Consults e := by
  obtain rfl : d.poll.2 = e := congrArg Prod.snd h
  exact Consults.refl.poll

theorem events_poll (d : Dialogue) : d.poll.2.events = d.events ++ [.polled d.poll.1] := by
  unfold poll
  split <;> rfl

/-- Nothing cancels the dialogue, and no poll has said to stop. -/
structure Undisturbed (d : Dialogue) : Prop extends NeverCancelled d where
  unpolled : .polled true ∉ d.events

namespace Undisturbed

variable (h : d.Undisturbed)
include h

theorem record {x : Event} (hx : x ≠ .polled true) : (d.record x).Undisturbed where
  toNeverCancelled := ⟨h.polls, h.cancelled, h.interruptAt, h.replies⟩
  unpolled := by simpa [Dialogue.record, h.unpolled] using hx.symm

theorem poll : d.poll.2.Undisturbed where
  toNeverCancelled := h.toNeverCancelled.poll
  unpolled := by simp [events_poll, h.fst_poll, h.unpolled]

theorem ask (question : String) : (d.ask question).2.Undisturbed where
  toNeverCancelled := h.toNeverCancelled.ask question
  unpolled := by
    obtain ⟨answer, e, hask, -, hevents⟩ := d.ask_cases question
    simp [hask, hevents, h.unpolled]

theorem write (level : Level) (text : String) : (d.write level text).Undisturbed := by
  rcases write_eq_of_interruptAt h.interruptAt level text with he | he <;> rw [he]
  · exact h
  · exact h.record nofun

theorem progress (current total : Nat) : (d.progress current total).Undisturbed := by
  unfold Dialogue.progress
  split
  · exact h.write _ _
  · exact h.record nofun

theorem of_reaches (he : d.Reaches e) : e.Undisturbed := by
  induction he with
  | refl => exact h
  | poll _ ih => exact ih.poll
  | ask question _ ih => exact ih.ask question
  | write level text _ ih => exact ih.write level text
  | progress current total _ ih => exact ih.progress current total
  | copy text _ ih => exact ih.record nofun

end Undisturbed

end Dialogue

end CodeSignature
