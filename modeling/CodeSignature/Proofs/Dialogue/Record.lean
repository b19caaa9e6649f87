import CodeSignature.Proofs.Dialogue.Course

/-! # The record of a dialogue

What each exchange adds to the polls, to the questions and to the log lines that are on record, and that
only copying adds to the copied texts.
-/

namespace CodeSignature

namespace Dialogue

theorem events_write (d : Dialogue) (level : Level) (text : String) :
    (d.write level text).events = d.events ∨
      (d.write level text).events = d.events ++ [.logged level text] := by
  unfold write
  split
  · exact .inl rfl
  · exact .inr (uncancelled_interruptIfReached _).2

theorem events_ask (d : Dialogue) (question : String) :
    (d.ask question).2.events = d.events ++ [.asked question (d.ask question).1] := by
  obtain ⟨answer, e, hask, -, hevents⟩ := d.ask_cases question
  rw [hask, hevents]

@[simp] theorem polled_poll (d : Dialogue) : d.poll.2.polled = d.polled ++ [d.poll.1] := by
  simp [polled, events_poll]

theorem polled_of_poll {d e : Dialogue} {stop : Bool} (h : d.poll = (stop, e)) :
    e.polled = d.polled ++ [stop] := by
  simpa [h] using d.polled_poll

@[simp] theorem polled_write (d : Dialogue) (level : Level) (text : String) :
    (d.write level text).polled = d.polled := by
  rcases d.events_write level text with h | h <;> simp [polled, h]

@[simp] theorem polled_ask (d : Dialogue) (question : String) :
    (d.ask question).2.polled = d.polled := by
  simp [polled, events_ask]

@[simp] theorem asked_poll (d : Dialogue) : d.poll.2.asked = d.asked := by
  simp [asked, events_poll]

theorem asked_of_poll {d e : Dialogue} {stop : Bool} (h : d.poll = (stop, e)) :
    e.asked = d.asked := by
  simpa [h] using d.asked_poll

@[simp] theorem asked_write (d : Dialogue) (level : Level) (text : String) :
    (d.write level text).asked = d.asked := by
  rcases d.events_write level text with h | h <;> simp [asked, h]

@[simp] theorem asked_ask (d : Dialogue) (question : String) :
    (d.ask question).2.asked = d.asked ++ [question] := by
  simp [asked, events_ask]

@[simp] theorem copied_poll (d : Dialogue) : d.poll.2.copied = d.copied := by
  simp [copied, events_poll]

@[simp] theorem copied_ask (d : Dialogue) (question : String) :
    (d.ask question).2.copied = d.copied := by
  simp [copied, events_ask]

@[simp] theorem copied_write (d : Dialogue) (level : Level) (text : String) :
    (d.write level text).copied = d.copied := by
  rcases d.events_write level text with h | h <;> simp [copied, h]

@[simp] theorem copied_progress (d : Dialogue) (current total : Nat) :
    (d.progress current total).copied = d.copied := by
  unfold progress
  split
  · exact copied_write ..
  · simp [copied, record]

theorem log_write {d : Dialogue} {level : Level} (h : d.threshold.rank ≤ level.rank)
    (text : String) : (d.write level text).log = d.log ++ [(level, text)] := by
  rw [write, if_neg (Nat.not_lt.mpr h), log, (uncancelled_interruptIfReached _).2]
  simp [log, record, lineOf?]

@[simp] theorem threshold_poll (d : Dialogue) : d.poll.2.threshold = d.threshold := by
  unfold poll
  split <;> rfl

@[simp] theorem threshold_ask (d : Dialogue) (question : String) :
    (d.ask question).2.threshold = d.threshold := by
  unfold ask
  split <;> rfl

@[simp] theorem threshold_write (d : Dialogue) (level : Level) (text : String) :
    (d.write level text).threshold = d.threshold := by
  unfold write interruptIfReached
  split
  · rfl
  · split
    · split <;> rfl
    · rfl

@[simp] theorem threshold_progress (d : Dialogue) (current total : Nat) :
    (d.progress current total).threshold = d.threshold := by
  unfold progress
  split
  · exact threshold_write ..
  · rfl

variable {d e : Dialogue}

theorem Consults.copied (h : d.Consults e) : e.copied = d.copied := by
  induction h with
  | refl => rfl
  | poll _ ih => rw [copied_poll, ih]
  | ask question _ ih => rw [copied_ask, ih]
  | write level text _ ih => rw [copied_write, ih]
  | progress current total _ ih => rw [copied_progress, ih]

theorem Consults.threshold (h : d.Consults e) : e.threshold = d.threshold := by
  induction h with
  | refl => rfl
  | poll _ ih => rw [threshold_poll, ih]
  | ask question _ ih => rw [threshold_ask, ih]
  | write level text _ ih => rw [threshold_write, ih]
  | progress current total _ ih => rw [threshold_progress, ih]

end Dialogue

end CodeSignature
