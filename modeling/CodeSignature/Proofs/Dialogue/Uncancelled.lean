import CodeSignature.Dialogue.Basic

/-! # Dialogues without cancellation

If nothing in a dialogue cancels it then every poll says to go on, whatever is logged and asked.
If every answer is yes then it stays so. Between two questions it only advances: polls and log lines
add nothing else, and progress is reported as given.
-/

namespace CodeSignature

namespace Dialogue

/-- No poll, no reply and no log line cancels the dialogue. -/
structure NeverCancelled (d : Dialogue) : Prop where
  polls : true ∉ d.polls
  cancelled : d.cancelled = false
  interruptAt : d.interruptAt = none
  replies : Reply.interrupt ∉ d.replies

/-- Nothing cancels the dialogue, and every question is answered with yes. -/
structure Agreeable (d : Dialogue) : Prop extends NeverCancelled d where
  yes : ∀ r ∈ d.replies, r = .answer .yes
  fallback : d.fallback = .yes

/-- The later dialogue is not cancelled either, and since the earlier one no question was asked and
the given progress was reported. A dialogue with a label logs its progress instead. -/
structure Advances (d : Dialogue) (reports : List (Nat × Nat)) (e : Dialogue) : Prop where
  never : e.NeverCancelled
  label : e.progressLabel = d.progressLabel
  asked : e.asked = d.asked
  progressed : d.progressLabel = none → e.progressed = d.progressed ++ reports

variable {d e f : Dialogue}

theorem neverCancelled_quiet : quiet.NeverCancelled where
  polls := by simp [quiet]
  cancelled := rfl
  interruptAt := rfl
  replies := by simp [quiet]

theorem agreeable_quiet : quiet.Agreeable where
  toNeverCancelled := neverCancelled_quiet
  yes := by simp [quiet]
  fallback := rfl

theorem write_eq_of_interruptAt (h : d.interruptAt = none) (level : Level) (text : String) :
    d.write level text = d ∨ d.write level text = d.record (.logged level text) := by
  unfold write
  split
  · exact Or.inl rfl
  · right
    rw [interruptIfReached]
    have hnone : (d.record (.logged level text)).interruptAt = none := h
    rw [hnone]

namespace NeverCancelled

variable (h : d.NeverCancelled)
include h

theorem fst_poll : d.poll.1 = false := by
  unfold Dialogue.poll
  split
  next stop rest hpolls =>
    have hstop := h.polls
    rw [hpolls] at hstop
    cases stop with
    | false => rfl
    | true => exact absurd List.mem_cons_self hstop
  next => exact h.cancelled

theorem poll : d.poll.2.NeverCancelled := by
  unfold Dialogue.poll
  split
  next stop rest hpolls =>
    have hrest := h.polls
    rw [hpolls] at hrest
    exact ⟨fun hm => hrest (List.mem_cons_of_mem _ hm), h.cancelled, h.interruptAt, h.replies⟩
  next => exact ⟨h.polls, h.cancelled, h.interruptAt, h.replies⟩

theorem exists_poll_eq : ∃ d', d.poll = (false, d') ∧ d'.NeverCancelled :=
  ⟨d.poll.2, Prod.ext h.fst_poll rfl, h.poll⟩

theorem write (level : Level) (text : String) : (d.write level text).NeverCancelled := by
  rcases write_eq_of_interruptAt h.interruptAt level text with he | he <;> rw [he]
  · exact h
  · exact ⟨h.polls, h.cancelled, h.interruptAt, h.replies⟩

theorem ask (question : String) : (d.ask question).2.NeverCancelled := by
  have hreplies := h.replies
  unfold Dialogue.ask
  split
  next answer rest heq =>
    rw [heq] at hreplies
    exact ⟨h.polls, h.cancelled, h.interruptAt, fun hm => hreplies (List.mem_cons_of_mem _ hm)⟩
  next rest heq =>
    rw [heq] at hreplies
    exact absurd List.mem_cons_self hreplies
  next => exact ⟨h.polls, h.cancelled, h.interruptAt, h.replies⟩

theorem advances : d.Advances [] d := ⟨h, rfl, rfl, fun _ => (List.append_nil _).symm⟩

theorem exists_advances_poll : ∃ e, d.poll = (false, e) ∧ d.Advances [] e := by
  refine ⟨d.poll.2, Prod.ext h.fst_poll rfl, h.poll, ?_, ?_, fun _ => ?_⟩
  all_goals
    unfold Dialogue.poll
    split
  · rfl
  · rfl
  · simp [record, asked]
  · simp [record, asked]
  · simp [record, progressed]
  · simp [record, progressed]

theorem advances_write (level : Level) (text : String) : d.Advances [] (d.write level text) := by
  have hnever := h.write level text
  rcases write_eq_of_interruptAt h.interruptAt level text with he | he <;> rw [he] at hnever ⊢
  · exact h.advances
  · exact ⟨hnever, rfl, by simp [record, asked], fun _ => by simp [record, progressed]⟩

theorem advances_progress (current total : Nat) :
    d.Advances [(current, total)] (d.progress current total) := by
  unfold progress
  split
  next label hlabel =>
    have hwrite := h.advances_write .info (Progress.line label current total)
    exact ⟨hwrite.never, hwrite.label, hwrite.asked, fun hnone => by simp [hlabel] at hnone⟩
  next =>
    refine ⟨⟨h.polls, h.cancelled, h.interruptAt, h.replies⟩, rfl, ?_, fun _ => ?_⟩
    · simp [record, asked]
    · simp [record, progressed]

end NeverCancelled

theorem Advances.trans {reports more : List (Nat × Nat)} (h : d.Advances reports e)
    (h' : e.Advances more f) : d.Advances (reports ++ more) f where
  never := h'.never
  label := h'.label.trans h.label
  asked := h'.asked.trans h.asked
  progressed hd := by
    rw [h'.progressed (h.label.trans hd), h.progressed hd, List.append_assoc]

namespace Agreeable

variable (h : d.Agreeable)
include h

theorem exists_poll_eq : ∃ d', d.poll = (false, d') ∧ d'.Agreeable := by
  refine ⟨d.poll.2, Prod.ext h.fst_poll rfl, h.poll, ?_, ?_⟩
  all_goals
    unfold Dialogue.poll
    split
  · exact h.yes
  · exact h.yes
  · exact h.fallback
  · exact h.fallback

theorem exists_ask_eq (question : String) :
    ∃ d', d.ask question = (.yes, d') ∧ d'.Agreeable := by
  have hnever := h.ask question
  unfold Dialogue.ask at hnever ⊢
  split at hnever
  next answer rest heq =>
    have hyes := h.yes
    rw [heq, List.forall_mem_cons] at hyes
    obtain rfl : answer = .yes := Reply.answer.inj hyes.1
    exact ⟨_, rfl, hnever, hyes.2, h.fallback⟩
  next rest heq => exact absurd (heq ▸ List.mem_cons_self) h.replies
  next heq => exact ⟨_, Prod.ext h.fallback rfl, hnever, h.yes, h.fallback⟩

theorem write (level : Level) (text : String) : (d.write level text).Agreeable := by
  have hnever := h.toNeverCancelled.write level text
  rcases write_eq_of_interruptAt h.interruptAt level text with he | he <;> rw [he] at hnever ⊢
  · exact h
  · exact ⟨hnever, h.yes, h.fallback⟩

end Agreeable

end Dialogue

end CodeSignature
