import CodeSignature.Failure
import CodeSignature.Proofs.Dialogue.Uncancelled
import Mathlib.Tactic.Basic

/-! # Cancelled dialogues

A dialogue asks to stop by a poll or by an answer. Without the cancellation it gives the same answers
to the same questions. Work that heeds a dialogue is aborted exactly if it was asked to stop, and has
the result of the dialogue without cancellation otherwise.
-/

namespace CodeSignature

/-- Whether an event asks to stop: a poll that says so, or the answer to a question. -/
def Event.stops : Event → Bool
  | .polled stop => stop
  | .asked _ answer => answer = .cancel
  | _ => false

def Reply.uninterrupted : Reply → Reply
  | .interrupt => .answer .yes
  | r => r

namespace Dialogue

/-- The dialogue in which every poll says to go on, with the same answers to all questions. -/
def uncancelled (d : Dialogue) : Dialogue :=
  { d with
    polls := d.polls.map fun _ => false
    cancelled := false
    replies := d.replies.map Reply.uninterrupted
    interruptAt := none }

/-- Something that happened from one dialogue to another asked to stop. -/
def Stopped (d e : Dialogue) : Prop :=
  ∃ es, e.events = d.events ++ es ∧ ∃ x ∈ es, x.stops = true

def Continued (d e : Dialogue) : Prop :=
  ∃ es, e.events = d.events ++ es ∧ ∀ x ∈ es, x.stops = false

/-- What comes of a dialogue, beside what comes of it without cancellation: it was asked to stop and
did so, or it was not and both are the same. -/
inductive Heeded {α : Type} (stop : α) (d : Dialogue) : α × Dialogue → α × Dialogue → Prop where
  | stopped {e : Dialogue} {q : α × Dialogue} : d.Stopped e → Heeded stop d (stop, e) q
  | continued {r : α} {e : Dialogue} :
      d.Continued e → r ≠ stop → Heeded stop d (r, e) (r, e.uncancelled)

variable {α : Type} {d e f : Dialogue} {stop : α} {p q : α × Dialogue}

theorem neverCancelled_uncancelled (d : Dialogue) : d.uncancelled.NeverCancelled where
  polls := by simp [uncancelled]
  cancelled := rfl
  interruptAt := rfl
  replies := by
    intro hmem
    obtain ⟨r, -, hr⟩ := List.mem_map.mp (hmem : Reply.interrupt ∈ d.replies.map _)
    cases r <;> cases hr

theorem Continued.refl (d : Dialogue) : d.Continued d := ⟨[], by simp, nofun⟩

theorem Continued.trans (h : d.Continued e) (h' : e.Continued f) : d.Continued f := by
  obtain ⟨es, he, hes⟩ := h
  obtain ⟨fs, hf, hfs⟩ := h'
  refine ⟨es ++ fs, by rw [hf, he, List.append_assoc], ?_⟩
  intro x hx
  rcases List.mem_append.mp hx with hx | hx
  · exact hes x hx
  · exact hfs x hx

theorem Continued.stopped (h : d.Continued e) (h' : e.Stopped f) : d.Stopped f := by
  obtain ⟨es, he, -⟩ := h
  obtain ⟨fs, hf, x, hx, hstops⟩ := h'
  exact ⟨es ++ fs, by rw [hf, he, List.append_assoc], x, List.mem_append_right _ hx, hstops⟩

theorem Continued.not_stopped (h : d.Continued e) : ¬ d.Stopped e := by
  rintro ⟨fs, hf, x, hx, hstops⟩
  obtain ⟨es, he, hes⟩ := h
  obtain rfl := List.append_cancel_left (he.symm.trans hf)
  simp [hes x hx] at hstops

theorem Continued.of_record {x : Event} (h : e.events = d.events ++ [x]) (hx : x.stops = false) :
    d.Continued e :=
  ⟨[x], h, by simpa using hx⟩

theorem Stopped.of_record {x : Event} (h : e.events = d.events ++ [x]) (hx : x.stops = true) :
    d.Stopped e :=
  ⟨[x], h, x, List.mem_singleton_self x, hx⟩

/-- A poll asks to stop, or it says to go on, also without cancellation. -/
theorem poll_cases (d : Dialogue) :
    (∃ e, d.poll = (true, e) ∧ d.Stopped e) ∨
      ∃ e, d.poll = (false, e) ∧ d.uncancelled.poll = (false, e.uncancelled) ∧ d.Continued e := by
  unfold poll
  split
  next stop rest hpolls =>
    have hrest : d.uncancelled.polls = false :: rest.map fun _ => false := by
      simp [uncancelled, hpolls]
    cases stop with
    | true => exact .inl ⟨_, rfl, .of_record rfl rfl⟩
    | false =>
      refine .inr ⟨_, rfl, ?_, .of_record rfl rfl⟩
      rw [hrest]
      rfl
  next hpolls =>
    have hnil : d.uncancelled.polls = [] := by simp [uncancelled, hpolls]
    cases hcancelled : d.cancelled with
    | true => exact .inl ⟨_, rfl, .of_record rfl rfl⟩
    | false =>
      refine .inr ⟨_, rfl, ?_, .of_record rfl rfl⟩
      rw [hnil]
      simp [uncancelled, record, hpolls]

theorem ask_cases (d : Dialogue) (question : String) :
    ∃ answer e, d.ask question = (answer, e) ∧
      d.uncancelled.ask question = (answer, e.uncancelled) ∧
      e.events = d.events ++ [.asked question answer] := by
  unfold ask
  split
  next answer rest hreplies =>
    have hrest : d.uncancelled.replies = .answer answer :: rest.map Reply.uninterrupted := by
      simp [uncancelled, hreplies, Reply.uninterrupted]
    refine ⟨_, _, rfl, ?_, rfl⟩
    rw [hrest]
    rfl
  next rest hreplies =>
    have hrest : d.uncancelled.replies = .answer .yes :: rest.map Reply.uninterrupted := by
      simp [uncancelled, hreplies, Reply.uninterrupted]
    refine ⟨_, _, rfl, ?_, rfl⟩
    rw [hrest]
    rfl
  next hreplies =>
    have hnil : d.uncancelled.replies = [] := by simp [uncancelled, hreplies]
    refine ⟨_, _, rfl, ?_, rfl⟩
    rw [hnil]
    rfl

theorem uncancelled_interruptIfReached (d : Dialogue) :
    d.interruptIfReached.uncancelled = d.uncancelled ∧ d.interruptIfReached.events = d.events := by
  unfold interruptIfReached
  split
  · split <;> exact ⟨rfl, rfl⟩
  · exact ⟨rfl, rfl⟩

theorem write_uncancelled (d : Dialogue) (level : Level) (text : String) :
    d.uncancelled.write level text = (d.write level text).uncancelled := by
  have hthreshold : d.uncancelled.threshold = d.threshold := rfl
  simp only [write, hthreshold]
  split
  · rfl
  · rw [(uncancelled_interruptIfReached _).1]
    rfl

theorem continued_write (d : Dialogue) (level : Level) (text : String) :
    d.Continued (d.write level text) := by
  unfold write
  split
  · exact .refl d
  · exact .of_record (uncancelled_interruptIfReached _).2 rfl

theorem progress_uncancelled (d : Dialogue) (current total : Nat) :
    d.uncancelled.progress current total = (d.progress current total).uncancelled := by
  have hlabel : d.uncancelled.progressLabel = d.progressLabel := rfl
  simp only [progress, hlabel]
  split
  · exact write_uncancelled d _ _
  · rfl

theorem continued_progress (d : Dialogue) (current total : Nat) :
    d.Continued (d.progress current total) := by
  unfold progress
  split
  · exact continued_write d _ _
  · exact .of_record rfl rfl

theorem Heeded.trans (h : Heeded stop e p q) (h' : d.Continued e) : Heeded stop d p q := by
  cases h with
  | stopped hstopped => exact .stopped (h'.stopped hstopped)
  | continued hcontinued hne => exact .continued (h'.trans hcontinued) hne

theorem Heeded.of_poll {work : Dialogue → α × Dialogue}
    (h : ∀ e, Heeded stop e (work e) (work e.uncancelled)) (d : Dialogue) :
    Heeded stop d
      (match d.poll with
        | (true, d) => (stop, d)
        | (false, d) => work d)
      (match d.uncancelled.poll with
        | (true, d) => (stop, d)
        | (false, d) => work d) := by
  rcases d.poll_cases with ⟨e, hpoll, hstopped⟩ | ⟨e, hpoll, hpoll', hgo⟩
  · rw [hpoll]
    exact .stopped hstopped
  · rw [hpoll, hpoll']
    exact (h e).trans hgo

/-- Work with a dialogue whose result, if it is not abandoned, is the one without cancellation, and
which is abandoned exactly if it was asked to stop. -/
def Heeds (d : Dialogue) (work : Dialogue → Except Failure α × Dialogue) : Prop :=
  ((work d).1 = .error .aborted ∨ (work d).1 = (work d.uncancelled).1) ∧
    ((work d).1 = .error .aborted ↔ d.Stopped (work d).2)

theorem Heeded.heeds {work : Dialogue → Except Failure α × Dialogue}
    (h : Heeded (.error .aborted) d (work d) (work d.uncancelled)) : d.Heeds work := by
  unfold Heeds
  generalize work d = p at h ⊢
  generalize work d.uncancelled = q at h ⊢
  cases h with
  | stopped hstopped => exact ⟨.inl rfl, iff_of_true rfl hstopped⟩
  | continued hcontinued hne => exact ⟨.inr rfl, iff_of_false hne hcontinued.not_stopped⟩

end Dialogue

end CodeSignature
