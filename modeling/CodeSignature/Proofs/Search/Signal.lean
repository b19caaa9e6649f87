import CodeSignature.Dialogue.Cancellation
import CodeSignature.Proofs.Search.Course

/-! # Signals during a search

The flag that the interrupt signal sets is what a dialogue keeps of its cancellation. Entering forgets
it, the exchanges of a search can only set it, as the signal does, and leaving gives the handler back
that was found on entry.
-/

namespace CodeSignature

namespace Dialogue

variable {d e : Dialogue}

theorem cancelled_poll (d : Dialogue) : d.poll.2.cancelled = d.cancelled := by
  unfold poll
  split <;> rfl

theorem cancelled_ask (h : d.cancelled = true) (question : String) :
    (d.ask question).2.cancelled = true := by
  unfold ask
  split
  · exact h
  · rfl
  · exact h

theorem cancelled_interruptIfReached (h : d.cancelled = true) :
    d.interruptIfReached.cancelled = true := by
  unfold interruptIfReached
  split
  · split
    · rfl
    · exact h
  · exact h

theorem cancelled_write (h : d.cancelled = true) (level : Level) (text : String) :
    (d.write level text).cancelled = true := by
  unfold write
  split
  · exact h
  · exact cancelled_interruptIfReached h

theorem cancelled_progress (h : d.cancelled = true) (current total : Nat) :
    (d.progress current total).cancelled = true := by
  unfold progress
  split
  · exact cancelled_write h _ _
  · exact h

theorem Reaches.cancelled (he : d.Reaches e) (h : d.cancelled = true) : e.cancelled = true := by
  induction he with
  | refl => exact h
  | poll _ ih => rwa [cancelled_poll]
  | ask question _ ih => exact cancelled_ask ih question
  | write level text _ ih => exact cancelled_write ih level text
  | progress current total _ ih => exact cancelled_progress ih current total
  | copy text _ ih => exact ih

end Dialogue

namespace Cancellation

/-- The flag receives the signal, and the dialogue is cancelled exactly if the flag is set. -/
structure ShownIn (c : Cancellation) (d : Dialogue) : Prop where
  handler : c.handler = .flag
  cancelled : d.cancelled = c.cancelled

/-- What one signal at most makes of a flag. -/
inductive Signalled (c : Cancellation) : Cancellation → Prop where
  | quiet : Signalled c c
  | interrupted {c' : Cancellation} : c.interrupt = .ok c' → Signalled c c'

variable {c c' : Cancellation} {d e : Dialogue}

theorem shownIn_enter (c : Cancellation) (d : Dialogue) : c.enter.ShownIn d.resume where
  handler := rfl
  cancelled := rfl

theorem ShownIn.fst_poll (h : c.ShownIn d) (hpolls : d.polls = []) : d.poll.1 = c.cancelled := by
  unfold Dialogue.poll
  rw [hpolls]
  exact h.cancelled

theorem ShownIn.of_reaches (h : c.ShownIn d) (he : d.Reaches e) :
    ∃ c', c.Signalled c' ∧ c'.ShownIn e := by
  by_cases hset : c.cancelled = true
  · have hcancelled := he.cancelled (h.cancelled.trans hset)
    exact ⟨c, .quiet, h.handler, hcancelled.trans hset.symm⟩
  · cases hcancelled : e.cancelled with
    | false => exact ⟨c, .quiet, h.handler, by simpa [hcancelled] using hset⟩
    | true =>
      refine ⟨c.cancel, .interrupted ?_, h.handler, hcancelled⟩
      simp [interrupt, h.handler]

theorem Signalled.saved (h : c.Signalled c') : c'.saved = c.saved := by
  cases h with
  | quiet => rfl
  | interrupted hc =>
    unfold interrupt at hc
    split at hc
    · cases hc
      rfl
    · cases hc

theorem exit_of_saved {handler : Handler} (h : c.saved = some handler) :
    c.exit = ⟨c.cancelled, handler, none⟩ := by
  simp [exit, h]

theorem exit_of_signalled_enter (h : c.enter.Signalled c') :
    c'.exit = ⟨c'.cancelled, c.handler, none⟩ :=
  exit_of_saved h.saved

/-- A search from a dialogue with nothing pending ends as the flag does that was entered before and
signalled once at most. Its exit leaves the handler from before, and the cancellation of the dialogue. -/
theorem exists_shownIn_of_reaches (c : Cancellation) (h : d.resume.Reaches e) :
    ∃ c', c.enter.Signalled c' ∧ c'.ShownIn e ∧ c'.exit = ⟨e.cancelled, c.handler, none⟩ := by
  obtain ⟨c', hsignalled, hshown⟩ := (c.shownIn_enter d).of_reaches h
  refine ⟨c', hsignalled, hshown, ?_⟩
  rw [exit_of_signalled_enter hsignalled, hshown.cancelled]

end Cancellation

namespace Analysis

open Cancellation

theorem exists_shownIn_of_search (c : Cancellation) (a : Analysis) (o : GrowthOptions)
    (wildcards : Bool) (start stop target : Int) (d : Dialogue) :
    ∀ e ∈ [(a.grow o start d.resume).2, (a.transcribe wildcards start stop d.resume).2,
        (a.rank o target d.resume).2],
      ∃ c', c.enter.Signalled c' ∧ c'.ShownIn e ∧ c'.exit = ⟨e.cancelled, c.handler, none⟩ := by
  simp only [List.forall_mem_cons]
  exact ⟨c.exists_shownIn_of_reaches (consults_grow ..).reaches,
    c.exists_shownIn_of_reaches (consults_transcribe ..).reaches,
    c.exists_shownIn_of_reaches (consults_rank ..).reaches, nofun⟩

end Analysis

end CodeSignature
