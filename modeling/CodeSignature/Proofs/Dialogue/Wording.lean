import CodeSignature.Dialogue.Basic

/-! # The wording of log lines

What a dialogue answers depends on how many lines are logged and at which levels, not on what they
say. Two dialogues that differ in the wording alone keep doing so.
-/

namespace CodeSignature

def Event.unworded : Event → Event
  | .logged level _ => .logged level ""
  | e => e

namespace Dialogue

/-- The dialogue without the texts of the log lines so far. -/
def unworded (d : Dialogue) : Dialogue := { d with events := d.events.map (·.unworded) }

variable {d d' : Dialogue} {level : Level} {text text' : String}

theorem unworded_record (d : Dialogue) (e : Event) :
    (d.record e).unworded = d.unworded.record e.unworded := by
  simp [unworded, record]

theorem log_unworded (d : Dialogue) :
    d.unworded.log = d.log.map fun line => (line.1, "") := by
  simp only [log, unworded, List.filterMap_map, List.map_filterMap]
  congr 1
  funext e
  cases e <;> rfl

theorem unworded_interruptIfReached (d : Dialogue) :
    d.interruptIfReached.unworded = d.unworded.interruptIfReached := by
  have hcount : d.unworded.interruptAt = d.interruptAt := rfl
  simp only [interruptIfReached, hcount, log_unworded, List.length_map]
  split
  · split <;> rfl
  · rfl

/-- What a line says makes no difference to what follows. -/
theorem unworded_write (d : Dialogue) (level : Level) (text : String) :
    (d.write level text).unworded = d.unworded.write level "" := by
  have hthreshold : d.unworded.threshold = d.threshold := rfl
  simp only [write, hthreshold]
  split
  · rfl
  · rw [unworded_interruptIfReached, unworded_record]
    rfl

theorem unworded_poll (d : Dialogue) :
    d.unworded.poll = (d.poll.1, d.poll.2.unworded) := by
  have hpolls : d.unworded.polls = d.polls := rfl
  simp only [poll, hpolls]
  split <;> rw [unworded_record] <;> rfl

theorem unworded_ask (d : Dialogue) (question : String) :
    d.unworded.ask question = ((d.ask question).1, (d.ask question).2.unworded) := by
  have hreplies : d.unworded.replies = d.replies := rfl
  simp only [ask, hreplies]
  split <;> rw [unworded_record] <;> rfl

theorem write_congr (h : d'.unworded = d.unworded) :
    (d'.write level text').unworded = (d.write level text).unworded := by
  rw [unworded_write, unworded_write, h]

/-- A result that a function carries over, with a dialogue that differs in the wording alone. -/
def Corresponds {α β : Type} (f : α → β) (p : α × Dialogue) (p' : β × Dialogue) : Prop :=
  p'.1 = f p.1 ∧ p'.2.unworded = p.2.unworded

theorem Corresponds.exists_eq {α β : Type} {f : α → β} {r : α} {p' : β × Dialogue}
    (h : Corresponds f (r, d) p') : ∃ d', p' = (f r, d') ∧ d'.unworded = d.unworded :=
  ⟨p'.2, Prod.ext h.1 rfl, h.2⟩

theorem poll_corresponds (h : d'.unworded = d.unworded) :
    Corresponds (fun stop => stop) d.poll d'.poll := by
  have hp := congrArg poll h
  rw [unworded_poll, unworded_poll] at hp
  exact Prod.mk.inj hp

theorem ask_corresponds (h : d'.unworded = d.unworded) (question : String) :
    Corresponds (fun answer => answer) (d.ask question) (d'.ask question) := by
  have ha := congrArg (ask · question) h
  rw [unworded_ask, unworded_ask] at ha
  exact Prod.mk.inj ha

end Dialogue

end CodeSignature
