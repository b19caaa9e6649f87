import CodeSignature.Dialogue.Progress

/-! # Dialogues

What a search exchanges with its surroundings: it polls for cancellation, asks questions, writes log
lines, reports progress and hands out texts to copy. The replies to come are given in advance and
everything that happens is recorded in order.
-/

namespace CodeSignature

inductive Level where
  | debug
  | info
  | warning
  | error
deriving DecidableEq, Repr

namespace Level

def rank : Level → Nat
  | .debug => 0
  | .info => 1
  | .warning => 2
  | .error => 3

def name : Level → String
  | .debug => "DEBUG"
  | .info => "INFO"
  | .warning => "WARNING"
  | .error => "ERROR"

end Level

inductive Answer where
  | yes
  | no
  | cancel
deriving DecidableEq, Repr

inductive Reply where
  | answer (a : Answer)
  /-- The search is cancelled while the question is open, which is then answered with yes. -/
  | interrupt
deriving DecidableEq, Repr

inductive Event where
  | polled (stop : Bool)
  | logged (level : Level) (text : String)
  | asked (question : String) (answer : Answer)
  | progressed (current total : Nat)
  | copied (text : String)
deriving DecidableEq, Repr

structure Dialogue where
  /-- The results of the next polls. Without one a poll tells whether the dialogue is cancelled. -/
  polls : List Bool
  cancelled : Bool
  replies : List Reply
  /-- The answer to a question without a reply. -/
  fallback : Answer
  /-- The lowest level of the lines that are logged. -/
  threshold : Level
  /-- The dialogue is cancelled when the log reaches so many lines. -/
  interruptAt : Option Nat
  /-- Progress is logged under a label, or reported as numbers without one. -/
  progressLabel : Option String
  clipboardWorks : Bool
  events : List Event
deriving DecidableEq, Repr

namespace Dialogue

def quiet : Dialogue where
  polls := []
  cancelled := false
  replies := []
  fallback := .yes
  threshold := .info
  interruptAt := none
  progressLabel := none
  clipboardWorks := true
  events := []

def record (d : Dialogue) (e : Event) : Dialogue := { d with events := d.events ++ [e] }

def lineOf? : Event → Option (Level × String)
  | .logged level text => some (level, text)
  | _ => none

def log (d : Dialogue) : List (Level × String) := d.events.filterMap lineOf?

def asked (d : Dialogue) : List String :=
  d.events.filterMap fun
    | .asked question _ => some question
    | _ => none

def progressed (d : Dialogue) : List (Nat × Nat) :=
  d.events.filterMap fun
    | .progressed current total => some (current, total)
    | _ => none

def copied (d : Dialogue) : List String :=
  d.events.filterMap fun
    | .copied text => some text
    | _ => none

def polled (d : Dialogue) : List Bool :=
  d.events.filterMap fun
    | .polled stop => some stop
    | _ => none

def poll (d : Dialogue) : Bool × Dialogue :=
  match d.polls with
  | stop :: rest => (stop, { d with polls := rest }.record (.polled stop))
  | [] => (d.cancelled, d.record (.polled d.cancelled))

/-- Cancels the dialogue if the log has just reached the given number of lines. -/
def interruptIfReached (d : Dialogue) : Dialogue :=
  match d.interruptAt with
  | some count => if d.log.length = count then { d with cancelled := true } else d
  | none => d

/-- Logs a line unless its level is below the threshold. -/
def write (d : Dialogue) (level : Level) (text : String) : Dialogue :=
  if level.rank < d.threshold.rank then d
  else (d.record (.logged level text)).interruptIfReached

def ask (d : Dialogue) (question : String) : Answer × Dialogue :=
  match d.replies with
  | .answer a :: rest => (a, { d with replies := rest }.record (.asked question a))
  | .interrupt :: rest =>
    (.yes, { d with replies := rest, cancelled := true }.record (.asked question .yes))
  | [] => (d.fallback, d.record (.asked question d.fallback))

def progress (d : Dialogue) (current total : Nat) : Dialogue :=
  match d.progressLabel with
  | some label => d.write .info (Progress.line label current total)
  | none => d.record (.progressed current total)

def copy (d : Dialogue) (text : String) : Bool × Dialogue :=
  (d.clipboardWorks, d.record (.copied text))

/-- The dialogue with no cancellation pending. -/
def resume (d : Dialogue) : Dialogue := { d with cancelled := false }

end Dialogue

end CodeSignature
