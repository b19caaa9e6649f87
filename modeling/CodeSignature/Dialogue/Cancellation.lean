import CodeSignature.Failure

/-! # Cancellation by signal

While a search runs, the interrupt signal sets a flag instead of ending the program. The handler found
on entry is put back on exit; only the one found last is kept.
-/

namespace CodeSignature

inductive Handler where
  | default
  | flag
deriving DecidableEq, Repr

structure Cancellation where
  cancelled : Bool
  handler : Handler
  saved : Option Handler
deriving DecidableEq, Repr

namespace Cancellation

def initial : Cancellation := ⟨false, .default, none⟩

/-- A search begins: earlier cancellations are forgotten. -/
def enter (c : Cancellation) : Cancellation := ⟨false, .flag, some c.handler⟩

/-- A search ends: the handler found on entry is back. -/
def exit (c : Cancellation) : Cancellation :=
  match c.saved with
  | some handler => { c with handler := handler, saved := none }
  | none => c

def cancel (c : Cancellation) : Cancellation := { c with cancelled := true }

def notice : String := "Cancelling..."

def interrupt (c : Cancellation) : Except Fault Cancellation :=
  match c.handler with
  | .flag => .ok c.cancel
  | .default => .error .interrupted

end Cancellation

end CodeSignature
