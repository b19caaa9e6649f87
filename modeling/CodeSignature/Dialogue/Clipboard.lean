/-! # The clipboard

A text is copied through a window that is never shown. The selection is handed over before the window
goes away.
-/

namespace CodeSignature.Clipboard

inductive Step where
  | withdraw
  | clear
  | append (text : String)
  | update
  | destroy
deriving DecidableEq, Repr

/-- The steps that copy a text. Without a display there is no window. -/
def steps (hasDisplay : Bool) (text : String) : List Step :=
  if hasDisplay then [.withdraw, .clear, .append text, .update, .destroy] else []

end CodeSignature.Clipboard
