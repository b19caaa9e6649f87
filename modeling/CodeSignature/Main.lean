import CodeSignature.CommandLine.Run
import CodeSignature.Image.ExecutableFile

/-! # The program

Files are read before a run and written after it. A run is repeated with one more reply whenever it
asks a question that has none yet.
-/

namespace CodeSignature.Program

open CommandLine

def source? (path : String) : IO (Option Source) := do
  try
    let bytes ← IO.FS.readBinFile path
    match Executable.read bytes.toList with
    | .ok e => return some (.executable e)
    | .error reason => return some (.malformed reason)
  catch _ => return none

def problemOf : IO.Error → PathProblem
  | .noFileOrDirectory _ _ _ => .notFound
  | .inappropriateType _ _ _ => .isDirectory
  | _ => .notDirectory

/-- What reading the settings gives. Nothing is found without a path. -/
def readSettings : Given String → IO (Except PathProblem String)
  | .nothing => return .error .notFound
  | .value path => do
    try return .ok (← IO.FS.readFile path)
    catch e => return .error (problemOf e)

/-- The events before the first question without a reply, given the number of replies. -/
def beforeQuestion : Nat → List Event → List Event
  | _, [] => []
  | 0, .asked _ _ :: _ => []
  | replies + 1, .asked question answer :: rest =>
    .asked question answer :: beforeQuestion replies rest
  | replies, e :: rest => e :: beforeQuestion replies rest

def linesOf (events : List Event) : List String :=
  logLines { Dialogue.quiet with events := events }

def printFrom (printed : Nat) (lines : List String) : IO Nat := do
  (lines.drop printed).forM IO.eprintln
  return lines.length

/-- Runs with more and more replies until every question has one or the input has ended. -/
partial def converse (a : Arguments) (s : Surroundings) (printed : Nat) : IO Outcome := do
  let outcome := runWith a s
  match outcome.questions[s.replies.length]? with
  | some question =>
    let printed ← printFrom printed (linesOf (beforeQuestion s.replies.length outcome.events))
    let output ← IO.getStdout
    output.putStr (Confirmation.prompt question)
    output.flush
    let line ← (← IO.getStdin).getLine
    if line.isEmpty then
      discard (printFrom printed outcome.lines)
      return outcome
    else
      converse a { s with replies := s.replies ++ Confirmation.replies line } printed
  | none =>
    discard (printFrom printed outcome.lines)
    return outcome

def execute (a : Arguments) : IO UInt32 := do
  let found ← source? a.file
  let settings ← readSettings a.settingsPath
  let outcome ← converse a {
    readFile := fun _ => settings
    writeProblem := fun _ => none
    sources := (found.map (a.file, ·)).toList
    replies := []
    hasDisplay := false } 0
  if let some (path, text) := outcome.saved then
    try IO.FS.writeFile path text
    catch e => IO.eprintln (Settings.saveFailure path (problemOf e))
  return outcome.exitCode.toUInt32

end CodeSignature.Program

open CodeSignature.CommandLine in
def main (words : List String) : IO UInt32 := do
  match Arguments.read words with
  | .ok a => CodeSignature.Program.execute a
  | .error .help => return completed.toUInt32
  | .error stop =>
    IO.eprintln stop.message
    return misused.toUInt32
