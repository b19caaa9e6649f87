import CodeSignature.CommandLine.Arguments
import CodeSignature.Dialogue.Confirmation
import CodeSignature.Settings.File
import CodeSignature.Text.Line
import CodeSignature.Workbench

/-! # Running a command line

From the words of a command line and what surrounds the program to what it leaves behind: the exit
code, log lines, questions, copied texts and files.
-/

namespace CodeSignature.CommandLine

structure Surroundings where
  readFile : String → Except PathProblem String
  /-- Why the file at a path cannot be written, if it cannot. -/
  writeProblem : String → Option PathProblem
  sources : List (String × Source)
  /-- The replies to questions; after the last one the input ends. -/
  replies : List Reply
  hasDisplay : Bool

structure Outcome where
  exitCode : Nat
  /-- The error output. -/
  lines : List String
  events : List Event
  saved : Option (String × String)

namespace Surroundings

def inDirectory (d : Directory) (sources : List (String × Source)) (replies : List Reply)
    (hasDisplay : Bool) : Surroundings :=
  ⟨d.read, d.writeProblem, sources, replies, hasDisplay⟩

def source? (s : Surroundings) (path : String) : Option Source :=
  (s.sources.find? (·.1 = path)).map (·.2)

/-- The dialogue of a run. Progress is told per reference, and the end of the input cancels. -/
def dialogue (s : Surroundings) (verbose : Bool) : Dialogue :=
  { Dialogue.quiet with
    replies := s.replies
    fallback := .cancel
    threshold := if verbose then .debug else .info
    progressLabel := some "xref"
    clipboardWorks := s.hasDisplay }

end Surroundings

namespace Outcome

def questions (o : Outcome) : List String :=
  o.events.filterMap fun
    | .asked question _ => some question
    | _ => none

def output (o : Outcome) : String := String.join (o.questions.map Confirmation.prompt)

def copied (o : Outcome) : List String :=
  o.events.filterMap fun
    | .copied text => some text
    | _ => none

end Outcome

def Outcome.directory (o : Outcome) (d : Directory) : Directory :=
  match o.saved with
  | some (path, text) => (d.write path text).toOption.getD d
  | none => d

/-- The settings at a path. Nothing is no path. -/
def loadSettings (s : Surroundings) : Given String → Except Fault Settings
  | .nothing => .error .wrongType
  | .value path => Settings.load path (s.readFile path)

/-- The path and the text to save settings in, or a log line if that cannot be done. -/
def saveSettings (settings : Settings) (s : Surroundings) (d : Dialogue) :
    Given String → Option (String × String) × Dialogue
  | .nothing => (none, d)
  | .value path =>
    match s.writeProblem path with
    | none => (some (path, settings.toText), d)
    | some p => (none, d.write .error (Settings.saveFailure path p))

/-- Performs an action, and tells whether there is a result. A range without an end has the wrong type,
unless its start is no address to begin with. -/
def perform (w : Workbench) (action : Action) (d : Dialogue) : Except Fault Bool × Dialogue :=
  match action with
  | .unique address =>
    let (result, d) := w.uniqueSignature address d
    (result.map Option.isSome, d)
  | .references target =>
    let (result, d) := w.referenceSignatures target d
    (result.map fun texts => !texts.isEmpty, d)
  | .range start (.value stop) =>
    let (result, d) := w.rangeSignature start stop d
    (result.map Option.isSome, d)
  | .range start .nothing =>
    if start = Image.badAddress then
      let (result, d) := w.rangeSignature start start d
      (result.map Option.isSome, d)
    else (.error .wrongType, d)
  | .search text =>
    let (result, d) := w.search text d
    (result.map fun addresses => !addresses.isEmpty, d)

def completed : Nat := 0

def failed : Nat := 1

def withoutResult : Nat := 2

def misused : Nat := 2

/-- Opens the file and performs the action. The result is an exit code. -/
def work (a : Arguments) (settings : Settings) (s : Surroundings) (d : Dialogue) :
    Except Fault Nat × Dialogue :=
  match (Workbench.empty settings).openFile a.file (s.source? a.file) d with
  | (.error cause, d) => (.error cause, d)
  | (.ok (false, _), d) => (.ok failed, d)
  | (.ok (true, w), d) =>
    let (result, d) := perform w a.action d
    (result.map fun found => if found then completed else withoutResult, d)

def logLines (d : Dialogue) : List String :=
  d.log.flatMap fun (_, text) => Text.lines text

/-- The last line that a fault leaves in the error output. A log line that cannot be written is
reported in place of what would follow. -/
def faultLine : Fault → String
  | .noIntegerOfNaN => "--- Logging error ---"
  | .noIntegerOfInfinity => "--- Logging error ---"
  | _ => "Unexpected error"

/-- What a run leaves behind that ends in an exit code or in a fault. -/
def conclude (saved : Option (String × String)) : Except Fault Nat × Dialogue → Outcome
  | (.ok code, d) => ⟨code, logLines d, d.events, saved⟩
  | (.error cause, d) => ⟨failed, logLines d ++ [faultLine cause], d.events, saved⟩

def runWith (a : Arguments) (s : Surroundings) : Outcome :=
  let d := s.dialogue a.verbose
  match loadSettings s a.settingsPath with
  | .error cause => conclude none (.error cause, d)
  | .ok settings =>
    let settings := a.apply settings
    let (saved, d) :=
      if a.saveSettings then saveSettings settings s d a.settingsPath else (none, d)
    conclude saved (work a settings s d)

def run (words : List String) (s : Surroundings) : Outcome :=
  match Arguments.read words with
  | .error .help => ⟨completed, [], [], none⟩
  | .error stop => ⟨misused, Text.lines stop.message, [], none⟩
  | .ok a => runWith a s

end CodeSignature.CommandLine
