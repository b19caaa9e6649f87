import CodeSignature.CommandLine.Grammar
import CodeSignature.Settings.Basic
import CodeSignature.Text.Numeral

/-! # Arguments

What can be said on the command line: a file, options that change the settings, and an action with its
own arguments. Options stand before the action.
-/

namespace CodeSignature.CommandLine

/-- What is given for an argument. It is nothing where only a separator stands in the place of a
value. -/
inductive Given (α : Type) where
  | nothing
  | value (a : α)
deriving DecidableEq, Repr

namespace Given

variable {α : Type}

def read (readText : String → Except String α) : List String → Except Refusal (Given α)
  | [] => .ok .nothing
  | text :: _ =>
    match readText text with
    | .ok a => .ok (.value a)
    | .error problem => .error (.unfit problem)

/-- What is given as JSON. Nothing is an empty list. -/
def toJson (write : α → Json) : Given α → Json
  | .nothing => .array []
  | .value a => write a

end Given

inductive Action where
  | unique (address : Int)
  | references (target : Int)
  | range (start : Int) (stop : Given Int)
  | search (signature : String)
deriving DecidableEq, Repr

structure Arguments where
  file : String
  settingsPath : Given String
  format : Option (Given String)
  noWildcards : Bool
  continueOutside : Bool
  maxLength : Option (Given Int)
  top : Option (Given Int)
  noClipboard : Bool
  noPrompt : Bool
  saveSettings : Bool
  verbose : Bool
  action : Action
deriving DecidableEq, Repr

def defaultSettingsPath : String := "settings.json"

namespace Arguments

def program : String := "vx-sigmaker"

def start : Arguments where
  file := ""
  settingsPath := .value defaultSettingsPath
  format := none
  noWildcards := false
  continueOutside := false
  maxLength := none
  top := none
  noClipboard := false
  noPrompt := false
  saveSettings := false
  verbose := false
  action := .search ""

def readAddress (text : String) : Except String Int :=
  match Numeral.read? 16 text with
  | some n => .ok n
  | none => .error ("invalid address: " ++ Quoted.encode text)

def readInteger (text : String) : Except String Int :=
  match Numeral.read? 10 text with
  | some n => .ok n
  | none => .error ("invalid int value: " ++ Quoted.encode text)

def choiceList (names : List String) : String :=
  String.intercalate ", " (names.map fun (name : String) => Quoted.encode name)

def noChoice (names : List String) (text : String) : String :=
  "invalid choice: " ++ Quoted.encode text ++ " (choose from " ++ choiceList names ++ ")"

def readChoice (names : List String) (text : String) : Except String String :=
  if names.contains text then .ok text else .error (noChoice names text)

def switch {σ : Type} (names : List String) (turnOn : σ → σ) : Choice σ :=
  ⟨names, false, fun _ s => .ok (turnOn s)⟩

def setting {σ α : Type} (name : String) (readText : String → Except String α)
    (put : Given α → σ → σ) : Choice σ :=
  ⟨[name], true, fun values s => do return put (← Given.read readText values) s⟩

def help {σ : Type} : Choice σ := ⟨["-h", "--help"], false, fun _ _ => .error (.stop .help)⟩

/-- A positional argument with one value. If nothing is given, nothing changes. -/
def operand {σ α : Type} (name : String) (readText : String → Except String α)
    (put : α → σ → σ) : Positional σ :=
  ⟨name, false, fun values s => do
    match ← Given.read readText values with
    | .nothing => return s
    | .value a => return put a s⟩

def actionGrammar (name : String) (positionals : List (Positional Action)) : Grammar Action :=
  ⟨program ++ " file " ++ name, [help], positionals⟩

def putStop (stop : Int) : Action → Action
  | .range start _ => .range start (.value stop)
  | action => action

def actions : List (String × Grammar Action) :=
  [("unique", actionGrammar "unique" [operand "address" readAddress fun a _ => .unique a]),
    ("xref", actionGrammar "xref" [operand "address" readAddress fun a _ => .references a]),
    ("range", actionGrammar "range"
      [operand "start" readAddress fun a _ => .range a .nothing,
        operand "end" readAddress putStop]),
    ("search", actionGrammar "search" [operand "signature" .ok fun s _ => .search s])]

/-- Arguments, and words that belong to no argument of the action. -/
structure Draft where
  arguments : Arguments
  unrecognized : List String

def Draft.change (change : Arguments → Arguments) (d : Draft) : Draft :=
  { d with arguments := change d.arguments }

def takeAction (words : List String) (d : Draft) : Except Refusal Draft :=
  match words with
  | [] => .ok d
  | name :: rest =>
    match actions.find? (·.1 = name) with
    | none => .error (.unfit (noChoice (actions.map (·.1)) name))
    | some (_, grammar) =>
      match grammar.read rest d.arguments.action with
      | .error s => .error (.stop s)
      | .ok (action, extras) =>
        .ok { d.change ({ · with action := action }) with unrecognized := d.unrecognized ++ extras }

def choices : List (Choice Draft) :=
  [help,
    setting "--settings" .ok fun path => Draft.change ({ · with settingsPath := path }),
    setting "--format" (readChoice (Dialect.all.map Dialect.name)) fun format =>
      Draft.change ({ · with format := some format }),
    switch ["--no-wildcards"] (Draft.change ({ · with noWildcards := true })),
    switch ["--continue-outside"] (Draft.change ({ · with continueOutside := true })),
    setting "--max-length" readInteger fun n => Draft.change ({ · with maxLength := some n }),
    setting "--top" readInteger fun n => Draft.change ({ · with top := some n }),
    switch ["--no-clipboard"] (Draft.change ({ · with noClipboard := true })),
    switch ["--no-prompt"] (Draft.change ({ · with noPrompt := true })),
    switch ["--save-settings"] (Draft.change ({ · with saveSettings := true })),
    switch ["-v", "--verbose"] (Draft.change ({ · with verbose := true }))]

def grammar : Grammar Draft where
  program := program
  choices := choices
  positionals :=
    [operand "file" .ok fun file => Draft.change ({ · with file := file }),
      ⟨"action", true, takeAction⟩]

/-- Reads a command line. Every word has to belong to something. -/
def read (words : List String) : Except Stop Arguments := do
  let (d, extras) ← grammar.read words ⟨start, []⟩
  match extras ++ d.unrecognized with
  | [] => return d.arguments
  | extras =>
    .error (.misuse program ("unrecognized arguments: " ++ String.intercalate " " extras))

def override (k : Setting) (value : Option Json) (s : Settings) : Settings :=
  match value with
  | some v => s.set k v
  | none => s

def formatToSet : Given String → Option Json
  | .nothing => none
  | .value name => some (.text name)

def whenSaid (said : Bool) (value : Bool) : Option Json :=
  if said then some (.bool value) else none

/-- The settings with what is said on the command line. -/
def apply (a : Arguments) (s : Settings) : Settings :=
  let overrides : List (Setting × Option Json) :=
    [(.outputFormat, a.format.bind formatToSet),
      (.wildcardOperands, whenSaid a.noWildcards false),
      (.continueOutside, whenSaid a.continueOutside true),
      (.signatureLimit, a.maxLength.map (Given.toJson .integer)),
      (.referenceCount, a.top.map (Given.toJson .integer)),
      (.copyToClipboard, whenSaid a.noClipboard false),
      (.askLonger, whenSaid a.noPrompt false)]
  overrides.foldl (fun s (k, value) => override k value s) s

end Arguments

end CodeSignature.CommandLine
