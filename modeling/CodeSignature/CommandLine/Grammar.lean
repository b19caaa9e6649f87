import CodeSignature.Text.DecimalDigit
import CodeSignature.Text.Quoted

/-! # Grammars of command lines

A command line consists of options and of positional arguments. Options are recognized by their names,
by unambiguous beginnings of long names, and in clusters of short names. After the separator `--`
everything is positional. Values are taken into an accumulator as soon as they are found, so the first
problem from the left is reported.
-/

namespace CodeSignature.CommandLine

inductive Stop where
  | help
  | misuse (program problem : String)
deriving DecidableEq, Repr

def Stop.message : Stop → String
  | .help => ""
  | .misuse program problem => program ++ ": error: " ++ problem

inductive Refusal where
  | unfit (problem : String)
  | stop (s : Stop)
deriving DecidableEq, Repr

/-- An option and how its values are taken into an accumulator. -/
structure Choice (σ : Type) where
  names : List String
  takesValue : Bool
  take : List String → σ → Except Refusal σ

structure Positional (σ : Type) where
  name : String
  /-- Everything that follows belongs to the argument, options included. -/
  takesRest : Bool
  take : List String → σ → Except Refusal σ

structure Grammar (σ : Type) where
  program : String
  choices : List (Choice σ)
  positionals : List (Positional σ)

inductive Item (σ : Type) where
  | separator
  | argument (text : String)
  /-- An option under one of its names, with what stands after an equals sign or after a short name. -/
  | known (text : String) (choice : Choice σ) (name : String) (attached : Option (List Char))
  | unknown (text : String)

namespace Item

variable {σ : Type}

def text : Item σ → String
  | .separator => "--"
  | .argument text => text
  | .known text _ _ _ => text
  | .unknown text => text

def isSeparator : Item σ → Bool
  | .separator => true
  | _ => false

def isOption : Item σ → Bool
  | .known _ _ _ _ => true
  | .unknown _ => true
  | _ => false

end Item

namespace Grammar

variable {σ : Type}

def choice? (g : Grammar σ) (name : String) : Option (Choice σ) :=
  g.choices.find? fun c => c.names.contains name

def names (g : Grammar σ) : List (String × Choice σ) :=
  g.choices.flatMap fun c => c.names.map (·, c)

def splitEquals (cs : List Char) : Option (List Char × List Char) :=
  match cs.dropWhile (· ≠ '=') with
  | [] => none
  | _ :: value => some (cs.takeWhile (· ≠ '='), value)

/-- The options whose long names begin like a word, up to an equals sign. -/
def longCandidates (g : Grammar σ) (word : List Char) : List (Item σ) :=
  let (start, attached) :=
    match splitEquals word with
    | some (start, value) => (start, some value)
    | none => (word, none)
  g.names.filterMap fun (name, c) =>
    if start.isPrefixOf name.toList then some (.known (String.ofList word) c name attached) else none

/-- The options whose short name is the first letter of a word, or whose names begin like it. -/
def shortCandidates (g : Grammar σ) (letter : Char) (rest : List Char) : List (Item σ) :=
  let word := '-' :: letter :: rest
  g.names.filterMap fun (name, c) =>
    if name.toList = ['-', letter] then some (.known (String.ofList word) c name (some rest))
    else if word.isPrefixOf name.toList then some (.known (String.ofList word) c name none)
    else none

def candidates (g : Grammar σ) : List Char → List (Item σ)
  | '-' :: '-' :: rest => g.longCandidates ('-' :: '-' :: rest)
  | '-' :: letter :: rest => g.shortCandidates letter rest
  | _ => []

def isDigit (c : Char) : Bool := (DecimalDigit.value? c).isSome

/-- Digits, or a point with digits after it, behind a minus sign. A line break may follow. -/
def isNegativeNumber : List Char → Bool
  | '-' :: rest =>
    let body := if rest.getLast? = some '\n' then rest.dropLast else rest
    match body.dropWhile isDigit with
    | [] => body ≠ []
    | '.' :: places => places ≠ [] && places.all isDigit
    | _ => false
  | _ => false

def candidateName : Item σ → String
  | .known _ _ name _ => name
  | item => item.text

def ambiguity (word : String) (found : List (Item σ)) : String :=
  "ambiguous option: " ++ word ++ " could match " ++
    String.intercalate ", " (found.map candidateName)

/-- A word that is no name and has no attached value. -/
def classifyPartial (g : Grammar σ) (word : String) : Except Stop (Item σ) :=
  match g.candidates word.toList with
  | [item] => .ok item
  | [] =>
    if isNegativeNumber word.toList || word.toList.contains ' ' then .ok (.argument word)
    else .ok (.unknown word)
  | found => .error (.misuse g.program (ambiguity word found))

def classify (g : Grammar σ) (word : String) : Except Stop (Item σ) :=
  if word.toList.head? ≠ some '-' then .ok (.argument word)
  else
    match g.choice? word with
    | some c => .ok (.known word c word none)
    | none =>
      if word = "-" then .ok (.argument word)
      else
        match splitEquals word.toList with
        | some (start, value) =>
          match g.choice? (String.ofList start) with
          | some c => .ok (.known word c (String.ofList start) (some value))
          | none => g.classifyPartial word
        | none => g.classifyPartial word

def items (g : Grammar σ) : List String → Except Stop (List (Item σ))
  | [] => .ok []
  | word :: rest =>
    if word = "--" then .ok (.separator :: rest.map .argument)
    else do
      let item ← g.classify word
      let more ← items g rest
      return item :: more

def misuse (g : Grammar σ) (argument problem : String) : Stop :=
  .misuse g.program ("argument " ++ argument ++ ": " ++ problem)

def takeFor {α : Type} (g : Grammar σ) (argument : String) (result : Except Refusal α) :
    Except Stop α :=
  match result with
  | .ok a => .ok a
  | .error (.unfit problem) => .error (g.misuse argument problem)
  | .error (.stop s) => .error s

def title (c : Choice σ) : String := String.intercalate "/" c.names

def ignored (g : Grammar σ) (c : Choice σ) (value : List Char) : Stop :=
  g.misuse (title c) ("ignored explicit argument " ++ Quoted.encode (String.ofList value))

abbrev Use (σ : Type) := Choice σ × List String

/-- The options of a word with the words of each, and the words that follow. -/
structure Uses (σ : Type) where
  uses : List (Use σ)
  rest : List (Item σ)

/-- An option whose value, if it takes one, is the next word. -/
def useNext (g : Grammar σ) (c : Choice σ) (rest : List (Item σ)) : Except Stop (Uses σ) :=
  if c.takesValue then
    match rest with
    | .argument text :: rest => .ok ⟨[(c, [text])], rest⟩
    | _ => .error (g.misuse (title c) "expected one argument")
  else .ok ⟨[(c, [])], rest⟩

def useValue (g : Grammar σ) (c : Choice σ) (value : List Char) (rest : List (Item σ)) :
    Except Stop (Uses σ) :=
  if c.takesValue then .ok ⟨[(c, [String.ofList value])], rest⟩
  else .error (g.ignored c value)

/-- A short option and the letters after it, which are its value, or further short options if it takes
none. -/
def useLetters (g : Grammar σ) (rest : List (Item σ)) (c : Choice σ) :
    List Char → Except Stop (Uses σ)
  | [] => g.useNext c rest
  | letter :: more =>
    if c.takesValue then g.useValue c (letter :: more) rest
    else
      match g.choice? (String.ofList ['-', letter]) with
      | none => .error (g.ignored c (letter :: more))
      | some further => do
        let found ← useLetters g rest further more
        return { found with uses := (c, []) :: found.uses }

def isShort (name : String) : Bool := !(['-', '-'].isPrefixOf name.toList)

/-- An option with what is attached to its name. After a short name an equals sign changes nothing:
what follows it are letters like any others. -/
def use (g : Grammar σ) (c : Choice σ) (name : String) (attached : Option (List Char))
    (rest : List (Item σ)) : Except Stop (Uses σ) :=
  match attached with
  | none => g.useNext c rest
  | some value =>
    if isShort name && !value.isEmpty then g.useLetters rest c value else g.useValue c value rest

structure State (σ : Type) where
  pending : List (Positional σ)
  value : σ
  extras : List String

def leave (s : State σ) (words : List String) : State σ := { s with extras := s.extras ++ words }

/-- The words of an argument that are values. The first separator among them is none. -/
def valuesOf (words : List String) : List String := words.erase "--"

def takeUses (g : Grammar σ) : List (Use σ) → State σ → Except Stop (State σ)
  | [], s => .ok s
  | (c, words) :: rest, s => do
    let value ← g.takeFor (title c) (c.take (valuesOf words) s.value)
    takeUses g rest { s with value := value }

def oneArgument (items : List (Item σ)) : Option (List String × List (Item σ)) :=
  let (before, rest) := items.span Item.isSeparator
  match rest with
  | .argument text :: rest =>
    let (after, rest) := rest.span Item.isSeparator
    some (before.map Item.text ++ text :: after.map Item.text, rest)
  | _ => none

def allArguments (items : List (Item σ)) : Option (List String × List (Item σ)) :=
  match items.dropWhile Item.isSeparator with
  | .argument _ :: _ => some (items.map Item.text, [])
  | _ => none

def wordsFor (p : Positional σ) (items : List (Item σ)) : Option (List String × List (Item σ)) :=
  if p.takesRest then allArguments items else oneArgument items

/-- The pending arguments that find their words at the front, the other ones, and the words after
those that were found. -/
def pair : List (Positional σ) → List (Item σ) →
    List (Positional σ × List String) × List (Positional σ) × List (Item σ)
  | [], items => ([], [], items)
  | p :: rest, items =>
    match wordsFor p items with
    | some (words, items) =>
      let (found, pending, items) := pair rest items
      ((p, words) :: found, pending, items)
    | none => ([], p :: rest, items)

/-- Takes positional arguments one after the other. If everything belongs to an argument, the
separator does as well. -/
def takePositionals (g : Grammar σ) :
    List (Positional σ × List String) → σ → Except Stop σ
  | [], value => .ok value
  | (p, words) :: rest, value => do
    let value ← g.takeFor p.name (p.take (if p.takesRest then words else valuesOf words) value)
    takePositionals g rest value

def finish (g : Grammar σ) (items : List (Item σ)) (s : State σ) : Except Stop (State σ) := do
  let (found, pending, rest) := pair s.pending items
  let value ← g.takePositionals found s.value
  return leave { s with pending := pending, value := value } (rest.map Item.text)

/-- Reads words up to the last option and then the rest. At least one word is read in each step. -/
def readItems (g : Grammar σ) : Nat → List (Item σ) → State σ → Except Stop (State σ)
  | 0, items, s => g.finish items s
  | steps + 1, items, s =>
    if !items.any Item.isOption then g.finish items s
    else
      match items with
      | .known _ c name attached :: rest => do
        let found ← g.use c name attached rest
        readItems g steps found.rest (← g.takeUses found.uses s)
      | .unknown text :: rest => readItems g steps rest (leave s [text])
      | items =>
        match pair s.pending items with
        | ([], _, _) =>
          let (skipped, rest) := items.span fun i => !i.isOption
          readItems g steps rest (leave s (skipped.map Item.text))
        | (found, pending, rest) => do
          let value ← g.takePositionals found s.value
          readItems g steps rest { s with pending := pending, value := value }

/-- Reads a command line into an accumulator. The words that nothing takes are left over. -/
def read (g : Grammar σ) (words : List String) (start : σ) : Except Stop (σ × List String) := do
  let items ← g.items words
  let s ← g.readItems items.length items ⟨g.positionals, start, []⟩
  match s.pending with
  | [] => return (s.value, s.extras)
  | pending =>
    .error (.misuse g.program
      ("the following arguments are required: " ++
        String.intercalate ", " (pending.map (·.name))))

end Grammar

end CodeSignature.CommandLine
