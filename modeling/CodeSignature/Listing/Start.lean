import CodeSignature.Instruction.Basic
import CodeSignature.Text.Blank
import CodeSignature.Text.Numeral

/-! # Function starts

Where functions may start in a listing: at the targets of calls, at prologues, after instructions
that end a flow, and after padding.
-/

namespace CodeSignature

abbrev Listing := List Instruction

namespace Listing

def addresses (listing : Listing) : List Int := listing.map (·.address)

/-- The targets of calls that are addresses of the listing. -/
def callTargets (listing : Listing) : List Int :=
  let known := listing.addresses
  (listing.filterMap fun i => if i.mnemonic = "call" then i.branchTarget else none).filter
    fun a => known.contains a

/-- Whether a mnemonic begins with `j`, as those of all jumps do. -/
def isJump (i : Instruction) : Bool := i.mnemonic.toList.head? = some 'j'

def jumpTargets (listing : Listing) : List Int :=
  listing.filterMap fun i => if isJump i then i.branchTarget else none

/-- Mnemonics after which control does not go on to the next instruction. -/
def separators : List String := ["jmp", "ret", "retn", "retf", "iret", "iretd", "iretq"]

/-- Mnemonics that begin no function after a separator. -/
def fillers : List String := ["db", "int", "nop"]

def startsAfter (previous i : Instruction) : Bool :=
  separators.contains previous.mnemonic && !separators.contains i.mnemonic &&
    !fillers.contains i.mnemonic

def afterSeparators : Listing → List Int
  | [] => []
  | [_] => []
  | previous :: i :: rest =>
    if startsAfter previous i then i.address :: afterSeparators (i :: rest)
    else afterSeparators (i :: rest)

/-- The stack pointer is saved in the frame register that the first instruction pushes. -/
def isFramePair (i j : Instruction) : Bool :=
  i.mnemonic = "push" && (i.operandText = "rbp" || i.operandText = "ebp") && j.mnemonic = "mov" &&
    match (Text.splitAt ',' j.operandText.toList).map Text.strip with
    | [target, source] =>
      target = i.operandText.toList && (source = "rsp".toList || source = "esp".toList)
    | _ => false

def lowersStack (i : Instruction) : Bool :=
  i.mnemonic = "sub" &&
    ("rsp,".toList.isPrefixOf i.operandText.toList || "esp,".toList.isPrefixOf i.operandText.toList)

def secondNumber? (i : Instruction) : Option Int :=
  match Text.splitAt ',' i.operandText.toList with
  | _ :: second :: _ => Numeral.read? 16 (String.ofList (Text.strip second))
  | _ => none

def largeFrame : Int := 0x20

def opensLargeFrame (i : Instruction) : Bool :=
  lowersStack i &&
    match secondNumber? i with
    | some n => largeFrame ≤ n
    | none => false

def frameAddresses (i j : Instruction) (rest : Listing) : List Int :=
  match rest with
  | k :: _ => if lowersStack k then [i.address, j.address, k.address] else [i.address, j.address]
  | [] => [i.address, j.address]

/-- The prologues of a listing, apart from those at addresses that are taken. -/
def prologuesApart (taken : List Int) : Listing → List Int
  | [] => []
  | i :: rest =>
    if taken.contains i.address then prologuesApart taken rest
    else
      match rest with
      | [] => if opensLargeFrame i then [i.address] else []
      | j :: more =>
        if isFramePair i j then
          i.address :: prologuesApart (frameAddresses i j more ++ taken) (j :: more)
        else if opensLargeFrame i then
          i.address :: prologuesApart (i.address :: taken) (j :: more)
        else prologuesApart taken (j :: more)

def prologues (listing : Listing) : List Int := prologuesApart [] listing

/-- A trap or a no-operation of one byte. -/
def isPadding (i : Instruction) : Bool := i.bytes = [0xCC] || i.bytes = [0x90]

/-- Mnemonics after which even one padding byte separates functions. -/
def terminators : List String := ["ret", "retn", "jmp", "iret"]

/-- The addresses after padding. The arguments are the length of the padding right before the
listing and whether a terminator comes before that padding. -/
def afterPaddingRun (run : Nat) (terminated : Bool) : Listing → List Int
  | [] => []
  | i :: rest =>
    if isPadding i then afterPaddingRun (run + 1) terminated rest
    else
      let found := (2 ≤ run ∨ (run = 1 ∧ terminated)) ∧ i.mnemonic ≠ "db"
      let more := afterPaddingRun 0 (terminators.contains i.mnemonic) rest
      if found then i.address :: more else more

def afterPadding (listing : Listing) : List Int := afterPaddingRun 0 false listing

end Listing

end CodeSignature
