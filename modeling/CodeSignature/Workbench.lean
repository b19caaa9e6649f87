import CodeSignature.Image.Executable
import CodeSignature.Search.Ranking
import CodeSignature.Search.Transcript
import CodeSignature.Settings.Basic

/-! # The workbench

A loaded image, the settings, and what can be done with them. Each action tells what came of it in log
lines and hands the main result out to be copied. Failures are logged; faults end the action.
-/

namespace CodeSignature

inductive Source where
  | executable (e : Executable)
  | malformed (reason : String)

structure Workbench where
  settings : Settings
  analysis : Option Analysis

namespace Workbench

def empty (settings : Settings) : Workbench := ⟨settings, none⟩

def load (w : Workbench) (image : Image) (d : Dialogue) : Except Fault Workbench × Dialogue :=
  match Analysis.ofImage image w.settings.heuristics with
  | .ok a => (.ok { w with analysis := some a }, a.announce d)
  | .error cause => (.error cause, d)

/-- Changes settings. The analysis stays as it is. -/
def update (w : Workbench) (changes : Fields) : Workbench :=
  { w with settings := w.settings.change changes }

def refuseFiles (d : Dialogue) : Dialogue :=
  d.write .error "Library 'pefile' not found.\nInstall it with:\npip install pefile"

/-- Loads what was found under a path, and tells whether it is loaded. -/
def openFile (w : Workbench) (path : String) (found : Option Source) (d : Dialogue) :
    Except Fault (Bool × Workbench) × Dialogue :=
  match found with
  | none => (.ok (false, w), d.write .error ("File not found: '" ++ path ++ "'"))
  | some (.malformed reason) =>
    let line := "File is not a valid PE file.\n" ++ Quoted.encode reason
    (.ok (false, w), d.write .error line)
  | some (.executable e) =>
    if e.isDecodable then
      match w.load e.image (d.write .info ("Analyzing " ++ path ++ "...")) with
      | (.ok w, d) => (.ok (true, w), d)
      | (.error cause, d) => (.error cause, d)
    else
      let line := "Unsupported machine type " ++ e.machineName ++
        ": only x86 and x64 code can be decoded."
      (.ok (false, w), d.write .error line)

def copy (w : Workbench) (text : String) (d : Dialogue) : Dialogue :=
  if w.settings.enables .copyToClipboard then
    match d.copy text with
    | (true, d) => d
    | (false, d) => d.write .error "Failed to copy to clipboard!"
  else d

def writeFailure (f : Failure) (d : Dialogue) : Dialogue := d.write .error ("Error: " ++ f.message)

def deliver (w : Workbench) (heading : String) :
    Except Failure Signature × Dialogue → Except Fault (Option String) × Dialogue
  | (.error (.fault cause), d) => (.error cause, d)
  | (.error f, d) => (.ok none, writeFailure f d)
  | (.ok s, d) =>
    match w.settings.dialect with
    | .error cause => (.error cause, d)
    | .ok dialect =>
      let text := dialect.render s
      (.ok (some text), w.copy text (d.write .info (heading ++ ": " ++ text)))

/-- The shortest signature that starts at an address and occurs once. -/
def uniqueSignature (w : Workbench) (address : Int) (d : Dialogue) :
    Except Fault (Option String) × Dialogue :=
  match w.analysis with
  | none => (.error .noImage, d.resume)
  | some a =>
    w.deliver ("Signature for " ++ Hex.upperOfInt address)
      (a.grow w.settings.growthOptions address d.resume)

def rangeSignature (w : Workbench) (start stop : Int) (d : Dialogue) :
    Except Fault (Option String) × Dialogue :=
  match w.analysis with
  | none => (.error .noImage, d.resume)
  | some a =>
    w.deliver ("Code for " ++ Hex.upperOfInt start ++ "-" ++ Hex.upperOfInt stop)
      (a.transcribe (w.settings.enables .wildcardOperands) start stop d.resume)

def rankingHeading (shown : Int) (available : Nat) (target : Int) : String :=
  "Top " ++ toString shown ++ " Signatures out of " ++ toString available ++ " xrefs for " ++
    Hex.upperOfInt target ++ ":"

def rankingLine (place : Nat) (origin : Int) (text : String) : String :=
  "XREF Signature #" ++ toString place ++ " @ " ++ Hex.upperOfInt origin ++ ": " ++ text

/-- Shows the signatures of references, of which so many stand before. -/
def showRanked (dialect : Dialect) : Nat → List Ranked → Dialogue → List String × Dialogue
  | _, [], d => ([], d)
  | before, r :: rest, d =>
    let text := dialect.render r.signature
    let (texts, d) :=
      showRanked dialect (before + 1) rest
        (d.write .info (rankingLine (before + 1) r.origin text))
    (text :: texts, d)

def showBest (w : Workbench) (best : List Ranked) (d : Dialogue) :
    Except Fault (List String) × Dialogue :=
  match best with
  | [] => (.error .noResult, d)
  | first :: rest =>
    match w.settings.dialect with
    | .error cause => (.error cause, d)
    | .ok dialect =>
      let (texts, d) := showRanked dialect 0 (first :: rest) d
      (.ok texts, w.copy (dialect.render first.signature) d)

def showRanking (w : Workbench) (target : Int) (ranking : List Ranked) (d : Dialogue) :
    Except Fault (List String) × Dialogue :=
  let heading := fun shown => rankingHeading shown ranking.length target
  match Share.ofJson (w.settings.get .referenceCount) ranking.length with
  | .first count => w.showBest (Share.take count ranking) (d.write .info (heading count))
  | .fractional announced => (.error .wrongType, d.write .info (heading announced))
  | .boundless cause => (.error cause, d)
  | .unusable => (.error .wrongType, d)

def referenceSignatures (w : Workbench) (target : Int) (d : Dialogue) :
    Except Fault (List String) × Dialogue :=
  match w.analysis with
  | none => (.error .noImage, d.resume)
  | some a =>
    match a.rank w.settings.referenceOptions target d.resume with
    | (.error (.fault cause), d) => (.error cause, d)
    | (.error f, d) => (.ok [], writeFailure f d)
    | (.ok [], d) => (.ok [], d.write .info "No XREFs have been found for your address")
    | (.ok ranking, d) => w.showRanking target ranking d

def showMatches : List Int → Dialogue → Dialogue
  | [], d => d
  | address :: rest, d => showMatches rest (d.write .info ("Match @ " ++ Hex.upperOfInt address))

def search (w : Workbench) (text : String) (d : Dialogue) : Except Fault (List Int) × Dialogue :=
  match w.analysis with
  | none => (.error .noImage, d)
  | some a =>
    match a.image.search text with
    | .error (.fault cause) => (.error cause, d)
    | .error f => (.ok [], writeFailure f d)
    | .ok (s, found) =>
      let d := d.write .info ("Signature: " ++ Dialect.ida.render s)
      match found with
      | [] => (.ok [], d.write .info "Signature does not match!")
      | found => (.ok found, showMatches found d)

end Workbench

end CodeSignature
