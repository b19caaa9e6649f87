import CodeSignature.Text.Blank
import CodeSignature.Text.Line
import CodeSignature.Text.Quoted

/-! # A directory of text files

The working directory holds text files and no further directories. Paths are resolved as far as that
tells; nothing is known of other directories, so they are taken to hold no files.
-/

namespace CodeSignature

inductive PathProblem where
  | notFound
  | notDirectory
  | isDirectory
  | nameTooLong
deriving DecidableEq, Repr

namespace PathProblem

def code : PathProblem → Nat
  | .notFound => 2
  | .notDirectory => 20
  | .isDirectory => 21
  | .nameTooLong => 36

def wording : PathProblem → String
  | .notFound => "No such file or directory"
  | .notDirectory => "Not a directory"
  | .isDirectory => "Is a directory"
  | .nameTooLong => "File name too long"

def message (p : PathProblem) (path : String) : String :=
  "[Errno " ++ toString p.code ++ "] " ++ p.wording ++ ": " ++ Quoted.encode path

end PathProblem

inductive PathTarget where
  | directory
  /-- A file of the working directory, which may not be there yet. -/
  | file (name : String)
  | missingDirectory
deriving DecidableEq, Repr

structure Directory where
  files : List (String × String)
deriving DecidableEq, Repr

namespace Directory

def get? (d : Directory) (name : String) : Option String :=
  (d.files.find? (·.1 = name)).map (·.2)

def put (d : Directory) (name content : String) : Directory :=
  ⟨(name, content) :: d.files.filter (·.1 ≠ name)⟩

/-- The number of bytes from which on paths are refused. -/
def pathBound : Nat := 4096

def nameBound : Nat := 255

/-- Parts of a path that lead to directories only. -/
def isPlain (part : String) : Bool := part = "" || part = "." || part = ".."

def follow (d : Directory) : List String → Except PathProblem PathTarget
  | [] => .ok .directory
  | part :: rest =>
    if part = "" ∨ part = "." then follow d rest
    else if part = ".." then
      if rest.all isPlain then .ok .directory else .error .notFound
    else if nameBound < part.utf8ByteSize then .error .nameTooLong
    else if rest = [] then .ok (.file part)
    else if (d.get? part).isSome then .error .notDirectory
    else if rest.all (· = "") then .ok .missingDirectory
    else .error .notFound

def resolve (d : Directory) (path : String) : Except PathProblem PathTarget :=
  let parts := (Text.splitAt '/' path.toList).map String.ofList
  if path = "" then .error .notFound
  else if pathBound ≤ path.utf8ByteSize then .error .nameTooLong
  else if path.toList.head? = some '/' then
    if parts.all isPlain then .ok .directory else .error .notFound
  else d.follow parts

/-- The content of the file at a path, with line feeds for all line breaks. -/
def read (d : Directory) (path : String) : Except PathProblem String :=
  match d.resolve path with
  | .error p => .error p
  | .ok .directory => .error .isDirectory
  | .ok .missingDirectory => .error .notFound
  | .ok (.file name) =>
    match d.get? name with
    | some content => .ok (String.ofList (Text.unifyBreaks content.toList))
    | none => .error .notFound

def write (d : Directory) (path content : String) : Except PathProblem Directory :=
  match d.resolve path with
  | .error p => .error p
  | .ok (.file name) => .ok (d.put name content)
  | .ok _ => .error .isDirectory

def writeProblem (d : Directory) (path : String) : Option PathProblem :=
  match d.write path "" with
  | .error p => some p
  | .ok _ => none

end Directory

end CodeSignature
