/-
A tree of files under a working directory, as a value: what is read and written through paths, and
why that can fail. Outside of it nothing is found, and what is written leaves no trace.
-/
import FoolLang.Files.Path

namespace FoolLang

/-- Why a file cannot be read or written. -/
inductive FileError where
  | notFound
  | notADirectory
  | isADirectory
  | notText
deriving DecidableEq, Repr

/-- The wording of a file error. -/
def FileError.message : FileError → String
  | .notFound => "No such file or directory (os error 2)"
  | .notADirectory => "Not a directory (os error 20)"
  | .isADirectory => "Is a directory (os error 21)"
  | .notText => "stream did not contain valid UTF-8"

/-- The files under the working directory, by the names that lead to them, with their bytes. -/
structure Files where
  entries : List (List String × ByteArray)

/-- Where a path leads. -/
inductive Place where
  /-- A place under the working directory. -/
  | inside (names : List String)
  /-- A directory outside of it. -/
  | outside
  /-- A file outside of it. -/
  | stray
deriving DecidableEq, Repr

namespace Files

/-- The content of a file. -/
def get? (fs : Files) (names : List String) : Option ByteArray := fs.entries.lookup names

/-- Whether a place under the working directory is a directory. -/
def isDirectory (fs : Files) (names : List String) : Bool :=
  names.isEmpty || fs.entries.any fun e => names.isPrefixOf e.1 && names != e.1

/-- Writes a file. -/
def put (fs : Files) (names : List String) (content : ByteArray) : Files :=
  ⟨(names, content) :: fs.entries.filter fun e => e.1 != names⟩

/-- One step along a path; the place reached has to be a directory for the step to be taken. -/
def step (fs : Files) : Place → String → Except FileError Place
  | .stray, _ => .error .notFound
  | .outside, name => .ok (if name = "." ∨ name = ".." then .outside else .stray)
  | .inside names, name =>
    if fs.isDirectory names then
      .ok (if names = [] ∧ name = ".." then .outside else .inside (Path.follow names name))
    else if (fs.get? names).isSome then .error .notADirectory
    else .error .notFound

/-- The place that a path leads to; only the last name on it need not be there. -/
def place (fs : Files) (path : String) : Except FileError Place :=
  if path = "" then .error .notFound
  else
    (Path.components path).foldlM fs.step
      (if path.toList.head? = some '/' then .outside else .inside [])

/-- Whether a path asks for a directory by its end. -/
def asksDirectory (path : String) : Bool := path.toList.getLast? == some '/'

/-- Reads a file as text. -/
def readText (fs : Files) (path : String) : Except FileError String := do
  match ← fs.place path with
  | .outside => throw .isADirectory
  | .stray => throw .notFound
  | .inside names =>
    if fs.isDirectory names then throw .isADirectory
    else
      match fs.get? names with
      | none => throw .notFound
      | some content =>
        if asksDirectory path then throw .notADirectory
        else
          match String.fromUTF8? content with
          | some text => return text
          | none => throw .notText

/-- Writes a file as text. -/
def writeText (fs : Files) (path text : String) : Except FileError Files := do
  match ← fs.place path with
  | .outside => throw .isADirectory
  | .stray => return fs
  | .inside names =>
    if fs.isDirectory names || asksDirectory path then throw .isADirectory
    else return fs.put names text.toUTF8

end Files

end FoolLang
