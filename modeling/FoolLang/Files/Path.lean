/-
Paths as text: the name of the file that a path leads to, and the path with another extension. An
extension begins at the last dot of a name, unless the name begins there.
-/

namespace FoolLang.Path

/-- A reversed path without the slashes, and the dots for the same directory, at its end. -/
def withoutTail : List Char → List Char
  | '/' :: r => withoutTail r
  | '.' :: '/' :: r => withoutTail r
  | r => r

/-- A path cut before the last name in it; there may be none. -/
def cut (path : String) : List Char × Option (List Char) :=
  let reversed := withoutTail path.toList.reverse
  let name := (reversed.takeWhile (· != '/')).reverse
  let before := (reversed.dropWhile (· != '/')).reverse
  (before, if name = [] ∨ name = ['.'] ∨ name = ['.', '.'] then none else some name)

/-- The name of the file that a path leads to. -/
def fileName? (path : String) : Option String := (cut path).2.map String.ofList

/-- A name without its extension. -/
def stem (name : List Char) : List Char :=
  match name.reverse.dropWhile (· != '.') with
  | '.' :: c :: r => (c :: r).reverse
  | _ => name

/-- A path with the extension of its file replaced, or added. A name such as `..a` is the two dots
for the directory above once its extension is gone; that is no file, and nothing is added to it. -/
def withExtension (path extension : String) : String :=
  match cut path with
  | (_, none) => path
  | (before, some name) =>
    if stem name = ['.'] then String.ofList (before ++ ['.', '.'])
    else String.ofList (before ++ stem name) ++ "." ++ extension

/-- The names along a path. -/
def components (path : String) : List String := (path.splitOn "/").filter (· != "")

/-- Goes on from some names by one more: a dot stays, two dots go back. -/
def follow (names : List String) (name : String) : List String :=
  if name = "." then names else if name = ".." then names.dropLast else names ++ [name]

/-- The names that lead to the same place as a path, without dots. -/
def normal (path : String) : List String := (components path).foldl follow []

end FoolLang.Path
