/-
The listing of a diagnostic: its name and advice, the file, and the line of the program text that
it points at, underlined.
-/
import FoolLang.Diagnostic
import FoolLang.Text.Blank
import FoolLang.Text.Lines

namespace FoolLang.Diagnostic

/-- The first line of a listing. -/
def headline (d : Diagnostic) : String :=
  match d.cause.tip? with
  | none => s!"Error: {d.cause.name}"
  | some tip => s!"Error: {d.cause.name} ({tip})"

/--
The listing of a diagnostic against the text of a file. The bar stands one column right of the
line number. The line is shown without the blanks around it and underlined by as many carets as it
has bytes, at least one; where the text has no such line the message takes its place.
-/
def listing (d : Diagnostic) (file source : String) : String :=
  let number := toString d.line
  let bar := String.ofList (List.replicate (number.length + 1) ' ') ++ "|"
  let shown :=
    match Text.line? source.toList d.line with
    | some line =>
      let text := String.ofList (Text.trim line)
      let carets := String.ofList (List.replicate (max text.utf8ByteSize 1) '^')
      s!"{number} | {text}\n{bar} {carets}\n"
    | none => s!"{number} | {d.message}\n"
  s!"{d.headline}\n-> {file}\n{bar}\n{shown}"

end FoolLang.Diagnostic
