/-
Names: an ASCII letter or underscore, then ASCII letters, digits and underscores. Identifiers of
the language and labels of the assembly are names.
-/

namespace FoolLang.Text

/-- Whether a name may begin with the character. -/
def isNameStart (c : Char) : Bool := c.isAlpha || c == '_'

/-- Whether a name may go on with the character. -/
def isNameRest (c : Char) : Bool := c.isAlphanum || c == '_'

/-- Whether a text is a name. -/
def isName : List Char → Bool
  | [] => false
  | c :: s => isNameStart c && s.all isNameRest

end FoolLang.Text
