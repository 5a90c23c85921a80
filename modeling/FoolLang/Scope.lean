/-
Scopes: the open frames from the innermost out, the nesting level, the next free offset of the
innermost frame, the tables of the classes declared so far, and the problems reported. A frame
holds what its declarations bind; the table of a class holds its fields and methods.
-/
import FoolLang.Diagnostic
import FoolLang.Scope.Table
import FoolLang.Tree

namespace FoolLang

/-- The bindings of one scope, or of the members of a class. -/
abbrev Frame := Table String Binding

/-- The state of a resolution. -/
structure Scope where
  frames : List Frame
  level : Nat
  nextOffset : Int32
  classes : Table String Frame
  problems : List Diagnostic

namespace Scope

/-- The first offset that a frame gives to its declarations. -/
def firstOffset : Int32 := -2

/-- The scope without any frame. -/
def empty : Scope := ⟨[], 0, firstOffset, .empty, []⟩

/-- The scope in which a program begins: one frame, at level 0. -/
def outermost : Scope := { empty with frames := [.empty] }

/-- The innermost binding of a name. -/
def lookup (s : Scope) (name : String) : Option Binding := s.frames.findSome? (·.get? name)

/-- The binding of a name in the outermost frame. -/
def lookupOutermost (s : Scope) (name : String) : Option Binding :=
  s.frames.getLast?.bind (·.get? name)

/-- The scope with one more problem reported. -/
def report (s : Scope) (cause : Cause) (line : Nat) : Scope :=
  { s with problems := s.problems ++ [⟨cause, line⟩] }

/-- Binds a name in the innermost frame. A name bound there already is reported and rebound. -/
def declare (s : Scope) (kind name : String) (b : Binding) (line : Nat) : Scope :=
  match s.frames with
  | [] => s
  | frame :: outer =>
    let s' := { s with frames := frame.put name b :: outer }
    if frame.contains name then s'.report (.alreadyDeclared kind name) line else s'

/-- Binds a name at the next free offset of the innermost frame. -/
def declareNext (s : Scope) (kind name : String) (type : Ty) (line : Nat) : Scope :=
  { s with nextOffset := s.nextOffset - 1 }.declare kind name
    { level := s.level, type, offset := s.nextOffset } line

/-- Opens a scope inside this one. -/
def enter (s : Scope) : Scope :=
  { s with frames := .empty :: s.frames, level := s.level + 1, nextOffset := firstOffset }

/-- Closes the innermost scope; the frame around it goes on at an offset. -/
def leave (s : Scope) (offset : Int32) : Scope :=
  { s with frames := s.frames.tail, level := s.level - 1, nextOffset := offset }

/-- Binds parameters at the offsets from some offset upward. -/
def declareParams (s : Scope) : List Formal → Int32 → Scope
  | [], _ => s
  | p :: ps, offset =>
    (s.declare "Par" p.name { level := s.level, type := p.type, offset } p.line).declareParams ps
      (offset + 1)

/-- Binds a class in the outermost frame. -/
def declareClass (s : Scope) (name : String) (b : Binding) (line : Nat) : Scope :=
  match s.frames.getLast? with
  | none => s
  | some frame =>
    let s' := { s with frames := s.frames.dropLast ++ [frame.put name b] }
    if frame.contains name then s'.report (.alreadyDeclared "Class" name) line else s'

end Scope

end FoolLang
