/-
Sound programs: every use is decorated as lexical scoping says, every part has a type that fits
where it stands, and no name is declared twice in one scope. This is what code and its runs are
compared under; a program without problems of resolution and of typing is sound.
-/
import FoolLang.Proofs.Scoping.View
import FoolLang.Proofs.Semantics.Evaluation
import FoolLang.Proofs.Sequencing
import FoolLang.Typing

namespace FoolLang

/-- Whether a type is one of values, not that of a function or of a class itself. -/
def Ty.isValue : Ty → Bool
  | .arrow _ | .cls _ _ => false
  | _ => true

/-- Some names have types of values. -/
def Formal.Valued (fs : List Formal) : Prop := ∀ f ∈ fs, f.type.isValue = true

mutual

/-- The variables and parameters in a declaration have types of values. -/
def Decl.Valued : Decl → Prop
  | .var _ type _ _ => type.isValue = true
  | .function header locals _ => Formal.Valued header.params ∧ Decl.ValuedAll locals

/-- The variables and parameters in some declarations have types of values. -/
def Decl.ValuedAll : List Decl → Prop
  | [] => True
  | d :: ds => d.Valued ∧ Decl.ValuedAll ds

end

/-- The variables and parameters in a method have types of values. -/
def Method.Valued (m : Method) : Prop := Formal.Valued m.header.params ∧ Decl.ValuedAll m.locals

/-- The fields, variables and parameters in a class have types of values. -/
def ClassDecl.Valued (c : ClassDecl) : Prop := Formal.Valued c.fields ∧ ∀ m ∈ c.methods, m.Valued

/-- The variables, parameters and fields in a program have types of values. -/
def Program.Valued (p : Program) : Prop := (∀ c ∈ p.classes, c.Valued) ∧ Decl.ValuedAll p.decls

/-- The class of a receiver, as its decoration says. -/
def Expr.class? : Expr → Option String
  | .id _ (some r) _ =>
    match r.entry.type with
    | .ref c => some c
    | _ => none
  | .new c _ _ _ => some c
  | .call _ _ (some r) _ => r.entry.type.returnedClass?
  | .methodCall _ _ _ (some b) _ => b.type.returnedClass?
  | _ => none

/-! ## Types -/

theorem Typed.ensure_eq_ok {holds : Bool} {cause : Cause} {line : Nat} {u : Unit}
    (h : Typed.ensure holds cause line = .ok u) : holds = true := by
  unfold Typed.ensure at h
  split at h
  · assumption
  · cases h

/-! ## Sound programs -/

section

variable (classes : List ClassDecl)

mutual

/-- Every use in an expression is decorated as what is visible says. -/
def Expr.Resolved (v : View) : Expr → Prop
  | .int _ _ | .bool _ _ | .null _ => True
  | .binary _ a b _ => a.Resolved v ∧ b.Resolved v
  | .not e _ | .print e _ => e.Resolved v
  | .cond c a b _ => c.Resolved v ∧ a.Resolved v ∧ b.Resolved v
  | .id name r _ => ∃ b, v.find? name = some b ∧ r = some ⟨b, v.depth⟩
  | .call name args r _ =>
    (∃ b, v.find? name = some b ∧ r = some ⟨b, v.depth⟩) ∧ Expr.ResolvedAll v args
  | .new c args r _ =>
    (∃ i cls, classes[i]? = some cls ∧ cls.name = c ∧
      r = some ⟨⟨0, cls.type, View.offset i, false⟩, v.depth⟩) ∧ Expr.ResolvedAll v args
  | .methodCall receiver method args b _ =>
    receiver.Resolved v ∧ (∃ cls ∈ classes, receiver.class? = some cls.name ∧
      ∃ e, cls.memberNames.lookup method = some e ∧ e.isMethod = true ∧ b = some e) ∧
      Expr.ResolvedAll v args

/-- Every use in some expressions is decorated as what is visible says. -/
def Expr.ResolvedAll (v : View) : List Expr → Prop
  | [] => True
  | e :: es => e.Resolved v ∧ Expr.ResolvedAll v es

end

mutual

/-- Every use in a declaration is decorated as what is visible where it stands says. -/
def Decl.Resolved (v : View) : Decl → Prop
  | .var _ _ value _ => value.Resolved classes v
  | .function header locals body =>
    let w := (v.declare header.name (.arrow header.signature)).inside header.params
    Decl.ResolvedAll w locals ∧ body.Resolved classes (w.behindAll locals)

/-- Every use in the declarations of a scope is decorated as what is visible where it stands says. -/
def Decl.ResolvedAll (v : View) : List Decl → Prop
  | [] => True
  | d :: ds => d.Resolved v ∧ Decl.ResolvedAll (v.behind d) ds

end

/-- Every use in a routine is decorated as what is visible there says. -/
def Routine.Resolved (v : View) (r : Routine) : Prop :=
  let w := v.inside r.params
  Decl.ResolvedAll classes w r.locals ∧ r.body.Resolved classes (w.behindAll r.locals)

/-- An expression is resolved and has a type that may stand for another one. -/
def Expr.Sound (v : View) (e : Expr) (type : Ty) : Prop :=
  e.Resolved classes v ∧ ∃ t, e.type = .ok t ∧ t.subtype type = true

mutual

/-- A declaration is sound where some scopes are visible. -/
def Decl.Sound (v : View) : Decl → Prop
  | .var _ type value _ => type.isValue = true ∧ value.Sound classes v type
  | .function header locals body =>
    let w := (v.declare header.name (.arrow header.signature)).inside header.params
    Formal.Valued header.params ∧ Decl.SoundAll w locals ∧
      body.Sound classes (w.behindAll locals) header.result

/-- The declarations of a scope are sound. -/
def Decl.SoundAll (v : View) : List Decl → Prop
  | [] => True
  | d :: ds => d.Sound v ∧ Decl.SoundAll (v.behind d) ds

end

/-- A routine is sound where some scopes are visible around it, with a type for its value. -/
def Routine.Sound (v : View) (r : Routine) (result : Ty) : Prop :=
  let w := v.inside r.params
  Formal.Valued r.params ∧ Decl.SoundAll classes w r.locals ∧
    r.body.Sound classes (w.behindAll r.locals) result

end

/-- A class behind some classes repeats no member, and every use in it is decorated as what is visible says. -/
structure ClassDecl.Resolved (classes earlier : List ClassDecl) (c : ClassDecl) : Prop where
  fields : c.ownFields = c.fields
  methods : c.ownMethods = c.methods
  distinct : (c.memberNames.map (·.1)).Nodup
  slots : ∀ (i : Nat) m, c.methods[i]? = some m → m.slot = some (.ofNat i)
  routines : ∀ m ∈ c.methods, m.routine.Resolved classes (c.view earlier)

/-- A program repeats no class, and every use in it is decorated as what is visible says. -/
structure Program.Resolved (p : Program) : Prop where
  distinct : (p.classes.map (·.name)).Nodup
  classes : ∀ (i : Nat) c, p.classes[i]? = some c → c.Resolved p.classes (p.classes.take i)
  decls : Decl.ResolvedAll p.classes (.behindClasses p.classes) p.decls
  body : p.body.Resolved p.classes ((View.behindClasses p.classes).behindAll p.decls)

/-- A class is sound behind some classes. -/
structure ClassDecl.Sound (classes earlier : List ClassDecl) (c : ClassDecl) : Prop where
  fields : c.ownFields = c.fields
  types : Formal.Valued c.fields
  methods : c.ownMethods = c.methods
  distinct : (c.memberNames.map (·.1)).Nodup
  slots : ∀ (i : Nat) m, c.methods[i]? = some m → m.slot = some (.ofNat i)
  routines : ∀ m ∈ c.methods, m.routine.Sound classes (c.view earlier) m.header.result

/-- A sound program. -/
structure Program.Sound (p : Program) : Prop where
  distinct : (p.classes.map (·.name)).Nodup
  classes : ∀ (i : Nat) c, p.classes[i]? = some c → c.Sound p.classes (p.classes.take i)
  decls : Decl.SoundAll p.classes (.behindClasses p.classes) p.decls
  body : p.body.Resolved p.classes ((View.behindClasses p.classes).behindAll p.decls)
  type : ∃ t, p.body.type = .ok t

end FoolLang
