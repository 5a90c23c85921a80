/-
Renamings, and what they make of types, bindings, trees, tokens and diagnostics: two of these are renamed
into one another if names stand in the places of names, each taken to its own, and all else but the lines
is equal. Main statements: a renaming keeps apart what it takes, so renamed types are equal, and subtypes of
one another, just where the types they come from are.
-/
import FoolLang.Scope.Resolve
import FoolLang.Token
import Mathlib.Data.List.Forall2
import Mathlib.Data.Set.Function

namespace FoolLang

/-- A renaming: what some names become, no two of them the same. -/
structure Renaming where
  names : Set String
  become : String → String
  injOn : Set.InjOn become names

/-- The renaming takes a name to another one. -/
def Renaming.Takes (ρ : Renaming) (x y : String) : Prop := x ∈ ρ.names ∧ ρ.become x = y

section

variable {ρ : Renaming} {x x' y y' : String}

/-- Two names are one just where what they become is one. -/
theorem Renaming.Takes.eq_iff (hx : ρ.Takes x x') (hy : ρ.Takes y y') : x = y ↔ x' = y' := by
  obtain ⟨hx, rfl⟩ := hx
  obtain ⟨hy, rfl⟩ := hy
  exact (ρ.injOn.eq_iff hx hy).symm

theorem Renaming.Takes.beq_eq (hx : ρ.Takes x x') (hy : ρ.Takes y y') : (x == y) = (x' == y') := by
  rw [Bool.eq_iff_iff, beq_iff_eq, beq_iff_eq]
  exact hx.eq_iff hy

end

/-! ## Types -/

mutual

/-- Types that differ in the names of classes. -/
inductive Ty.Renamed (ρ : Renaming) : Ty → Ty → Prop
  | int : Ty.Renamed ρ .int .int
  | bool : Ty.Renamed ρ .bool .bool
  | null : Ty.Renamed ρ .null .null
  | ref {c c' : String} (h : ρ.Takes c c') : Ty.Renamed ρ (.ref c) (.ref c')
  | arrow {s s' : Signature} (h : Signature.Renamed ρ s s') : Ty.Renamed ρ (.arrow s) (.arrow s')
  | cls {fs fs' : List Ty} {ms ms' : List Signature} (hf : List.Forall₂ (Ty.Renamed ρ) fs fs')
      (hm : List.Forall₂ (Signature.Renamed ρ) ms ms') : Ty.Renamed ρ (.cls fs ms) (.cls fs' ms')

/-- Signatures that differ in the names of classes. -/
inductive Signature.Renamed (ρ : Renaming) : Signature → Signature → Prop
  | mk {ps ps' : List Ty} {t t' : Ty} (hp : List.Forall₂ (Ty.Renamed ρ) ps ps') (ht : Ty.Renamed ρ t t') :
      Signature.Renamed ρ ⟨ps, t⟩ ⟨ps', t'⟩

end

section

variable {ρ : Renaming}

-- By the constructors of the first type: that of the second is the same one, or both comparisons fail.
mutual

theorem Ty.Renamed.same : ∀ {a b a' b' : Ty}, a.Renamed ρ a' → b.Renamed ρ b' → a.same b = a'.same b'
  | .int, _, _, _, ha, hb | .bool, _, _, _, ha, hb | .null, _, _, _, ha, hb => by
    cases ha; cases hb <;> simp [Ty.same]
  | .ref _, _, _, _, .ref hc, hb => by
    cases hb with
    | ref hd =>
      rw [Ty.same, Ty.same]
      exact hc.beq_eq hd
    | _ => simp [Ty.same]
  | .arrow _, _, _, _, .arrow hs, hb => by
    cases hb with
    | arrow ht => simp [Ty.same, hs.same ht]
    | _ => simp [Ty.same]
  | .cls _ _, _, _, _, .cls hf hm, hb => by
    cases hb with
    | cls hg hn => simp [Ty.same, Ty.Renamed.sameAll hf hg, Signature.Renamed.sameAll hm hn]
    | _ => simp [Ty.same]

theorem Signature.Renamed.same : ∀ {s t s' t' : Signature}, s.Renamed ρ s' → t.Renamed ρ t' → s.same t = s'.same t'
  | ⟨_, _⟩, _, _, _, .mk hp hr, .mk hq ht => by
    rw [Signature.same, Signature.same, Ty.Renamed.sameAll hp hq, hr.same ht]

theorem Ty.Renamed.sameAll : ∀ {as bs as' bs' : List Ty}, List.Forall₂ (Ty.Renamed ρ) as as' →
    List.Forall₂ (Ty.Renamed ρ) bs bs' → Ty.sameAll as bs = Ty.sameAll as' bs'
  | [], _, _, _, .nil, .nil => rfl
  | [], _, _, _, .nil, .cons _ _ | _ :: _, _, _, _, .cons _ _, .nil => by simp [Ty.sameAll]
  | _ :: _, _, _, _, .cons ha has, .cons hb hbs => by
    rw [Ty.sameAll, Ty.sameAll, ha.same hb, Ty.Renamed.sameAll has hbs]

theorem Signature.Renamed.sameAll : ∀ {ss ts ss' ts' : List Signature},
    List.Forall₂ (Signature.Renamed ρ) ss ss' → List.Forall₂ (Signature.Renamed ρ) ts ts' →
      Signature.sameAll ss ts = Signature.sameAll ss' ts'
  | [], _, _, _, .nil, .nil => rfl
  | [], _, _, _, .nil, .cons _ _ | _ :: _, _, _, _, .cons _ _, .nil => by simp [Signature.sameAll]
  | _ :: _, _, _, _, .cons ha has, .cons hb hbs => by
    rw [Signature.sameAll, Signature.sameAll, ha.same hb, Signature.Renamed.sameAll has hbs]

end

variable {a a' b b' : Ty} {s s' t t' : Signature}

/-- Types are equal just where what they are renamed to is. -/
theorem Ty.Renamed.eq_iff (ha : a.Renamed ρ a') (hb : b.Renamed ρ b') : a = b ↔ a' = b' := by
  rw [← Ty.same_iff, ← Ty.same_iff, ha.same hb]

theorem Ty.Renamed.beq_eq (ha : a.Renamed ρ a') (hb : b.Renamed ρ b') : (a == b) = (a' == b') := by
  rw [Bool.eq_iff_iff, beq_iff_eq, beq_iff_eq]
  exact ha.eq_iff hb

theorem Signature.Renamed.beq_eq (hs : s.Renamed ρ s') (ht : t.Renamed ρ t') : (s == t) = (s' == t') := by
  rw [Bool.eq_iff_iff, beq_iff_eq, beq_iff_eq, ← Signature.same_iff, ← Signature.same_iff, hs.same ht]

/-- A type is a subtype of another one just where what they are renamed to are. -/
theorem Ty.Renamed.subtype (ha : a.Renamed ρ a') (hb : b.Renamed ρ b') : a.subtype b = a'.subtype b' := by
  have heq : decide (a = b) = decide (a' = b') := decide_eq_decide.mpr (ha.eq_iff hb)
  cases ha <;> cases hb <;> first | rfl | exact heq

/-- What a function gives back has a class in both types or in neither. -/
theorem Ty.Renamed.returnedClass? (h : a.Renamed ρ a') :
    Option.Rel ρ.Takes a.returnedClass? a'.returnedClass? := by
  cases h with
  | arrow hs =>
    obtain ⟨-, hr⟩ := hs
    cases hr with
    | ref hc => exact .some hc
    | _ => exact .none
  | _ => exact .none

end

/-! ## Trees -/

/-- Bindings of renamed types in the same place. -/
structure Binding.Renamed (ρ : Renaming) (b b' : Binding) : Prop where
  level : b.level = b'.level
  type : b.type.Renamed ρ b'.type
  offset : b.offset = b'.offset
  isMethod : b.isMethod = b'.isMethod

/-- Resolutions to renamed bindings, as seen from the same level. -/
structure Resolution.Renamed (ρ : Renaming) (r r' : Resolution) : Prop where
  entry : r.entry.Renamed ρ r'.entry
  level : r.level = r'.level

/-- Expressions that differ in names, in the types of decorations and in lines. -/
inductive Expr.Renamed (ρ : Renaming) : Expr → Expr → Prop
  | int {v : Int32} {l l' : Nat} : Renamed ρ (.int v l) (.int v l')
  | bool {v : Bool} {l l' : Nat} : Renamed ρ (.bool v l) (.bool v l')
  | null {l l' : Nat} : Renamed ρ (.null l) (.null l')
  | binary {op : BinaryOp} {a a' b b' : Expr} {l l' : Nat} (ha : Renamed ρ a a') (hb : Renamed ρ b b') :
      Renamed ρ (.binary op a b l) (.binary op a' b' l')
  | not {e e' : Expr} {l l' : Nat} (h : Renamed ρ e e') : Renamed ρ (.not e l) (.not e' l')
  | cond {c c' a a' b b' : Expr} {l l' : Nat} (hc : Renamed ρ c c') (ha : Renamed ρ a a') (hb : Renamed ρ b b') :
      Renamed ρ (.cond c a b l) (.cond c' a' b' l')
  | print {e e' : Expr} {l l' : Nat} (h : Renamed ρ e e') : Renamed ρ (.print e l) (.print e' l')
  | id {x x' : String} {r r' : Option Resolution} {l l' : Nat} (hx : ρ.Takes x x')
      (hr : Option.Rel (Resolution.Renamed ρ) r r') : Renamed ρ (.id x r l) (.id x' r' l')
  | call {f f' : String} {es es' : List Expr} {r r' : Option Resolution} {l l' : Nat} (hf : ρ.Takes f f')
      (hes : List.Forall₂ (Renamed ρ) es es') (hr : Option.Rel (Resolution.Renamed ρ) r r') :
      Renamed ρ (.call f es r l) (.call f' es' r' l')
  | new {c c' : String} {es es' : List Expr} {r r' : Option Resolution} {l l' : Nat} (hc : ρ.Takes c c')
      (hes : List.Forall₂ (Renamed ρ) es es') (hr : Option.Rel (Resolution.Renamed ρ) r r') :
      Renamed ρ (.new c es r l) (.new c' es' r' l')
  | methodCall {e e' : Expr} {m m' : String} {es es' : List Expr} {b b' : Option Binding} {l l' : Nat}
      (he : Renamed ρ e e') (hm : ρ.Takes m m') (hes : List.Forall₂ (Renamed ρ) es es')
      (hb : Option.Rel (Binding.Renamed ρ) b b') : Renamed ρ (.methodCall e m es b l) (.methodCall e' m' es' b' l')

/-- Parameters or fields of renamed names and types. -/
structure Formal.Renamed (ρ : Renaming) (f f' : Formal) : Prop where
  name : ρ.Takes f.name f'.name
  type : f.type.Renamed ρ f'.type

/-- Headers of renamed names and types. -/
structure Header.Renamed (ρ : Renaming) (h h' : Header) : Prop where
  name : ρ.Takes h.name h'.name
  result : h.result.Renamed ρ h'.result
  params : List.Forall₂ (Formal.Renamed ρ) h.params h'.params

theorem Header.Renamed.signature {ρ : Renaming} {h h' : Header} (hh : h.Renamed ρ h') :
    h.signature.Renamed ρ h'.signature := by
  refine .mk ?_ hh.result
  rw [List.forall₂_map_left_iff, List.forall₂_map_right_iff]
  exact hh.params.imp fun _ _ hf => hf.type

/-- Declarations that differ in names and lines. -/
inductive Decl.Renamed (ρ : Renaming) : Decl → Decl → Prop
  | var {x x' : String} {t t' : Ty} {e e' : Expr} {l l' : Nat} (hx : ρ.Takes x x') (ht : t.Renamed ρ t')
      (he : e.Renamed ρ e') : Renamed ρ (.var x t e l) (.var x' t' e' l')
  | function {h h' : Header} {ds ds' : List Decl} {e e' : Expr} (hh : h.Renamed ρ h')
      (hds : List.Forall₂ (Renamed ρ) ds ds') (he : e.Renamed ρ e') : Renamed ρ (.function h ds e) (.function h' ds' e')

/-- Methods that differ in names and lines. -/
structure Method.Renamed (ρ : Renaming) (m m' : Method) : Prop where
  header : m.header.Renamed ρ m'.header
  locals : List.Forall₂ (Decl.Renamed ρ) m.locals m'.locals
  body : m.body.Renamed ρ m'.body
  slot : m.slot = m'.slot

/-- Classes that differ in names and lines. -/
structure ClassDecl.Renamed (ρ : Renaming) (c c' : ClassDecl) : Prop where
  name : ρ.Takes c.name c'.name
  fields : List.Forall₂ (Formal.Renamed ρ) c.fields c'.fields
  methods : List.Forall₂ (Method.Renamed ρ) c.methods c'.methods

/-- Programs that differ in names and lines. -/
inductive Program.Renamed (ρ : Renaming) : Program → Program → Prop
  | letIn {cs cs' : List ClassDecl} {ds ds' : List Decl} {e e' : Expr} (hcs : List.Forall₂ (ClassDecl.Renamed ρ) cs cs')
      (hds : List.Forall₂ (Decl.Renamed ρ) ds ds') (he : e.Renamed ρ e') :
      Renamed ρ (.letIn cs ds e) (.letIn cs' ds' e')
  | expr {e e' : Expr} (he : e.Renamed ρ e') : Renamed ρ (.expr e) (.expr e')

/-! ## Tokens and diagnostics -/

/-- Tokens of one kind: an identifier becomes what the renaming takes it to, any other text stays. -/
structure Token.Renamed (ρ : Renaming) (t t' : Token) : Prop where
  kind : t.kind = t'.kind
  value : if t.kind = .identifier then ρ.Takes t.value t'.value else t.value = t'.value

/--
Causes that differ in names: of one variant, with renamed names in the places of names, the texts of
renamed types and receivers in those of types and receivers, and all else equal.
-/
inductive Cause.Renamed (ρ : Renaming) : Cause → Cause → Prop
  | unexpectedToken {t t' : Token} (h : t.Renamed ρ t') :
      Renamed ρ (.unexpectedToken t.value) (.unexpectedToken t'.value)
  | unexpectedTokenDetailed {t t' : Token} (h : t.Renamed ρ t') (message : String) :
      Renamed ρ (.unexpectedTokenDetailed t.value message) (.unexpectedTokenDetailed t'.value message)
  | numberParseError (text : String) : Renamed ρ (.numberParseError text) (.numberParseError text)
  | alreadyDeclared (kind : String) {x x' : String} (h : ρ.Takes x x') :
      Renamed ρ (.alreadyDeclared kind x) (.alreadyDeclared kind x')
  | notDeclared (kind : String) {x x' : String} (h : ρ.Takes x x') :
      Renamed ρ (.notDeclared kind x) (.notDeclared kind x')
  | classNotDeclared {c c' : String} (h : ρ.Takes c c') : Renamed ρ (.classNotDeclared c) (.classNotDeclared c')
  | notAClassVariable {e e' : Expr} (h : e.Renamed ρ e') :
      Renamed ρ (.notAClassVariable e.describe) (.notAClassVariable e'.describe)
  | methodNotDeclared {c c' m m' : String} (hc : ρ.Takes c c') (hm : ρ.Takes m m') :
      Renamed ρ (.methodNotDeclared c m) (.methodNotDeclared c' m')
  | duplicateField {c c' f f' : String} (hc : ρ.Takes c c') (hf : ρ.Takes f f') :
      Renamed ρ (.duplicateField c f) (.duplicateField c' f')
  | duplicateMethod {c c' m m' : String} (hc : ρ.Takes c c') (hm : ρ.Takes m m') :
      Renamed ρ (.duplicateMethod c m) (.duplicateMethod c' m')
  | nonIntegerOperands (operation : String) : Renamed ρ (.nonIntegerOperands operation) (.nonIntegerOperands operation)
  | nonBooleanOperands (operation : String) : Renamed ρ (.nonBooleanOperands operation) (.nonBooleanOperands operation)
  | incompatibleComparison (operation : String) :
      Renamed ρ (.incompatibleComparison operation) (.incompatibleComparison operation)
  | nonBooleanCondition : Renamed ρ .nonBooleanCondition .nonBooleanCondition
  | incompatibleBranches {t t' u u' : Ty} (ht : t.Renamed ρ t') (hu : u.Renamed ρ u') :
      Renamed ρ (.incompatibleBranches t.text u.text) (.incompatibleBranches t'.text u'.text)
  | incompatibleValue {x x' : String} {t t' u u' : Ty} (hx : ρ.Takes x x') (ht : t.Renamed ρ t') (hu : u.Renamed ρ u') :
      Renamed ρ (.incompatibleValue x t.text u.text) (.incompatibleValue x' t'.text u'.text)
  | wrongReturnType (kind : String) {f f' : String} {t t' u u' : Ty} (hf : ρ.Takes f f') (ht : t.Renamed ρ t')
      (hu : u.Renamed ρ u') :
      Renamed ρ (.wrongReturnType kind f t.text u.text) (.wrongReturnType kind f' t'.text u'.text)
  | notAFunction {f f' : String} (h : ρ.Takes f f') : Renamed ρ (.notAFunction f) (.notAFunction f')
  | notAClass {c c' : String} (h : ρ.Takes c c') : Renamed ρ (.notAClass c) (.notAClass c')
  | notAnObject {m m' : String} (h : ρ.Takes m m') : Renamed ρ (.notAnObject m) (.notAnObject m')
  | wrongArgumentCount {f f' : String} (h : ρ.Takes f f') (expected received : Nat) :
      Renamed ρ (.wrongArgumentCount f expected received) (.wrongArgumentCount f' expected received)
  | argumentTypeMatchError {f f' : String} (position : Nat) {t t' u u' : Ty} (hf : ρ.Takes f f') (ht : t.Renamed ρ t')
      (hu : u.Renamed ρ u') :
      Renamed ρ (.argumentTypeMatchError f position t.text u.text) (.argumentTypeMatchError f' position t'.text u'.text)
  | functionAsValue {x x' : String} (h : ρ.Takes x x') : Renamed ρ (.functionAsValue x) (.functionAsValue x')
  | classAsValue {x x' : String} (h : ρ.Takes x x') : Renamed ρ (.classAsValue x) (.classAsValue x')

/-- Renamed causes are of one variant. -/
theorem Cause.Renamed.name {ρ : Renaming} {c c' : Cause} (h : c.Renamed ρ c') : c.name = c'.name := by
  cases h <;> rfl

/-- Diagnostics of renamed causes, on any lines. -/
def Diagnostic.Renamed (ρ : Renaming) (d d' : Diagnostic) : Prop := d.cause.Renamed ρ d'.cause

/-! ## Outcomes -/

/-- Both of two computations succeed, with related results, or both fail, for related reasons. -/
inductive SameOutcome {ε ε' α α' : Type} (q : ε → ε' → Prop) (r : α → α' → Prop) : Except ε α → Except ε' α' → Prop
  | ok {a : α} {a' : α'} (h : r a a') : SameOutcome q r (.ok a) (.ok a')
  | error {e : ε} {e' : ε'} (h : q e e') : SameOutcome q r (.error e) (.error e')

end FoolLang
