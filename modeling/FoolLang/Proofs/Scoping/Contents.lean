/-
What stands inside one declaration is resolved by itself. Nothing but what is reported of it comes out of a declaration,
so all trees that differ in the content of one declaration are resolved alike around it.
-/
import FoolLang.Proofs.Scoping.Steady

namespace FoolLang

open Scope

variable {s s' : Scope}

/-! ## Contents -/

/-- What can stand inside a declaration. -/
inductive Content.Kind where
  | value
  | routine

/--
What stands inside a declaration: in a variable its value, in a function or a method its local declarations and its
body.
-/
inductive Content : Content.Kind → Type where
  | value (e : Expr) : Content .value
  | routine (locals : List Decl) (body : Expr) : Content .routine

variable {k : Content.Kind}

namespace Content

def locals : Content .routine → List Decl
  | .routine ds _ => ds

def body : Content .routine → Expr
  | .routine _ e => e

/-- Resolves a content. -/
def resolve : Content k → Resolving (Content k)
  | .value e => return .value (← e.resolve)
  | .routine locals body => do
    let locals ← Decl.resolveAll locals
    return .routine locals (← body.resolve)

/-- A content as it is resolved from a scope, and what is reported of it. Without a scope it is passed over. -/
def visit (x : Content k) : Option Scope → Content k × List Diagnostic
  | some s => ((x.resolve.run s.cleared).1, (x.resolve.run s.cleared).2.problems)
  | none => (x, [])

theorem resolve_routine (locals : List Decl) (body : Expr) (s : Scope) : (routine locals body).resolve.run s =
    let r₁ := (Decl.resolveAll locals).run s
    let r₂ := body.resolve.run r₁.2
    (routine r₁.1 r₂.1, r₂.2) := rfl

/-- To resolve a function is to bind it and to resolve its content in a frame of its own. -/
theorem resolve_function (header : Header) (s : Scope) : ∀ x : Content .routine,
    (Decl.function header x.locals x.body).resolve.run s =
      let s₁ := s.declareNext "Fun" header.name (.arrow header.signature) header.line
      let r := x.resolve.run (s₁.enter.declareParams header.params 1)
      (.function header r.1.locals r.1.body, r.2.leave s₁.nextOffset)
  | .routine _ _ => rfl

/-- To resolve a method is to resolve its content in a frame of its own. -/
theorem resolve_method (header : Header) (slot : Option Int32) (s : Scope) : ∀ x : Content .routine,
    (Method.mk header x.locals x.body slot).resolve.run s =
      let r := x.resolve.run (s.enter.declareParams header.params 1)
      (⟨header, r.1.locals, r.1.body, slot⟩, r.2.leave s.nextOffset)
  | .routine _ _ => rfl

theorem resolve_steady : ∀ x : Content k, x.resolve.Steady
  | .value e => by
    intro s ps
    have he := e.resolve_steady s ps
    exact congrArg (fun r : Expr × Scope => (value r.1, r.2)) he
  | .routine locals body => by
    intro s ps
    have hlocals := fun s => Decl.resolveAll_steady locals s ps
    have hbody := fun s => body.resolve_steady s ps
    simp only [resolve_routine, hlocals, hbody]

theorem resolve_inner : ∀ (x : Content k), s.Inner s' → s.Inner (x.resolve.run s').2
  | .value e, h => h.noted (e.resolve_noted s')
  | .routine locals body, h => (Decl.resolveAll_inner locals h).noted (body.resolve_noted _)

theorem resolve_visit (x : Content k) (s : Scope) :
    x.resolve.run s = ((x.visit (some s)).1, (x.resolve.run s.cleared).2.after s.problems) := by
  have h := x.resolve_steady s.cleared s.problems
  rw [cleared_after] at h
  exact h

end Content

/-! ## Gaps -/

/-- A list with a gap in one of its elements. -/
structure Among (α γ : Type) where
  before : List α
  gap : γ
  after : List α

/-- The list with its gap filled. -/
def Among.fill {α γ : Type} (fill : γ → Content k → α) (as : Among α γ) (x : Content k) : List α :=
  as.before ++ fill as.gap x :: as.after

mutual

/-- A declaration with a gap for the content of a declaration, its own or that of one inside it. -/
inductive Decl.Gap : Content.Kind → Type where
  | var (name : String) (type : Ty) (line : Nat) : Decl.Gap .value
  | function {k : Content.Kind} (header : Header) (inside : Content.Gap k) : Decl.Gap k

/-- The content of a routine with a gap: all of it, or the gap in one of the local declarations. -/
inductive Content.Gap : Content.Kind → Type where
  | whole : Content.Gap .routine
  | within {k : Content.Kind} (before : List Decl) (gap : Decl.Gap k) (after : List Decl) (body : Expr) : Content.Gap k

end

mutual

/-- The declaration with its gap filled. -/
def Decl.Gap.fill {k : Content.Kind} : Decl.Gap k → Content k → Decl
  | .var name type line, .value e => .var name type e line
  | .function header inside, x => .function header (inside.fill x).locals (inside.fill x).body

/-- The content of a routine with its gap filled. -/
def Content.Gap.fill {k : Content.Kind} : Content.Gap k → Content k → Content .routine
  | .whole, x => x
  | .within before gap after body, x => .routine (before ++ gap.fill x :: after) body

end

/-- A method with a gap. -/
structure Method.Gap (k : Content.Kind) where
  header : Header
  inside : Content.Gap k
  slot : Option Int32

/-- The method with its gap filled. -/
def Method.Gap.fill (m : Method.Gap k) (x : Content k) : Method :=
  ⟨m.header, (m.inside.fill x).locals, (m.inside.fill x).body, m.slot⟩

/-- A class with a gap. -/
structure ClassDecl.Gap (k : Content.Kind) where
  name : String
  fields : List Formal
  methods : Among Method (Method.Gap k)
  line : Nat

/-- The class with its gap filled. -/
def ClassDecl.Gap.fill (c : ClassDecl.Gap k) (x : Content k) : ClassDecl :=
  ⟨c.name, c.fields, c.methods.fill Method.Gap.fill x, c.line⟩

/-- A program with a gap, in a class or in a declaration. -/
inductive Program.Gap (k : Content.Kind) where
  | ofClass (classes : Among ClassDecl (ClassDecl.Gap k)) (decls : List Decl) (body : Expr)
  | ofDecl (classes : List ClassDecl) (decls : Among Decl (Decl.Gap k)) (body : Expr)

/-- The program with its gap filled. -/
def Program.Gap.fill : Program.Gap k → Content k → Program
  | .ofClass classes decls body, x => .letIn (classes.fill ClassDecl.Gap.fill x) decls body
  | .ofDecl classes decls body, x => .letIn classes (decls.fill Decl.Gap.fill x) body

/-- The gap of `let fun f:int () let var x:int = ...; in x; in 0;`. -/
example (e : Expr) : (Program.Gap.ofDecl [] ⟨[], .function ⟨"f", .int, [], 1⟩ (.within [] (.var "x" .int 1) []
      (.id "x" none 1)), []⟩ (.int 0 1)).fill (.value e) =
    .letIn [] [.function ⟨"f", .int, [], 1⟩ [.var "x" .int e 1] (.id "x" none 1)] (.int 0 1) := rfl

/-! ## Resolution around a gap -/

/--
Trees with a gap are resolved alike around it, whatever it is filled with: the content is resolved from one scope, if at
all, and nothing of the resolved trees and of the scopes depends on it but itself and what is reported of it.
-/
def Encloses {α γ : Type} (fill : γ → Content k → α) (run : Content k → α × Scope) : Prop :=
  ∃ (gap : γ) (visit : Option Scope) (before : List Diagnostic) (last : Scope), ∀ x,
    run x = (fill gap (x.visit visit).1, last.after (before ++ (x.visit visit).2))

/--
Where elements with a gap are resolved alike around it, so are lists that are resolved one element after the other.
-/
theorem Encloses.among {α γ : Type} {fill : γ → Content k → α} (one : α → Resolving α)
    (all : List α → Resolving (List α)) (hcons : ∀ a as s, (all (a :: as)).run s =
      (((one a).run s).1 :: ((all as).run ((one a).run s).2).1, ((all as).run ((one a).run s).2).2))
    (hall : ∀ as, (all as).Steady) {f : Content k → α} (hone : ∀ s, Encloses fill fun x => (one (f x)).run s)
    (after : List α) (before : List α) :
    ∀ s, Encloses (Among.fill fill) fun x => (all (before ++ f x :: after)).run s := by
  induction before with
  | nil =>
    intro s
    obtain ⟨gap, visit, ps, last, h⟩ := hone s
    refine ⟨⟨[], gap, ((all after).run last).1⟩, visit, ps, ((all after).run last).2, fun x => ?_⟩
    beta_reduce at h ⊢
    rw [List.nil_append, hcons, h, hall]
    rfl
  | cons a before ih =>
    intro s
    obtain ⟨as, visit, ps, last, h⟩ := ih ((one a).run s).2
    refine ⟨{ as with before := ((one a).run s).1 :: as.before }, visit, ps, last, fun x => ?_⟩
    beta_reduce at h ⊢
    rw [List.cons_append, hcons, h]
    rfl

mutual

theorem Decl.Gap.resolve_encloses {k : Content.Kind} : ∀ (gap : Decl.Gap k) (s : Scope),
    Encloses Decl.Gap.fill fun x => (gap.fill x).resolve.run s
  | .var name type line, s => by
    refine ⟨.var name type line, some s, s.problems, s.cleared.declareNext "Var" name type line, fun | .value e => ?_⟩
    -- The value is resolved before the name is bound, so the report of a name bound twice stands behind its problems.
    have he := e.resolve_steady s.cleared s.problems
    rw [cleared_after] at he
    have hown := (e.resolve_noted s.cleared).cleared
    beta_reduce
    rw [Decl.Gap.fill, Decl.resolve_var, he, hown]
    simp only [after_after, declareNext_after]
    rfl
  | .function header inside, s => by
    let s₁ := s.declareNext "Fun" header.name (.arrow header.signature) header.line
    have hinner : s₁.Inner (s₁.enter.declareParams header.params 1) := (Inner.enter s₁).declareParams header.params 1
    obtain ⟨inside', visit, ps, last, h⟩ := inside.resolve_encloses hinner
    refine ⟨.function header inside', visit, ps, last, fun x => ?_⟩
    beta_reduce at h ⊢
    obtain ⟨hinside, hlast⟩ := Prod.mk.inj (h x)
    rw [Decl.Gap.fill, Content.resolve_function, ← hlast]
    simp only [hinside, s₁]
    rfl

theorem Content.Gap.resolve_encloses {k : Content.Kind} : ∀ (gap : Content.Gap k) {s s' : Scope}, s.Inner s' →
    Encloses Content.Gap.fill fun x =>
      (((gap.fill x).resolve.run s').1, ((gap.fill x).resolve.run s').2.leave s.nextOffset)
  | .whole, s, s', hinner => by
    refine ⟨.whole, some s', s'.problems, s.cleared, fun x => ?_⟩
    -- With the frame closed, only what is reported of the content tells the scopes behind it apart.
    have hown := (x.resolve_inner hinner.cleared).leave.cleared
    beta_reduce
    rw [Content.Gap.fill, x.resolve_visit, leave_after]
    refine congrArg (Prod.mk (x.visit (some s')).1) ?_
    refine (congrArg (·.after s'.problems) hown).trans ?_
    rw [after_after]
    rfl
  | .within before gap after body, s, s', hinner => by
    obtain ⟨ds, visit, ps, last, h⟩ :=
      Encloses.among Decl.resolve Decl.resolveAll Decl.resolveAll_cons Decl.resolveAll_steady
      (fun s => gap.resolve_encloses s) after before s'
    refine ⟨.within ds.before ds.gap ds.after (body.resolve.run last).1, visit, ps,
      (body.resolve.run last).2.leave s.nextOffset, fun x => ?_⟩
    have hbody := body.resolve_steady last (ps ++ (x.visit visit).2)
    beta_reduce at h ⊢
    rw [Content.Gap.fill, Content.resolve_routine, h]
    simp only [hbody, leave_after]
    rfl

end

/-- Resolves a method if it has a slot. -/
def Method.resolveSlotted (m : Method) : Resolving Method := if m.slot.isSome then m.resolve else pure m

theorem Method.resolveAll_cons (m : Method) (ms : List Method) (s : Scope) :
    (Method.resolveAll (m :: ms)).run s =
      let r₁ := m.resolveSlotted.run s
      let r₂ := (Method.resolveAll ms).run r₁.2
      (r₁.1 :: r₂.1, r₂.2) := by
  rw [Method.resolveAll, resolveSlotted]
  split <;> rfl

theorem Method.Gap.resolve_encloses (gap : Method.Gap k) (s : Scope) :
    Encloses Method.Gap.fill fun x => (gap.fill x).resolveSlotted.run s := by
  cases hslot : gap.slot with
  | none =>
    -- A method without a slot is not visited.
    refine ⟨gap, none, s.problems, s.cleared, fun x => ?_⟩
    have hnone : (gap.fill x).slot.isSome = false := by rw [fill, hslot]; rfl
    beta_reduce
    rw [resolveSlotted, hnone, Content.visit, List.append_nil, cleared_after]
    rfl
  | some slot =>
    have hinner : s.Inner (s.enter.declareParams gap.header.params 1) :=
      (Inner.enter s).declareParams gap.header.params 1
    obtain ⟨inside, visit, ps, last, h⟩ := gap.inside.resolve_encloses hinner
    refine ⟨{ gap with inside }, visit, ps, last, fun x => ?_⟩
    have hsome : (gap.fill x).slot.isSome = true := by rw [fill, hslot]; rfl
    beta_reduce at h ⊢
    obtain ⟨hinside, hlast⟩ := Prod.mk.inj (h x)
    rw [resolveSlotted, if_pos hsome, fill, Content.resolve_method, ← hlast]
    simp only [hinside]
    rfl

namespace ClassDecl

/-- Which methods of a class get slots depends on the headers alone. -/
theorem declareMethods_congr (c : String) (ms : List Method) : ∀ {earlier earlier' : List Method} (slot : Int32),
    earlier'.map (·.header) = earlier.map (·.header) →
    declareMethods c earlier' ms slot = declareMethods c earlier ms slot := by
  induction ms with
  | nil => exact fun _ _ => rfl
  | cons m ms ih =>
    intro earlier earlier' slot he
    have hnext : (m :: earlier').map (·.header) = (m :: earlier).map (·.header) := by
      rw [List.map_cons, List.map_cons, he]
    rw [declareMethods, declareMethods, any_sameAs_congr rfl he, ih slot hnext, ih (slot + 1) hnext]

theorem declareMethods_fill (c : String) (gap : Method.Gap k) (after before : List Method) :
    ∀ (earlier : List Method) (slot : Int32) (s : Scope),
    ∃ (ms : Among Method (Method.Gap k)) (signatures : List Signature) (s' : Scope), ∀ x,
      (declareMethods c earlier (before ++ gap.fill x :: after) slot).run s =
        ((ms.fill Method.Gap.fill x, signatures), s') := by
  induction before with
  | nil =>
    intro earlier slot s
    -- The method with the gap stands among the earlier ones of the rest, where nothing but its header counts.
    let m : Method := ⟨gap.header, [], .null 0, none⟩
    have hany : ∀ x, earlier.any (gap.fill x).sameAs = earlier.any m.sameAs := fun x => any_sameAs_congr rfl rfl
    have hrest : ∀ x slot, declareMethods c (gap.fill x :: earlier) after slot =
        declareMethods c (m :: earlier) after slot :=
      fun x slot => declareMethods_congr c after slot rfl
    by_cases hsame : earlier.any m.sameAs = true
    · let r := (declareMethods c (m :: earlier) after slot).run
        (s.report (.duplicateMethod c m.header.name) m.header.line)
      refine ⟨⟨[], gap, r.1.1⟩, r.1.2, r.2, fun x => ?_⟩
      rw [List.nil_append, declareMethods_cons, hany, if_pos hsame, hrest]
      rfl
    · let r := (declareMethods c (m :: earlier) after (slot + 1)).run (s.declare "Method" m.header.name
        ⟨s.level, .arrow m.header.signature, slot, true⟩ m.header.line)
      refine ⟨⟨[], { gap with slot := some slot }, r.1.1⟩, m.header.signature :: r.1.2, r.2, fun x => ?_⟩
      rw [List.nil_append, declareMethods_cons, hany, if_neg hsame, hrest]
      rfl
  | cons m before ih =>
    intro earlier slot s
    by_cases hsame : earlier.any m.sameAs = true
    · obtain ⟨ms, signatures, s', h⟩ :=
        ih (m :: earlier) slot (s.report (.duplicateMethod c m.header.name) m.header.line)
      refine ⟨{ ms with before := m :: ms.before }, signatures, s', fun x => ?_⟩
      rw [List.cons_append, declareMethods_cons, if_pos hsame, h]
      rfl
    · obtain ⟨ms, signatures, s', h⟩ := ih (m :: earlier) (slot + 1) (s.declare "Method" m.header.name
        ⟨s.level, .arrow m.header.signature, slot, true⟩ m.header.line)
      refine ⟨{ ms with before := { m with slot := some slot } :: ms.before }, m.header.signature :: signatures, s',
        fun x => ?_⟩
      rw [List.cons_append, declareMethods_cons, if_neg hsame, h]
      rfl

/-- A class with a gap in one of its methods is entered alike whatever it is filled with. -/
theorem Gap.entered_fill (c : ClassDecl.Gap k) (s : Scope) : ∃ (ms : Among Method (Method.Gap k)) (s' : Scope), ∀ x,
    (c.fill x).entered s = (ms.fill Method.Gap.fill x, s') := by
  let r := (declareFields c.name [] c.fields (-1)).run s.enter
  obtain ⟨ms, signatures, s₁, h⟩ := declareMethods_fill c.name c.methods.gap c.methods.after c.methods.before [] 0 r.2
  refine ⟨ms, ({ s₁ with classes := s₁.classes.put c.name (s₁.frames.headD .empty) } : Scope).declareClass c.name
    ⟨0, .cls r.1 signatures, s.nextOffset, false⟩ c.line, fun x => ?_⟩
  have hx : (declareMethods c.name [] (c.methods.fill Method.Gap.fill x) 0).run r.2 = _ := h x
  simp only [entered, Gap.fill, r, hx]

theorem Gap.resolve_encloses (c : ClassDecl.Gap k) (s : Scope) :
    Encloses ClassDecl.Gap.fill fun x => (c.fill x).resolve.run s := by
  obtain ⟨ms, s₁, hentered⟩ := c.entered_fill s
  obtain ⟨methods, visit, ps, last, h⟩ := Encloses.among Method.resolveSlotted Method.resolveAll Method.resolveAll_cons
    Method.resolveAll_steady ms.gap.resolve_encloses ms.after ms.before s₁
  refine ⟨{ c with methods }, visit, ps, last.leave (s.nextOffset - 1), fun x => ?_⟩
  have hx : (Method.resolveAll (ms.fill Method.Gap.fill x)).run s₁ = _ := h x
  beta_reduce
  rw [resolve_entered, hentered]
  simp only [hx]
  rfl

end ClassDecl

theorem Program.Gap.resolve_encloses : ∀ gap : Program.Gap k, Encloses Program.Gap.fill fun x => (gap.fill x).resolve
  | .ofClass cs decls body => by
    obtain ⟨classes, visit, ps, s₁, h⟩ :=
      Encloses.among ClassDecl.resolve ClassDecl.resolveAll ClassDecl.resolveAll_cons
      ClassDecl.resolveAll_steady cs.gap.resolve_encloses cs.after cs.before .outermost
    let r₂ := (Decl.resolveAll decls).run s₁
    let r₃ := body.resolve.run r₂.2
    refine ⟨.ofClass classes r₂.1 r₃.1, visit, ps, r₃.2, fun x => ?_⟩
    have hclasses : (ClassDecl.resolveAll (cs.fill ClassDecl.Gap.fill x)).run .outermost = _ := h x
    have hdecls := Decl.resolveAll_steady decls s₁ (ps ++ (x.visit visit).2)
    have hbody := body.resolve_steady r₂.2 (ps ++ (x.visit visit).2)
    beta_reduce
    rw [fill, resolve_letIn]
    simp only [hclasses, hdecls, hbody, r₂]
    rfl
  | .ofDecl classes ds body => by
    let r₁ := (ClassDecl.resolveAll classes).run .outermost
    obtain ⟨decls, visit, ps, s₂, h⟩ := Encloses.among Decl.resolve Decl.resolveAll Decl.resolveAll_cons
      Decl.resolveAll_steady ds.gap.resolve_encloses ds.after ds.before r₁.2
    let r₃ := body.resolve.run s₂
    refine ⟨.ofDecl r₁.1 decls r₃.1, visit, ps, r₃.2, fun x => ?_⟩
    have hdecls : (Decl.resolveAll (ds.fill Decl.Gap.fill x)).run r₁.2 = _ := h x
    have hbody := body.resolve_steady s₂ (ps ++ (x.visit visit).2)
    beta_reduce
    rw [fill, resolve_letIn]
    simp only [hdecls, hbody, r₁]
    rfl

end FoolLang
