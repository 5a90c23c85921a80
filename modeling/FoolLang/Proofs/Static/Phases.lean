/-
The phases of a compilation hand over without gaps: what resolution accepts, lowering accepts, and what
is reported comes from reading alone, or from resolution and then from typing.
-/
import FoolLang.Compile
import FoolLang.Proofs.Grammar.Refusals
import FoolLang.Proofs.Scoping.Lines
import FoolLang.Proofs.Static.Decorated
import FoolLang.Proofs.Static.Inversion

namespace FoolLang

/-! ## Typed parts -/

mutual

/-- An expression and those in it. -/
def Expr.parts : Expr → List Expr
  | .int n l => [.int n l]
  | .bool b l => [.bool b l]
  | .null l => [.null l]
  | .binary op a b l => .binary op a b l :: (a.parts ++ b.parts)
  | .not e l => .not e l :: e.parts
  | .cond c a b l => .cond c a b l :: (c.parts ++ a.parts ++ b.parts)
  | .print e l => .print e l :: e.parts
  | .id name r l => [.id name r l]
  | .call name args r l => .call name args r l :: Expr.partsAll args
  | .new c args r l => .new c args r l :: Expr.partsAll args
  | .methodCall receiver method args b l =>
    .methodCall receiver method args b l :: (receiver.parts ++ Expr.partsAll args)

/-- Some expressions and those in them. -/
def Expr.partsAll : List Expr → List Expr
  | [] => []
  | e :: es => e.parts ++ Expr.partsAll es

end

mutual

/-- The expressions of a declaration that typing starts from: values and bodies. -/
def Decl.roots : Decl → List Expr
  | .var _ _ value _ => [value]
  | .function _ locals body => Decl.rootsAll locals ++ [body]

/-- The expressions of some declarations that typing starts from. -/
def Decl.rootsAll : List Decl → List Expr
  | [] => []
  | d :: ds => d.roots ++ Decl.rootsAll ds

end

/-- The expressions of a program that typing starts from. -/
def Program.roots (p : Program) : List Expr :=
  p.classes.flatMap (fun c => c.methods.flatMap fun m => Decl.rootsAll m.locals ++ [m.body]) ++
    Decl.rootsAll p.decls ++ [p.body]

/-- The expressions in a program. -/
def Program.parts (p : Program) : List Expr := p.roots.flatMap Expr.parts

theorem Expr.mem_parts (e : Expr) : e ∈ e.parts := by
  cases e <;> exact List.mem_cons_self

theorem Program.body_mem_parts (p : Program) : p.body ∈ p.parts := by
  have hroot : p.body ∈ p.roots := List.mem_append_right _ (List.mem_singleton_self _)
  exact List.mem_flatMap.mpr ⟨p.body, hroot, p.body.mem_parts⟩

/-! ## Problems of typing -/

/-- Whether a cause is that something is no object or no class. -/
def Cause.isOfKind : Cause → Bool
  | .notAnObject .. | .notAClass .. => true
  | _ => false

namespace Typed

variable {α β : Type} {q : Cause → Prop}

/-- Where a check finds a problem, its cause passes a test. -/
def Blames (q : Cause → Prop) (x : Typed α) : Prop := ∀ d, x = .error (.problem d) → q d.cause

/-- A test passes every cause of typing, but that something is no object or no class. -/
def PassesTyping (q : Cause → Prop) : Prop := ∀ c : Cause, c.phase = .typing → c.isOfKind = false → q c

theorem passesTyping_phase : PassesTyping (·.phase = .typing) := fun _ h _ => h

theorem passesTyping_isOfKind : PassesTyping (·.isOfKind = false) := fun _ _ h => h

/-- Where a check finds a problem, it is of a sort. -/
def Finds (Q : Diagnostic → Prop) (x : Typed α) : Prop := ∀ d, x = .error (.problem d) → Q d

/-- A sort takes in what typing may report on a line, but that something is no object or no class. -/
def TakesIn (Q : Diagnostic → Prop) (l : Nat) : Prop := ∀ c : Cause, c.phase = .typing → c.isOfKind = false → Q ⟨c, l⟩

theorem PassesTyping.takesIn (hq : PassesTyping q) (l : Nat) : TakesIn (q ·.cause) l := hq

variable {Q : Diagnostic → Prop} {line : Nat}

namespace Finds

theorem pure (a : α) : Finds Q (pure a) := fun _ h => by cases h

theorem fail {cause : Cause} (h : Q ⟨cause, line⟩) : Finds (α := α) Q (Typed.fail cause line) := by
  intro d hd
  cases hd
  exact h

theorem ensure (holds : Bool) {cause : Cause} (h : Q ⟨cause, line⟩) : Finds Q (Typed.ensure holds cause line) := by
  unfold Typed.ensure
  split
  · exact .pure _
  · exact .fail h

theorem decoration (r : Option α) : Finds Q (Typed.decoration r) := by
  cases r with
  | some a => exact .pure a
  | none => exact fun _ h => by cases h

theorem bind {x : Typed α} {f : α → Typed β} (h : Finds Q x) (hf : ∀ a, x = .ok a → Finds Q (f a)) :
    Finds Q (x >>= f) := by
  cases x with
  | ok a => exact hf a rfl
  | error u =>
    intro d hd
    cases hd
    exact h d rfl

theorem problems {x : Typed α} (h : Finds Q x) : ∀ d ∈ x.problems, Q d := by
  match x with
  | .ok _ | .error .incomplete => simp [Typed.problems]
  | .error (.problem d) => exact List.forall_mem_singleton.mpr (h d rfl)

theorem resultType (hq : TakesIn Q line) (op : BinaryOp) (a b : Ty) : Finds Q (op.resultType a b line) := by
  cases op <;> exact .bind (.ensure _ (hq _ rfl rfl)) fun _ _ => .pure _

theorem join (hq : TakesIn Q line) (a b : Ty) : Finds Q (a.join b line) := by
  unfold Ty.join
  split
  · exact .pure _
  · split
    · exact .pure _
    · exact .fail (hq _ rfl rfl)

theorem asValue (hq : TakesIn Q line) (name : String) (t : Ty) : Finds Q (t.asValue name line) := by
  unfold Ty.asValue
  split
  · exact .fail (hq _ rfl rfl)
  · exact .fail (hq _ rfl rfl)
  · exact .pure _

theorem asFunction (hq : TakesIn Q line) (name : String) (t : Ty) : Finds Q (t.asFunction name line) := by
  unfold Ty.asFunction
  split
  · exact .pure _
  · exact .fail (hq _ rfl rfl)

theorem asClass {c : String} (h : Q ⟨.notAClass c, line⟩) (t : Ty) : Finds Q (t.asClass c line) := by
  unfold Ty.asClass
  split
  · exact .pure _
  · exact .fail h

theorem ensureObject {method : String} (h : Q ⟨.notAnObject method, line⟩) (t : Ty) :
    Finds Q (t.ensureObject method line) := by
  unfold Ty.ensureObject
  split
  · exact .pure _
  · exact .fail h

end Finds

theorem Blames.pure (a : α) : Blames q (pure a) := Finds.pure (Q := (q ·.cause)) a

end Typed

/-- Where an expression asks for a class or for an object, a test passes what can be wrong with that. -/
def Expr.AsksWithin (q : Cause → Prop) : Expr → Prop
  | .new c _ r l => ∀ b, r = some b → Typed.Blames q (b.entry.type.asClass c l)
  | .methodCall receiver method _ _ l => ∀ t, receiver.type = .ok t → Typed.Blames q (t.ensureObject method l)
  | _ => True

theorem Expr.asksWithin_typing (e : Expr) : e.AsksWithin (·.phase = .typing) := by
  cases e with
  | new => exact fun _ _ => Typed.Finds.asClass (Q := (·.cause.phase = .typing)) rfl _
  | methodCall => exact fun t _ => Typed.Finds.ensureObject (Q := (·.cause.phase = .typing)) rfl t
  | _ => trivial

section

open Typed

variable {Q : Diagnostic → Prop}

/-- What is wrong at an expression itself is of a sort, with the class or the object that it asks for too. -/
def Expr.Asks (Q : Diagnostic → Prop) (e : Expr) : Prop :=
  TakesIn Q e.line ∧ match e with
    | .new c _ r l => ∀ b, r = some b → Finds Q (b.entry.type.asClass c l)
    | .methodCall receiver method _ _ l => ∀ t, receiver.type = .ok t → Finds Q (t.ensureObject method l)
    | _ => True

mutual

/-- What is wrong with the type of an expression is of a sort, if what is wrong at it or at one in it is. -/
theorem Expr.type_finds : ∀ e : Expr, (∀ x ∈ e.parts, x.Asks Q) → Finds Q e.type
  | .int _ _, _ | .bool _ _, _ | .null _, _ => .pure _
  | .binary op a b l, h => by
    obtain ⟨hself, hparts⟩ := List.forall_mem_cons.mp h
    obtain ⟨ha, hb⟩ := List.forall_mem_append.mp hparts
    exact (type_finds a ha).bind fun s _ => (type_finds b hb).bind fun t _ => .resultType hself.1 op s t
  | .not e _, h => by
    obtain ⟨hself, he⟩ := List.forall_mem_cons.mp h
    exact (type_finds e he).bind fun _ _ => (Finds.ensure _ (hself.1 _ rfl rfl)).bind fun _ _ => .pure _
  | .cond c a b l, h => by
    obtain ⟨hself, hparts⟩ := List.forall_mem_cons.mp h
    obtain ⟨hca, hb⟩ := List.forall_mem_append.mp hparts
    obtain ⟨hc, ha⟩ := List.forall_mem_append.mp hca
    exact (type_finds c hc).bind fun _ _ => (Finds.ensure _ (hself.1 _ rfl rfl)).bind fun _ _ =>
      (type_finds a ha).bind fun s _ => (type_finds b hb).bind fun t _ => .join hself.1 s t
  | .print e _, h => type_finds e (List.forall_mem_cons.mp h).2
  | .id _ r _, h => (Finds.decoration r).bind fun _ _ => .asValue (List.forall_mem_cons.mp h).1.1 _ _
  | .call name args r l, h => by
    obtain ⟨hself, hargs⟩ := List.forall_mem_cons.mp h
    have hargs := fun ts => checkArgs_finds hself.1 args name 1 ts hargs
    exact (Finds.decoration r).bind fun _ _ => (Finds.asFunction hself.1 _ _).bind fun sig _ =>
      (Finds.ensure _ (hself.1 _ rfl rfl)).bind fun _ _ => (hargs sig.params).bind fun _ _ => .pure _
  | .new c args r l, h => by
    obtain ⟨hself, hargs⟩ := List.forall_mem_cons.mp h
    have hargs := fun ts => checkArgs_finds hself.1 args c 1 ts hargs
    exact (Finds.decoration r).bind fun b hr => (hself.2 b (Typed.decoration_iff.mp hr)).bind fun fields _ =>
      (Finds.ensure _ (hself.1 _ rfl rfl)).bind fun _ _ => (hargs fields).bind fun _ _ => .pure _
  | .methodCall receiver method args b l, h => by
    obtain ⟨hself, hparts⟩ := List.forall_mem_cons.mp h
    obtain ⟨hreceiver, hargs⟩ := List.forall_mem_append.mp hparts
    have hargs := fun ts => checkArgs_finds hself.1 args method 1 ts hargs
    exact (type_finds receiver hreceiver).bind fun t ht => (hself.2 t ht).bind fun _ _ =>
      (Finds.decoration b).bind fun _ _ => (Finds.asFunction hself.1 _ _).bind fun sig _ =>
        (Finds.ensure _ (hself.1 _ rfl rfl)).bind fun _ _ => (hargs sig.params).bind fun _ _ => .pure _

theorem Expr.checkArgs_finds {l : Nat} (hl : TakesIn Q l) : ∀ (es : List Expr) (callee : String) (position : Nat)
    (ts : List Ty), (∀ x ∈ Expr.partsAll es, x.Asks Q) → Finds Q (Expr.checkArgs callee l position ts es)
  | [], _, _, ts, _ => by cases ts <;> exact .pure _
  | _ :: _, _, _, [], _ => .pure _
  | e :: es, callee, position, t :: ts, h => by
    obtain ⟨he, hes⟩ := List.forall_mem_append.mp h
    exact (type_finds e he).bind fun _ _ => (Finds.ensure _ (hl _ rfl rfl)).bind fun _ _ =>
      checkArgs_finds hl es callee (position + 1) ts hes

end

theorem Header.checkBody_finds (h : Header) (kind : String) {body : Expr} (hl : TakesIn Q h.line)
    (hbody : Finds Q body.type) : ∀ d ∈ (h.checkBody kind body).problems, Q d :=
  (hbody.bind fun _ _ => .ensure _ (hl _ rfl rfl)).problems

mutual

/-- What is wrong with the types of a declaration is wrong with its values and bodies, or these do not fit. -/
theorem Decl.typeProblems_finds : ∀ d : Decl, (∀ l ∈ d.lines, TakesIn Q l) → (∀ e ∈ d.roots, Finds Q e.type) →
    ∀ p ∈ d.typeProblems, Q p
  | .var _ _ value _, hls, h => by
    have hvalue : Finds Q value.type := h value (List.mem_singleton_self _)
    exact (hvalue.bind fun _ _ => .ensure _ ((List.forall_mem_cons.mp hls).1 _ rfl rfl)).problems
  | .function header locals body, hls, h => by
    obtain ⟨hheader, hinside⟩ := List.forall_mem_append.mp hls
    obtain ⟨hlocals, hbody⟩ := List.forall_mem_append.mp h
    exact List.forall_mem_append.mpr
      ⟨Decl.typeProblemsAll_finds locals (List.forall_mem_append.mp hinside).1 hlocals,
        header.checkBody_finds "function" (List.forall_mem_cons.mp hheader).1 (hbody body (List.mem_singleton_self _))⟩

theorem Decl.typeProblemsAll_finds : ∀ ds : List Decl, (∀ l ∈ Decl.linesAll ds, TakesIn Q l) →
    (∀ e ∈ Decl.rootsAll ds, Finds Q e.type) → ∀ p ∈ Decl.typeProblemsAll ds, Q p
  | [], _, _ => by simp [Decl.typeProblemsAll]
  | d :: ds, hls, h => by
    obtain ⟨hld, hlds⟩ := List.forall_mem_append.mp hls
    obtain ⟨hd, hds⟩ := List.forall_mem_append.mp h
    exact List.forall_mem_append.mpr ⟨Decl.typeProblems_finds d hld hd, Decl.typeProblemsAll_finds ds hlds hds⟩

end

/-- What is wrong with the types of a program is wrong with its values and bodies, or these do not fit. -/
theorem Program.typeProblems_finds (p : Program) (hls : ∀ l ∈ p.lines, TakesIn Q l)
    (h : ∀ e ∈ p.roots, Finds Q e.type) : ∀ d ∈ p.typeProblems, Q d := by
  obtain ⟨hparts, hbody⟩ := List.forall_mem_append.mp h
  obtain ⟨hclasses, hdecls⟩ := List.forall_mem_append.mp hparts
  have hbody : Finds Q p.body.type := hbody p.body (List.mem_singleton_self _)
  cases p with
  | letIn classes decls body =>
    obtain ⟨hlclasses, hlrest⟩ := List.forall_mem_append.mp hls
    refine List.forall_mem_append.mpr ⟨List.forall_mem_append.mpr
      ⟨?_, Decl.typeProblemsAll_finds decls (List.forall_mem_append.mp hlrest).1 hdecls⟩, hbody.problems⟩
    intro d hd
    obtain ⟨c, hc, hd⟩ := List.mem_flatMap.mp hd
    obtain ⟨m, hm, hd⟩ := List.mem_flatMap.mp hd
    have hlines : ∀ l ∈ m.lines, TakesIn Q l := fun l hl => by
      refine hlclasses l (List.mem_flatMap.mpr ⟨c, hc, List.mem_cons_of_mem _ (List.mem_append_right _ ?_)⟩)
      exact List.mem_flatMap.mpr ⟨m, hm, hl⟩
    have hroots : ∀ e ∈ Decl.rootsAll m.locals ++ [m.body], Finds Q e.type := fun e he =>
      hclasses e (List.mem_flatMap.mpr ⟨c, hc, List.mem_flatMap.mpr ⟨m, hm, he⟩⟩)
    -- A method is checked as a function is, but for the name of its sort.
    obtain ⟨hheader, hinside⟩ := List.forall_mem_append.mp hlines
    obtain ⟨hlocals, hbody⟩ := List.forall_mem_append.mp hroots
    have hall := List.forall_mem_append.mpr
      ⟨Decl.typeProblemsAll_finds m.locals (List.forall_mem_append.mp hinside).1 hlocals,
        m.header.checkBody_finds "method" (List.forall_mem_cons.mp hheader).1
        (hbody m.body (List.mem_singleton_self _))⟩
    exact hall d hd
  | expr body => exact hbody.problems

variable {q : Cause → Prop}

/--
What is wrong with the type of an expression passes a test for typing, if what can be wrong with the classes and
objects asked for passes it.
-/
theorem Expr.type_blames (hq : PassesTyping q) (e : Expr) (h : ∀ x ∈ e.parts, x.AsksWithin q) : Blames q e.type := by
  refine e.type_finds (Q := (q ·.cause)) fun x hx => ⟨hq.takesIn _, ?_⟩
  have hx := h x hx
  cases x <;> exact hx

theorem Program.typeProblems_blames (hq : PassesTyping q) (p : Program) (h : ∀ e ∈ p.roots, Blames q e.type) :
    ∀ d ∈ p.typeProblems, q d.cause :=
  p.typeProblems_finds (Q := (q ·.cause)) (fun _ _ => hq.takesIn _) h

end

/-- What is wrong with the types of a program is of typing. -/
theorem Program.typeProblems_phase (p : Program) : ∀ d ∈ p.typeProblems, d.phase = .typing :=
  p.typeProblems_blames Typed.passesTyping_phase fun e _ =>
    e.type_blames Typed.passesTyping_phase fun x _ => x.asksWithin_typing

/-! ## Lines of parts -/

mutual

theorem Expr.parts_lines : ∀ e : Expr, e.parts.map (·.line) = e.lines
  | .int _ _ | .bool _ _ | .null _ | .id _ _ _ => rfl
  | .binary _ a b _ => by
    rw [Expr.parts, Expr.lines, List.map_cons, List.map_append, parts_lines a, parts_lines b]
    rfl
  | .not e _ | .print e _ => by
    rw [Expr.parts, Expr.lines, List.map_cons, parts_lines e]
    rfl
  | .cond c a b _ => by
    rw [Expr.parts, Expr.lines, List.map_cons, List.map_append, List.map_append, parts_lines c, parts_lines a,
      parts_lines b]
    rfl
  | .call _ args _ _ | .new _ args _ _ => by
    rw [Expr.parts, Expr.lines, List.map_cons, partsAll_lines args]
    rfl
  | .methodCall receiver _ args _ _ => by
    rw [Expr.parts, Expr.lines, List.map_cons, List.map_append, parts_lines receiver, partsAll_lines args]
    rfl

theorem Expr.partsAll_lines : ∀ es : List Expr, (Expr.partsAll es).map (·.line) = Expr.linesAll es
  | [] => rfl
  | e :: es => by rw [Expr.partsAll, Expr.linesAll, List.map_append, parts_lines e, partsAll_lines es]

end

mutual

theorem Decl.roots_lines : ∀ d : Decl, ∀ e ∈ d.roots, e.lines ⊆ d.lines
  | .var _ _ value _ => List.forall_mem_singleton.mpr (List.subset_cons_self _ _)
  | .function header locals body => by
    refine List.forall_mem_append.mpr ⟨fun e he l hl => ?_, List.forall_mem_singleton.mpr fun l hl => ?_⟩
    · exact List.mem_append_right _ (List.mem_append_left _ (Decl.rootsAll_lines locals e he hl))
    · exact List.mem_append_right _ (List.mem_append_right _ hl)

theorem Decl.rootsAll_lines : ∀ ds : List Decl, ∀ e ∈ Decl.rootsAll ds, e.lines ⊆ Decl.linesAll ds
  | [] => fun _ he => (List.not_mem_nil he).elim
  | d :: ds => List.forall_mem_append.mpr
      ⟨fun e he _ hl => List.mem_append_left _ (Decl.roots_lines d e he hl),
        fun e he _ hl => List.mem_append_right _ (Decl.rootsAll_lines ds e he hl)⟩

end

theorem Program.roots_lines (p : Program) : ∀ e ∈ p.roots, e.lines ⊆ p.lines := by
  cases p with
  | letIn classes decls body =>
    refine List.forall_mem_append.mpr ⟨List.forall_mem_append.mpr ⟨fun e he l hl => ?_, fun e he l hl => ?_⟩,
      List.forall_mem_singleton.mpr fun l hl => ?_⟩
    · obtain ⟨c, hc, he⟩ := List.mem_flatMap.mp he
      obtain ⟨m, hm, he⟩ := List.mem_flatMap.mp he
      -- A method has the lines of the function that is written like it.
      have hmethod : e.lines ⊆ m.lines := Decl.roots_lines (.function m.header m.locals m.body) e he
      have hclass : l ∈ c.lines :=
        List.mem_cons_of_mem _ (List.mem_append_right _ (List.mem_flatMap.mpr ⟨m, hm, hmethod hl⟩))
      exact List.mem_append_left _ (List.mem_flatMap.mpr ⟨c, hc, hclass⟩)
    · exact List.mem_append_right _ (List.mem_append_left _ (Decl.rootsAll_lines decls e he hl))
    · exact List.mem_append_right _ (List.mem_append_right _ hl)
  | expr body => exact List.forall_mem_singleton.mpr (List.Subset.refl _)

/-- What is wrong at an expression is on its line. -/
theorem Expr.asks_line {P : Nat → Prop} (e : Expr) (h : P e.line) : e.Asks (P ·.line) := by
  refine ⟨fun _ _ _ => h, ?_⟩
  cases e with
  | new => exact fun _ _ => Typed.Finds.asClass h _
  | methodCall => exact fun t _ => Typed.Finds.ensureObject h t
  | _ => trivial

/-- What typing reports of a program is on a line of it. -/
theorem Program.typeProblems_line (p : Program) : ∀ d ∈ p.typeProblems, d.line ∈ p.lines := by
  refine p.typeProblems_finds (fun _ hl _ _ _ => hl) fun e he => e.type_finds fun x hx => ?_
  exact x.asks_line (p.roots_lines e he (e.parts_lines ▸ List.mem_map_of_mem hx))

/-! ## Decorated parts -/

mutual

theorem Decl.Decorated.roots : ∀ {d : Decl}, d.Decorated → ∀ e ∈ d.roots, e.Decorated
  | .var _ _ _ _, h => List.forall_mem_singleton.mpr h
  | .function _ _ _, ⟨hlocals, hbody⟩ =>
    List.forall_mem_append.mpr ⟨Decl.DecoratedAll.roots hlocals, List.forall_mem_singleton.mpr hbody⟩

theorem Decl.DecoratedAll.roots : ∀ {ds : List Decl}, Decl.DecoratedAll ds → ∀ e ∈ Decl.rootsAll ds, e.Decorated
  | [], _ => by simp [Decl.rootsAll]
  | _ :: _, ⟨hd, hds⟩ => List.forall_mem_append.mpr ⟨Decl.Decorated.roots hd, Decl.DecoratedAll.roots hds⟩

end

theorem Program.Decorated.roots {p : Program} (h : p.Decorated) : ∀ e ∈ p.roots, e.Decorated := by
  obtain ⟨hclasses, hdecls, hbody⟩ := h
  refine List.forall_mem_append.mpr ⟨List.forall_mem_append.mpr ⟨?_, hdecls.roots⟩,
    List.forall_mem_singleton.mpr hbody⟩
  intro e he
  obtain ⟨c, hc, he⟩ := List.mem_flatMap.mp he
  obtain ⟨m, hm, he⟩ := List.mem_flatMap.mp he
  obtain ⟨-, hlocals, hbody⟩ := hclasses c hc m hm
  have hall := List.forall_mem_append.mpr ⟨hlocals.roots, List.forall_mem_singleton.mpr hbody⟩
  exact hall e he

/-! ## Compilation -/

/-- A text that is no program is refused by reading. -/
theorem Program.ofSource_phase {source : String} {d : Diagnostic} (h : ofSource source = .error d) :
    d.phase = .reading := by
  unfold ofSource at h
  cases hts : Token.ofSource source with
  | error d' =>
    rw [hts] at h
    cases h
    exact Token.scan_refuses _ _ d hts
  | ok ts =>
    rw [hts] at h
    simp only [bind, Except.bind] at h
    split at h
    · cases h
    · rename_i d' c hq
      cases h
      exact Grammar.standard.program_refuses _ d c hq

/-- What can be wrong with a text: one thing that reading found, or what resolution and then typing found. -/
inductive Handed : List Diagnostic → Prop
  | reading {d : Diagnostic} (h : d.phase = .reading) : Handed [d]
  | checking {rs ts : List Diagnostic} (hne : rs ++ ts ≠ []) (hrs : ∀ d ∈ rs, d.phase = .resolution)
      (hts : ∀ d ∈ ts, d.phase = .typing) : Handed (rs ++ ts)

theorem Handed.not_internal {ds : List Diagnostic} (h : Handed ds) : ∀ d ∈ ds, d.phase ≠ .internal := by
  cases h with
  | reading h =>
    intro d hd
    rw [List.mem_singleton.mp hd, h]
    decide
  | checking _ hrs hts =>
    intro d hd
    rcases List.mem_append.mp hd with hd | hd
    · rw [hrs d hd]; decide
    · rw [hts d hd]; decide

/-- A text is compiled from what resolution gives where nothing is wrong, or everything wrong is reported. -/
theorem compile_cases (source : String) :
    (∃ d, compile source = .error [d] ∧ d.phase = .reading) ∨
    ∃ p, Program.ofSource source = .ok p ∧
      ((p.resolve.2.problems ++ p.resolve.1.typeProblems = [] ∧
          compile source = p.resolve.1.lower.mapError ([·])) ∨
        (p.resolve.2.problems ++ p.resolve.1.typeProblems ≠ [] ∧
          compile source = .error (p.resolve.2.problems ++ p.resolve.1.typeProblems))) := by
  unfold compile
  cases hp : Program.ofSource source with
  | error d => exact .inl ⟨d, rfl, Program.ofSource_phase hp⟩
  | ok p =>
    refine .inr ⟨p, rfl, ?_⟩
    simp only [Except.mapError, bind, Except.bind]
    split
    · rename_i hnone
      exact .inl ⟨hnone, rfl⟩
    · rename_i hsome
      exact .inr ⟨hsome, rfl⟩

/--
The phases hand over without gaps. What resolution gives without a problem is decorated, and decorated trees
are just those that lowering accepts. So a text is refused for what one phase or the next two found, never for
what lowering found; and where it compiles, no type is missing.
-/
theorem compile_phases :
    (∀ p : Program, p.resolve.2.problems = [] → p.resolve.1.Decorated) ∧
    (∀ p : Program, (∃ code, p.lower = .ok code) ↔ p.Decorated) ∧
    (∀ source ds, compile source = .error ds → Handed ds ∧ ∀ d ∈ ds, d.phase ≠ .internal) ∧
    ∀ source code, compile source = .ok code → ∃ p, Program.ofSource source = .ok p ∧
      p.resolve.1.lower = .ok code ∧ ∀ e ∈ p.resolve.1.roots, e.type ≠ .error .incomplete := by
  have hdecorated : ∀ p : Program, p.resolve.2.problems = [] → p.resolve.1.Decorated :=
    fun p hs => (p.resolve_resolved hs).decorated
  have hlowers : ∀ p : Program, p.resolve.2.problems ++ p.resolve.1.typeProblems = [] →
      p.resolve.1.Decorated ∧ ∃ code, p.resolve.1.lower = .ok code := by
    intro p hnone
    have hd := hdecorated p (List.append_eq_nil_iff.mp hnone).1
    exact ⟨hd, p.resolve.1.exists_lower_iff.mpr hd⟩
  refine ⟨hdecorated, Program.exists_lower_iff, fun source ds h => ?_, fun source code h => ?_⟩
  · suffices hds : Handed ds from ⟨hds, hds.not_internal⟩
    rcases compile_cases source with ⟨d, hc, hd⟩ | ⟨p, -, ⟨hnone, hc⟩ | ⟨hsome, hc⟩⟩
    · rw [hc] at h
      cases h
      exact .reading hd
    · obtain ⟨-, code, hcode⟩ := hlowers p hnone
      rw [hc, hcode] at h
      cases h
    · rw [hc] at h
      cases h
      exact .checking hsome p.resolve_phase p.resolve.1.typeProblems_phase
  · rcases compile_cases source with ⟨d, hc, -⟩ | ⟨p, hp, ⟨hnone, hc⟩ | ⟨-, hc⟩⟩
    · rw [hc] at h
      cases h
    · obtain ⟨hd, code', hcode⟩ := hlowers p hnone
      rw [hc, hcode] at h
      cases h
      exact ⟨p, hp, hcode, fun e he => e.type_complete (hd.roots e he)⟩
    · rw [hc] at h
      cases h

/-- An object that is made and asked for its field. -/
def askedObject : Program :=
  .letIn [⟨"C", [⟨"x", .int, 1⟩], [⟨⟨"get", .int, [], 2⟩, [], .id "x" none 2, none⟩], 1⟩] []
    (.methodCall (.new "C" [.int 1 3] none 3) "get" [] none 3)

theorem compile_phases_askedObject : askedObject.resolve.2.problems = [] ∧ askedObject.resolve.1.Decorated ∧
    ∃ code, askedObject.resolve.1.lower = .ok code := by
  have hs : askedObject.resolve.2.problems = [] := by decide
  have hd : askedObject.resolve.1.Decorated := compile_phases.1 askedObject hs
  exact ⟨hs, hd, (compile_phases.2.1 _).mpr hd⟩

end FoolLang
