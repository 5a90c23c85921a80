/-
Trees in which every use has its declaration and every method its slot. Such trees are what resolution
without a problem gives and the only ones that lowering accepts, and typing misses nothing in them.
-/
import FoolLang.Lowering
import FoolLang.Proofs.Sequencing
import FoolLang.Proofs.Static.Resolved

namespace FoolLang

/-! ## Decorated trees -/

mutual

/-- Every use in an expression has a decoration. -/
def Expr.Decorated : Expr → Prop
  | .int _ _ | .bool _ _ | .null _ => True
  | .binary _ a b _ => a.Decorated ∧ b.Decorated
  | .not e _ | .print e _ => e.Decorated
  | .cond c a b _ => c.Decorated ∧ a.Decorated ∧ b.Decorated
  | .id _ r _ => r.isSome = true
  | .call _ args r _ | .new _ args r _ => r.isSome = true ∧ Expr.DecoratedAll args
  | .methodCall receiver _ args b _ => b.isSome = true ∧ receiver.Decorated ∧ Expr.DecoratedAll args

/-- Every use in some expressions has a decoration. -/
def Expr.DecoratedAll : List Expr → Prop
  | [] => True
  | e :: es => e.Decorated ∧ Expr.DecoratedAll es

end

mutual

/-- Every use in a declaration has a decoration. -/
def Decl.Decorated : Decl → Prop
  | .var _ _ value _ => value.Decorated
  | .function _ locals body => Decl.DecoratedAll locals ∧ body.Decorated

/-- Every use in some declarations has a decoration. -/
def Decl.DecoratedAll : List Decl → Prop
  | [] => True
  | d :: ds => d.Decorated ∧ Decl.DecoratedAll ds

end

/-- A method has a slot, and every use in it has a decoration. -/
def Method.Decorated (m : Method) : Prop :=
  m.slot.isSome = true ∧ Decl.DecoratedAll m.locals ∧ m.body.Decorated

/-- Every method of a class has a slot, and every use in it has a decoration. -/
def ClassDecl.Decorated (c : ClassDecl) : Prop := ∀ m ∈ c.methods, m.Decorated

/-- Every use in a program has a decoration, and every method a slot. -/
def Program.Decorated (p : Program) : Prop :=
  (∀ c ∈ p.classes, c.Decorated) ∧ Decl.DecoratedAll p.decls ∧ p.body.Decorated

/-! ## Decorated by resolution -/

variable {classes earlier : List ClassDecl} {v : View}

mutual

theorem Expr.Resolved.decorated : ∀ {e : Expr}, e.Resolved classes v → e.Decorated
  | .int _ _, _ | .bool _ _, _ | .null _, _ => trivial
  | .binary _ _ _ _, ⟨ha, hb⟩ => ⟨ha.decorated, hb.decorated⟩
  | .not e _, h | .print e _, h => Expr.Resolved.decorated (e := e) h
  | .cond _ _ _ _, ⟨hc, ha, hb⟩ => ⟨hc.decorated, ha.decorated, hb.decorated⟩
  | .id _ _ _, ⟨_, _, hr⟩ => by rw [Expr.Decorated, hr]; rfl
  | .call _ _ _ _, ⟨⟨_, _, hr⟩, hargs⟩ => ⟨by rw [hr]; rfl, Expr.ResolvedAll.decorated hargs⟩
  | .new _ _ _ _, ⟨⟨_, _, _, _, hr⟩, hargs⟩ => ⟨by rw [hr]; rfl, Expr.ResolvedAll.decorated hargs⟩
  | .methodCall _ _ _ _ _, ⟨hr, ⟨_, _, _, _, _, _, hb⟩, hargs⟩ =>
    ⟨by rw [hb]; rfl, hr.decorated, Expr.ResolvedAll.decorated hargs⟩

theorem Expr.ResolvedAll.decorated : ∀ {es : List Expr}, Expr.ResolvedAll classes v es → Expr.DecoratedAll es
  | [], _ => trivial
  | _ :: _, ⟨he, hes⟩ => ⟨he.decorated, Expr.ResolvedAll.decorated hes⟩

end

mutual

theorem Decl.Resolved.decorated : ∀ {d : Decl} {v : View}, d.Resolved classes v → d.Decorated
  | .var _ _ _ _, _, h => Expr.Resolved.decorated h
  | .function _ _ _, _, ⟨hlocals, hbody⟩ => ⟨Decl.ResolvedAll.decorated hlocals, hbody.decorated⟩

theorem Decl.ResolvedAll.decorated : ∀ {ds : List Decl} {v : View}, Decl.ResolvedAll classes v ds →
    Decl.DecoratedAll ds
  | [], _, _ => trivial
  | _ :: _, _, ⟨hd, hds⟩ => ⟨hd.decorated, Decl.ResolvedAll.decorated hds⟩

end

theorem ClassDecl.Resolved.decorated {c : ClassDecl} (h : c.Resolved classes earlier) : c.Decorated := by
  intro m hm
  obtain ⟨i, hi⟩ := List.getElem?_of_mem hm
  obtain ⟨hlocals, hbody⟩ := h.routines m hm
  refine ⟨?_, Decl.ResolvedAll.decorated hlocals, Expr.Resolved.decorated hbody⟩
  rw [h.slots i m hi]
  rfl

theorem Program.Resolved.decorated {p : Program} (h : p.Resolved) : p.Decorated := by
  refine ⟨fun c hc => ?_, h.decls.decorated, h.body.decorated⟩
  obtain ⟨i, hi⟩ := List.getElem?_of_mem hc
  exact (h.classes i c hi).decorated

/-! ## Types -/

namespace Typed

/-- A type is not missing for want of a decoration. -/
def Complete {α : Type} (x : Typed α) : Prop := x ≠ .error .incomplete

theorem Complete.pure {α : Type} (a : α) : Complete (pure a) := fun h => by cases h

theorem Complete.fail {α : Type} (cause : Cause) (line : Nat) : Complete (α := α) (Typed.fail cause line) :=
  fun h => by cases h

theorem Complete.ensure (holds : Bool) (cause : Cause) (line : Nat) :
    Complete (Typed.ensure holds cause line) := by
  unfold Typed.ensure
  split
  · exact .pure _
  · exact .fail _ _

theorem Complete.bind {α β : Type} {x : Typed α} {f : α → Typed β} (h : Complete x)
    (hf : ∀ a, Complete (f a)) : Complete (x >>= f) := by
  cases x with
  | ok a => exact hf a
  | error u => exact fun he => h (by cases he; rfl)

/-- Without a problem, a complete check has succeeded. -/
theorem Complete.ok {α : Type} {x : Typed α} (h : Complete x) (hp : x.problems = []) : ∃ a, x = .ok a := by
  match x with
  | .ok a => exact ⟨a, rfl⟩
  | .error .incomplete => exact absurd rfl h
  | .error (.problem d) => cases hp

theorem Complete.decoration {α : Type} {r : Option α} (h : r.isSome = true) : Complete (Typed.decoration r) := by
  cases r with
  | some a => exact .pure a
  | none => cases h

theorem Complete.resultType (op : BinaryOp) (a b : Ty) (line : Nat) : Complete (op.resultType a b line) := by
  cases op <;> exact .bind (.ensure _ _ _) fun _ => .pure _

theorem Complete.join (a b : Ty) (line : Nat) : Complete (a.join b line) := by
  unfold Ty.join
  split
  · exact .pure _
  · split
    · exact .pure _
    · exact .fail _ _

theorem Complete.asValue (name : String) (line : Nat) (t : Ty) : Complete (t.asValue name line) := by
  cases t <;> first | exact .pure _ | exact .fail _ _

theorem Complete.asFunction (name : String) (line : Nat) (t : Ty) : Complete (t.asFunction name line) := by
  cases t <;> first | exact .pure _ | exact .fail _ _

theorem Complete.asClass (name : String) (line : Nat) (t : Ty) : Complete (t.asClass name line) := by
  cases t <;> first | exact .pure _ | exact .fail _ _

theorem Complete.ensureObject (name : String) (line : Nat) (t : Ty) : Complete (t.ensureObject name line) := by
  cases t <;> first | exact .pure _ | exact .fail _ _

end Typed
open Typed in
mutual

/-- The type of a decorated expression is not missing for want of a decoration. -/
theorem Expr.type_complete : ∀ e : Expr, e.Decorated → Complete e.type
  | .int _ _, _ | .bool _ _, _ | .null _, _ => .pure _
  | .binary op a b l, ⟨ha, hb⟩ =>
    (type_complete a ha).bind fun s => (type_complete b hb).bind fun t => .resultType op s t l
  | .not e _, h => (type_complete e h).bind fun _ => (Complete.ensure _ _ _).bind fun _ => .pure _
  | .cond c a b l, ⟨hc, ha, hb⟩ =>
    (type_complete c hc).bind fun _ => (Complete.ensure _ _ _).bind fun _ =>
      (type_complete a ha).bind fun s => (type_complete b hb).bind fun t => .join s t l
  | .print e _, h => type_complete e h
  | .id _ _ _, h => (Complete.decoration h).bind fun _ => .asValue _ _ _
  | .call name args _ l, ⟨hr, hargs⟩ =>
    (Complete.decoration hr).bind fun _ => (Complete.asFunction _ _ _).bind fun sig =>
      (Complete.ensure _ _ _).bind fun _ =>
        (checkArgs_complete args name l 1 sig.params hargs).bind fun _ => .pure _
  | .new c args _ l, ⟨hr, hargs⟩ =>
    (Complete.decoration hr).bind fun _ => (Complete.asClass _ _ _).bind fun fields =>
      (Complete.ensure _ _ _).bind fun _ =>
        (checkArgs_complete args c l 1 fields hargs).bind fun _ => .pure _
  | .methodCall receiver method args _ l, ⟨hb, hreceiver, hargs⟩ =>
    (type_complete receiver hreceiver).bind fun t => (Complete.ensureObject method l t).bind fun _ =>
      (Complete.decoration hb).bind fun _ => (Complete.asFunction _ _ _).bind fun sig =>
        (Complete.ensure _ _ _).bind fun _ =>
          (checkArgs_complete args method l 1 sig.params hargs).bind fun _ => .pure _

theorem Expr.checkArgs_complete : ∀ (es : List Expr) (callee : String) (line position : Nat) (ts : List Ty),
    Expr.DecoratedAll es → Complete (Expr.checkArgs callee line position ts es)
  | [], _, _, _, ts, _ => by cases ts <;> exact .pure _
  | _ :: _, _, _, _, [], _ => .pure _
  | e :: es, callee, line, position, t :: ts, ⟨he, hes⟩ =>
    (type_complete e he).bind fun _ => (Complete.ensure _ _ _).bind fun _ =>
      checkArgs_complete es callee line (position + 1) ts hes

end

/-! ## Lowering -/

namespace Lowering

/-- A lowering succeeds, whatever has been put aside before, exactly where something holds. -/
def SucceedsIff {α : Type} (x : Lowering α) (P : Prop) : Prop := ∀ b, (∃ a b', x.run b = .ok a b') ↔ P

namespace SucceedsIff

variable {α β : Type} {x : Lowering α} {P Q : Prop}

theorem pure (a : α) : SucceedsIff (pure a) True := fun b => ⟨fun _ => trivial, fun _ => ⟨a, b, rfl⟩⟩

theorem freshLabel : SucceedsIff freshLabel True := fun _ => ⟨fun _ => trivial, fun _ => ⟨_, _, rfl⟩⟩

theorem freshRoutineLabel : SucceedsIff freshRoutineLabel True :=
  fun _ => ⟨fun _ => trivial, fun _ => ⟨_, _, rfl⟩⟩

theorem putCode (is : List Machine.Instruction) : SucceedsIff (putCode is) True :=
  fun _ => ⟨fun _ => trivial, fun _ => ⟨_, _, rfl⟩⟩

theorem recordMethodLabel (c m l : String) : SucceedsIff (recordMethodLabel c m l) True :=
  fun _ => ⟨fun _ => trivial, fun _ => ⟨_, _, rfl⟩⟩

theorem takeCode : SucceedsIff takeCode True := fun _ => ⟨fun _ => trivial, fun _ => ⟨_, _, rfl⟩⟩

theorem decoration (node : String) (line : Nat) (r : Option α) :
    SucceedsIff (decoration node line r) (r.isSome = true) := by
  intro b
  cases r with
  | some a => exact ⟨fun _ => rfl, fun _ => ⟨a, b, rfl⟩⟩
  | none =>
    constructor
    · rintro ⟨a, b', h⟩
      cases h
    · intro h
      cases h

theorem bind {f : α → Lowering β} (hx : SucceedsIff x P) (hf : ∀ a, SucceedsIff (f a) Q) :
    SucceedsIff (x >>= f) (P ∧ Q) := by
  intro b
  constructor
  · rintro ⟨c, b', h⟩
    obtain ⟨a, b₁, hxa, hfa⟩ := Sequencing.bind_ok h
    exact ⟨(hx b).mp ⟨a, b₁, hxa⟩, (hf a b₁).mp ⟨c, b', hfa⟩⟩
  · rintro ⟨hP, hQ⟩
    obtain ⟨a, b₁, hxa⟩ := (hx b).mpr hP
    obtain ⟨c, b', hfa⟩ := (hf a b₁).mpr hQ
    exact ⟨c, b', (Sequencing.bind_run hxa).trans hfa⟩

/-- A part that always succeeds adds no condition. -/
theorem behind {f : α → Lowering β} (hx : SucceedsIff x True) (hf : ∀ a, SucceedsIff (f a) Q) :
    SucceedsIff (x >>= f) Q := fun b => (hx.bind hf b).trans (by rw [true_and])

/-- Nothing behind a part adds a condition. -/
theorem alone {f : α → Lowering β} (hx : SucceedsIff x P) (hf : ∀ a, SucceedsIff (f a) True) :
    SucceedsIff (x >>= f) P := fun b => (hx.bind hf b).trans (by rw [and_true])

theorem map {f : α → β} (hx : SucceedsIff x P) : SucceedsIff (x >>= fun a => Pure.pure (f a)) P :=
  hx.alone fun a => .pure (f a)

theorem congr (hx : SucceedsIff x P) (h : P ↔ Q) : SucceedsIff x Q := fun b => (hx b).trans h

end SucceedsIff

end Lowering

open Lowering

mutual

/-- An expression is lowered to code exactly where every use in it has a decoration. -/
theorem Expr.lower_succeeds : ∀ e : Expr, SucceedsIff e.lower e.Decorated
  | .int _ _ | .bool _ _ | .null _ => .pure _
  | .binary op a b _ => by
    have hboth : ∀ f : List Machine.Instruction → List Machine.Instruction → List Machine.Instruction,
        SucceedsIff (do let left ← a.lower; let right ← b.lower; return f left right)
          (a.Decorated ∧ b.Decorated) := fun f => (lower_succeeds a).bind fun _ => (lower_succeeds b).map
    have hjumps : ∀ f : String → String → List Machine.Instruction → List Machine.Instruction →
          List Machine.Instruction,
        SucceedsIff (do
            let ok ← freshLabel
            let done ← freshLabel
            let left ← a.lower
            let right ← b.lower
            return f ok done left right)
          (a.Decorated ∧ b.Decorated) :=
      fun f => .behind .freshLabel fun ok => .behind .freshLabel fun done => hboth (f ok done)
    cases op with
    | plus | minus | times | div => exact hboth _
    | equal | lessEqual | greaterEqual | and | or => exact hjumps _
  | .not e _ | .print e _ => (lower_succeeds e).map
  | .cond c a b _ => by
    have hparts := fun f : List Machine.Instruction → List Machine.Instruction → List Machine.Instruction →
        List Machine.Instruction => (lower_succeeds c).bind fun x => (lower_succeeds b).bind fun y =>
      (lower_succeeds a).map (f := f x y)
    refine SucceedsIff.congr (.behind .freshLabel fun _ => .behind .freshLabel fun _ => hparts _) ?_
    rw [Expr.Decorated, and_comm (a := a.Decorated)]
  | .id name r l => (SucceedsIff.decoration _ l r).map
  | .call name args r l => (SucceedsIff.decoration _ l r).bind fun _ => (lowerReversed_succeeds args).map
  | .new c args r l => (SucceedsIff.decoration _ l r).bind fun _ => (lowerAll_succeeds args).map
  | .methodCall receiver method args b l =>
    ((SucceedsIff.decoration _ l b).bind fun _ => (lowerReversed_succeeds args).bind fun _ =>
      (lower_succeeds receiver).map).congr (by rw [Expr.Decorated, and_comm (a := Expr.DecoratedAll args)])

theorem Expr.lowerAll_succeeds : ∀ es : List Expr, SucceedsIff (Expr.lowerAll es) (Expr.DecoratedAll es)
  | [] => .pure _
  | e :: es => (lower_succeeds e).bind fun _ => (lowerAll_succeeds es).map

theorem Expr.lowerReversed_succeeds : ∀ es : List Expr,
    SucceedsIff (Expr.lowerReversed es) (Expr.DecoratedAll es)
  | [] => .pure _
  | e :: es => ((lowerReversed_succeeds es).bind fun _ => (lower_succeeds e).map).congr And.comm

end

mutual

/-- A declaration is lowered to code exactly where every use in it has a decoration. -/
theorem Decl.lower_succeeds : ∀ d : Decl, SucceedsIff d.lower d.Decorated
  | .var _ _ value _ => value.lower_succeeds
  | .function _ locals body => (Decl.lowerAll_succeeds locals).bind fun _ =>
      .behind .freshRoutineLabel fun _ => body.lower_succeeds.alone fun _ => .behind (.putCode _) fun _ => .pure _

theorem Decl.lowerAll_succeeds : ∀ ds : List Decl, SucceedsIff (Decl.lowerAll ds) (Decl.DecoratedAll ds)
  | [] => .pure _
  | d :: ds => (Decl.lower_succeeds d).bind fun _ => (Decl.lowerAll_succeeds ds).map

end

theorem Method.lower_succeeds (m : Method) : SucceedsIff m.lower (Decl.DecoratedAll m.locals ∧ m.body.Decorated) :=
  .behind .freshRoutineLabel fun _ => (Decl.lowerAll_succeeds m.locals).bind fun _ =>
    m.body.lower_succeeds.alone fun _ => .behind (.putCode _) fun _ => .pure _

theorem ClassDecl.lowerMethods_succeeds (c : String) : ∀ ms : List Method,
    SucceedsIff (lowerMethods c ms) (∀ m ∈ ms, m.Decorated)
  | [] => (SucceedsIff.pure _).congr (by simp)
  | m :: ms => by
    rw [List.forall_mem_cons, Method.Decorated, and_assoc]
    exact (SucceedsIff.decoration _ _ m.slot).bind fun _ => m.lower_succeeds.bind fun _ =>
      .behind (.recordMethodLabel _ _ _) fun _ => (lowerMethods_succeeds c ms).map

theorem ClassDecl.lower_succeeds (c : ClassDecl) : SucceedsIff c.lower c.Decorated :=
  (lowerMethods_succeeds c.name c.methods).map

theorem ClassDecl.lowerAll_succeeds : ∀ cs : List ClassDecl, SucceedsIff (lowerAll cs) (∀ c ∈ cs, c.Decorated)
  | [] => (SucceedsIff.pure _).congr (by simp)
  | c :: cs => by
    rw [List.forall_mem_cons]
    exact c.lower_succeeds.bind fun _ => (lowerAll_succeeds cs).map

theorem Program.lowerMain_succeeds (p : Program) : SucceedsIff p.lowerMain p.Decorated := by
  cases p with
  | letIn classes decls body =>
    exact (ClassDecl.lowerAll_succeeds classes).bind fun _ => (Decl.lowerAll_succeeds decls).bind fun _ =>
      body.lower_succeeds.map
  | expr body =>
    have hempty : (Program.expr body).Decorated ↔ body.Decorated :=
      ⟨fun h => h.2.2, fun h => ⟨fun _ hc => (List.not_mem_nil hc).elim, trivial, h⟩⟩
    exact body.lower_succeeds.map.congr hempty.symm

/-- A program is lowered to code exactly where every use in it has a decoration and every method a slot. -/
theorem Program.exists_lower_iff (p : Program) : (∃ code, p.lower = .ok code) ↔ p.Decorated := by
  have hparts : SucceedsIff p.lowerParts p.Decorated :=
    p.lowerMain_succeeds.alone fun _ => SucceedsIff.takeCode.map
  rw [← hparts .empty, Program.lower]
  cases h : p.lowerParts.run .empty with
  | ok code b => exact ⟨fun _ => ⟨code, b, rfl⟩, fun _ => ⟨code, rfl⟩⟩
  | error d b =>
    constructor
    · rintro ⟨_, h⟩
      cases h
    · rintro ⟨_, _, h⟩
      cases h

end FoolLang
