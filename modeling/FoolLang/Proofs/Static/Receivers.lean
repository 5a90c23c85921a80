/-
The class of a receiver is found twice: resolution takes it from what the receiver is decorated with, typing from its
type. The two agree in every program without problems of resolution, and so do the tables that resolution leaves of the
classes and the entries that method calls are decorated with.
-/
import FoolLang.Proofs.Scoping.Locality
import FoolLang.Proofs.Static.Phases
import Mathlib.Data.List.Nodup

namespace FoolLang

open Scope

variable {classes : List ClassDecl} {s : Scope} {v : View}

/-! ## Resolved parts -/

mutual

theorem Expr.Resolved.parts : ∀ {e : Expr}, e.Resolved classes v → ∀ q ∈ e.parts, q.Resolved classes v
  | .int _ _, h | .bool _ _, h | .null _, h | .id _ _ _, h => List.forall_mem_singleton.mpr h
  | .binary _ _ _ _, h => List.forall_mem_cons.mpr ⟨h, List.forall_mem_append.mpr ⟨h.1.parts, h.2.parts⟩⟩
  | .not e _, h | .print e _, h => List.forall_mem_cons.mpr ⟨h, Expr.Resolved.parts (e := e) h⟩
  | .cond _ _ _ _, h => List.forall_mem_cons.mpr
      ⟨h, List.forall_mem_append.mpr ⟨List.forall_mem_append.mpr ⟨h.1.parts, h.2.1.parts⟩, h.2.2.parts⟩⟩
  | .call _ _ _ _, h | .new _ _ _ _, h => List.forall_mem_cons.mpr ⟨h, Expr.ResolvedAll.parts h.2⟩
  | .methodCall _ _ _ _ _, h => List.forall_mem_cons.mpr
      ⟨h, List.forall_mem_append.mpr ⟨h.1.parts, Expr.ResolvedAll.parts h.2.2⟩⟩

theorem Expr.ResolvedAll.parts : ∀ {es : List Expr}, Expr.ResolvedAll classes v es →
    ∀ q ∈ Expr.partsAll es, q.Resolved classes v
  | [], _ => fun _ hq => (List.not_mem_nil hq).elim
  | _ :: _, h => List.forall_mem_append.mpr ⟨h.1.parts, Expr.ResolvedAll.parts h.2⟩

end

mutual

theorem Decl.Resolved.roots : ∀ {d : Decl} {v : View}, d.Resolved classes v →
    ∀ e ∈ d.roots, ∃ w, e.Resolved classes w
  | .var _ _ _ _, v, h => List.forall_mem_singleton.mpr ⟨v, h⟩
  | .function _ _ _, _, ⟨hlocals, hbody⟩ =>
    List.forall_mem_append.mpr ⟨Decl.ResolvedAll.roots hlocals, List.forall_mem_singleton.mpr ⟨_, hbody⟩⟩

theorem Decl.ResolvedAll.roots : ∀ {ds : List Decl} {v : View}, Decl.ResolvedAll classes v ds →
    ∀ e ∈ Decl.rootsAll ds, ∃ w, e.Resolved classes w
  | [], _, _ => fun _ he => (List.not_mem_nil he).elim
  | _ :: _, _, ⟨hd, hds⟩ => List.forall_mem_append.mpr ⟨Decl.Resolved.roots hd, Decl.ResolvedAll.roots hds⟩

end

theorem Program.Resolved.roots {p : Program} (h : p.Resolved) : ∀ e ∈ p.roots, ∃ w, e.Resolved p.classes w := by
  refine List.forall_mem_append.mpr ⟨List.forall_mem_append.mpr ⟨?_, h.decls.roots⟩,
    List.forall_mem_singleton.mpr ⟨_, h.body⟩⟩
  intro e he
  obtain ⟨c, hc, he⟩ := List.mem_flatMap.mp he
  obtain ⟨m, hm, he⟩ := List.mem_flatMap.mp he
  obtain ⟨i, hi⟩ := List.getElem?_of_mem hc
  obtain ⟨hlocals, hbody⟩ := (h.classes i c hi).routines m hm
  have hall := List.forall_mem_append.mpr ⟨Decl.ResolvedAll.roots hlocals, List.forall_mem_singleton.mpr ⟨_, hbody⟩⟩
  exact hall e he

theorem Program.Resolved.parts {p : Program} (h : p.Resolved) : ∀ e ∈ p.parts, ∃ w, e.Resolved p.classes w := by
  intro e he
  obtain ⟨root, hroot, he⟩ := List.mem_flatMap.mp he
  obtain ⟨w, hw⟩ := h.roots root hroot
  exact ⟨w, hw.parts e he⟩

/-! ## The tables of classes -/

namespace ClassDecl

theorem declareFields_classes (c : String) (fs : List Formal) : ∀ (earlier : List Formal) (offset : Int32) (s : Scope),
    ((declareFields c earlier fs offset).run s).2.classes = s.classes := by
  induction fs with
  | nil => exact fun _ _ _ => rfl
  | cons f fs ih =>
    intro earlier offset s
    rw [declareFields]
    split
    · exact ih (f :: earlier) offset _
    · exact (ih (f :: earlier) (offset - 1) _).trans declare_classes

theorem declareMethods_classes (c : String) (ms : List Method) : ∀ (earlier : List Method) (slot : Int32) (s : Scope),
    ((declareMethods c earlier ms slot).run s).2.classes = s.classes := by
  induction ms with
  | nil => exact fun _ _ _ => rfl
  | cons m ms ih =>
    intro earlier slot s
    rw [declareMethods]
    split
    · exact ih (m :: earlier) slot _
    · exact (ih (m :: earlier) (slot + 1) _).trans declare_classes

/-- Resolving a class enters its table. -/
theorem resolve_classes (c : ClassDecl) (s : Scope) :
    ∃ table, (c.resolve.run s).2.classes = s.classes.put c.name table := by
  let r₁ := (declareFields c.name [] c.fields (-1)).run s.enter
  let r₂ := (declareMethods c.name [] c.methods 0).run r₁.2
  let table := r₂.2.frames.headD .empty
  let s₂ := { r₂.2 with classes := r₂.2.classes.put c.name table }
  let s₃ := s₂.declareClass c.name ⟨0, .cls r₁.1 r₂.1.2, s.nextOffset, false⟩ c.line
  have hmembers : r₂.2.classes = s.classes :=
    (declareMethods_classes c.name c.methods [] 0 _).trans (declareFields_classes c.name c.fields [] (-1) s.enter)
  have hclass : s₃.classes = s₂.classes := declareClass_classes
  refine ⟨table, ?_⟩
  rw [resolve_run, ← hmembers]
  exact (Method.resolveAll_classes r₂.1.1 s₃).trans hclass

theorem resolveAll_contains (cs : List ClassDecl) : ∀ (s : Scope) (n : String),
    s.classes.contains n = true ∨ n ∈ cs.map (·.name) → ((resolveAll cs).run s).2.classes.contains n = true := by
  induction cs with
  | nil => exact fun _ _ h => h.resolve_right List.not_mem_nil
  | cons c cs ih =>
    intro s n h
    -- What holds behind the first class is what the others need, wherever the name comes from.
    refine ih (c.resolve.run s).2 n ?_
    obtain ⟨table, hc⟩ := c.resolve_classes s
    by_cases hn : n = c.name
    · refine .inl ?_
      rw [hc, hn, Table.contains, Table.get?_put_self]
      rfl
    · rw [hc, Table.contains, Table.get?_put_ne _ _ hn]
      exact h.imp_right fun hmem => (List.mem_cons.mp hmem).resolve_left hn

theorem resolveAll_names (cs : List ClassDecl) :
    ∀ s : Scope, ((resolveAll cs).run s).1.map (·.name) = cs.map (·.name) := by
  induction cs with
  | nil => exact fun _ => rfl
  | cons c cs ih => exact fun s => congrArg (c.name :: ·) (ih _)

end ClassDecl

namespace Program

theorem resolve_contains (p : Program) : ∀ c ∈ p.resolve.1.classes, p.resolve.2.classes.contains c.name = true := by
  cases p with
  | letIn cs decls body =>
    intro c hc
    have hname : c.name ∈ cs.map (·.name) := by
      rw [← ClassDecl.resolveAll_names cs .outermost]
      exact List.mem_map_of_mem hc
    have hclasses : (letIn cs decls body).resolve.2.classes = ((ClassDecl.resolveAll cs).run .outermost).2.classes :=
      Decl.resolveAll_classes decls _
    rw [hclasses]
    exact ClassDecl.resolveAll_contains cs .outermost c.name (.inr hname)
  | expr body => exact fun _ hc => (List.not_mem_nil hc).elim

/-- Resolution of a program without problems leaves the table of each class, with the members of the class. -/
theorem resolve_tables (p : Program) (hs : p.resolve.2.problems = []) : ∀ c ∈ p.resolve.1.classes,
    ∃ t, p.resolve.2.classes.get? c.name = some t ∧ Shows t c.memberNames := by
  obtain ⟨hresolved, hready⟩ := p.resolve_ready hs
  intro c hc
  obtain ⟨t, ht⟩ := Option.isSome_iff_exists.mp (p.resolve_contains c hc)
  obtain ⟨i, c', hi, hname, hshows, -⟩ := hready.tabled c.name t ht
  -- The table is of a class of this name, and no two classes have the same.
  cases List.inj_on_of_nodup_map hresolved.distinct (List.mem_of_getElem? hi) hc hname
  exact ⟨t, ht, hshows⟩

/-- The entry of a method in the table that resolution leaves of a class is the one that the class has. -/
theorem resolve_entry (p : Program) (hs : p.resolve.2.problems = []) {c : ClassDecl} {method : String}
    {b : Binding} (hc : c ∈ p.resolve.1.classes) (hb : c.memberNames.lookup method = some b)
    (hm : b.isMethod = true) : Scope.methodEntry? p.resolve.2 c.name method = some b := by
  obtain ⟨t, ht, hshows⟩ := p.resolve_tables hs c hc
  have hget : t.get? method = some b := (hshows method).trans hb
  simp only [Scope.methodEntry?, ht, Option.bind_eq_bind, Option.bind_some, hget, if_pos hm]

end Program

/-! ## Receivers -/

theorem Expr.receiverClass?_of_class? {e : Expr} {c : String} (h : e.class? = some c)
    (hc : s.classes.contains c = true) : e.receiverClass? s = .ok (some c) := by
  unfold Expr.class? at h
  split at h
  · split at h
    · rename_i hr
      cases h
      rw [Expr.receiverClass?, hr]
    · cases h
  · cases h
    rw [Expr.receiverClass?, if_pos hc]
  · rw [Expr.receiverClass?, h]
  · rw [Expr.receiverClass?, h]
  · cases h

/-- A resolved expression asks for a class or for an object only where there is one. -/
theorem Expr.Resolved.asksWithin {e : Expr} (h : e.Resolved classes v) : e.AsksWithin (·.isOfKind = false) := by
  cases e with
  | new _ _ _ _ =>
    obtain ⟨⟨_, cls, -, -, rfl⟩, -⟩ := h
    rintro _ ⟨⟩
    exact .pure _
  | methodCall _ _ _ _ _ =>
    obtain ⟨-, ⟨cls, -, hclass, -⟩, -⟩ := h
    intro t ht
    cases Expr.type_of_class? ht hclass
    exact .pure _
  | _ => trivial

/--
Resolution and typing agree on receivers. In a program without problems of resolution, each method call has a receiver
of one class: this is the class that resolution takes it to be of and the only one that the receiver can have a
reference to as its type. The call is decorated with the entry of the method in the table of this class. So typing never
finds that a receiver is no object, nor that what is made is of no class.
-/
theorem Program.receivers_agree (p : Program) (hs : p.resolve.2.problems = []) :
    (∀ receiver method args b l, .methodCall receiver method args b l ∈ p.resolve.1.parts → ∃ c e,
      receiver.receiverClass? p.resolve.2 = .ok (some c) ∧
      (∀ s c', receiver.receiverClass? s = .ok (some c') → c' = c) ∧
      Scope.methodEntry? p.resolve.2 c method = some e ∧ b = some e ∧
      ∀ t, receiver.type = .ok t → t = .ref c) ∧
    ∀ d ∈ p.resolve.1.typeProblems, d.cause.isOfKind = false := by
  have hresolved := p.resolve_resolved hs
  constructor
  · intro receiver method args b l hcall
    obtain ⟨v, -, ⟨c, hc, hclass, e, he, hm, hb⟩, -⟩ := hresolved.parts _ hcall
    have hcontains := p.resolve_contains c hc
    refine ⟨c.name, e, Expr.receiverClass?_of_class? hclass hcontains, fun s c' h => ?_,
      p.resolve_entry hs hc he hm, hb, fun t ht => Expr.type_of_class? ht hclass⟩
    exact Option.some.inj ((Expr.class?_of_receiverClass? h).symm.trans hclass)
  · refine p.resolve.1.typeProblems_blames Typed.passesTyping_isOfKind fun e he => ?_
    obtain ⟨v, hv⟩ := hresolved.roots e he
    exact e.type_blames Typed.passesTyping_isOfKind fun x hx => (hv.parts x hx).asksWithin

/-- An object is asked for another one, and this for its field. -/
def chainedCalls : Program :=
  .letIn [⟨"C", [⟨"x", .int, 1⟩],
    [⟨⟨"next", .ref "C", [], 2⟩, [], .new "C" [.binary .plus (.id "x" none 2) (.int 1 2) 2] none 2, none⟩,
      ⟨⟨"get", .int, [], 3⟩, [], .id "x" none 3, none⟩], 1⟩] []
    (.methodCall (.methodCall (.new "C" [.int 1 4] none 4) "next" [] none 4) "get" [] none 4)

theorem receivers_agree_chainedCalls : chainedCalls.resolve.2.problems = [] ∧
    chainedCalls.resolve.1.typeProblems = [] ∧
    (∃ receiver args l e, chainedCalls.resolve.1.body = .methodCall receiver "get" args (some e) l ∧
      receiver.receiverClass? chainedCalls.resolve.2 = .ok (some "C") ∧
      Scope.methodEntry? chainedCalls.resolve.2 "C" "get" = some e ∧ ∀ t, receiver.type = .ok t → t = .ref "C") ∧
    ∀ d ∈ chainedCalls.resolve.1.typeProblems, d.cause.isOfKind = false := by
  have hs : chainedCalls.resolve.2.problems = [] := by decide
  obtain ⟨hcalls, hkind⟩ := chainedCalls.receivers_agree hs
  obtain ⟨c, e, hclass, honly, hentry, hb, htype⟩ := hcalls _ _ _ _ _ chainedCalls.resolve.1.body_mem_parts
  cases honly chainedCalls.resolve.2 "C" rfl
  exact ⟨hs, by decide +kernel, ⟨_, _, _, e, congrArg (Expr.methodCall _ _ _ · _) hb, hclass, hentry, htype⟩, hkind⟩

end FoolLang
