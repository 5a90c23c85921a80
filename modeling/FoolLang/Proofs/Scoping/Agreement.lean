/-
A scope of the resolver agrees with a view when its open frames hold what the scopes of the view
bind. Every operation on scopes keeps the two in agreement, and what is looked up in one is what is
found in the other.
-/
import FoolLang.Proofs.Scoping.View

namespace FoolLang

/-- What is visible when some names are declared besides, the latest first. -/
def View.add (v : View) (ns : Names) : View := { v with own := ns ++ v.own }

@[simp] theorem View.add_depth (v : View) (ns : Names) : (v.add ns).depth = v.depth := rfl

@[simp] theorem View.add_add (v : View) (ns ms : Names) : (v.add ns).add ms = v.add (ms ++ ns) := by
  simp [View.add]

namespace Scope

variable {s : Scope} {v w : View} {t : Frame} {ns : Names} {name kind : String} {b : Binding}
variable {type : Ty} {line : Nat}

/-- A frame holds what some names bind. -/
def Shows (t : Frame) (ns : Names) : Prop := ∀ name, t.get? name = ns.lookup name

theorem shows_empty : Shows .empty [] := fun _ => rfl

theorem Shows.put (h : Shows t ns) : Shows (t.put name b) ((name, b) :: ns) := by
  intro n
  by_cases hn : n = name
  · subst hn
    rw [Table.get?_put_self, List.lookup_cons_self]
  · have hne : (n == name) = false := by simpa using hn
    rw [Table.get?_put_ne t b hn, h n, List.lookup_cons, hne]

/-- The open frames hold what the scopes of a view bind, and the counters are those of the view. -/
structure Agrees (s : Scope) (v : View) : Prop where
  frames : List.Forall₂ Shows s.frames v.scopes
  level : s.level = v.depth
  offset : s.nextOffset = View.offset v.taken

theorem outermost_agrees : outermost.Agrees (.behindClasses []) :=
  ⟨.cons shows_empty .nil, rfl, rfl⟩

theorem findSome?_shows {fs : List Frame} {nss : List Names} (h : List.Forall₂ Shows fs nss) :
    fs.findSome? (·.get? name) = nss.findSome? (·.lookup name) := by
  induction h with
  | nil => rfl
  | cons ht _ ih => rw [List.findSome?_cons, List.findSome?_cons, ht name, ih]

theorem Agrees.lookup (h : s.Agrees v) (name : String) : s.lookup name = v.find? name :=
  findSome?_shows h.frames

theorem Agrees.resolution? (h : s.Agrees v) (name : String) :
    s.resolution? name = v.resolution? name := by
  rw [Scope.resolution?, View.resolution?, h.lookup, h.level]

/-! ## Operations -/

/-- Problems do not matter. -/
theorem Agrees.withProblems (h : s.Agrees v) (ps : List Diagnostic) :
    ({ s with problems := ps } : Scope).Agrees v :=
  ⟨h.frames, h.level, h.offset⟩

theorem Agrees.report (h : s.Agrees v) (c : Cause) (line : Nat) : (s.report c line).Agrees v :=
  h.withProblems _

theorem Agrees.declare (h : s.Agrees v) :
    (s.declare kind name b line).Agrees (v.add [(name, b)]) := by
  obtain ⟨frames, level, offset⟩ := h
  rw [View.scopes] at frames
  unfold Scope.declare
  split
  · rename_i hs; rw [hs] at frames; cases frames
  · rename_i frame outer hs
    rw [hs] at frames
    obtain ⟨hframe, houter⟩ := List.forall₂_cons.mp frames
    have hput : ({ s with frames := frame.put name b :: outer } : Scope).Agrees
        (v.add [(name, b)]) := ⟨.cons hframe.put houter, level, offset⟩
    split
    · exact hput.report _ _
    · exact hput

theorem offset_succ (n : Nat) : View.offset n - 1 = View.offset (n + 1) := by
  unfold View.offset
  rw [show (1 : Int32) = .ofInt 1 from rfl, ← Int32.ofInt_sub]
  congr 1; omega

theorem Agrees.declareNext (h : s.Agrees v) :
    (s.declareNext kind name type line).Agrees (v.declare name type) := by
  have hnext : ({ s with nextOffset := s.nextOffset - 1 } : Scope).Agrees
      { v with taken := v.taken + 1 } := ⟨h.frames, h.level, by rw [h.offset, offset_succ]⟩
  unfold Scope.declareNext
  rw [h.level, h.offset] at *
  exact hnext.declare

theorem Agrees.enter (h : s.Agrees v) : s.enter.Agrees ⟨[], v.scopes, 0⟩ :=
  ⟨.cons shows_empty h.frames, by rw [Scope.enter, h.level]; rfl, rfl⟩

theorem Agrees.leave (h : s.Agrees w) (hw : w.around = v.scopes) {taken : Nat} :
    (s.leave (View.offset taken)).Agrees { v with taken } := by
  obtain ⟨frames, level, -⟩ := h
  rw [View.scopes] at frames
  rw [View.depth, hw] at level
  refine ⟨?_, by simp [Scope.leave, level, View.scopes, View.depth], rfl⟩
  cases hs : s.frames with
  | nil => rw [hs] at frames; cases frames
  | cons frame outer =>
    rw [hs] at frames
    have houter := (List.forall₂_cons.mp frames).2
    rw [hw] at houter
    show List.Forall₂ Shows s.frames.tail v.scopes
    rwa [hs]

/-- A class that is declared from within its own scope is bound in the outermost one. -/
theorem Agrees.declareClass {own outer : Names} {taken : Nat} (h : s.Agrees ⟨own, [outer], taken⟩) :
    (s.declareClass name b line).Agrees ⟨own, [(name, b) :: outer], taken⟩ := by
  obtain ⟨frames, level, offset⟩ := h
  match hs : s.frames, frames with
  | [frame, last], .cons hframe (.cons hlast .nil) =>
    have hput : ({ s with frames := [frame, last.put name b] } : Scope).Agrees
        ⟨own, [(name, b) :: outer], taken⟩ := ⟨.cons hframe (.cons hlast.put .nil), level, offset⟩
    unfold Scope.declareClass
    simp only [hs, List.getLast?_cons_cons, List.getLast?_singleton, List.dropLast_cons_cons,
      List.dropLast_singleton, List.cons_append, List.nil_append]
    split
    · exact hput.report _ _
    · exact hput

theorem ofNat_succ (n : Nat) : Int32.ofNat n + 1 = .ofNat (n + 1) := (Int32.ofNat_add n 1).symm

theorem Agrees.declareParams (params : List Formal) :
    ∀ {s : Scope} {v : View} (k : Nat), s.Agrees v →
      (s.declareParams params (.ofNat (k + 1))).Agrees (v.add (params.mapIdx fun i p =>
        (p.name, ⟨v.depth, p.type, .ofNat (k + i + 1), false⟩)).reverse) := by
  induction params with
  | nil => exact fun _ h => h
  | cons p ps ih =>
    intro s v k h
    have hp : (s.declare "Par" p.name ⟨s.level, p.type, .ofNat (k + 1), false⟩ p.line).Agrees
        (v.add [(p.name, ⟨s.level, p.type, .ofNat (k + 1), false⟩)]) := h.declare
    have hps := ih (k + 1) hp
    rw [h.level] at hps
    rw [View.add_add, View.add_depth] at hps
    have hshift : ∀ i, k + (i + 1) + 1 = k + 1 + i + 1 := fun i => by omega
    rw [Scope.declareParams, ofNat_succ, h.level]
    simpa only [List.mapIdx_cons, List.reverse_cons, Nat.add_zero, hshift] using hps

/-- Inside a routine, its parameters are declared. -/
theorem Agrees.inside (h : s.Agrees v) (params : List Formal) :
    (s.enter.declareParams params 1).Agrees (v.inside params) := by
  have hparams := h.enter.declareParams params 0
  simpa [View.add, View.inside, View.parameters, View.depth, View.scopes] using hparams

end Scope

end FoolLang
