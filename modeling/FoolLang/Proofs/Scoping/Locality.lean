/-
Resolving is local. An expression changes nothing of a scope but what is reported; a declaration, whatever is declared
inside it, binds its name in the innermost frame at the next free offset and leaves everything else as it was.
-/
import FoolLang.Proofs.Scoping.Members

namespace FoolLang

open Scope

/-- The name that a declaration binds. -/
def Decl.name : Decl → String
  | .var name _ _ _ => name
  | .function header _ _ => header.name

/-- The type that a declaration gives to its name. -/
def Decl.type : Decl → Ty
  | .var _ type _ _ => type
  | .function header _ _ => .arrow header.signature

variable {s s' s'' : Scope} {name other kind : String} {b : Binding} {type : Ty} {line : Nat}

namespace Scope

/-! ## Reports -/

/-- A scope is as it was before but for problems that have come to it. -/
def Noted (s s' : Scope) : Prop := ∃ more, s' = { s with problems := s.problems ++ more }

theorem Noted.refl (s : Scope) : s.Noted s := ⟨[], by rw [List.append_nil]⟩

theorem Noted.trans (h : s.Noted s') (h' : s'.Noted s'') : s.Noted s'' := by
  obtain ⟨more, rfl⟩ := h
  obtain ⟨more', rfl⟩ := h'
  exact ⟨more ++ more', by rw [List.append_assoc]⟩

theorem report_noted (c : Cause) : s.Noted (s.report c line) := ⟨[⟨c, line⟩], rfl⟩

/-- The scope with a name bound in its innermost frame, if any is open. -/
def bind (s : Scope) (name : String) (b : Binding) : Scope :=
  { s with frames := s.frames.modifyHead (·.put name b) }

theorem bind_cons {frame : Frame} {outer : List Frame} (h : s.frames = frame :: outer) :
    s.bind name b = { s with frames := frame.put name b :: outer } := by rw [bind, h, List.modifyHead_cons]

theorem bind_nil (h : s.frames = []) : s.bind name b = s := by
  rw [bind, h, List.modifyHead_nil, ← h]

theorem declare_noted : (s.bind name b).Noted (s.declare kind name b line) := by
  unfold declare
  split
  · rename_i hf
    rw [bind_nil hf]
    exact .refl s
  · rename_i frame outer hf
    rw [bind_cons hf]
    dsimp only
    split
    · exact report_noted _
    · exact .refl _

/-- The scope behind a declaration, but for what is reported of it. -/
def behind (s : Scope) (d : Decl) : Scope :=
  { s.bind d.name ⟨s.level, d.type, s.nextOffset, false⟩ with nextOffset := s.nextOffset - 1 }

theorem Noted.declareNext (h : s.Noted s') :
    Noted { s.bind name ⟨s.level, type, s.nextOffset, false⟩ with nextOffset := s.nextOffset - 1 }
      (s'.declareNext kind name type line) := by
  obtain ⟨more, rfl⟩ := h
  have hbound : Noted { s.bind name ⟨s.level, type, s.nextOffset, false⟩ with nextOffset := s.nextOffset - 1 }
      (bind { s with problems := s.problems ++ more, nextOffset := s.nextOffset - 1 } name
        ⟨s.level, type, s.nextOffset, false⟩) := ⟨more, rfl⟩
  exact hbound.trans declare_noted

/-! ## Frames that are open inside others -/

/-- A scope is open right inside another one: one more frame is open, and problems may have come to it. -/
structure Inner (s s' : Scope) : Prop where
  frames : s'.frames.tail = s.frames
  level : s'.level = s.level + 1
  classes : s'.classes = s.classes
  problems : ∃ more, s'.problems = s.problems ++ more

theorem Inner.enter (s : Scope) : s.Inner s.enter := ⟨rfl, rfl, rfl, [], (List.append_nil _).symm⟩

theorem Inner.bind (h : s.Inner s') : s.Inner (s'.bind name b) :=
  { h with frames := by rw [← h.frames, Scope.bind]; cases s'.frames <;> rfl }

theorem Inner.noted (h : s.Inner s') (hn : s'.Noted s'') : s.Inner s'' := by
  obtain ⟨more, rfl⟩ := hn
  obtain ⟨before, hp⟩ := h.problems
  exact { h with problems := ⟨before ++ more, by rw [← List.append_assoc, ← hp]⟩ }

theorem Inner.behind (h : s.Inner s') (d : Decl) : s.Inner (s'.behind d) :=
  have hbind : s.Inner (s'.bind d.name ⟨s'.level, d.type, s'.nextOffset, false⟩) := h.bind
  ⟨hbind.frames, hbind.level, hbind.classes, hbind.problems⟩

theorem Inner.declareParams (params : List Formal) :
    ∀ {s' : Scope} (offset : Int32), s.Inner s' → s.Inner (s'.declareParams params offset) := by
  induction params with
  | nil => exact fun _ h => h
  | cons p ps ih => exact fun offset h => ih _ (h.bind.noted declare_noted)

/-- Where the inner frame is closed again, nothing is left of it but what has been reported. -/
theorem Inner.leave (h : s.Inner s') : s.Noted (s'.leave s.nextOffset) := by
  obtain ⟨more, hp⟩ := h.problems
  refine ⟨more, ?_⟩
  rw [Scope.leave, h.frames, h.level, h.classes, hp]
  rfl

end Scope

/-! ## Declarations -/

namespace Decl

theorem resolve_var (name : String) (type : Ty) (value : Expr) (line : Nat) (s : Scope) :
    (Decl.var name type value line).resolve.run s =
      let r := value.resolve.run s
      (.var name type r.1 line, r.2.declareNext "Var" name type line) := rfl

theorem resolve_function (header : Header) (locals : List Decl) (body : Expr) (s : Scope) :
    (Decl.function header locals body).resolve.run s =
      let s₁ := s.declareNext "Fun" header.name (.arrow header.signature) header.line
      let r₁ := (Decl.resolveAll locals).run (s₁.enter.declareParams header.params 1)
      let r₂ := body.resolve.run r₁.2
      (.function header r₁.1 r₂.1, r₂.2.leave s₁.nextOffset) := rfl

theorem resolveAll_cons (d : Decl) (ds : List Decl) (s : Scope) :
    (Decl.resolveAll (d :: ds)).run s =
      let r₁ := d.resolve.run s
      let r₂ := (Decl.resolveAll ds).run r₁.2
      (r₁.1 :: r₂.1, r₂.2) := rfl

end Decl

theorem Expr.resolve_noted (e : Expr) (s : Scope) : s.Noted (e.resolve.run s).2 := ⟨e.problems s, rfl⟩

mutual

theorem Decl.resolve_noted : ∀ (d : Decl) (s : Scope), (s.behind d).Noted (d.resolve.run s).2
  | .var _ _ value _, s => (value.resolve_noted s).declareNext
  | .function header locals body, s => by
    let s₁ := s.declareNext "Fun" header.name (.arrow header.signature) header.line
    have hself : (s.behind (.function header locals body)).Noted s₁ := (Noted.refl s).declareNext
    have hparams : s₁.Inner (s₁.enter.declareParams header.params 1) := (Inner.enter s₁).declareParams header.params 1
    have hlocals := Decl.resolveAll_inner locals hparams
    exact hself.trans (hlocals.noted (body.resolve_noted _)).leave

theorem Decl.resolveAll_inner : ∀ (ds : List Decl) {s s' : Scope}, s.Inner s' →
    s.Inner ((Decl.resolveAll ds).run s').2
  | [], _, _, h => h
  | d :: ds, _, s', h => Decl.resolveAll_inner ds ((h.behind d).noted (Decl.resolve_noted d s'))

end

/-! ## The tables of classes -/

theorem Decl.resolve_classes (d : Decl) (s : Scope) : (d.resolve.run s).2.classes = s.classes := by
  obtain ⟨more, hs⟩ := d.resolve_noted s
  rw [hs]
  rfl

theorem Decl.resolveAll_classes (ds : List Decl) : ∀ s : Scope, ((Decl.resolveAll ds).run s).2.classes = s.classes := by
  induction ds with
  | nil => exact fun _ => rfl
  | cons d ds ih => exact fun s => (ih _).trans (d.resolve_classes s)

theorem Method.resolve_classes (m : Method) (s : Scope) : (m.resolve.run s).2.classes = s.classes :=
  have hparams : s.Inner (s.enter.declareParams m.header.params 1) := (Inner.enter s).declareParams m.header.params 1
  (Decl.resolveAll_inner m.locals hparams).classes

theorem Method.resolveAll_classes (ms : List Method) :
    ∀ s : Scope, ((Method.resolveAll ms).run s).2.classes = s.classes := by
  induction ms with
  | nil => exact fun _ => rfl
  | cons m ms ih =>
    intro s
    cases hslot : m.slot with
    | none =>
      rw [Method.resolveAll_cons_none hslot]
      exact ih s
    | some slot =>
      rw [Method.resolveAll_cons_some hslot]
      exact (ih _).trans (m.resolve_classes s)

/-! ## Looking names up -/

theorem Scope.bind_lookup (h : other ≠ name) : (s.bind name b).lookup other = s.lookup other := by
  unfold Scope.bind Scope.lookup
  cases s.frames with
  | nil => rfl
  | cons frame outer =>
    rw [List.modifyHead_cons, List.findSome?_cons, List.findSome?_cons, Table.get?_put_ne frame b h]

/--
A declaration has taken a scope to another one. It has added problems and taken one offset; it has changed no frame but
the innermost, and there it has rebound its own name alone; the other names are found as before.
-/
structure Scope.Declares (s : Scope) (d : Decl) (s' : Scope) : Prop where
  count : s'.frames.length = s.frames.length
  outer : s'.frames.tail = s.frames.tail
  own : ∀ t, s.frames.head? = some t → ∃ t', s'.frames.head? = some t' ∧
    t'.get? d.name = some ⟨s.level, d.type, s.nextOffset, false⟩ ∧
    ∀ other, other ≠ d.name → t'.get? other = t.get? other
  level : s'.level = s.level
  nextOffset : s'.nextOffset = s.nextOffset - 1
  classes : s'.classes = s.classes
  problems : ∃ more, s'.problems = s.problems ++ more
  lookup : ∀ other, other ≠ d.name → s'.lookup other = s.lookup other

/--
Resolving is local to the innermost frame, from any scope: an expression only adds problems, and a declaration does
nothing but declare its own name.
-/
theorem resolve_local :
    (∀ (e : Expr) (s : Scope), ∃ more, (e.resolve.run s).2 = { s with problems := s.problems ++ more }) ∧
      ∀ (d : Decl) (s : Scope), s.Declares d (d.resolve.run s).2 := by
  refine ⟨fun e s => e.resolve_noted s, fun d s => ?_⟩
  obtain ⟨more, hs'⟩ := d.resolve_noted s
  have hframes : (d.resolve.run s).2.frames =
      s.frames.modifyHead (·.put d.name ⟨s.level, d.type, s.nextOffset, false⟩) := by rw [hs']; rfl
  refine ⟨?_, ?_, fun t ht => ?_, by rw [hs']; rfl, by rw [hs']; rfl, by rw [hs']; rfl, ⟨more, by rw [hs']; rfl⟩,
    fun other h => ?_⟩
  · rw [hframes, List.length_modifyHead]
  · rw [hframes]
    cases s.frames <;> rfl
  · rw [hframes, List.head?_modifyHead, ht]
    exact ⟨_, rfl, Table.get?_put_self t _ _, fun other h => Table.get?_put_ne t _ h⟩
  · rw [hs']
    exact bind_lookup h

end FoolLang
