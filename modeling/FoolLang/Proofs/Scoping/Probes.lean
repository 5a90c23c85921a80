/-
What a resolution binds, told by its own answers. A probe is a variable whose value is a name. It is put somewhere into
a program, the program is resolved, and what the name has been found to mean is read back from the same place. So probes
show what stands in the frames of a resolution without looking at its scopes. The members of a class are read from the
table that the resolution leaves of it.
-/
import FoolLang.Proofs.Scoping.Contents
import FoolLang.Proofs.Scoping.Lexical
import FoolLang.Proofs.Semantics.Evaluation

namespace FoolLang

open Scope

variable {k : Content.Kind} {s : Scope} {v : View}

/-! ## Probes -/

namespace Decl

end Decl

/-! ## Reading back -/

mutual

/-- What stands in a declaration where it has a gap. -/
def Decl.Gap.content? {k : Content.Kind} : Decl.Gap k → Decl → Option (Content k)
  | .var _ _ _, .var _ _ e _ => some (.value e)
  | .function _ inside, .function _ locals body => inside.content? (.routine locals body)
  | _, _ => none

/-- What stands in the content of a routine where it has a gap. -/
def Content.Gap.content? {k : Content.Kind} : Content.Gap k → Content .routine → Option (Content k)
  | .whole, x => some x
  | .within before gap _ _, x => x.locals[before.length]?.bind fun d => gap.content? d

end

/-- What stands in a list where it has a gap. -/
def Among.content? {α γ : Type} (content? : γ → α → Option (Content k)) (as : Among α γ) (bs : List α) :
    Option (Content k) := bs[as.before.length]?.bind (content? as.gap)

/-- What stands in a method where it has a gap. -/
def Method.Gap.content? (gap : Method.Gap k) (m : Method) : Option (Content k) :=
  gap.inside.content? (.routine m.locals m.body)

/-- What stands in a class where it has a gap. -/
def ClassDecl.Gap.content? (gap : ClassDecl.Gap k) (c : ClassDecl) : Option (Content k) :=
  gap.methods.content? Method.Gap.content? c.methods

/-- What stands in a program where it has a gap. -/
def Program.Gap.content? : Program.Gap k → Program → Option (Content k)
  | .ofClass classes _ _, p => classes.content? ClassDecl.Gap.content? p.classes
  | .ofDecl _ decls _, p => decls.content? Decl.Gap.content? p.decls

/-! ## The routine of a gap -/

mutual

/-- The parameters of the routine that a gap is the content of. -/
def Decl.Gap.params {k : Content.Kind} : Decl.Gap k → List Formal
  | .var _ _ _ => []
  | .function header inside => inside.params header.params

/-- The same for a gap inside a routine with some parameters. -/
def Content.Gap.params {k : Content.Kind} (params : List Formal) : Content.Gap k → List Formal
  | .whole => params
  | .within _ gap _ _ => gap.params

end

mutual

/-- How many functions a gap is inside of. -/
def Decl.Gap.depth {k : Content.Kind} : Decl.Gap k → Nat
  | .var _ _ _ => 0
  | .function _ inside => inside.depth + 1

/-- How many functions inside a routine a gap is inside of. -/
def Content.Gap.depth {k : Content.Kind} : Content.Gap k → Nat
  | .whole => 0
  | .within _ gap _ _ => gap.depth

end

/-- The header of a routine when the one that a gap is the content of has other parameters. -/
def Content.Gap.header (params : List Formal) (header : Header) : Content.Gap k → Header
  | .whole => { header with params }
  | .within _ _ _ _ => header

mutual

/-- A gap whose routine has other parameters. -/
def Decl.Gap.withParams {k : Content.Kind} (params : List Formal) : Decl.Gap k → Decl.Gap k
  | .var name type line => .var name type line
  | .function header inside => .function (inside.header params header) (inside.withParams params)

/-- The same for a gap inside a routine. -/
def Content.Gap.withParams {k : Content.Kind} (params : List Formal) : Content.Gap k → Content.Gap k
  | .whole => .whole
  | .within before gap after body => .within before (gap.withParams params) after body

end

/-- The same for a gap in a method. -/
def Method.Gap.withParams (params : List Formal) (m : Method.Gap k) : Method.Gap k :=
  { m with header := m.inside.header params m.header, inside := m.inside.withParams params }

/-- The same for a gap in a class. -/
def ClassDecl.Gap.withParams (params : List Formal) (c : ClassDecl.Gap k) : ClassDecl.Gap k :=
  { c with methods := { c.methods with gap := c.methods.gap.withParams params } }

/-- The method with the gap has a slot already or will get one, since no earlier method has its name and signature. -/
def ClassDecl.Gap.Visited (c : ClassDecl.Gap k) : Prop :=
  c.methods.gap.slot.isSome ∨ ∀ m ∈ c.methods.before,
    m.header.name = c.methods.gap.header.name → m.header.signature ≠ c.methods.gap.header.signature

namespace Program.Gap

/-- The parameters of the routine that a gap is the content of. -/
def params : Program.Gap k → List Formal
  | .ofClass classes _ _ =>
    let m := classes.gap.methods.gap
    m.inside.params m.header.params
  | .ofDecl _ decls _ => decls.gap.params

/-- The nesting level of a gap: the functions around it count, and so do a class and a method. -/
def depth : Program.Gap k → Nat
  | .ofClass classes _ _ => classes.gap.methods.gap.inside.depth + 2
  | .ofDecl _ decls _ => decls.gap.depth

/-- A gap whose routine has other parameters. -/
def withParams (params : List Formal) : Program.Gap k → Program.Gap k
  | .ofClass classes decls body => .ofClass { classes with gap := classes.gap.withParams params } decls body
  | .ofDecl classes decls body => .ofDecl classes { decls with gap := decls.gap.withParams params } body

/-- A gap is not in a method that is passed over. -/
def Visited : Program.Gap k → Prop
  | .ofClass classes _ _ => classes.gap.Visited
  | .ofDecl _ _ _ => True

end Program.Gap

/-- A parameter or a field under another name. -/
def Formal.called (name : String) (f : Formal) : Formal := { f with name }

/-- A method under another name. -/
def Method.called (name : String) (m : Method) : Method := { m with header := { m.header with name } }

/-- A class under another name. -/
def ClassDecl.called (name : String) (c : ClassDecl) : ClassDecl := { c with name }

section

variable {α : Type} {name : α → String} {called : String → α → α}

end

/-! ## Other parameters -/

mutual

theorem Decl.Gap.params_withParams (ps : List Formal) : ∀ gap : Decl.Gap .routine, (gap.withParams ps).params = ps
  | .function header inside => inside.params_withParams ps header

theorem Content.Gap.params_withParams (ps : List Formal) : ∀ (gap : Content.Gap .routine) (header : Header),
    (gap.withParams ps).params (gap.header ps header).params = ps
  | .whole, _ => rfl
  | .within _ gap _ _, _ => gap.params_withParams ps

end

mutual

theorem Decl.Gap.depth_withParams {k : Content.Kind} (ps : List Formal) :
    ∀ gap : Decl.Gap k, (gap.withParams ps).depth = gap.depth
  | .var _ _ _ => rfl
  | .function _ inside => congrArg (· + 1) (inside.depth_withParams ps)

theorem Content.Gap.depth_withParams {k : Content.Kind} (ps : List Formal) :
    ∀ gap : Content.Gap k, (gap.withParams ps).depth = gap.depth
  | .whole => rfl
  | .within _ gap _ _ => gap.depth_withParams ps

end

/-- With parameters of the same types, a routine announces the same. -/
theorem Content.Gap.header_withParams (ps : List Formal) (header : Header) : ∀ gap : Content.Gap .routine,
    ps.map (·.type) = (gap.params header.params).map (·.type) →
    (gap.header ps header).name = header.name ∧ (gap.header ps header).signature = header.signature
  | .whole, h => ⟨rfl, congrArg (Signature.mk · header.result) h⟩
  | .within _ _ _ _, _ => ⟨rfl, rfl⟩

namespace Program.Gap

variable {gap : Program.Gap .routine} {ps : List Formal}

theorem params_withParams : (gap.withParams ps).params = ps := by
  cases gap with
  | ofClass classes _ _ => exact Content.Gap.params_withParams ps _ _
  | ofDecl _ decls _ => exact Decl.Gap.params_withParams ps _

theorem depth_withParams : (gap.withParams ps).depth = gap.depth := by
  cases gap with
  | ofClass classes _ _ => exact congrArg (· + 2) (Content.Gap.depth_withParams ps _)
  | ofDecl _ decls _ => exact Decl.Gap.depth_withParams ps _

theorem Visited.withParams (h : gap.Visited) (htypes : ps.map (·.type) = gap.params.map (·.type)) :
    (gap.withParams ps).Visited := by
  cases gap with
  | ofDecl _ _ _ => trivial
  | ofClass classes _ _ =>
    let header := classes.gap.methods.gap.inside.header ps classes.gap.methods.gap.header
    obtain ⟨hname, hsignature⟩ := Content.Gap.header_withParams ps classes.gap.methods.gap.header _ htypes
    refine h.imp_right fun hfirst m hm (hsame : m.header.name = header.name) => ?_
    show m.header.signature ≠ header.signature
    rw [hsignature]
    exact hfirst m hm (hsame.trans hname)

end Program.Gap

/-! ## Runs and views -/

theorem View.behindAll_depth (v : View) (ds : List Decl) : (v.behindAll ds).depth = v.depth := by
  rw [View.depth, View.behindAll_around]
  rfl

theorem Decl.resolve_agrees (d : Decl) (h : s.Agrees v) : (d.resolve.run s).2.Agrees (v.behind d) :=
  (d.resolve_reads (q := fun _ => false) (fun _ _ => rfl) h).agrees

theorem Decl.resolveAll_agrees (ds : List Decl) (h : s.Agrees v) :
    ((Decl.resolveAll ds).run s).2.Agrees (v.behindAll ds) :=
  (Decl.resolveAll_reads (q := fun _ => false) (fun _ _ => rfl) ds h).agrees

theorem Method.resolveSlotted_agrees (m : Method) (h : s.Agrees v) : (m.resolveSlotted.run s).2.Agrees v := by
  rw [Method.resolveSlotted]
  split
  · exact (m.resolve_reads (q := fun _ => false) (fun _ _ => rfl) h).agrees
  · exact h

theorem Method.resolveAll_agrees (ms : List Method) :
    ∀ {s : Scope}, s.Agrees v → ((Method.resolveAll ms).run s).2.Agrees v := by
  induction ms with
  | nil => exact fun h => h
  | cons m ms ih => exact fun h => by rw [Method.resolveAll_cons]; exact ih (m.resolveSlotted_agrees h)

theorem ClassDecl.resolve_agrees {c : ClassDecl} {earlier : List ClassDecl} (h : s.Agrees (.behindClasses earlier)) :
    (c.resolve.run s).2.Agrees (.behindClasses (earlier ++ [c])) := by
  obtain ⟨-, hagrees, -⟩ := c.entered_agrees h
  have hleave : Scope.Agrees _ { View.behindClasses (earlier ++ [c]) with taken := earlier.length + 1 } :=
    (Method.resolveAll_agrees (c.entered s).1 hagrees).leave rfl
  rw [resolve_entered, h.offset]
  show Scope.Agrees (Scope.leave _ (View.offset earlier.length - 1)) _
  rw [offset_succ]
  simpa [View.behindClasses] using hleave

theorem ClassDecl.resolveAll_agrees (cs : List ClassDecl) : ∀ {s : Scope} {earlier : List ClassDecl},
    s.Agrees (.behindClasses earlier) → ((resolveAll cs).run s).2.Agrees (.behindClasses (earlier ++ cs)) := by
  induction cs with
  | nil => exact fun h => by rwa [List.append_nil]
  | cons c cs ih =>
    intro s earlier h
    have hrest := ih (resolve_agrees (c := c) h)
    rwa [List.append_assoc] at hrest

/-! ## What probes show -/

/--
What is resolved one after the other is found at its place, resolved from the scope behind what is before it, and the
rest is resolved from the scope behind it.
-/
theorem resolved_between {α : Type} (one : α → Resolving α) (all : List α → Resolving (List α))
    (hnil : ∀ s, ((all []).run s).2 = s) (hcons : ∀ a as s, (all (a :: as)).run s =
      (((one a).run s).1 :: ((all as).run ((one a).run s).2).1, ((all as).run ((one a).run s).2).2))
    (a : α) (after : List α) : ∀ (before : List α) (s : Scope),
      ((all (before ++ a :: after)).run s).1[before.length]? = some ((one a).run ((all before).run s).2).1 ∧
      ((all (before ++ a :: after)).run s).2 = ((all after).run ((one a).run ((all before).run s).2).2).2
  | [], s => by
    rw [List.nil_append, hcons, hnil]
    exact ⟨rfl, rfl⟩
  | b :: before, s => by
    rw [List.cons_append, hcons, hcons]
    exact resolved_between one all hnil hcons a after before _

theorem Decl.resolveAll_between (d : Decl) (after before : List Decl) (s : Scope) :
    ((Decl.resolveAll (before ++ d :: after)).run s).1[before.length]? =
      some (d.resolve.run ((Decl.resolveAll before).run s).2).1 :=
  (resolved_between Decl.resolve Decl.resolveAll (fun _ => rfl) Decl.resolveAll_cons d after before s).1

theorem ClassDecl.resolveAll_between (c : ClassDecl) (after before : List ClassDecl) (s : Scope) :
    ((resolveAll (before ++ c :: after)).run s).1[before.length]? =
      some (c.resolve.run ((resolveAll before).run s).2).1 ∧
    ((resolveAll (before ++ c :: after)).run s).2 =
      ((resolveAll after).run (c.resolve.run ((resolveAll before).run s).2).2).2 :=
  resolved_between ClassDecl.resolve ClassDecl.resolveAll (fun _ => rfl) ClassDecl.resolveAll_cons c after before s

theorem Content.routine_eta : ∀ x : Content .routine, Content.routine x.locals x.body = x
  | .routine _ _ => rfl

mutual

/--
The content of a function in a declaration is resolved from a scope in which the parameters of the function have just
been bound, in a frame of its own at the level of the gap.
-/
theorem Decl.Gap.content?_resolve : ∀ (gap : Decl.Gap .routine) {s : Scope} {v : View}, s.Agrees v →
    ∀ y : Content .routine, ∃ (s' : Scope) (w : View), s'.Agrees (w.inside gap.params) ∧
      w.depth + 1 = v.depth + gap.depth ∧ gap.content? ((gap.fill y).resolve.run s).1 = some (y.resolve.run s').1
  | .function header inside, s, v, h, y => by
    have hself : (s.declareNext "Fun" header.name (.arrow header.signature) header.line).Agrees
        (v.declare header.name (.arrow header.signature)) := h.declareNext
    obtain ⟨s', w, hs', hdepth, hcontent⟩ := inside.content?_resolve (hself.inside header.params) y
    refine ⟨s', w, hs', ?_, ?_⟩
    · rw [hdepth]
      exact Nat.add_assoc _ _ _
    · rw [Decl.Gap.fill, Content.resolve_function]
      show inside.content? (.routine _ _) = _
      rw [Content.routine_eta, hcontent]

theorem Content.Gap.content?_resolve : ∀ (gap : Content.Gap .routine) {s : Scope} {v : View} {params : List Formal},
    s.Agrees (v.inside params) → ∀ y : Content .routine, ∃ (s' : Scope) (w : View),
      s'.Agrees (w.inside (gap.params params)) ∧ w.depth = v.depth + gap.depth ∧
      gap.content? ((gap.fill y).resolve.run s).1 = some (y.resolve.run s').1
  | .whole, s, v, params, h, y => ⟨s, v, h, rfl, rfl⟩
  | .within before gap after body, s, v, params, h, y => by
    obtain ⟨s', w, hs', hdepth, hcontent⟩ := gap.content?_resolve (Decl.resolveAll_agrees before h) y
    have hplace := Decl.resolveAll_between (gap.fill y) after before s
    refine ⟨s', w, hs', ?_, ?_⟩
    · -- The local declarations in front of the gap stand one level inside the routine.
      rw [View.behindAll_depth, show (v.inside params).depth = v.depth + 1 from rfl] at hdepth
      show w.depth = v.depth + gap.depth
      omega
    · rw [← hcontent, Content.Gap.fill, Content.resolve_routine]
      show (((Decl.resolveAll (before ++ gap.fill y :: after)).run s).1[before.length]?).bind _ = _
      rw [hplace]
      rfl

end

theorem Method.Gap.content?_resolve (gap : Method.Gap .routine) (hslot : gap.slot.isSome) (h : s.Agrees v)
    (y : Content .routine) : ∃ (s' : Scope) (w : View), s'.Agrees (w.inside (gap.inside.params gap.header.params)) ∧
      w.depth = v.depth + gap.inside.depth ∧
      gap.content? ((gap.fill y).resolveSlotted.run s).1 = some (y.resolve.run s').1 := by
  obtain ⟨s', w, hs', hdepth, hcontent⟩ := gap.inside.content?_resolve (h.inside gap.header.params) y
  have hsome : (gap.fill y).slot.isSome := hslot
  refine ⟨s', w, hs', hdepth, ?_⟩
  rw [Method.resolveSlotted, if_pos hsome, fill, Content.resolve_method]
  show gap.inside.content? (.routine _ _) = _
  rw [Content.routine_eta, hcontent]

/-- A method keeps its place among those that are given slots, and has a slot unless it is a repetition without one. -/
theorem ClassDecl.slotted_append (m : Method) (after before : List Method) : ∀ (earlier : List Method) (n : Nat),
    ∃ front slot back, slotted earlier (before ++ m :: after) n = front ++ { m with slot } :: back ∧
      front.length = before.length ∧
      (m.slot.isSome ∨ (∀ e ∈ earlier, m.sameAs e = false) ∧ (∀ e ∈ before, m.sameAs e = false) → slot.isSome) := by
  induction before with
  | nil =>
    intro earlier n
    by_cases hsame : earlier.any m.sameAs = true
    · refine ⟨[], m.slot, slotted (m :: earlier) after n, by rw [List.nil_append, slotted, if_pos hsame]; rfl, rfl, ?_⟩
      rintro (hslot | ⟨hearlier, -⟩)
      · exact hslot
      · obtain ⟨e, he, hsame⟩ := List.any_eq_true.mp hsame
        rw [hearlier e he] at hsame
        cases hsame
    · exact ⟨[], some (.ofNat n), slotted (m :: earlier) after (n + 1),
        by rw [List.nil_append, slotted, if_neg hsame]; rfl, rfl, fun _ => rfl⟩
  | cons b before ih =>
    intro earlier n
    -- Whether the method in front is given a slot or not, it is one of the earlier ones for the rest.
    have hcons : ∃ b' n', slotted earlier (b :: (before ++ m :: after)) n =
        b' :: slotted (b :: earlier) (before ++ m :: after) n' := by
      rw [slotted]
      split
      · exact ⟨_, _, rfl⟩
      · exact ⟨_, _, rfl⟩
    obtain ⟨b', n', hcons⟩ := hcons
    obtain ⟨front, slot, back, hrest, hlength, hslot⟩ := ih (b :: earlier) n'
    refine ⟨b' :: front, slot, back, by rw [List.cons_append, hcons, hrest]; rfl, congrArg (· + 1) hlength, ?_⟩
    refine fun h => hslot (h.imp_right ?_)
    rintro ⟨hearlier, hbefore⟩
    obtain ⟨hb, hbefore⟩ := List.forall_mem_cons.mp hbefore
    exact ⟨List.forall_mem_cons.mpr ⟨hb, hearlier⟩, hbefore⟩

theorem ClassDecl.Gap.content?_resolve (gap : ClassDecl.Gap .routine) {earlier : List ClassDecl}
    (hvisited : gap.Visited) (h : s.Agrees (.behindClasses earlier)) (y : Content .routine) : ∃ (s' : Scope) (w : View),
      s'.Agrees (w.inside (gap.methods.gap.inside.params gap.methods.gap.header.params)) ∧
      w.depth = gap.methods.gap.inside.depth + 1 ∧
      gap.content? ((gap.fill y).resolve.run s).1 = some (y.resolve.run s').1 := by
  obtain ⟨hslotted, hagrees, -⟩ := (gap.fill y).entered_agrees h
  obtain ⟨front, slot, back, hplaced, hlength, hslot⟩ :=
    slotted_append (gap.methods.gap.fill y) gap.methods.after gap.methods.before [] 0
  have hsame : gap.methods.gap.slot.isSome ∨ ∀ m ∈ gap.methods.before, (gap.methods.gap.fill y).sameAs m = false :=
    hvisited.imp_right fun hfirst m hm => by
      have hne := hfirst m hm
      simp only [Method.sameAs, Bool.and_eq_false_imp, beq_iff_eq, beq_eq_false_iff_ne]
      exact fun hname => (hne hname.symm).symm
  have hsome := hslot (hsame.imp_right fun h => ⟨fun _ he => (List.not_mem_nil he).elim, h⟩)
  obtain ⟨s', w, hs', hdepth, hcontent⟩ := Method.Gap.content?_resolve { gap.methods.gap with slot } hsome
    (Method.resolveAll_agrees front hagrees) y
  refine ⟨s', w, hs', hdepth.trans (Nat.add_comm _ _), ?_⟩
  have hentered : ((gap.fill y).entered s).1 = front ++ { gap.methods.gap.fill y with slot } :: back :=
    hslotted.trans hplaced
  have hmethod := resolved_between Method.resolveSlotted Method.resolveAll (fun _ => rfl) Method.resolveAll_cons
    { gap.methods.gap.fill y with slot } back front ((gap.fill y).entered s).2
  rw [resolve_entered, hentered, content?, Among.content?, ← hlength, hmethod.1]
  exact hcontent

/--
The content of a routine in a program is resolved from a scope in which the parameters of the routine have just been
bound, in a frame of its own at the level of the gap.
-/
theorem Program.Gap.content?_resolve : ∀ (gap : Program.Gap .routine), gap.Visited → ∀ y : Content .routine,
    ∃ (s : Scope) (w : View), s.Agrees (w.inside gap.params) ∧ w.depth + 1 = gap.depth ∧
      gap.content? (gap.fill y).resolve.1 = some (y.resolve.run s).1
  | .ofClass classes decls body, hvisited, y => by
    have hbefore := ClassDecl.resolveAll_agrees classes.before outermost_agrees
    obtain ⟨s, w, hs, hdepth, hcontent⟩ := classes.gap.content?_resolve hvisited hbefore y
    have hclass := ClassDecl.resolveAll_between (classes.gap.fill y) classes.after classes.before .outermost
    refine ⟨s, w, hs, congrArg (· + 1) hdepth, ?_⟩
    show (((ClassDecl.resolveAll (classes.before ++ classes.gap.fill y :: classes.after)).run .outermost).1[
      classes.before.length]?).bind _ = _
    rw [hclass.1]
    exact hcontent
  | .ofDecl classes decls body, _, y => by
    have hbefore := Decl.resolveAll_agrees decls.before (ClassDecl.resolveAll_agrees classes outermost_agrees)
    obtain ⟨s, w, hs, hdepth, hcontent⟩ := decls.gap.content?_resolve hbefore y
    have hdecl := Decl.resolveAll_between (decls.gap.fill y) decls.after decls.before
      ((ClassDecl.resolveAll classes).run .outermost).2
    refine ⟨s, w, hs, ?_, ?_⟩
    · rw [hdepth, View.behindAll_depth]
      exact Nat.zero_add _
    · show (((Decl.resolveAll (decls.before ++ decls.gap.fill y :: decls.after)).run
        ((ClassDecl.resolveAll classes).run .outermost).2).1[decls.before.length]?).bind _ = _
      rw [hdecl]
      exact hcontent

namespace ClassDecl

end ClassDecl

end FoolLang
