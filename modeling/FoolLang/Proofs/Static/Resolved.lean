/-
What resolution without a problem leaves: every use is decorated as lexical scoping says. A scope of the
resolver is followed with what is visible and with the table of the classes declared so far; an
expression resolved without a problem there is decorated as what is visible says.
-/
import FoolLang.Proofs.Static.Judgement
import FoolLang.Proofs.Static.Problems

namespace FoolLang

open Scope

/-! ## What resolution leaves of a class -/

namespace ClassDecl

/-- Two classes look the same to the rest of a program. -/
structure Alike (c c' : ClassDecl) : Prop where
  name : c'.name = c.name
  fields : c'.fields = c.fields
  headers : c'.methods.map (·.header) = c.methods.map (·.header)

variable {c c' : ClassDecl}

theorem Alike.ownFields (h : Alike c c') : c'.ownFields = c.ownFields := by
  rw [ClassDecl.ownFields, ClassDecl.ownFields, h.fields]

theorem Alike.ownMethods (h : Alike c c') :
    c'.ownMethods.map (·.header) = c.ownMethods.map (·.header) := firsts_map_congr rfl h.headers h.headers

theorem Alike.type (h : Alike c c') : c'.type = c.type := by
  have hsig := congrArg (List.map Header.signature) h.ownMethods
  rw [List.map_map, List.map_map] at hsig
  rw [ClassDecl.type, ClassDecl.type, h.ownFields]
  exact congrArg _ hsig

theorem methodNames_eq (c : ClassDecl) : c.methodNames = (c.ownMethods.map (·.header)).mapIdx fun i h =>
    (h.name, ⟨1, .arrow h.signature, .ofNat i, true⟩) :=
  List.ext_getElem (by simp [methodNames]) (by simp [methodNames])

theorem Alike.memberNames (h : Alike c c') : c'.memberNames = c.memberNames := by
  rw [ClassDecl.memberNames, ClassDecl.memberNames, methodNames_eq, methodNames_eq, h.ownMethods, fieldNames,
    fieldNames, h.ownFields]

theorem Alike.names (h : Alike c c') (earlier : List ClassDecl) :
    ClassDecl.names (earlier ++ [c']) = ClassDecl.names (earlier ++ [c]) := by
  rw [names_append, names_append, h.name, h.type]

theorem Alike.view (h : Alike c c') (earlier : List ClassDecl) : c'.view earlier = c.view earlier := by
  rw [ClassDecl.view, ClassDecl.view, h.memberNames, h.names]

end ClassDecl

/-! ## Scopes with their classes -/

/-- The names of the outermost scope. -/
def View.outermost (v : View) : Names := v.around.getLastD v.own

theorem View.outermost_of_around {v w : View} (h : w.around = v.scopes) : w.outermost = v.outermost := by
  rw [outermost, h, View.scopes, List.getLastD_cons, outermost]

variable {classes : List ClassDecl} {s s' : Scope} {v w : View} {name kind : String} {b : Binding}
variable {type : Ty} {line : Nat}

namespace Scope

theorem getLast?_shows {nss : List Names} : ∀ {fs : List Frame} {ns : Names},
    List.Forall₂ Shows fs (ns :: nss) → fs.getLast?.bind (·.get? name) = (nss.getLastD ns).lookup name := by
  induction nss with
  | nil =>
    rintro _ ns (_ | ⟨h, _ | _⟩)
    exact h name
  | cons ns' nss ih =>
    rintro _ ns (_ | ⟨-, hrest⟩)
    have hlast := ih hrest
    cases hrest
    rwa [List.getLast?_cons_cons, List.getLastD_cons]

theorem Agrees.lookupOutermost (h : s.Agrees v) (name : String) :
    s.lookupOutermost name = v.outermost.lookup name := getLast?_shows h.frames

/--
A scope agrees with a view, and every class it has a table of is one of a program: the table holds
the members of the class, and the outermost scope binds the class at the offset of its place.
-/
structure Ready (classes : List ClassDecl) (s : Scope) (v : View) : Prop where
  agrees : s.Agrees v
  tabled : ∀ name t, s.classes.get? name = some t → ∃ (i : Nat) (c : ClassDecl), classes[i]? = some c ∧ c.name = name ∧
    Shows t c.memberNames ∧ v.outermost.lookup name = some ⟨0, c.type, View.offset i, false⟩

theorem declareNext_classes : (s.declareNext kind name type line).classes = s.classes := declare_classes

theorem declareParams_classes (params : List Formal) :
    ∀ (s : Scope) (offset : Int32), (s.declareParams params offset).classes = s.classes := by
  induction params with
  | nil => exact fun _ _ => rfl
  | cons p ps ih => exact fun s offset => (ih _ _).trans declare_classes

/-- A name declared without a problem hides no class. -/
theorem Ready.declareNext (h : Ready classes s v)
    (hs : (s.declareNext kind name type line).problems = []) :
    Ready classes (s.declareNext kind name type line) (v.declare name type) := by
  refine ⟨h.agrees.declareNext, fun c t ht => ?_⟩
  rw [declareNext_classes] at ht
  obtain ⟨i, cls, hi, hname, hshows, hlookup⟩ := h.tabled c t ht
  refine ⟨i, cls, hi, hname, hshows, ?_⟩
  have hfresh : name ∉ v.own.map (·.1) := by
    have hnext : ({ s with nextOffset := s.nextOffset - 1 } : Scope).Agrees
        { v with taken := v.taken + 1 } :=
      ⟨h.agrees.frames, h.agrees.level, by rw [h.agrees.offset, offset_succ]⟩
    exact hnext.fresh hs
  cases ha : v.around with
  | cons ns nss =>
    rw [View.outermost, ha] at hlookup
    rw [View.outermost, View.declare, ha]
    exact hlookup
  | nil =>
    rw [View.outermost, ha] at hlookup
    rw [View.outermost, View.declare, ha]
    have hne : c ≠ name := by
      rintro rfl
      rw [← lookup_eq_none_iff] at hfresh
      rw [List.getLastD_nil, hfresh] at hlookup
      cases hlookup
    have hb : (c == name) = false := by simpa using hne
    simpa [List.lookup_cons, hb] using hlookup

theorem Ready.inside (h : Ready classes s v) (params : List Formal) :
    Ready classes (s.enter.declareParams params 1) (v.inside params) := by
  refine ⟨h.agrees.inside params, fun c t ht => ?_⟩
  rw [declareParams_classes] at ht
  rw [View.outermost_of_around (w := v.inside params) rfl]
  exact h.tabled c t ht

theorem Ready.leave (h : Ready classes s w) (hw : w.around = v.scopes) {taken : Nat} :
    Ready classes (s.leave (View.offset taken)) { v with taken } := by
  refine ⟨h.agrees.leave hw, fun c t ht => ?_⟩
  rw [← View.outermost_of_around (v := { v with taken }) hw]
  exact h.tabled c t ht

theorem Ready.withProblems (h : Ready classes s v) (ps : List Diagnostic) :
    Ready classes { s with problems := ps } v := ⟨h.agrees.withProblems ps, h.tabled⟩

end Scope

/-! ## Expressions -/

theorem Expr.class?_of_receiverClass? {r : Expr} {c : String}
    (h : r.receiverClass? s = .ok (some c)) : r.class? = some c := by
  unfold Expr.receiverClass? at h
  split at h
  · rename_i hty
    split at h
    · rename_i hr
      cases h
      rw [Expr.class?, hr]
    · cases h
  · cases h
  · split at h
    · cases h; rfl
    · cases h
  · split at h
    · rename_i hr
      cases h
      rw [Expr.class?, hr]
    · cases h
  · cases h
  · split at h
    · rename_i hr
      cases h
      rw [Expr.class?, hr]
    · cases h
  · cases h
  · cases h

namespace Scope

/-- A method call without a problem is of a method that the class of its receiver has. -/
theorem Ready.callEntry? (h : Ready classes s v) {receiver : Expr} {method : String}
    (hnone : receiver.receiverClass? s ≠ .ok none) (hp : s.callProblem? receiver method = none) :
    ∃ c ∈ classes, receiver.class? = some c.name ∧ ∃ e, c.memberNames.lookup method = some e ∧
      e.isMethod = true ∧ s.callEntry? receiver method = some e := by
  unfold callProblem? at hp
  split at hp
  · cases hp
  · rename_i hr; exact absurd hr hnone
  · rename_i c hr
    split at hp
    · rename_i hc
      split at hp
      · rename_i e he
        obtain ⟨t, ht⟩ := Option.isSome_iff_exists.mp hc
        obtain ⟨i, cls, hi, rfl, hshows, -⟩ := h.tabled c t ht
        have hentry := he
        simp only [Scope.methodEntry?, ht, Option.bind_eq_bind, Option.bind_some] at he
        obtain ⟨b, hb, hm⟩ := Option.bind_eq_some_iff.mp he
        split at hm
        · rename_i hmethod
          cases hm
          refine ⟨cls, List.mem_of_getElem? hi, Expr.class?_of_receiverClass? hr, e, ?_, hmethod, ?_⟩
          · rw [← hshows, hb]
          · rw [Scope.callEntry?, hr]; exact hentry
        · cases hm
      · cases hp
    · cases hp

end Scope

mutual

theorem Expr.decorate_resolved (h : Ready classes s v) :
    ∀ e : Expr, e.problems s = [] → (e.decorate s).Resolved classes v
  | .int _ _, _ | .bool _ _, _ | .null _, _ => trivial
  | .binary _ a b _, hp => by
    rw [Expr.problems, List.append_eq_nil_iff] at hp
    exact ⟨decorate_resolved h a hp.1, decorate_resolved h b hp.2⟩
  | .not e _, hp | .print e _, hp => decorate_resolved h e hp
  | .cond c a b _, hp => by
    rw [Expr.problems, List.append_eq_nil_iff, List.append_eq_nil_iff] at hp
    exact ⟨decorate_resolved h c hp.1.1, decorate_resolved h a hp.1.2, decorate_resolved h b hp.2⟩
  | .id name r l, hp => by
    rw [Expr.problems, h.agrees.lookup] at hp
    split at hp
    · rename_i b hb
      refine ⟨b, hb, ?_⟩
      rw [h.agrees.resolution?, View.resolution?, hb]; rfl
    · cases hp
  | .call name args r l, hp => by
    rw [Expr.problems, h.agrees.lookup, List.append_eq_nil_iff] at hp
    refine ⟨?_, decorateAll_resolved h args hp.2⟩
    have hp := hp.1
    split at hp
    · rename_i b hb
      refine ⟨b, hb, ?_⟩
      rw [h.agrees.resolution?, View.resolution?, hb]; rfl
    · cases hp
  | .new c args r l, hp => by
    rw [Expr.problems, List.append_eq_nil_iff] at hp
    refine ⟨?_, decorateAll_resolved h args hp.2⟩
    have hc : s.classes.contains c = true := by
      by_contra hc
      rw [if_neg hc] at hp
      cases hp.1
    obtain ⟨t, ht⟩ := Option.isSome_iff_exists.mp hc
    obtain ⟨i, cls, hi, hname, -, hlookup⟩ := h.tabled c t ht
    refine ⟨i, cls, hi, hname, ?_⟩
    rw [if_pos hc, h.agrees.lookupOutermost, hlookup, h.agrees.level]; rfl
  | .methodCall receiver method args b l, hp => by
    obtain ⟨hreceiver, hcall, hargs⟩ := Expr.callProblem?_of_problems hp
    obtain ⟨c, hmem, hclass, e, he, hm, hentry⟩ :=
      h.callEntry? (receiver.receiverClass?_ne_none hreceiver) hcall
    refine ⟨decorate_resolved h receiver hreceiver, ⟨c, hmem, hclass, e, he, hm, ?_⟩, decorateAll_resolved h args hargs⟩
    rw [hentry]; rfl

theorem Expr.decorateAll_resolved (h : Ready classes s v) :
    ∀ es : List Expr, Expr.problemsAll s es = [] → Expr.ResolvedAll classes v (Expr.decorateAll s es)
  | [], _ => trivial
  | e :: es, hp => by
    rw [Expr.problemsAll, List.append_eq_nil_iff] at hp
    exact ⟨decorate_resolved h e hp.1, decorateAll_resolved h es hp.2⟩

end

/-! ## Declarations -/

theorem Expr.resolve_resolved (e : Expr) (h : Ready classes s v) (hs : (e.resolve.run s).2.problems = []) :
    (e.resolve.run s).1.Resolved classes v ∧ Ready classes (e.resolve.run s).2 v :=
  ⟨e.decorate_resolved h (List.append_eq_nil_iff.mp hs).2, h.withProblems _⟩

mutual

theorem Decl.resolve_resolved : ∀ (d : Decl) {s : Scope} {v : View}, Ready classes s v →
    (d.resolve.run s).2.problems = [] → (d.resolve.run s).1.Resolved classes v ∧
      Ready classes (d.resolve.run s).2 (v.behind (d.resolve.run s).1)
  | .var name type value line, s, v, h, hs => by
    have hvalue : (value.resolve.run s).2.problems = [] := declareNext_grows.nil hs
    obtain ⟨hresolved, hready⟩ := value.resolve_resolved h hvalue
    exact ⟨hresolved, hready.declareNext hs⟩
  | .function header locals body, s, v, h, hs => by
    let s₁ := s.declareNext "Fun" header.name (.arrow header.signature) header.line
    let s₂ := s₁.enter.declareParams header.params 1
    let r := (Decl.resolveAll locals).run s₂
    have hbody : (body.resolve.run r.2).2.problems = [] := hs
    have hlocals : r.2.problems = [] := (body.resolve_grows r.2).nil hbody
    have hinside : s₂.problems = [] := (Decl.resolveAll_grows locals s₂).nil hlocals
    have hself : s₁.problems = [] := (declareParams_grows header.params s₁.enter 1).nil hinside
    have hready₁ : Ready classes s₁ (v.declare header.name (.arrow header.signature)) := h.declareNext hself
    obtain ⟨hlocals', hready₂⟩ := Decl.resolveAll_resolved locals (hready₁.inside header.params) hlocals
    obtain ⟨hbody', hready₃⟩ := body.resolve_resolved hready₂ hbody
    have hoffset : s₁.nextOffset = View.offset (v.taken + 1) := hready₁.agrees.offset
    refine ⟨⟨hlocals', hbody'⟩, ?_⟩
    have hleave : Ready classes _ (v.declare header.name (.arrow header.signature)) :=
      hready₃.leave (View.behindAll_around _ _)
    rw [← hoffset] at hleave
    exact hleave

theorem Decl.resolveAll_resolved : ∀ (ds : List Decl) {s : Scope} {v : View}, Ready classes s v →
    ((Decl.resolveAll ds).run s).2.problems = [] →
    Decl.ResolvedAll classes v ((Decl.resolveAll ds).run s).1 ∧
      Ready classes ((Decl.resolveAll ds).run s).2 (v.behindAll ((Decl.resolveAll ds).run s).1)
  | [], _, _, h, _ => ⟨trivial, h⟩
  | d :: ds, s, v, h, hs => by
    obtain ⟨hd, hready⟩ := Decl.resolve_resolved d h ((Decl.resolveAll_grows ds _).nil hs)
    obtain ⟨hds, hready'⟩ := Decl.resolveAll_resolved ds hready hs
    exact ⟨⟨hd, hds⟩, hready'⟩

end

theorem Method.resolve_resolved (m : Method) (h : Ready classes s v) (hs : (m.resolve.run s).2.problems = []) :
    (m.resolve.run s).1.routine.Resolved classes v ∧ Ready classes (m.resolve.run s).2 v := by
  let s₁ := s.enter.declareParams m.header.params 1
  let r := (Decl.resolveAll m.locals).run s₁
  have hbody : (m.body.resolve.run r.2).2.problems = [] := hs
  have hlocals : r.2.problems = [] := (m.body.resolve_grows r.2).nil hbody
  obtain ⟨hlocals', hready⟩ := Decl.resolveAll_resolved m.locals (h.inside m.header.params) hlocals
  obtain ⟨hbody', hready'⟩ := m.body.resolve_resolved hready hbody
  refine ⟨⟨hlocals', hbody'⟩, ?_⟩
  have hleave : Ready classes _ v := hready'.leave (View.behindAll_around _ _)
  rw [← h.agrees.offset] at hleave
  exact hleave

/-! ## Classes -/

/-- Where no method is a repetition, each has the slot of its place. -/
theorem ClassDecl.slotted_eq (ms : List Method) : ∀ (earlier : List Method) (k : Nat),
    firsts Method.sameAs earlier ms = ms →
    slotted earlier ms k = ms.mapIdx fun i m => { m with slot := some (.ofNat (k + i)) } := by
  induction ms with
  | nil => exact fun _ _ _ => rfl
  | cons m ms ih =>
    intro earlier k h
    rw [firsts] at h
    split at h
    · have hlen := (firsts_sublist Method.sameAs ms (m :: earlier)).length_le
      rw [h, List.length_cons] at hlen
      omega
    · rename_i hany
      rw [List.cons.injEq] at h
      have hshift : ∀ i, k + 1 + i = k + (i + 1) := fun i => by omega
      rw [slotted, if_neg hany, ih (m :: earlier) (k + 1) h.2, List.mapIdx_cons]
      simp only [hshift, Nat.add_zero]

theorem Method.resolveAll_resolved (ms : List Method) : ∀ {s : Scope}, Ready classes s v →
    (∀ m ∈ ms, m.slot.isSome) → ((Method.resolveAll ms).run s).2.problems = [] →
    (∀ m ∈ ((Method.resolveAll ms).run s).1, m.routine.Resolved classes v) ∧
      Ready classes ((Method.resolveAll ms).run s).2 v := by
  induction ms with
  | nil => exact fun h _ _ => ⟨fun _ hm => (List.not_mem_nil hm).elim, h⟩
  | cons m ms ih =>
    intro s h hslots hs
    obtain ⟨slot, hslot⟩ := Option.isSome_iff_exists.mp (hslots m List.mem_cons_self)
    rw [Method.resolveAll_cons_some hslot] at hs ⊢
    obtain ⟨hm, hready⟩ := m.resolve_resolved h ((Method.resolveAll_grows ms _).nil hs)
    obtain ⟨hms, hready'⟩ := ih hready (fun n hn => hslots n (List.mem_cons_of_mem _ hn)) hs
    refine ⟨fun n hn => ?_, hready'⟩
    rcases List.mem_cons.mp hn with rfl | hn
    · exact hm
    · exact hms n hn

/-- A class that is alike to the next class of a program is entered in a scope as that class. -/
theorem Scope.Ready.enterClass {c c' : ClassDecl} {earlier : List ClassDecl} {table : Frame}
    (h : Ready classes s (.behindClasses earlier)) (halike : c.Alike c')
    (hi : classes[earlier.length]? = some c')
    (h' : s'.Agrees (c.view earlier)) (htable : Shows table c.memberNames)
    (hc : s'.classes = s.classes.put c.name table) : Ready classes s' (c'.view earlier) := by
  refine ⟨by rwa [halike.view], fun n t ht => ?_⟩
  have houter : (c'.view earlier).outermost = ClassDecl.names (earlier ++ [c]) := by rw [halike.view]; rfl
  rw [houter, ClassDecl.names_append]
  rw [hc] at ht
  by_cases hn : n = c.name
  · subst hn
    rw [Table.get?_put_self] at ht
    cases ht
    exact ⟨earlier.length, c', hi, halike.name, by rwa [halike.memberNames], by
      rw [List.lookup_cons_self, halike.type]⟩
  · have hb : (n == c.name) = false := by simpa using hn
    rw [Table.get?_put_ne _ _ hn] at ht
    obtain ⟨i, cls, hi, hcls, hshows, hlookup⟩ := h.tabled n t ht
    exact ⟨i, cls, hi, hcls, hshows, by rw [List.lookup_cons, hb]; exact hlookup⟩

namespace ClassDecl

theorem resolve_alike (c : ClassDecl) {earlier : List ClassDecl} (h : s.Agrees (.behindClasses earlier))
    (hm : c.ownMethods = c.methods) : Alike c (c.resolve.run s).1 ∧
      ∀ (i : Nat) m, (c.resolve.run s).1.methods[i]? = some m → m.slot = some (.ofNat i) := by
  obtain ⟨s₁, -, -, -, -, -, hrun⟩ := c.resolve_enters h
  have hslotted : slotted [] c.methods 0 = c.methods.mapIdx fun i m => { m with slot := some (.ofNat i) } := by
    simpa using slotted_eq c.methods [] 0 hm
  obtain ⟨hheaders, hslots⟩ := Method.resolveAll_map (slotted [] c.methods 0) s₁
  rw [hrun]
  refine ⟨⟨rfl, rfl, hheaders.trans ?_⟩, fun i m hi => ?_⟩
  · rw [hslotted]; exact List.ext_getElem (by simp) (by simp)
  · have hget := congrArg (fun l => l[i]?) hslots
    simp only [hslotted, List.getElem?_map, List.getElem?_mapIdx, Option.map_map] at hget
    simp only at hi
    rw [← hslotted, hi] at hget
    obtain ⟨_, -, he⟩ := Option.map_eq_some_iff.mp hget.symm
    exact he.symm

/-- A class resolved behind others without a problem is decorated, if it is the next class of the program. -/
theorem resolve_resolved (c : ClassDecl) {earlier : List ClassDecl} (h : Ready classes s (.behindClasses earlier))
    (hi : classes[earlier.length]? = some (c.resolve.run s).1) (hs : (c.resolve.run s).2.problems = []) :
    (c.resolve.run s).1.Resolved classes earlier ∧ (c.resolve.run s).1.name ∉ (names earlier).map (·.1) ∧
      Ready classes (c.resolve.run s).2 (.behindClasses (earlier ++ [(c.resolve.run s).1])) := by
  obtain ⟨hfields, hmethods, hdistinct, hname⟩ := c.resolve_nil h.agrees hs
  obtain ⟨halike, hslots⟩ := c.resolve_alike h.agrees hmethods
  obtain ⟨s₁, table, h₁, htable, hc₁, -, hrun⟩ := c.resolve_enters h.agrees
  have hready : Ready classes s₁ ((c.resolve.run s).1.view earlier) :=
    h.enterClass halike hi h₁ htable hc₁
  have hsome : ∀ m ∈ slotted [] c.methods 0, m.slot.isSome := by
    rw [slotted_eq c.methods [] 0 hmethods]
    intro m hm
    obtain ⟨i, hi, rfl⟩ := List.mem_mapIdx.mp hm
    rfl
  have hs₁ : ((Method.resolveAll (slotted [] c.methods 0)).run s₁).2.problems = [] := by
    rw [hrun] at hs; exact hs
  obtain ⟨hresolved, hready'⟩ := Method.resolveAll_resolved _ hready hsome hs₁
  have hms : (c.resolve.run s).1.methods = ((Method.resolveAll (slotted [] c.methods 0)).run s₁).1 := by
    rw [hrun]
  refine ⟨⟨?_, ?_, ?_, hslots, ?_⟩, ?_, ?_⟩
  · rw [halike.ownFields, hfields, halike.fields]
  · refine (firsts_sublist Method.sameAs _ []).eq_of_length ?_
    have hlen := congrArg List.length halike.ownMethods
    have hlen' := congrArg List.length halike.headers
    rw [List.length_map, List.length_map, hmethods] at hlen
    rw [List.length_map, List.length_map] at hlen'
    rw [hlen']
    exact hlen
  · rwa [halike.memberNames]
  · rw [hms]; exact hresolved
  · rwa [halike.name]
  · have hleave : Ready classes _ { View.behindClasses (earlier ++ [(c.resolve.run s).1]) with
        taken := earlier.length + 1 } := hready'.leave rfl
    rw [hrun] at hleave ⊢
    simpa [View.behindClasses] using hleave

theorem resolveAll_resolved (cs : List ClassDecl) : ∀ {s : Scope} {earlier : List ClassDecl},
    Ready classes s (.behindClasses earlier) → classes = earlier ++ ((resolveAll cs).run s).1 →
    (earlier.map (·.name)).Nodup → ((resolveAll cs).run s).2.problems = [] →
    (∀ (i : Nat) c, earlier.length ≤ i → classes[i]? = some c → c.Resolved classes (classes.take i)) ∧
      (classes.map (·.name)).Nodup ∧ Ready classes ((resolveAll cs).run s).2 (.behindClasses classes) := by
  induction cs with
  | nil =>
    intro s earlier h hc hn _
    have hc : classes = earlier := hc.trans (List.append_nil _)
    subst hc
    refine ⟨fun i c hle hi => ?_, hn, h⟩
    rw [List.getElem?_eq_none hle] at hi
    cases hi
  | cons c cs ih =>
    intro s earlier h hc hn hs
    have hc : classes = earlier ++ ((c.resolve.run s).1 :: ((resolveAll cs).run (c.resolve.run s).2).1) := hc
    have hgrows := ClassDecl.resolveAll_grows cs (c.resolve.run s).2
    obtain ⟨hresolved, hname, hready⟩ := c.resolve_resolved h (by rw [hc]; simp) (hgrows.nil hs)
    have hn' : ((earlier ++ [(c.resolve.run s).1]).map (·.name)).Nodup := by
      rw [names_map, List.mem_reverse] at hname
      rw [List.map_append]
      exact (List.perm_append_singleton _ _).nodup_iff.mpr (List.nodup_cons.mpr ⟨hname, hn⟩)
    obtain ⟨hall, hnodup, hready'⟩ := ih hready (by rw [hc]; simp) hn' hs
    refine ⟨fun i d hle hi => ?_, hnodup, hready'⟩
    rcases Nat.eq_or_lt_of_le hle with rfl | hlt
    · have hd : (c.resolve.run s).1 = d := by rw [hc] at hi; simpa using hi
      have htake : classes.take earlier.length = earlier := by rw [hc]; simp
      rw [htake, ← hd]
      exact hresolved
    · exact hall i d (by rw [List.length_append]; exact hlt) hi

end ClassDecl

/-! ## Programs -/

/-- A program without problems of resolution is decorated as lexical scoping says, and so is the scope it leaves. -/
theorem Program.resolve_ready (p : Program) (hs : p.resolve.2.problems = []) : p.resolve.1.Resolved ∧
    Ready p.resolve.1.classes p.resolve.2 ((View.behindClasses p.resolve.1.classes).behindAll p.resolve.1.decls) := by
  cases p with
  | letIn cs decls body =>
    let r := (ClassDecl.resolveAll cs).run .outermost
    let r' := (Decl.resolveAll decls).run r.2
    have hdecls : r'.2.problems = [] := (body.resolve_grows r'.2).nil hs
    have hclasses : r.2.problems = [] := (Decl.resolveAll_grows decls r.2).nil hdecls
    have hready : Ready r.1 .outermost (.behindClasses []) := ⟨outermost_agrees, fun _ _ ht => by cases ht⟩
    obtain ⟨hall, hnodup, hready₁⟩ :=
      ClassDecl.resolveAll_resolved cs hready (List.nil_append _).symm List.nodup_nil hclasses
    obtain ⟨hall', hready₂⟩ := Decl.resolveAll_resolved decls hready₁ hdecls
    obtain ⟨hbody, hready₃⟩ := body.resolve_resolved hready₂ hs
    exact ⟨⟨hnodup, fun i c hi => hall i c (Nat.zero_le i) hi, hall', hbody⟩, hready₃⟩
  | expr body =>
    have hready : Ready [] .outermost (.behindClasses []) := ⟨outermost_agrees, fun _ _ ht => by cases ht⟩
    obtain ⟨hbody, hready₁⟩ := body.resolve_resolved hready hs
    have hempty : ∀ (i : Nat) c, ([] : List ClassDecl)[i]? = some c → c.Resolved [] ([].take i) := by
      intro i c hi
      cases hi
    exact ⟨⟨List.nodup_nil, hempty, trivial, hbody⟩, hready₁⟩

/-- A program without problems of resolution is decorated as lexical scoping says. -/
theorem Program.resolve_resolved (p : Program) (hs : p.resolve.2.problems = []) : p.resolve.1.Resolved :=
  (p.resolve_ready hs).1

end FoolLang
