/-
What resolution does to the members of a class: which fields and methods it binds, at which
offsets, and which problems it reports of them.
-/
import FoolLang.Proofs.Scoping.Agreement

namespace FoolLang

namespace Scope

variable {s : Scope} {v w : View} {name kind : String} {b : Binding} {type : Ty} {line : Nat}

/-- The problems reported so far whose causes pass a test. -/
def matching (q : Cause → Bool) (s : Scope) : List Diagnostic := s.problems.filter (q ·.cause)

/-- A test that passes no causes but those of names that are not visible and of repeated methods. -/
def OfNames (q : Cause → Bool) : Prop :=
  ∀ c, (c.isNotDeclared || c.isDuplicateMethod) = false → q c = false

/-- A test that passes no cause of a declaration but that of a repeated method. -/
structure PassesOver (q : Cause → Bool) : Prop where
  declared : ∀ kind name, q (.alreadyDeclared kind name) = false
  field : ∀ c name, q (.duplicateField c name) = false

variable {q : Cause → Bool}

theorem OfNames.passesOver (hq : OfNames q) : PassesOver q := ⟨fun _ _ => hq _ rfl, fun _ _ => hq _ rfl⟩

theorem report_matching (c : Cause) (h : q c = false) : (s.report c line).matching q = s.matching q := by
  simp [report, matching, h]

theorem declare_matching (hq : PassesOver q) :
    (s.declare kind name b line).matching q = s.matching q := by
  unfold declare
  split
  · rfl
  · split
    · rw [report_matching _ (hq.declared _ _)]; rfl
    · rfl

theorem declare_classes : (s.declare kind name b line).classes = s.classes := by
  unfold declare
  split
  · rfl
  · split <;> rfl

theorem declareNext_matching (hq : PassesOver q) :
    (s.declareNext kind name type line).matching q = s.matching q :=
  declare_matching hq

theorem declareParams_matching (hq : PassesOver q) (params : List Formal) :
    ∀ (s : Scope) (offset : Int32), (s.declareParams params offset).matching q = s.matching q := by
  induction params with
  | nil => exact fun _ _ => rfl
  | cons p ps ih => intro s offset; rw [declareParams, ih, declare_matching hq]

theorem declareClass_matching (hq : PassesOver q) :
    (s.declareClass name b line).matching q = s.matching q := by
  unfold declareClass
  split
  · rfl
  · split
    · rw [report_matching _ (hq.declared _ _)]; rfl
    · rfl

end Scope

theorem Method.resolveAll_cons_none {m : Method} (hm : m.slot = none) (ms : List Method) (s : Scope) :
    (Method.resolveAll (m :: ms)).run s =
      (m :: ((Method.resolveAll ms).run s).1, ((Method.resolveAll ms).run s).2) := by
  rw [Method.resolveAll, hm]; rfl

theorem Method.resolveAll_cons_some {m : Method} {slot : Int32} (hm : m.slot = some slot)
    (ms : List Method) (s : Scope) :
    (Method.resolveAll (m :: ms)).run s =
      ((m.resolve.run s).1 :: ((Method.resolveAll ms).run (m.resolve.run s).2).1,
        ((Method.resolveAll ms).run (m.resolve.run s).2).2) := by
  rw [Method.resolveAll, hm]; rfl

/-- Resolving methods changes neither their headers nor their slots. -/
theorem Method.resolveAll_map (ms : List Method) : ∀ s : Scope,
    ((Method.resolveAll ms).run s).1.map (·.header) = ms.map (·.header) ∧
      ((Method.resolveAll ms).run s).1.map (·.slot) = ms.map (·.slot) := by
  induction ms with
  | nil => exact fun _ => ⟨rfl, rfl⟩
  | cons m ms ih =>
    intro s
    cases hm : m.slot with
    | none =>
      obtain ⟨hheaders, hslots⟩ := ih s
      rw [Method.resolveAll_cons_none hm]
      exact ⟨by rw [List.map_cons, List.map_cons, hheaders], by rw [List.map_cons, List.map_cons, hslots]⟩
    | some slot =>
      obtain ⟨hheaders, hslots⟩ := ih (m.resolve.run s).2
      rw [Method.resolveAll_cons_some hm]
      exact ⟨by rw [List.map_cons, List.map_cons, hheaders]; rfl,
        by rw [List.map_cons, List.map_cons, hslots]; rfl⟩

theorem Method.sameAs_congr {m m' n n' : Method} (hm : m.header = m'.header) (hn : n.header = n'.header) :
    m.sameAs n = m'.sameAs n' := by rw [Method.sameAs, Method.sameAs, hm, hn]

theorem any_sameAs_congr {m m' : Method} (hm : m.header = m'.header) : ∀ {ms ns : List Method},
    ms.map (·.header) = ns.map (·.header) → ms.any m.sameAs = ns.any m'.sameAs
  | [], [], _ => rfl
  | n :: ms, n' :: ns, h => by
    rw [List.map_cons, List.map_cons, List.cons.injEq] at h
    rw [List.any_cons, List.any_cons, Method.sameAs_congr hm h.1, any_sameAs_congr hm h.2]

theorem firsts_sublist {α : Type} (same : α → α → Bool) (as : List α) :
    ∀ earlier, (firsts same earlier as).Sublist as := by
  induction as with
  | nil => exact fun _ => .slnil
  | cons a as ih =>
    intro earlier
    rw [firsts]
    split
    · exact (ih _).cons a
    · exact (ih _).cons_cons a

/-- Which methods are repetitions depends on the headers alone, so lists that agree in these keep agreeing. -/
theorem firsts_map_congr {α : Type} {f : Method → α} {ms : List Method} : ∀ {ms' earlier earlier' : List Method},
    earlier'.map (·.header) = earlier.map (·.header) → ms'.map (·.header) = ms.map (·.header) → ms'.map f = ms.map f →
    (firsts Method.sameAs earlier' ms').map f = (firsts Method.sameAs earlier ms).map f := by
  induction ms with
  | nil =>
    intro ms' _ _ _ h _
    rw [List.map_eq_nil_iff.mp h]; rfl
  | cons m ms ih =>
    intro ms' earlier earlier' he h hf
    obtain ⟨m', ms'', rfl, hm, hms⟩ := List.map_eq_cons_iff.mp h
    rw [List.map_cons, List.map_cons, List.cons.injEq] at hf
    have hnext : (m' :: earlier').map (·.header) = (m :: earlier).map (·.header) := by
      rw [List.map_cons, List.map_cons, hm, he]
    rw [firsts, firsts, any_sameAs_congr hm he]
    split
    · exact ih hnext hms hf.2
    · rw [List.map_cons, List.map_cons, hf.1, ih hnext hms hf.2]

namespace ClassDecl

open Scope

variable {q : Cause → Bool}

/-! ## Fields -/

theorem offset_pred (n : Nat) : Int32.ofInt (-1 - n) - 1 = .ofInt (-1 - (n + 1 : Nat)) := by
  rw [show (1 : Int32) = .ofInt 1 from rfl, ← Int32.ofInt_sub]
  congr 1; omega

theorem declareFields_cons (c : String) (earlier : List Formal) (f : Formal) (fs : List Formal) (offset : Int32)
    (s : Scope) : (declareFields c earlier (f :: fs) offset).run s =
      if earlier.any f.sameAs then
        (declareFields c (f :: earlier) fs offset).run (s.report (.duplicateField c f.name) f.line)
      else
        let r := (declareFields c (f :: earlier) fs (offset - 1)).run
          (s.declare "Field" f.name ⟨s.level, f.type, offset, false⟩ f.line)
        (f.type :: r.1, r.2) := by
  have hsame : (earlier.any fun g => g.name == f.name && g.type == f.type) = earlier.any f.sameAs := rfl
  rw [declareFields, hsame]
  split <;> rfl

theorem declareFields_run (c : String) (fs : List Formal) :
    ∀ {s : Scope} {v : View} (earlier : List Formal) (k : Nat), s.Agrees v →
      ∃ s', (declareFields c earlier fs (.ofInt (-1 - k))).run s =
          ((firsts Formal.sameAs earlier fs).map (·.type), s') ∧
        s'.Agrees (v.add ((firsts Formal.sameAs earlier fs).mapIdx fun i f =>
          (f.name, ⟨v.depth, f.type, .ofInt (-1 - (k + i : Nat)), false⟩)).reverse) ∧
        s'.classes = s.classes ∧ ∀ q, PassesOver q → s'.matching q = s.matching q := by
  induction fs with
  | nil => exact fun _ _ h => ⟨_, rfl, h, rfl, fun _ _ => rfl⟩
  | cons f fs ih =>
    intro s v earlier k h
    have hsame : (earlier.any fun g => g.name == f.name && g.type == f.type) =
        earlier.any (Formal.sameAs f) := rfl
    rw [declareFields, hsame, firsts]
    by_cases hf : earlier.any (Formal.sameAs f) = true
    · obtain ⟨s', hrun, hs', hc, hm⟩ := ih (f :: earlier) k (h.report (.duplicateField c f.name) f.line)
      rw [if_pos hf, if_pos hf]
      exact ⟨s', hrun, hs', hc, fun q hq => by rw [hm q hq, report_matching _ (hq.field _ _)]⟩
    · have hfield : (s.declare "Field" f.name ⟨s.level, f.type, .ofInt (-1 - k), false⟩ f.line).Agrees
          (v.add [(f.name, ⟨s.level, f.type, .ofInt (-1 - k), false⟩)]) := h.declare
      obtain ⟨s', hrun, hs', hc, hm⟩ := ih (f :: earlier) (k + 1) hfield
      rw [if_neg hf, if_neg hf, offset_pred]
      refine ⟨s', ?_, ?_, hc.trans declare_classes, fun q hq => by rw [hm q hq, declare_matching hq]⟩
      · exact congrArg (fun r : List Ty × Scope => (f.type :: r.1, r.2)) hrun
      · have hshift : ∀ i, k + 1 + i = k + (i + 1) := fun i => by omega
        rw [View.add_add, View.add_depth, h.level] at hs'
        simp only [hshift] at hs'
        rwa [List.mapIdx_cons, List.reverse_cons]

/-! ## Methods -/

/-- Methods with the slots that resolution gives them, from a slot upward; repetitions get none. -/
def slotted (earlier : List Method) : List Method → Nat → List Method
  | [], _ => []
  | m :: ms, k =>
    if earlier.any m.sameAs then m :: slotted (m :: earlier) ms k
    else { m with slot := some (.ofNat k) } :: slotted (m :: earlier) ms (k + 1)

/-- The methods that resolution gives slots to, from a slot upward. -/
def withSlots (earlier ms : List Method) (k : Nat) : List Method := (slotted earlier ms k).filter (·.slot.isSome)

/-- Resolution gives slots to the methods that are not repetitions. -/
theorem withSlots_map {α : Type} {f : Method → α} (hf : ∀ m slot, f { m with slot } = f m) (ms : List Method) :
    ∀ (earlier : List Method) (k : Nat), (∀ m ∈ ms, m.slot = none) →
      (withSlots earlier ms k).map f = (firsts Method.sameAs earlier ms).map f := by
  induction ms with
  | nil => exact fun _ _ _ => rfl
  | cons m ms ih =>
    intro earlier k hslots
    obtain ⟨hm, hms⟩ := List.forall_mem_cons.mp hslots
    rw [withSlots, slotted, firsts]
    split
    · rw [List.filter_cons_of_neg (by simp [hm])]
      exact ih _ _ hms
    · rw [List.filter_cons_of_pos rfl, List.map_cons, List.map_cons, hf]
      exact congrArg _ (ih _ _ hms)

/-- To resolve methods is to resolve those with slots, which are afterwards those that are not repetitions. -/
theorem resolveAll_slotted (ms : List Method) : ∀ (earlier earlier' : List Method) (k : Nat) (s : Scope),
    (∀ m ∈ ms, m.slot = none) → earlier'.map (·.header) = earlier.map (·.header) →
    firsts Method.sameAs earlier' ((Method.resolveAll (slotted earlier ms k)).run s).1 =
        ((Method.resolveAll (withSlots earlier ms k)).run s).1 ∧
      ((Method.resolveAll (slotted earlier ms k)).run s).2 =
        ((Method.resolveAll (withSlots earlier ms k)).run s).2 := by
  induction ms with
  | nil => exact fun _ _ _ _ _ _ => ⟨rfl, rfl⟩
  | cons m ms ih =>
    intro earlier earlier' k s hslots he
    obtain ⟨hm, hms⟩ := List.forall_mem_cons.mp hslots
    rw [withSlots, slotted]
    by_cases hsame : earlier.any m.sameAs = true
    · have hsame' : earlier'.any m.sameAs = true := (any_sameAs_congr rfl he).trans hsame
      rw [if_pos hsame, Method.resolveAll_cons_none hm, firsts, if_pos hsame', List.filter_cons_of_neg (by simp [hm])]
      exact ih _ _ k s hms (by rw [List.map_cons, List.map_cons, he])
    · generalize hm' : ({ m with slot := some (.ofNat k) } : Method) = m'
      have hslot : m'.slot = some (.ofNat k) := by rw [← hm']
      have hheader : (m'.resolve.run s).1.header = m.header := by rw [← hm']; rfl
      have hsame' : ¬ earlier'.any (m'.resolve.run s).1.sameAs = true := by rwa [any_sameAs_congr hheader he]
      obtain ⟨hown, hend⟩ := ih (m :: earlier) ((m'.resolve.run s).1 :: earlier') (k + 1) (m'.resolve.run s).2 hms
        (by rw [List.map_cons, List.map_cons, he, hheader])
      rw [if_neg hsame, List.filter_cons_of_pos (by rw [hslot]; rfl), Method.resolveAll_cons_some hslot,
        Method.resolveAll_cons_some hslot, firsts, if_neg hsame']
      exact ⟨congrArg _ hown, hend⟩

theorem declareMethods_cons (c : String) (earlier : List Method) (m : Method) (ms : List Method) (slot : Int32)
    (s : Scope) : (declareMethods c earlier (m :: ms) slot).run s =
      if earlier.any m.sameAs then
        let r := (declareMethods c (m :: earlier) ms slot).run
          (s.report (.duplicateMethod c m.header.name) m.header.line)
        ((m :: r.1.1, r.1.2), r.2)
      else
        let r := (declareMethods c (m :: earlier) ms (slot + 1)).run (s.declare "Method" m.header.name
          ⟨s.level, .arrow m.header.signature, slot, true⟩ m.header.line)
        (({ m with slot := some slot } :: r.1.1, m.header.signature :: r.1.2), r.2) := by
  rw [declareMethods]
  split <;> rfl

theorem declareMethods_run (c : String) (ms : List Method) :
    ∀ {s : Scope} {v : View} (earlier : List Method) (k : Nat), s.Agrees v →
      ∃ s', (declareMethods c earlier ms (.ofNat k)).run s =
          ((slotted earlier ms k, (firsts Method.sameAs earlier ms).map (·.header.signature)), s') ∧
        s'.Agrees (v.add ((firsts Method.sameAs earlier ms).mapIdx fun i m =>
          (m.header.name, ⟨v.depth, .arrow m.header.signature, .ofNat (k + i), true⟩)).reverse) ∧
        s'.classes = s.classes ∧ ∀ q, PassesOver q → s'.matching q = s.matching q ++
          ((repeats Method.sameAs earlier ms).map (Method.repetition c)).filter (q ·.cause) := by
  induction ms with
  | nil => exact fun _ _ h => ⟨_, rfl, h, rfl, fun _ _ => by simp [repeats]⟩
  | cons m ms ih =>
    intro s v earlier k h
    rw [declareMethods, firsts, repeats, slotted]
    by_cases hm : earlier.any m.sameAs = true
    · obtain ⟨s', hrun, hs', hc, hq'⟩ :=
        ih (m :: earlier) k (h.report (.duplicateMethod c m.header.name) m.header.line)
      rw [if_pos hm, if_pos hm, if_pos hm, if_pos hm]
      refine ⟨s', congrArg (fun r : (List Method × List Signature) × Scope => ((m :: r.1.1, r.1.2), r.2)) hrun, hs',
        hc, fun q hq => ?_⟩
      rw [hq' q hq, List.map_cons, List.filter_cons]
      by_cases hd : q (.duplicateMethod c m.header.name) = true
      · simp [Scope.report, Scope.matching, Method.repetition, hd]
      · simp [Scope.report, Scope.matching, Method.repetition, hd]
    · have hmethod : (s.declare "Method" m.header.name
          ⟨s.level, .arrow m.header.signature, .ofNat k, true⟩ m.header.line).Agrees
          (v.add [(m.header.name, ⟨s.level, .arrow m.header.signature, .ofNat k, true⟩)]) := h.declare
      obtain ⟨s', hrun, hs', hc, hq'⟩ := ih (m :: earlier) (k + 1) hmethod
      rw [if_neg hm, if_neg hm, if_neg hm, if_neg hm, ofNat_succ]
      refine ⟨s', ?_, ?_, hc.trans declare_classes, fun q hq => by rw [hq' q hq, declare_matching hq]⟩
      · exact congrArg (fun r : (List Method × List Signature) × Scope =>
          (({ m with slot := some (.ofNat k) } :: r.1.1, m.header.signature :: r.1.2), r.2)) hrun
      · have hshift : ∀ i, k + 1 + i = k + (i + 1) := fun i => by omega
        rw [View.add_add, View.add_depth, h.level] at hs'
        simp only [hshift] at hs'
        rwa [List.mapIdx_cons, List.reverse_cons]

/-! ## Classes -/

theorem names_append (earlier : List ClassDecl) (c : ClassDecl) : names (earlier ++ [c]) =
    (c.name, ⟨0, c.type, View.offset earlier.length, false⟩) :: names earlier := by
  simp [names, List.mapIdx_append]

theorem declareClass_classes {s : Scope} {name : String} {b : Binding} {line : Nat} :
    (s.declareClass name b line).classes = s.classes := by
  unfold declareClass
  split
  · rfl
  · split <;> rfl

theorem resolve_run (c : ClassDecl) (s : Scope) : c.resolve.run s =
    let r₁ := (declareFields c.name [] c.fields (-1)).run s.enter
    let r₂ := (declareMethods c.name [] c.methods 0).run r₁.2
    let s₂ := { r₂.2 with classes := r₂.2.classes.put c.name (r₂.2.frames.headD .empty) }
    let r₃ := (Method.resolveAll r₂.1.1).run
      (s₂.declareClass c.name ⟨0, .cls r₁.1 r₂.1.2, s.nextOffset, false⟩ c.line)
    ({ c with methods := r₃.1 }, r₃.2.leave (s.nextOffset - 1)) := rfl

/--
The methods of a class with the slots that they have been given, and the scope in which their insides are resolved.
-/
def entered (c : ClassDecl) (s : Scope) : List Method × Scope :=
  let r₁ := (declareFields c.name [] c.fields (-1)).run s.enter
  let r₂ := (declareMethods c.name [] c.methods 0).run r₁.2
  let s₂ := { r₂.2 with classes := r₂.2.classes.put c.name (r₂.2.frames.headD .empty) }
  (r₂.1.1, s₂.declareClass c.name ⟨0, .cls r₁.1 r₂.1.2, s.nextOffset, false⟩ c.line)

theorem resolve_entered (c : ClassDecl) (s : Scope) : c.resolve.run s =
    let r := (Method.resolveAll (c.entered s).1).run (c.entered s).2
    ({ c with methods := r.1 }, r.2.leave (s.nextOffset - 1)) := rfl

/--
Behind some classes, the insides of the methods of a class are resolved from a scope that agrees with the view in the
class. By then its table is entered, and just its repeated methods have been reported.
-/
theorem entered_agrees (c : ClassDecl) {s : Scope} {earlier : List ClassDecl} (h : s.Agrees (.behindClasses earlier)) :
    (c.entered s).1 = slotted [] c.methods 0 ∧ (c.entered s).2.Agrees (c.view earlier) ∧
      (∃ table, Shows table c.memberNames ∧ (c.entered s).2.classes = s.classes.put c.name table) ∧
      ∀ q, PassesOver q → (c.entered s).2.matching q = s.matching q ++
        (c.repeatedMethods.map (Method.repetition c.name)).filter (q ·.cause) := by
  obtain ⟨s₁, hrun₁, h₁, hc₁, hm₁⟩ := declareFields_run c.name c.fields [] 0 h.enter
  obtain ⟨s₂, hrun₂, h₂, hc₂, hm₂⟩ := declareMethods_run c.name c.methods [] 0 h₁
  have hview : s₂.Agrees ⟨c.memberNames, [names earlier], 0⟩ := by
    simpa [View.add, View.depth, View.scopes, View.behindClasses, memberNames, fieldNames,
      methodNames, ownFields, ownMethods] using h₂
  have hfields : (declareFields c.name [] c.fields (-1)).run s.enter =
      (c.ownFields.map (·.type), s₁) := hrun₁
  have hmethods : (declareMethods c.name [] c.methods 0).run s₁ =
      ((slotted [] c.methods 0, c.ownMethods.map (·.header.signature)), s₂) := hrun₂
  have htable : Shows (s₂.frames.headD .empty) c.memberNames := by
    cases hs : s₂.frames with
    | nil => have := hview.frames; rw [hs] at this; cases this
    | cons t ts =>
      have hframes := hview.frames
      rw [hs] at hframes
      exact (List.forall₂_cons.mp hframes).1
  have hoffset : View.offset earlier.length = s.nextOffset := h.offset.symm
  let s₃ : Scope := { s₂ with classes := s₂.classes.put c.name (s₂.frames.headD .empty) }
  have hview₃ : s₃.Agrees ⟨c.memberNames, [names earlier], 0⟩ :=
    ⟨hview.frames, hview.level, hview.offset⟩
  have hentered : c.entered s = (slotted [] c.methods 0,
      s₃.declareClass c.name ⟨0, c.type, s.nextOffset, false⟩ c.line) := by
    rw [entered, hfields]
    simp only [hmethods]
    rfl
  rw [hentered]
  refine ⟨rfl, ?_, ⟨_, htable, ?_⟩, fun q hq => ?_⟩
  · rw [view, names_append, hoffset]
    exact hview₃.declareClass
  · rw [declareClass_classes]
    show s₂.classes.put _ _ = _
    rw [hc₂, hc₁]; rfl
  · rw [declareClass_matching hq]
    show s₂.matching q = _
    rw [hm₂ q hq, hm₁ q hq]; rfl

/--
A class is resolved by resolving its methods, with their slots, from a scope that agrees with the view in the class.
-/
theorem resolve_enters (c : ClassDecl) {s : Scope} {earlier : List ClassDecl}
    (h : s.Agrees (.behindClasses earlier)) :
    ∃ s' table, s'.Agrees (c.view earlier) ∧ Shows table c.memberNames ∧
      s'.classes = s.classes.put c.name table ∧
      (∀ q, PassesOver q → s'.matching q = s.matching q ++
        (c.repeatedMethods.map (Method.repetition c.name)).filter (q ·.cause)) ∧
      c.resolve.run s =
        ({ c with methods := ((Method.resolveAll (slotted [] c.methods 0)).run s').1 },
          ((Method.resolveAll (slotted [] c.methods 0)).run s').2.leave
            (View.offset (earlier.length + 1))) := by
  obtain ⟨hslotted, hagrees, ⟨table, htable, hclasses⟩, hmatching⟩ := c.entered_agrees h
  have hoffset : s.nextOffset = View.offset earlier.length := h.offset
  refine ⟨_, table, hagrees, htable, hclasses, hmatching, ?_⟩
  rw [resolve_entered, hslotted, hoffset, offset_succ]

end ClassDecl

end FoolLang
