/-
Where the routines of methods stand. Lowering draws a label for each method of each class, puts the routine of the
method aside under this label, notes the label under the names of the class and of the method, and builds the table
of the class from the labels. Main statements: at the end every method is noted with the label of its own routine,
and no two methods have a routine in common.
-/
import FoolLang.Proofs.Code.Addresses
import FoolLang.Proofs.Code.Structured

namespace FoolLang

open Machine

/-! ## Routines of methods -/

/-- What the declarations and then the body of a method are lowered to. -/
def Method.LowersTo (m : Method) (locals body : List Instruction) : Prop :=
  ∃ b b₁ b₂, Decl.lowerAll m.locals b = .ok locals b₁ ∧ m.body.lower b₁ = .ok body b₂

/--
The routine generated from the parameters, the declarations and the body of a method stands in some code, under a
label and behind so many proper instructions.
-/
def Method.StandsAt (m : Method) (is : List Instruction) (label : String) (t : Nat) : Prop :=
  ∃ before locals body behind, m.LowersTo locals body ∧ (proper before).length = t ∧
    is = before ++ Code.routine label m.header.params.length locals m.locals.length body ++ behind

/-- Between two labels at the same address there is no proper instruction. -/
theorem Machine.label_of_split {l l' : String} {q : Plain} {more behind behind' : List Instruction}
    (h : .label l :: .plain q :: behind = more ++ .label l' :: behind') (hw : width more = 0) : l = l' := by
  cases more with
  | nil =>
    cases h
    rfl
  | cons i more =>
    cases more with
    | nil => cases h
    | cons i' more =>
      cases h
      cases hw

namespace Method.StandsAt

variable {m m' : Method} {is : List Instruction} {l l' : String} {t : Nat}

theorem front (h : m.StandsAt is l t) (more : List Instruction) : m.StandsAt (is ++ more) l t := by
  obtain ⟨before, locals, body, behind, hm, ht, rfl⟩ := h
  exact ⟨before, locals, body, behind ++ more, hm, ht, by simp⟩

theorem back (h : m.StandsAt is l t) (more : List Instruction) :
    m.StandsAt (more ++ is) l ((proper more).length + t) := by
  obtain ⟨before, locals, body, behind, hm, rfl, rfl⟩ := h
  exact ⟨more ++ before, locals, body, behind, hm, by simp, by simp⟩

/-- A routine begins with its label. -/
theorem begins (h : m.StandsAt is l t) : ∃ before behind,
    is = before ++ .label l :: .plain .copyFp :: behind ∧ (proper before).length = t := by
  obtain ⟨before, locals, body, behind, -, ht, rfl⟩ := h
  refine ⟨before, Code.load .ra :: (locals ++ body ++ Code.epilogue m.header.params.length m.locals.length ++ behind),
    ?_, ht⟩
  simp [Code.routine_eq]

theorem names (h : m.StandsAt is l t) : Machine.Names is l t := by
  obtain ⟨before, behind, his, ht⟩ := h.begins
  exact ⟨before, _, his, ht⟩

/-- Routines that begin at the same address have the same label, since a label is all that is in front of it. -/
theorem label_eq (h : m.StandsAt is l t) (h' : m'.StandsAt is l' t) : l = l' := by
  obtain ⟨before, behind, rfl, ht⟩ := h.begins
  obtain ⟨before', behind', heq, ht'⟩ := h'.begins
  rw [length_proper] at ht ht'
  -- One of the two beginnings goes on with the rest of the other, in which nothing proper is left.
  rcases List.append_eq_append_iff.mp heq with ⟨more, rfl, hrest⟩ | ⟨more, rfl, hrest⟩
  · rw [width_append] at ht'
    exact label_of_split hrest (by omega)
  · rw [width_append] at ht
    exact (label_of_split hrest (by omega)).symm

end Method.StandsAt

/-! ## What leaves the labels of methods alone -/

namespace Lowering

variable {α β : Type}

/-- A lowering that notes no method. -/
def NotesNone (x : Lowering α) : Prop := ∀ b a b', x b = .ok a b' → b'.methodLabels = b.methodLabels

namespace NotesNone

variable {x : Lowering α} {f : α → Lowering β}

theorem bind (hx : NotesNone x) (hf : ∀ a, NotesNone (f a)) : NotesNone (x >>= f) := by
  intro b c b' h
  obtain ⟨a, b₁, hrun, hrest⟩ := bind_ok h
  exact (hf a b₁ c b' hrest).trans (hx b a b₁ hrun)

theorem pure (a : α) : NotesNone (Pure.pure a) := by
  intro b c b' h
  cases h
  rfl

theorem freshLabel : NotesNone freshLabel := by
  intro b l b' h
  cases h
  rfl

theorem freshRoutineLabel : NotesNone freshRoutineLabel := by
  intro b l b' h
  cases h
  rfl

theorem putCode (code : List Instruction) : NotesNone (putCode code) := by
  intro b u b' h
  cases h
  rfl

theorem decoration (node : String) (line : Nat) (o : Option α) : NotesNone (decoration node line o) := by
  intro b a b' h
  rw [(decoration_ok h).2]

end NotesNone

end Lowering

open Lowering

mutual

theorem Expr.lower_notesNone : ∀ e : Expr, NotesNone e.lower
  | .int _ _ | .bool _ _ | .null _ => .pure _
  | .binary op a b _ => by
    cases op with
    | and | or =>
      exact .bind .freshLabel fun _ => .bind .freshLabel fun _ => .bind a.lower_notesNone fun _ =>
        .bind b.lower_notesNone fun _ => .pure _
    | plus | minus | times | div =>
      exact .bind a.lower_notesNone fun _ => .bind b.lower_notesNone fun _ => .pure _
    | equal | lessEqual | greaterEqual =>
      exact .bind .freshLabel fun _ => .bind .freshLabel fun _ => .bind a.lower_notesNone fun _ =>
        .bind b.lower_notesNone fun _ => .pure _
  | .not e _ | .print e _ => .bind e.lower_notesNone fun _ => .pure _
  | .cond c a b _ => .bind .freshLabel fun _ => .bind .freshLabel fun _ => .bind c.lower_notesNone fun _ =>
    .bind b.lower_notesNone fun _ => .bind a.lower_notesNone fun _ => .pure _
  | .id _ r l => .bind (.decoration _ l r) fun _ => .pure _
  | .call _ args r l => .bind (.decoration _ l r) fun _ => .bind (Expr.lowerReversed_notesNone args) fun _ => .pure _
  | .new _ args r l => .bind (.decoration _ l r) fun _ => .bind (Expr.lowerAll_notesNone args) fun _ => .pure _
  | .methodCall receiver _ args b l => .bind (.decoration _ l b) fun _ =>
    .bind (Expr.lowerReversed_notesNone args) fun _ => .bind receiver.lower_notesNone fun _ => .pure _

theorem Expr.lowerAll_notesNone : ∀ es : List Expr, NotesNone (Expr.lowerAll es)
  | [] => .pure _
  | e :: es => .bind e.lower_notesNone fun _ => .bind (Expr.lowerAll_notesNone es) fun _ => .pure _

theorem Expr.lowerReversed_notesNone : ∀ es : List Expr, NotesNone (Expr.lowerReversed es)
  | [] => .pure _
  | e :: es => .bind (Expr.lowerReversed_notesNone es) fun _ => .bind e.lower_notesNone fun _ => .pure _

end

mutual

theorem Decl.lower_notesNone : ∀ d : Decl, NotesNone d.lower
  | .var _ _ value _ => value.lower_notesNone
  | .function _ locals body => .bind (Decl.lowerAll_notesNone locals) fun _ => .bind .freshRoutineLabel fun _ =>
    .bind body.lower_notesNone fun _ => .bind (.putCode _) fun _ => .pure _

theorem Decl.lowerAll_notesNone : ∀ ds : List Decl, NotesNone (Decl.lowerAll ds)
  | [] => .pure _
  | d :: ds => .bind (Decl.lower_notesNone d) fun _ => .bind (Decl.lowerAll_notesNone ds) fun _ => .pure _

end

/-! ## Entries -/

/-- A method that is noted with the label of its routine. -/
structure MethodEntry where
  cls : String
  method : Method
  label : String

/-- What a method of a class is noted under. -/
def Method.key (x : String × Method) : String × String := (x.1, x.2.header.name)

/-- The methods of a class, each with the name of the class. -/
def ClassDecl.owned (c : ClassDecl) : List (String × Method) := c.methods.map fun m => (c.name, m)

theorem ClassDecl.fst_of_mem_owned {c : ClassDecl} {x : String × Method} (h : x ∈ c.owned) : x.1 = c.name := by
  obtain ⟨m, -, rfl⟩ := List.mem_map.mp h
  rfl

namespace MethodEntry

/-- The method of an entry, with the name of its class. -/
def subject (e : MethodEntry) : String × Method := (e.cls, e.method)

/-- A table with some methods noted one after the other. -/
def noteAll (labels : Table (String × String) String) (es : List MethodEntry) : Table (String × String) String :=
  es.foldl (fun t e => t.put (Method.key e.subject) e.label) labels

variable {es : List MethodEntry} {e : MethodEntry}

theorem noteAll_append (labels : Table (String × String) String) (es es' : List MethodEntry) :
    noteAll labels (es ++ es') = noteAll (noteAll labels es) es' := List.foldl_append

theorem get?_noteAll_of_not_mem {key : String × String} : ∀ (es : List MethodEntry)
    (labels : Table (String × String) String), key ∉ es.map (Method.key ·.subject) →
      (noteAll labels es).get? key = labels.get? key
  | [], _, _ => rfl
  | e :: es, labels, h => by
    rw [List.map_cons, List.mem_cons, not_or] at h
    have hrest : (noteAll (labels.put (Method.key e.subject) e.label) es).get? key =
        (labels.put (Method.key e.subject) e.label).get? key := get?_noteAll_of_not_mem es _ h.2
    exact hrest.trans (Table.get?_put_ne labels e.label h.1)

/-- Where no two methods are noted under the same names, the label of each is found. -/
theorem get?_noteAll (hn : (es.map (Method.key ·.subject)).Nodup) (he : e ∈ es) :
    ∀ labels : Table (String × String) String, (noteAll labels es).get? (Method.key e.subject) = some e.label := by
  induction es with
  | nil => cases he
  | cons d es ih =>
    intro labels
    obtain ⟨hd, hn⟩ := List.nodup_cons.mp hn
    rcases List.mem_cons.mp he with rfl | he
    · exact (get?_noteAll_of_not_mem es _ hd).trans (Table.get?_put_self labels _ _)
    · exact ih hn he _

/-- What holds of all entries of the methods of a class holds of the methods and their labels, in their order. -/
theorem forall₂_owned {c : ClassDecl} {Q : String × Method → String → Prop} (hes : es.map subject = c.owned)
    (hQ : ∀ e ∈ es, Q e.subject e.label) :
    List.Forall₂ (fun m l => Q (c.name, m) l) c.methods (es.map (·.label)) := by
  have hall : List.Forall₂ Q (es.map subject) (es.map (·.label)) := by
    rw [List.forall₂_map_left_iff, List.forall₂_map_right_iff, List.forall₂_same]
    exact hQ
  rwa [hes, ClassDecl.owned, List.forall₂_map_left_iff] at hall

end MethodEntry

open MethodEntry

/-- From one state to another, some methods have been noted and their routines put aside. -/
structure Records (b b' : CodeBuffer) (es : List MethodEntry) : Prop where
  notes : b'.methodLabels = noteAll b.methodLabels es
  aside : ∃ aside, b'.routines = b.routines ++ aside ∧ (es.map (·.label)).Sublist (defined aside) ∧
    ∀ e ∈ es, ∃ t, e.method.StandsAt aside e.label t

section

variable {b b' b₁ b₂ : CodeBuffer} {is : List Instruction} {es es' : List MethodEntry}

theorem Records.append (h : Records b b₁ es) (h' : Records b₁ b₂ es') : Records b b₂ (es ++ es') := by
  obtain ⟨aside, hr, hs, hstands⟩ := h.aside
  obtain ⟨aside', hr', hs', hstands'⟩ := h'.aside
  refine ⟨by rw [noteAll_append, ← h.notes, h'.notes], aside ++ aside', ?_, ?_, fun e he => ?_⟩
  · rw [hr', hr, List.append_assoc]
  · rw [List.map_append, defined_append]
    exact hs.append hs'
  · rcases List.mem_append.mp he with he | he
    · obtain ⟨t, ht⟩ := hstands e he
      exact ⟨t, ht.front aside'⟩
    · obtain ⟨t, ht⟩ := hstands' e he
      exact ⟨_, ht.back aside⟩

/-- A lowering that notes no method may put routines aside. -/
theorem Records.nil {x : Lowering (List Instruction)} (hx : NotesNone x) (h : x b = .ok is b')
    (hr : Gives b b' is) : Records b b' [] := by
  obtain ⟨aside, n, hl⟩ := hr
  exact ⟨hx b is b' h, aside, hl.routines, List.nil_sublist _, fun _ he => (List.not_mem_nil he).elim⟩

theorem Method.lower_records {m : Method} {label : String} (c : String) (h : m.lower b = .ok label b') :
    Records b { b' with methodLabels := b'.methodLabels.put (c, m.header.name) label } [⟨c, m, label⟩] := by
  rw [Method.lower] at h
  obtain ⟨_, b₁, hlabel, h⟩ := bind_ok h
  obtain ⟨locals, b₂, hlocals, h⟩ := bind_ok h
  obtain ⟨body, b₃, hbody, h⟩ := bind_ok h
  obtain ⟨u, b₄, hput, h⟩ := bind_ok h
  cases hput
  cases h
  obtain ⟨aside, hl, -⟩ := Decl.lowerAll_lowers m.locals hlocals
  have hb := (m.body.lower_lowers hbody).1
  have hnotes : b₃.methodLabels = b.methodLabels := by
    rw [m.body.lower_notesNone _ _ _ hbody, Decl.lowerAll_notesNone m.locals _ _ _ hlocals,
      NotesNone.freshRoutineLabel _ _ _ hlabel]
  have hroutines : b₃.routines = b.routines ++ aside := by
    rw [hb.routines, List.append_nil, hl.routines]
    cases hlabel
    rfl
  refine ⟨?_, aside ++ Code.routine label m.header.params.length locals m.locals.length body, ?_, ?_, fun e he => ?_⟩
  · exact congrArg (·.put (c, m.header.name) label) hnotes
  · exact (congrArg (· ++ _) hroutines).trans (List.append_assoc ..)
  · rw [defined_append, Code.defined_routine]
    exact List.singleton_sublist.mpr (List.mem_append_right _ List.mem_cons_self)
  · rcases List.mem_singleton.mp he with rfl
    exact ⟨_, aside, locals, body, [], ⟨_, _, _, hlocals, hbody⟩, rfl, (List.append_nil _).symm⟩

namespace ClassDecl

theorem lowerMethods_records (c : String) (ms : List Method) :
    ∀ {b b' : CodeBuffer} {slots : List (Int32 × String)}, lowerMethods c ms b = .ok slots b' →
      ∃ es, Records b b' es ∧ es.map subject = ms.map (fun m => (c, m)) ∧ es.map (·.label) = slots.map (·.2) := by
  induction ms with
  | nil =>
    intro b b' slots h
    rw [lowerMethods] at h
    cases h
    exact ⟨[], ⟨rfl, [], (List.append_nil _).symm, .slnil, fun _ he => (List.not_mem_nil he).elim⟩, rfl, rfl⟩
  | cons m ms ih =>
    intro b b' slots h
    rw [lowerMethods] at h
    obtain ⟨slot, b₁, hdecoration, hrest⟩ := bind_ok h
    obtain ⟨-, rfl⟩ := decoration_ok hdecoration
    obtain ⟨label, b₂, hlabel, hrest⟩ := bind_ok hrest
    obtain ⟨_, b₃, hrecord, hrest⟩ := bind_ok hrest
    cases hrecord
    obtain ⟨more, b₄, hmore, hrest⟩ := bind_ok hrest
    cases hrest
    obtain ⟨es, hrecords, hmethods, hlabels⟩ := ih hmore
    refine ⟨⟨c, m, label⟩ :: es, (Method.lower_records c hlabel).append hrecords, ?_, ?_⟩
    · rw [List.map_cons, List.map_cons, hmethods]
      rfl
    · rw [List.map_cons, List.map_cons, hlabels]

/-- The table of a class is built from the labels of its methods, in their order if the slots count upward. -/
theorem lower_records {c : ClassDecl} (h : c.lower b = .ok is b') : ∃ es ls, Records b b' es ∧
    es.map subject = c.owned ∧ is = Code.dispatchTable ls ∧ ls.length = c.methods.length ∧
    ((∀ (i : Nat) m, c.methods[i]? = some m → m.slot = some (.ofNat i)) → c.methods.length < 2 ^ 31 →
      ls = es.map (·.label)) := by
  rw [ClassDecl.lower] at h
  obtain ⟨slots, b₁, hms, h⟩ := bind_ok h
  cases h
  obtain ⟨es, hrecords, hmethods, hlabels⟩ := lowerMethods_records c.name c.methods hms
  refine ⟨es, _, hrecords, hmethods, rfl, ?_, fun hslots hlen => ?_⟩
  · have hlen := congrArg List.length hmethods
    have hlen' := congrArg List.length hlabels
    rw [List.length_map, List.length_map] at hlen hlen'
    rw [List.length_map, List.length_mergeSort, ← hlen', hlen]
  · rw [lowerMethods_sorted hms hslots hlen, hlabels]

theorem lowerAll_records (cs : List ClassDecl) : ∀ {b b' : CodeBuffer} {is : List Instruction},
    lowerAll cs b = .ok is b' → ∃ (es : List MethodEntry) (lss : List (List String)), Records b b' es ∧
      es.map subject = cs.flatMap owned ∧ is = lss.flatMap Code.dispatchTable ∧ lss.length = cs.length := by
  induction cs with
  | nil =>
    intro b b' is h
    rw [lowerAll] at h
    cases h
    refine ⟨[], [], ⟨rfl, [], (List.append_nil _).symm, .slnil, ?_⟩, rfl, rfl, rfl⟩
    exact fun _ he => (List.not_mem_nil he).elim
  | cons c cs ih =>
    intro b b' is h
    rw [lowerAll] at h
    obtain ⟨code, b₁, hc, h⟩ := bind_ok h
    obtain ⟨more, b₂, hcs, h⟩ := bind_ok h
    cases h
    obtain ⟨es, ls, hrecords, hmethods, rfl, -⟩ := lower_records hc
    obtain ⟨es', lss, hrecords', hmethods', rfl, hlen⟩ := ih hcs
    refine ⟨es ++ es', ls :: lss, hrecords.append hrecords', ?_, rfl, congrArg (· + 1) hlen⟩
    rw [List.map_append, hmethods, hmethods', List.flatMap_cons]

/-- A class is lowered from where the classes in front of it have led. -/
theorem lowerAll_at : ∀ (cs : List ClassDecl) (i : Nat) {c : ClassDecl} {b b' : CodeBuffer} {is : List Instruction},
    cs[i]? = some c → lowerAll cs b = .ok is b' → ∃ front b₁ table b₂ more, lowerAll (cs.take i) b = .ok front b₁ ∧
      c.lower b₁ = .ok table b₂ ∧ lowerAll (cs.drop (i + 1)) b₂ = .ok more b' ∧ is = front ++ table ++ more
  | d :: cs, 0, _, _, _, _, hi, h => by
    cases hi
    rw [lowerAll] at h
    obtain ⟨table, b₁, hd, h⟩ := bind_ok h
    obtain ⟨more, b₂, hcs, h⟩ := bind_ok h
    cases h
    exact ⟨[], _, table, b₁, more, rfl, hd, hcs, rfl⟩
  | d :: cs, i + 1, _, _, _, _, hi, h => by
    rw [lowerAll] at h
    obtain ⟨code, b₁, hd, h⟩ := bind_ok h
    obtain ⟨rest, b₂, hcs, h⟩ := bind_ok h
    cases h
    obtain ⟨front, b₃, table, b₄, more, hfront, htable, hmore, rfl⟩ := lowerAll_at cs i hi hcs
    refine ⟨code ++ front, b₃, table, b₄, more, ?_, htable, hmore, by simp only [List.append_assoc]⟩
    rw [List.take_succ_cons, lowerAll]
    simp only [bind, EStateM.bind, hd, hfront]
    rfl

end ClassDecl

end

/-! ## Programs -/

/--
In the code of a program, that of a class declaration ends at some address; it stands behind a first word and the
code of the classes in front of it.
-/
def ClassDecl.BuiltUpTo (c : ClassDecl) (earlier : List ClassDecl) (is : List Instruction) (stop : Nat) : Prop :=
  ∃ front table behind b₁ b₂, ClassDecl.lowerAll earlier .empty = .ok front b₁ ∧ c.lower b₁ = .ok table b₂ ∧
    is = [.push 0] ++ front ++ table ++ behind ∧ (proper ([.push 0] ++ front ++ table)).length = stop

/-- The code that pushes a first word and builds some tables and one more. -/
def Code.tables (lss : List (List String)) (ls : List String) : List Instruction :=
  [.push 0] ++ lss.flatMap dispatchTable ++ dispatchTable ls

/-- Each method is noted with the label of its own routine, and no two methods have a label or a routine in common. -/
structure Program.Noted (p : Program) (is : List Instruction) (labels : Table (String × String) String) : Prop where
  own : ∀ x ∈ p.classes.flatMap ClassDecl.owned, ∃ l t, labels.get? (Method.key x) = some l ∧ x.2.StandsAt is l t
  distinct : (p.classes.flatMap ClassDecl.owned).Pairwise fun x y => ∀ l l', labels.get? (Method.key x) = some l →
    labels.get? (Method.key y) = some l' → l ≠ l' ∧ ∀ t t', x.2.StandsAt is l t → y.2.StandsAt is l' t' → t ≠ t'

/-- All methods of a program are noted, and their routines stand in some code. -/
structure Program.Enters (p : Program) (is : List Instruction) (labels : Table (String × String) String)
    (es : List MethodEntry) : Prop where
  methods : es.map subject = p.classes.flatMap ClassDecl.owned
  notes : labels = noteAll .empty es
  nodup : (es.map (·.label)).Nodup
  stands : ∀ e ∈ es, ∃ t, e.method.StandsAt is e.label t

section

variable {p : Program} {is main : List Instruction} {b : CodeBuffer} {es : List MethodEntry}
  {labels : Table (String × String) String}

/-- No two methods of a sound program are noted under the same names. -/
theorem Program.Sound.keys_nodup (hp : p.Sound) : ((p.classes.flatMap ClassDecl.owned).map Method.key).Nodup := by
  rw [List.map_flatMap]
  refine List.nodup_flatMap.mpr ⟨fun c hc => ?_, ?_⟩
  · obtain ⟨i, hi⟩ := List.getElem?_of_mem hc
    have hclass := hp.classes i c hi
    have hn := hclass.distinct
    rw [ClassDecl.memberNames, List.map_reverse, List.nodup_reverse, List.map_append, ClassDecl.methodNames_map,
      hclass.methods] at hn
    have hnames := (List.nodup_append.mp hn).2.1
    rw [ClassDecl.owned, List.map_map]
    refine List.Nodup.of_map Prod.snd ?_
    rw [List.map_map]
    exact hnames
  · refine (List.pairwise_map.mp hp.distinct).imp fun {c d} hne x hx hy => hne ?_
    obtain ⟨y, hyc, rfl⟩ := List.mem_map.mp hx
    obtain ⟨z, hzd, heq⟩ := List.mem_map.mp hy
    rw [← ClassDecl.fst_of_mem_owned hyc, ← ClassDecl.fst_of_mem_owned hzd]
    exact (congrArg Prod.fst heq).symm

namespace Program.Enters

theorem keys_nodup (h : p.Enters is labels es) (hp : p.Sound) : (es.map (Method.key ·.subject)).Nodup := by
  have hkeys := hp.keys_nodup
  rwa [← h.methods, List.map_map] at hkeys

/-- Each method is found under its names, with the label of its own routine. -/
theorem find (h : p.Enters is labels es) (hp : p.Sound) {e : MethodEntry} (he : e ∈ es) :
    labels.get? (Method.key e.subject) = some e.label ∧ ∃ t, e.method.StandsAt is e.label t := by
  rw [h.notes]
  exact ⟨get?_noteAll (h.keys_nodup hp) he _, h.stands e he⟩

/-- Where all methods are entered, each with a label of its own, they are told apart by what is noted. -/
theorem noted (h : p.Enters is labels es) (hp : p.Sound) : p.Noted is labels := by
  constructor
  · intro x hx
    rw [← h.methods] at hx
    obtain ⟨e, he, rfl⟩ := List.mem_map.mp hx
    obtain ⟨hlabel, t, ht⟩ := h.find hp he
    exact ⟨e.label, t, hlabel, ht⟩
  · rw [← h.methods, List.pairwise_map]
    refine (List.pairwise_map.mp h.nodup).imp_of_mem fun {e e'} he he' hne l l' hl hl' => ?_
    cases hl.symm.trans (h.find hp he).1
    cases hl'.symm.trans (h.find hp he').1
    refine ⟨hne, ?_⟩
    rintro t _ ht ht' rfl
    exact hne (ht.label_eq ht')

end Program.Enters

/-- What has been noted and put aside when the main code is complete is all there is. -/
theorem Records.enters (h : Records .empty b es) (hes : es.map subject = p.classes.flatMap ClassDecl.owned)
    (hn : (defined b.routines).Nodup) (main : List Instruction) : p.Enters (main ++ b.routines) b.methodLabels es := by
  obtain ⟨aside, hr, hs, hstands⟩ := h.aside
  have hr : b.routines = aside := hr
  rw [hr] at hn ⊢
  refine ⟨hes, h.notes, hs.nodup hn, fun e he => ?_⟩
  obtain ⟨t, ht⟩ := hstands e he
  exact ⟨_, ht.back main⟩

namespace Program

theorem lowerMain_nodup (h : p.lowerMain .empty = .ok main b) : (defined b.routines).Nodup := by
  obtain ⟨code, -, aside, n, hl⟩ := lowerMain_gives h
  have hr : b.routines = aside := hl.routines
  rw [hr]
  exact (List.nodup_append.mp hl.draws.nodup).2.1

/-- Behind the classes, no more methods are noted. -/
theorem lowerMain_letIn {classes : List ClassDecl} {decls : List Decl} {body : Expr}
    (h : (letIn classes decls body).lowerMain .empty = .ok main b) : ∃ front b₁ rest,
      ClassDecl.lowerAll classes .empty = .ok front b₁ ∧ Records b₁ b [] ∧ main = [.push 0] ++ front ++ rest := by
  rw [lowerMain] at h
  obtain ⟨front, b₁, hclasses, h⟩ := bind_ok h
  obtain ⟨declCode, b₂, hdecls, h⟩ := bind_ok h
  obtain ⟨bodyCode, b₃, hbody, h⟩ := bind_ok h
  cases h
  have hquiet := (Records.nil (Decl.lowerAll_notesNone decls) hdecls (Decl.lowerAll_lowers decls hdecls).gives).append
    (Records.nil body.lower_notesNone hbody (body.lower_lowers hbody).with.gives)
  exact ⟨front, b₁, declCode ++ bodyCode ++ [.plain .halt], hclasses, hquiet, by simp⟩

theorem lowerMain_enters (h : p.lowerMain .empty = .ok main b) :
    ∃ es, p.Enters (main ++ b.routines) b.methodLabels es := by
  cases p with
  | letIn classes decls body =>
    obtain ⟨front, b₁, rest, hclasses, hquiet, -⟩ := lowerMain_letIn h
    obtain ⟨es, -, hrecords, hes, -⟩ := ClassDecl.lowerAll_records classes hclasses
    refine ⟨es ++ [], (hrecords.append hquiet).enters ?_ (lowerMain_nodup h) main⟩
    rw [List.append_nil]
    exact hes
  | expr body =>
    have hnodup := lowerMain_nodup h
    rw [lowerMain] at h
    obtain ⟨bodyCode, b₁, hbody, h⟩ := bind_ok h
    cases h
    have hquiet := Records.nil body.lower_notesNone hbody (body.lower_lowers hbody).with.gives
    exact ⟨[], hquiet.enters rfl hnodup _⟩

/--
The code of a class in a program is that of its table, behind tables of the classes in front of it. If its methods
are few enough to have different slots, the table is built from the labels of its methods in their order.
-/
theorem lowerMain_class (h : p.lowerMain .empty = .ok main b) (hp : p.Sound) {i : Nat} {c : ClassDecl}
    (hi : p.classes[i]? = some c) : ∃ (lss : List (List String)) (ls : List String) (behind : List Instruction)
      (stop : Nat), c.BuiltUpTo (p.classes.take i) (main ++ b.routines) stop ∧
        main ++ b.routines = Code.tables lss ls ++ behind ∧ width (Code.tables lss ls) = stop ∧
        lss.length = i ∧ ls.length = c.methods.length ∧
        (c.methods.length < 2 ^ 31 → List.Forall₂ (fun m l => b.methodLabels.get? (c.name, m.header.name) = some l ∧
          ∃ t, m.StandsAt (main ++ b.routines) l t) c.methods ls) := by
  cases p with
  | expr body => cases hi
  | letIn classes decls body =>
    have hi : classes[i]? = some c := hi
    have hnodup := lowerMain_nodup h
    obtain ⟨code, b₃, rest, hclasses, hquiet, rfl⟩ := lowerMain_letIn h
    obtain ⟨front, b₁, table, b₂, more, hfront, hc, hmore, rfl⟩ := ClassDecl.lowerAll_at classes i hi hclasses
    obtain ⟨es₁, lss, hrecords₁, hes₁, hlss, hlen⟩ := ClassDecl.lowerAll_records _ hfront
    obtain ⟨es₂, ls, hrecords₂, hes₂, hls, hcount, hlabels⟩ := ClassDecl.lower_records hc
    obtain ⟨es₃, -, hrecords₃, hes₃, -⟩ := ClassDecl.lowerAll_records _ hmore
    -- The entries of the classes in front, of this class and of those behind it are all there are.
    have hes : (es₁ ++ es₂ ++ es₃ ++ []).map subject = classes.flatMap ClassDecl.owned := by
      obtain ⟨hlt, hget⟩ := List.getElem?_eq_some_iff.mp hi
      have hsplit : classes.take i ++ c :: classes.drop (i + 1) = classes := by
        rw [← hget, List.getElem_cons_drop, List.take_append_drop]
      rw [← hsplit]
      simp only [List.map_append, hes₁, hes₂, hes₃, List.flatMap_append, List.flatMap_cons, List.append_assoc,
        List.append_nil]
    have henters := (((hrecords₁.append hrecords₂).append hrecords₃).append hquiet).enters
      (p := letIn classes decls body) hes hnodup ([.push 0] ++ (front ++ table ++ more) ++ rest)
    refine ⟨lss, ls, more ++ rest ++ b.routines, _, ?_, ?_, rfl, ?_, hcount, fun hfew => ?_⟩
    · exact ⟨front, table, more ++ rest ++ b.routines, b₁, b₂, hfront, hc, by simp only [List.append_assoc],
        by rw [length_proper, hlss, hls, Code.tables]⟩
    · simp only [hlss, hls, Code.tables, List.append_assoc]
    · rw [hlen, List.length_take]
      exact Nat.min_eq_left (List.getElem?_eq_some_iff.mp hi).1.le
    · rw [hlabels (hp.classes i c hi).slots hfew]
      refine forall₂_owned (Q := fun x l => b.methodLabels.get? (Method.key x) = some l ∧
        ∃ t, x.2.StandsAt _ l t) hes₂ fun e he => henters.find hp ?_
      simp [he]

end Program

end

end FoolLang
