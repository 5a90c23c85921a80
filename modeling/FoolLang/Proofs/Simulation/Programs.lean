/-
The machine runs programs: it begins with the dispatch tables of the classes, and from there it evaluates the
declarations and the body, whose value stands on top of the stack where the program halts.
-/
import FoolLang.Proofs.Simulation.Routines

namespace FoolLang

open Machine

variable {p : Program} {code : Array Op} {c c' c'' : Config} {a b e : Nat}

/-! ## Dispatch tables -/

/-- A path inside a piece of code by which some words come to stand on the stack and some others on the heap. -/
structure Puts (code : Array Op) (a b : Nat) (c c' : Config) (words cells : List Int32) : Prop where
  path : Path code (Between a b c.level) c c'
  le : a ≤ b
  ip : c'.ip = b
  stack : c'.stack = words ++ c.stack
  heap : c'.heap = c.heap ++ cells
  fp : c'.fp = c.fp
  level : c'.level = c.level
  output : c'.output = c.output

namespace Puts

variable {words words' cells cells' : List Int32}

theorem nothing (hip : c.ip = a) : Puts code a a c c [] [] :=
  ⟨.refl c, Nat.le_refl a, hip, rfl, (List.append_nil _).symm, rfl, rfl, rfl⟩

theorem trans (h : Puts code a b c c' words cells) (h' : Puts code b e c' c'' words' cells') :
    Puts code a e c c'' (words' ++ words) (cells ++ cells') := by
  have hpath := h'.path
  rw [h.level] at hpath
  refine ⟨(h.path.widen (Nat.le_refl a) h'.le).trans (hpath.widen h.le (Nat.le_refl e)), Nat.le_trans h.le h'.le, h'.ip,
    ?_, ?_, h'.fp.trans h.fp, h'.level.trans h.level, h'.output.trans h.output⟩
  · rw [h'.stack, h.stack, List.append_assoc]
  · rw [h'.heap, h.heap, List.append_assoc]

end Puts

variable {placed : List (Nat × Routine)}

/-- Some addresses are those of the routines of some methods. -/
def Method.Placed (placed : List (Nat × Routine)) (ms : List Method) (ts : List Nat) : Prop :=
  List.Forall₂ (fun m t => (t, Method.routine m) ∈ placed) ms ts

/-- The instructions that put some words on the heap. -/
def Code.puts (ts : List Nat) : List Op := ts.flatMap fun t => .push (.ofNat t) :: Code.ops Code.allocate

theorem puts_words : ∀ (ts : List Nat) {c : Config} {a : Nat}, c.ip = a → Stands code a (Code.puts ts) →
    ∃ c', Puts code a (a + 7 * ts.length) c c' [] (ts.map .ofNat)
  | [], c, a, hip, _ => ⟨c, .nothing hip⟩
  | t :: ts, c, a, hip, h => by
    rw [Code.puts, List.flatMap_cons, List.cons_append] at h
    obtain ⟨hpush, h⟩ := h
    obtain ⟨hallocate, hrest⟩ := (stands_append _ _ _).mp h
    have hmove := enters_allocate (c := { c with ip := a + 1, stack := .ofNat t :: c.stack }) rfl hallocate rfl
    have hfirst : Puts code a (a + 7) c { c with ip := a + 1 + 6, heap := c.heap ++ [.ofNat t], spare := none } []
        [.ofNat t] := by
      refine ⟨?_, by omega, rfl, rfl, rfl, rfl, rfl, rfl⟩
      exact ((enters_push hip ⟨hpush, trivial⟩).path.widen (Nat.le_refl a) (by omega)).trans
        (hmove.path.widen (Nat.le_succ a) (Nat.le_refl _))
    obtain ⟨c', hputs⟩ := puts_words ts hfirst.ip hrest
    have hend : a + 7 + 7 * ts.length = a + 7 * (t :: ts).length := by
      rw [List.length_cons]
      omega
    rw [hend] at hputs
    exact ⟨c', hfirst.trans hputs⟩

/-- The code of a table of methods puts the addresses of their routines on the heap. -/
theorem Method.LaidAll.puts : ∀ {ms : List Method} {a : Nat}, Method.LaidAll code placed a ms →
    ∃ ts, Method.Placed placed ms ts ∧ Stands code a (Code.puts ts)
  | [], _, _ => ⟨[], .nil, trivial⟩
  | _ :: _, _, ⟨⟨t, ht, hpush, hallocate⟩, hl⟩ => by
    obtain ⟨ts, hts, hrest⟩ := Method.LaidAll.puts hl
    exact ⟨t :: ts, .cons ht hts, hpush, (stands_append _ _ _).mpr ⟨hallocate, hrest⟩⟩

/-- A table is built on the heap, and where it begins is pushed. -/
theorem puts_table {ts : List Nat} (hip : c.ip = a) (hload : code[a]? = some (.plain (.load .hp)))
    (h : Stands code (a + 1) (Code.puts ts)) :
    ∃ c', Puts code a (a + 1 + 7 * ts.length) c c' [.ofNat c.heap.length] (ts.map .ofNat) := by
  subst hip
  have hbase : Puts code c.ip (c.ip + 1) c { c with ip := c.ip + 1, stack := .ofNat c.heap.length :: c.stack }
      [.ofNat c.heap.length] [] :=
    ⟨.single ⟨Nat.le_refl _, Nat.lt_succ_self _, rfl⟩ (.load (r := .hp) hload), Nat.le_succ _, rfl, rfl,
      (List.append_nil _).symm, rfl, rfl, rfl⟩
  obtain ⟨c', hwords⟩ := puts_words ts hbase.ip h
  exact ⟨c', hbase.trans hwords⟩

/-- Where the dispatch tables of some classes begin, the first of which is at some address. -/
def ClassDecl.tables (k : Nat) : List ClassDecl → List Nat
  | [] => []
  | c :: cs => k :: ClassDecl.tables (k + c.methods.length) cs

theorem ClassDecl.tables_get : ∀ (cs : List ClassDecl) (k i : Nat) {cls : ClassDecl}, cs[i]? = some cls →
    (ClassDecl.tables k cs)[i]? = some (k + ((cs.take i).map (·.methods.length)).sum)
  | c :: cs, k, 0, _, _ => by simp [ClassDecl.tables]
  | c :: cs, k, i + 1, cls, h => by
    have htail := ClassDecl.tables_get cs (k + c.methods.length) i (show cs[i]? = some cls from h)
    rw [ClassDecl.tables, List.getElem?_cons_succ, htail]
    simp [Nat.add_assoc]

theorem ClassDecl.tables_length : ∀ (cs : List ClassDecl) (k : Nat), (ClassDecl.tables k cs).length = cs.length
  | [], _ => rfl
  | c :: cs, k => congrArg (· + 1) (ClassDecl.tables_length cs (k + c.methods.length))

theorem ClassDecl.methods_get : ∀ (cs : List ClassDecl) (i j : Nat) {cls : ClassDecl} {m : Method}, cs[i]? = some cls →
    cls.methods[j]? = some m → (cs.flatMap (·.methods))[((cs.take i).map (·.methods.length)).sum + j]? = some m
  | c :: cs, 0, j, cls, m, h, hm => by
    cases h
    rw [List.flatMap_cons, List.take_zero, List.map_nil, List.sum_nil, Nat.zero_add,
      List.getElem?_append_left (List.getElem?_eq_some_iff.mp hm).1, hm]
  | c :: cs, i + 1, j, cls, m, h, hm => by
    have htail := ClassDecl.methods_get cs i j (show cs[i]? = some cls from h) hm
    rw [List.flatMap_cons, List.take_succ_cons, List.map_cons, List.sum_cons, Nat.add_assoc,
      List.getElem?_append_right (Nat.le_add_right _ _), Nat.add_sub_cancel_left, htail]

theorem puts_classes : ∀ (cs : List ClassDecl) {c : Config} {a : Nat}, c.ip = a → ClassDecl.LaidAll code placed a cs →
    ∃ c' ts, Puts code a (a + (cs.map ClassDecl.size).sum) c c'
        ((ClassDecl.tables c.heap.length cs).map .ofNat).reverse (ts.map .ofNat) ∧
      Method.Placed placed (cs.flatMap (·.methods)) ts
  | [], c, a, hip, _ => ⟨c, [], .nothing hip, .nil⟩
  | cls :: cs, c, a, hip, ⟨hload, hmethods, hl⟩ => by
    subst hip
    obtain ⟨ts, hts, hwords⟩ := hmethods.puts
    obtain ⟨c₁, hclass⟩ := puts_table rfl hload.1 hwords
    have hend : c.ip + 1 + 7 * ts.length = c.ip + cls.size := by
      rw [ClassDecl.size, hts.length_eq]
      omega
    rw [hend] at hclass
    obtain ⟨c₂, ts', hputs', hts'⟩ := puts_classes cs hclass.ip hl
    have hheap : c₁.heap.length = c.heap.length + cls.methods.length := by
      rw [hclass.heap, List.length_append, List.length_map, hts.length_eq]
    have hall := hclass.trans hputs'
    rw [hheap, ← List.map_append, Nat.add_assoc] at hall
    refine ⟨c₂, ts ++ ts', ?_, List.rel_append hts hts'⟩
    rw [List.map_cons, List.sum_cons, ClassDecl.tables, List.map_cons, List.reverse_cons]
    exact hall

/-! ## Programs -/

/-- Behind the dispatch tables, everything stands as at the beginning of an evaluation. -/
theorem standing_tables {ts : List Nat} {j : Nat} (hts : Method.Placed p.placed (p.classes.flatMap (·.methods)) ts)
    (hs : c.stack = ((ClassDecl.tables 0 p.classes).map .ofNat).reverse ++ [0]) (hheap : c.heap = ts.map .ofNat)
    (hfp : c.fp = stackBase) (hout : c.output = []) :
    Standing p code (.behindClasses p.classes) [[]] ⟨p.methodCount, [], []⟩ j c c.fp := by
  refine ⟨⟨fun i cls hi => ?_, fun i k cls m hi hk => ?_⟩, ⟨?_, hout.symm, fun _ _ h => (nomatch h)⟩,
    fun _ _ h => (nomatch h), ?_⟩
  · have htable := ClassDecl.tables_get p.classes 0 i hi
    have haddress : stackBase + View.offset i = stackAt (i + 1 + 1) := by
      have hbase : stackBase = stackAt 0 := rfl
      rw [hbase]
      exact stackAt_add (by omega)
    rw [haddress]
    refine .stack ?_
    rw [hs, List.reverse_append, List.reverse_reverse, List.reverse_singleton, List.singleton_append,
      List.getElem?_cons_succ, List.getElem?_map, htable, Option.map_some, Nat.zero_add, Program.tableAt]
  · have hget := ClassDecl.methods_get p.classes i k hi hk
    have hlt := (List.getElem?_eq_some_iff.mp hget).1
    have hlt' : ((p.classes.take i).map (·.methods.length)).sum + k < ts.length := by rwa [← hts.length_eq]
    have hplaced := hts.get hlt hlt'
    rw [List.get_eq_getElem, List.get_eq_getElem, (List.getElem?_eq_some_iff.mp hget).2] at hplaced
    refine ⟨_, hplaced, .heap ?_⟩
    rw [hheap, List.getElem?_map, Program.tableAt, List.getElem?_eq_getElem hlt']
    rfl
  · rw [hheap, List.length_map, ← hts.length_eq, Program.methodCount, List.length_flatMap]
  · rw [hfp]
    exact .outermost (.ofClasses (ClassDecl.names_cls p.classes))

variable {hsize : code.size < 2 ^ 31} {W : List Spot} {n : Nat}

/-- From behind the declarations of a program, its body leaves its value in front of the halt. -/
theorem runs_main {v : View} {ρ : Env} {σ : Store} {j : Nat} {t : Ty} (hl : p.Laid code) (hW : W ⊆ p.spots)
    (hsim : ∀ e : Expr, e.Simulated p code hsize W n) (hr : p.body.Resolved p.classes v) (ht : p.body.type = .ok t)
    (hat : At code j c) (hip : c.ip = p.bodyStart) (hst : Standing p code v ρ σ j c c.fp) :
    Runs (watching p code hsize W) (fun _ => True) n j (p.body.evaluate p.classes (Routine.run p.classes n) ρ σ)
      fun q _ c' => code[c'.ip]? = some (.plain .halt) ∧ (∃ st, c'.stack = q.1 :: st) ∧ q.2.output = c'.output := by
  have hhalt := hl.halt.1
  have hlt := (Array.getElem?_eq_some_iff.mp hhalt).1
  have hspots : p.body.spots p.bodyStart ⊆ p.spots := fun spot hspot =>
    List.mem_append_left _ (List.mem_append_right _ hspot)
  have hcovers : Covers W (p.body.spots p.bodyStart) p.bodyStart (p.bodyStart + p.body.size) := by
    have hmain : Covers W p.mainSpots 0 p.mainSize := fun spot hspot => p.covers_main spot (hW hspot)
    exact hmain.back (Decl.spotsAll_within p.decls p.declsStart) (Nat.zero_le _) (Nat.le_succ _)
  refine (hsim p.body hat hip ⟨hr, ht, hl.body, hlt, hspots⟩ hst (hcovers.owns j)).last (fun _ _ => trivial)
    fun q k c' _ hjk hat' ⟨hreached, _⟩ => .done hat' ⟨?_, ⟨_, hreached.stack⟩, hreached.world.output⟩
  rw [hreached.ip]
  exact hhalt

variable (hsize) in
/-- The machine runs a program as it is evaluated. -/
theorem Program.simulated (hp : p.Sound) (hl : p.Laid code) (hW : W ⊆ p.spots) (n : Nat) :
    Runs (watching p code hsize W) (fun _ => True) n 0 (p.evaluate n) fun x _ c =>
      code[c.ip]? = some (.plain .halt) ∧ (∃ st, c.stack = x.1 :: st) ∧ x.2 = c.output := by
  have hsim := Expr.simulated hp hl (Routine.simulated hsize hp hl hW n)
  have hvalue : p.evaluate n = ((Decl.evaluateAll p.classes (Routine.run p.classes n) [[]] p.decls
      ⟨p.methodCount, [], []⟩ >>= fun q => p.body.evaluate p.classes (Routine.run p.classes n) q.1 q.2) >>= fun q =>
        .ok (q.1, q.2.output)) := rfl
  obtain ⟨t, ht⟩ := hp.type
  rw [hvalue]
  refine Runs.bind ?_ fun q j c hq hij hat h => .done hat h
  cases p with
  | expr body =>
    have hst : Standing (.expr body) code (.behindClasses []) [[]] ⟨0, [], []⟩ 0 .initial stackBase :=
      ⟨⟨fun _ _ h => (by cases h), fun _ _ _ _ h => (by cases h)⟩, ⟨rfl, rfl, fun _ _ h => (by cases h)⟩,
        fun _ _ h => (by cases h), .outermost .nil⟩
    exact runs_main hl hW hsim hp.body ht at_initial rfl hst
  | letIn classes decls body =>
    obtain ⟨hpush, hclasses⟩ := hl.tables classes decls body rfl
    have hfirst : Puts code 0 1 .initial { Config.initial with ip := 1, stack := [0] } [0] [] :=
      ⟨(enters_push (c := .initial) rfl hpush).path, Nat.zero_le 1, rfl, rfl, rfl, rfl, rfl, rfl⟩
    obtain ⟨c₁, ts, hputs, hts⟩ := puts_classes classes hfirst.ip hclasses
    have hall := hfirst.trans hputs
    have hmain : Covers W (Program.mainSpots (.letIn classes decls body)) 0
        (Program.mainSize (.letIn classes decls body)) :=
      fun spot hspot => Program.covers_main _ spot (hW hspot)
    have hwd := Decl.spotsAll_within decls (Program.declsStart (.letIn classes decls body))
    have hwb := body.spots_within (Program.bodyStart (.letIn classes decls body))
    have hdecls : Program.declsStart (.letIn classes decls body) = 1 + (classes.map ClassDecl.size).sum := rfl
    have hstart : Program.bodyStart (.letIn classes decls body) =
        Program.declsStart (.letIn classes decls body) + Decl.sizeAll decls := rfl
    have hsizes : Program.mainSize (.letIn classes decls body) =
        Program.bodyStart (.letIn classes decls body) + body.size + 1 := rfl
    have hbody : (Program.letIn classes decls body).body.size = body.size := rfl
    have hquiet : Covers W [] 0 (Program.declsStart (.letIn classes decls body)) := by
      rw [← List.nil_append (Program.mainSpots _)] at hmain
      exact hmain.front ((hwd.mono (Nat.le_refl _) (Nat.le_add_right _ _)).append (hwb.mono (by omega) (Nat.le_refl _)))
        (Nat.le_refl 0) (by omega)
    refine Runs.glue hall.path (fun _ _ => trivial) hquiet at_initial fun j _ hat₁ => ?_
    have hst : Standing (.letIn classes decls body) code (.behindClasses classes) [[]] ⟨_, [], []⟩ j c₁ c₁.fp :=
      standing_tables hts (hall.stack.trans (List.append_nil _)) hall.heap hall.fp hall.output
    have hhalt := (Array.getElem?_eq_some_iff.mp hl.halt.1).1
    have hframed : Framed (.behindClasses classes) c₁ := by
      refine ⟨0, hall.fp, ?_⟩
      rw [hall.stack]
      simp [Config.initial, View.behindClasses, ClassDecl.tables_length]
      omega
    refine (Decl.simulatedAll hsim decls hat₁ hall.ip hp.decls hl.decls (by omega)
      (fun spot hspot => List.mem_append_left _ (List.mem_append_left _ hspot))
      (hmain.front hwb (Nat.zero_le _) (by omega)) hst hframed).seq (fun _ _ => trivial)
      fun q k c₂ _ hjk hat₂ hreached => ?_
    obtain ⟨news, -, hr₂, henv⟩ := hreached
    have hst₂ := hr₂.standing hst
    exact runs_main hl hW hsim hp.body ht hat₂ hr₂.ip ⟨hst₂.tables, hst₂.world, hst₂.built, henv⟩

end FoolLang
