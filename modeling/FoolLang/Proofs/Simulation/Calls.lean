/-
The machine calls routines: from where the code of a call begins, it comes to the jump of the call with the
static link, the arguments and the control link of the new frame on the stack. What the routine does then
is what its evaluation does, so the call does, too.
-/
import FoolLang.Proofs.Simulation.Scopes
import Mathlib.Data.List.Nodup

namespace FoolLang

open Machine

section

variable (p : Program) (code : Array Op) (hsize : code.size < 2 ^ 31) (W : List Spot) (n : Nat)

/-- A routine that stands at an address has a signature where some scopes are visible around it. -/
structure Callee (g : Signature) (x : Nat × Routine) (v : View) : Prop where
  placed : x ∈ p.placed
  sound : Routine.Sound p.classes v x.2 g.result
  params : x.2.params.map (·.type) = g.params

/--
At some time, a routine is entered from a configuration of its caller, to which it is to come back at an
address: the static link stands on the arguments, and these on the control link.
-/
structure Entered (σ : Store) (i : Nat) (c₀ c : Config) (g : Signature) (x : Nat × Routine) (v : View) (ρ : Env)
    (vs : List Int32) (stop : Nat) : Prop where
  callee : Callee p g x v
  ip : c.ip = x.1
  frame : ∃ link, c.stack = link :: (vs ++ c₀.fp :: c₀.stack) ∧ Standing p code v ρ σ i c link
  ra : c.ra = .ofNat stop
  lt : stop < code.size
  level : c.level = c₀.level + 1
  heap : ∃ more, c.heap = c₀.heap ++ more
  fits : σ.FitsAll vs g.params

/-- At some time, the run stands in front of the jump of a call, by which a routine is entered. -/
structure Calling (σ : Store) (i : Nat) (c₀ c : Config) (g : Signature) (x : Nat × Routine) (v : View) (ρ : Env)
    (vs : List Int32) (stop : Nat) : Prop where
  last : c.ip + 1 = stop
  level : c.level = c₀.level
  op : code[c.ip]? = some (.plain .jumpSubroutine)
  entered : ∃ c', c.Step code c' ∧ Entered p code σ (i + 1) c₀ c' g x v ρ vs stop

/--
Between two times, there is just one at which the run stands at an address while some number of routines is
running, and then a word is on top of the stack.
-/
def Yields (i j a level : Nat) (w : Int32) : Prop :=
  ∃ e s, i ≤ e ∧ e < j ∧ Visits code e s ∧ s.ip = a ∧ levelAt code e = level ∧ s.word? s.sp = some w ∧
    ∀ k t, i ≤ k → k < j → Visits code k t → t.ip = a → levelAt code k = level → k = e

/-- From where a routine is entered, the machine does what an evaluation of the routine does. -/
def Routine.Simulated : Prop :=
  ∀ ⦃σ : Store⦄ ⦃i : Nat⦄ ⦃c₀ c : Config⦄ ⦃g : Signature⦄ ⦃x : Nat × Routine⦄ ⦃v : View⦄ ⦃ρ : Env⦄ ⦃vs : List Int32⦄
    ⦃stop : Nat⦄, At code i c → Entered p code σ i c₀ c g x v ρ vs stop →
    Runs (watching p code hsize W) (fun c' => c₀.level < c'.level) n i (Routine.run p.classes n x.2 ρ vs σ)
      fun q j c' => Reached p code σ q.2 c₀ c' stop [q.1] j ∧ q.2.Fits q.1 g.result ∧
        Yields code i j (x.1 + x.2.bodySize) c.level q.1

/-- From where the code of a call begins, the machine comes to where a routine is entered, as an evaluation does. -/
def Expr.Reaches (e : Expr) : Prop :=
  ∀ ⦃v : View⦄ ⦃ρ : Env⦄ ⦃σ : Store⦄ ⦃i : Nat⦄ ⦃c : Config⦄ ⦃a : Nat⦄ ⦃t : Ty⦄, At code i c → c.ip = a →
    Site p code v e a t → Standing p code v ρ σ i c c.fp → Owns p code W (e.spots a) a (a + e.size) i →
    ∃ (α : Type) (r : Except Stop α) (f : α → Except Stop (Int32 × Store)),
      e.evaluate p.classes (Routine.run p.classes n) ρ σ = (r >>= f) ∧
      Runs (watching p code hsize W) (Inside a (a + e.size - 1) c.level) n i r fun q j c' =>
        (watching p code hsize W).watch j c' ∧ ∃ σ' g x v' ρ' vs,
          Calling p code σ' j c c' g x v' ρ' vs (a + e.size) ∧ g.result = t ∧ σ.Extends σ' ∧
          f q = Routine.run p.classes n x.2 ρ' vs σ'

end

section

variable {p : Program} {code : Array Op} {hsize : code.size < 2 ^ 31} {W : List Spot} {n : Nat}
variable {v : View} {ρ : Env} {σ σ' : Store} {i j : Nat} {c c' c₀ : Config} {base : Int32} {l : Nat} {name : String}

/-! ## Methods -/

theorem Standing.mono (h : Standing p code v ρ σ i c base) (hij : i ≤ j) (hc : c.Extends c') (hheap : c'.heap = c.heap)
    (hout : c'.output = c.output) : Standing p code v ρ σ j c' base :=
  ⟨h.tables.mono hc, by rw [hheap, hout]; exact h.world, h.built.mono hij, h.env.mono (.refl σ) hc⟩

theorem Evaluating.send_run {call : Calling} {this : Int32} {vs : List Int32} {o : Object} {m : Method}
    (ho : σ.object? this = some o) (hm : o.cls.method? name = some m) :
    Evaluating.send call this name vs σ = call m.routine (o.env this) vs σ := by
  simp only [Evaluating.send, bind, StateT.bind, get, getThe, MonadStateOf.get, StateT.get, pure, Except.pure,
    Except.bind, ho, hm]

/-- In a sound program, the class of an object is the one that has its name. -/
theorem Made.cls_eq {this : Int32} {o : Object} {cls : ClassDecl} (hp : p.Sound) (h : Made p σ c.heap this o)
    (hcls : cls ∈ p.classes) (hname : o.cls.name = cls.name) : o.cls = cls := by
  obtain ⟨_, k, -, hk, -⟩ := h.place
  obtain ⟨k', hk'⟩ := List.getElem?_of_mem hcls
  have hfind := find?_name hp.distinct hk
  rw [hname, find?_name hp.distinct hk'] at hfind
  exact (Option.some.inj hfind).symm

/-- The dispatch table of an object leads to its methods. -/
theorem Standing.method {this : Int32} {o : Object} {k : Nat} {m : Method} (hp : p.Sound)
    (h : Standing p code v ρ σ i c base) (ho : σ.object? this = some o) (hm : o.cls.methods[k]? = some m) :
    ∃ t table v', Callee p m.header.signature (t, m.routine) v' ∧ EnvAt p σ c v'.scopes (o.env this) this ∧
      c.Holds this table ∧ c.Holds (table + .ofNat k) (.ofNat t) ∧ o.cls.method? m.header.name = some m := by
  have hmade := h.world.made this o ho
  obtain ⟨a, b, rfl, hb, htable, -, -⟩ := hmade.place
  obtain ⟨t, ht, hentry⟩ := h.tables.entry b k o.cls m hb hm
  have hclass := hp.classes b o.cls hb
  have hmem := List.mem_of_getElem? hm
  have hnames : (o.cls.methods.map (·.header.name)).Nodup := by
    have hd := hclass.distinct
    rw [ClassDecl.memberNames, List.map_reverse, List.nodup_reverse, List.map_append, ClassDecl.methodNames_map,
      hclass.methods] at hd
    exact (List.nodup_append.mp hd).2.1
  refine ⟨t, .ofNat (p.tableAt b), o.cls.view (p.classes.take b), ⟨ht, hclass.routines m hmem, rfl⟩,
    hmade.env ho hclass.fields hclass.methods hclass.types, .heap htable, ?_, find?_name hnames hm⟩
  rw [← Int32.ofNat_add]
  exact hentry

/-- A member of a class that is a method is the one in its slot. -/
theorem ClassDecl.method_of_lookup {cls : ClassDecl} {b : Binding} (hown : cls.ownMethods = cls.methods)
    (hb : cls.memberNames.lookup name = some b) (hm : b.isMethod = true) :
    ∃ (k : Nat) (m : Method), cls.methods[k]? = some m ∧ m.header.name = name ∧
      b = ⟨1, .arrow m.header.signature, .ofNat k, true⟩ := by
  obtain ⟨before, behind, heq, -⟩ := List.lookup_eq_some_iff.mp hb
  have hmem : (name, b) ∈ cls.fieldNames ++ cls.methodNames := by
    rw [← List.mem_reverse]
    show (name, b) ∈ cls.memberNames
    rw [heq]
    simp
  rcases List.mem_append.mp hmem with hmem | hmem
  · obtain ⟨k, hk, heq⟩ := List.mem_mapIdx.mp hmem
    cases heq
    cases hm
  · obtain ⟨k, hk, heq⟩ := List.mem_mapIdx.mp hmem
    cases heq
    exact ⟨k, cls.ownMethods[k], by rw [← hown, List.getElem?_eq_getElem hk], rfl, rfl⟩

/-! ## What a name calls -/

theorem Callee.start_lt {g : Signature} {x : Nat × Routine} (h : Callee p g x v) (hl : p.Laid code) :
    x.1 < code.size := by
  have hpos := x.2.size_pos
  have hle := (hl.routines x h.placed).2
  omega

/-- A name that means a function, or a method from inside its class, calls what it means. -/
theorem Found.calls {scopes : List Names} {b : Binding} {m : Meaning} {ns : Names} {sc : List (String × Meaning)}
    {outer : List Names} {ρ' : Env} {base' : Int32} {g : Signature} (hp : p.Sound) (call : Evaluating.Calling)
    (h : Found p σ c scopes ρ base name b m ns sc outer ρ' base') (hst : Standing p code v ρ σ i c base)
    (hg : b.type = .arrow g) : ∃ x v' ρ'' f, Callee p g x v' ∧ EnvAt p σ c v'.scopes ρ'' base' ∧
      (b.isMethod = false → c.Holds (base' + b.offset) (.ofNat x.1)) ∧
      (b.isMethod = true → ∃ table, c.Holds base' table ∧ c.Holds (table + b.offset) (.ofNat x.1)) ∧
      (∀ es r l σ', (Expr.call name es r l).evaluate p.classes call ρ σ' =
        (Expr.evaluateReversed p.classes call ρ es σ' >>= f)) ∧
      ∀ q, σ.Extends q.2 → f q = call x.2 ρ'' q.1 q.2 := by
  have hfound := h.found
  have henv := h.env
  cases h.members with
  | entry head =>
    cases head with
    | value hl hm ht =>
      rw [hg] at ht
      cases ht
    | @method o k m hd ho hm =>
      cases hg
      obtain ⟨t, table, v', hcallee, henv', hthis, htable, hmethod⟩ := hst.method hp ho hm
      refine ⟨(t, m.routine), v', o.env base', fun q => Evaluating.send call base' m.header.name q.1 q.2,
        hcallee, henv', fun hfalse => ?_, fun _ => ⟨table, hthis, htable⟩, fun es r l σ' => ?_, fun q hq => ?_⟩
      · cases hfalse
      · rw [Expr.evaluate, hfound]
        rfl
      · exact Evaluating.send_run (hq _ _ ho) hmethod
  | @function header locals body offset t ns sc hc ht hr =>
    cases hg
    refine ⟨(t, ⟨header.params, locals, body⟩), _, _, fun q => call ⟨header.params, locals, body⟩ _ q.1 q.2,
      ⟨ht, hr, rfl⟩, henv, fun _ => hc, fun htrue => ?_, fun es r l σ' => ?_, fun q _ => rfl⟩
    · cases htrue
    · rw [Expr.evaluate, hfound]
      rfl
  | cls hcls =>
    rw [hg] at hcls
    cases hcls

/-! ## Calls -/

theorem Linked.mono : ∀ {n : Nat} {a b : Int32}, Linked c n a b → c.Extends c' → Linked c' n a b
  | 0, _, _, h, _ => h
  | _ + 1, _, _, ⟨link, hlink, hrest⟩, hc => ⟨link, hlink.mono hc, hrest.mono hc⟩

theorem enters_load {a : Nat} (hip : c.ip = a) (h : Stands code a [.plain (.load .fp)]) :
    Enters code a (a + 1) c { c with ip := a + 1, stack := c.fp :: c.stack } := by
  subst hip
  exact ⟨rfl, Nat.lt_succ_self _, _, .load h.1, .refl _⟩

theorem Expr.reaches_call {es : List Expr} {r : Option Resolution} (hp : p.Sound) (hl : p.Laid code)
    (hes : ∀ e ∈ es, e.Simulated p code hsize W n) : (Expr.call name es r l).Reaches p code hsize W n := by
  intro v ρ σ i c a t hat hip hsite hst howns
  have hbegun : Begun p code ⟨.call name es r l, a⟩ i := ⟨c, v, ρ, σ, t, hat, hip, hsite, hst⟩
  have hlt := hsite.lt
  obtain ⟨b, g, hb, hr, hbt, hgt, hfp, hsites, hcall⟩ := hsite.call
  have hlen : (Expr.call name es r l).size = 1 + Expr.sizeAll es + (Code.callOf ⟨b, v.depth⟩).length := by
    rw [hr]
    rfl
  have hwithin := Expr.spotsReversed_within es (a + 1)
  have hin : Covers W (Expr.spotsReversed (a + 1) es) (a + 1) (a + (Expr.call name es r l).size) := Owns.inside howns
  have hquiet : Covers W [] (a + 1 + Expr.sizeAll es) (a + (Expr.call name es r l).size) :=
    hin.rest hwithin (by omega) (Nat.le_refl _)
  have hcls : ∀ fs ms, b.type ≠ .cls fs ms := fun fs ms h => by rw [h] at hbt; cases hbt
  obtain ⟨m, ns, sc, outer, ρ', base, hfound⟩ := hst.env.find hb hcls
  obtain ⟨hzero, hlinked⟩ := hfound.reach
  obtain ⟨x, v', ρ'', f, hcallee, henv, hfun, hmethod, hvalue, hf⟩ :=
    hfound.calls hp (Routine.run p.classes n) hst hbt
  refine ⟨_, _, f, hvalue es r l σ, ?_⟩
  refine Runs.enter (enters_load hip hfp) (fun _ h => h.inside (Nat.le_refl _) ?_ rfl)
    (fun spot hspot hs => howns.first (by omega) hbegun hwithin hspot hs) (.empty (Nat.le_refl _)) hat
    fun j hij hat₁ => ?_
  · have hpos := Code.callOf_pos ⟨b, v.depth⟩
    omega
  have hr₁ : Reached p code σ σ c { c with ip := a + 1, stack := c.fp :: c.stack } (a + 1) [c.fp] j :=
    hst.reached hij rfl rfl rfl rfl rfl rfl
  have hpos := Code.callOf_pos ⟨b, v.depth⟩
  refine (Expr.simulatedReversed hes hat₁ hr₁.ip hsites (hr₁.standing_fp hst)
    (hin.mono (Nat.le_refl _) (by omega))).last
    (fun _ h => h.mono (by omega) (by omega) rfl) fun q k c₂ _ hjk hat₂ ⟨hr₂, hf₂⟩ => ?_
  have hr₀ := hr₁.trans hr₂
  have hgrown := hr₀.grown
  obtain ⟨c₃, hcalls⟩ := calls_callOf hr₂.ip hcall hzero (fun h => hr₀.fp ▸ (hlinked h).mono hgrown)
    (hcallee.start_lt hl) (fun h => (hfun h).mono hgrown) fun h => by
      obtain ⟨table, htable, hslot⟩ := hmethod h
      exact ⟨table, htable.mono hgrown, hslot.mono hgrown⟩
  have hend : a + 1 + Expr.sizeAll es + (Code.callOf ⟨b, v.depth⟩).length = a + (Expr.call name es r l).size := by omega
  rw [hend] at hcalls
  have hlast := hcalls.last
  have hle := hcalls.le
  have hlevel := hcalls.level
  refine Runs.glue hcalls.path (fun _ h => h.inside (by omega) (by omega) hr₂.level)
    (hquiet.mono (Nat.le_refl _) (by omega)) hat₂ fun m hkm hat₃ => ?_
  have hstanding : Standing p code v' ρ'' q.2 k c₂ base := hr₀.standing ⟨hst.tables, hst.world, hst.built, henv⟩
  refine .done hat₃ ⟨hquiet.watch (d := c₃.level) ⟨hle, by omega, rfl⟩ m, q.2, g, x, v', ρ'', q.1,
    ⟨hlast, hlevel.trans hr₂.level, hcalls.op, _, hcalls.step, hcallee, rfl, ⟨base, ?_, ?_⟩, rfl, hlt, ?_,
      hr₀.heap, hf₂⟩,
    hgt, hr₀.store, hf q hr₀.store⟩
  · show base :: c₂.stack = _
    rw [hr₀.stack, List.append_assoc]
    rfl
  · exact hstanding.mono (by omega) ⟨⟨[base], rfl⟩, [], by simp⟩ rfl rfl
  · show c₂.level + 1 = _
    rw [hr₀.level]

/-- A message to the object on top comes to the jump into its method, around which its members are visible. -/
theorem Standing.sends {this : Int32} {o : Object} {k a : Nat} {m : Method} {st : List Int32} (hp : p.Sound)
    (hl : p.Laid code) (h : Standing p code v ρ σ i c base) (ho : σ.object? this = some o)
    (hm : o.cls.methods[k]? = some m) (hip : c.ip = a) (hsend : Stands code a (Code.ops (Code.sendTo (.ofNat k))))
    (hs : c.stack = this :: st) : ∃ t v' c₁, Callee p m.header.signature (t, m.routine) v' ∧
      Standing p code v' (o.env this) σ i c this ∧
      Calls code a (a + 8) c c₁
        { c with ip := t, stack := this :: st, tm := this, ra := .ofNat (a + 8), level := c.level + 1 } ∧
      ∀ call vs, Evaluating.send call this m.header.name vs σ = call m.routine (o.env this) vs σ := by
  obtain ⟨t, table, v', hcallee, henv, hthis, htable, hmethod⟩ := h.method hp ho hm
  have hextends : ∀ ip w, c.Extends { c with ip, stack := w :: this :: st, tm := this } :=
    fun _ w => ⟨⟨[w], by rw [hs]; rfl⟩, [], by simp⟩
  obtain ⟨c₁, hcalls⟩ := calls_sendTo hip hsend hs (hcallee.start_lt hl)
    (fun ip w => hthis.mono (hextends ip w)) (fun ip w => htable.mono (hextends ip w))
  exact ⟨t, v', c₁, hcallee, ⟨h.tables, h.world, h.built, henv⟩, hcalls, fun _ _ => Evaluating.send_run ho hmethod⟩

theorem Expr.evaluate_methodCall (classes : List ClassDecl) (call : Evaluating.Calling) (ρ : Env) (σ : Store) (e : Expr)
    (es : List Expr) (b : Option Binding) (l : Nat) : (Expr.methodCall e name es b l).evaluate classes call ρ σ =
      ((Expr.evaluateReversed classes call ρ es σ >>= fun q => e.evaluate classes call ρ q.2 >>= fun u =>
        if u.1 = -1 then .error .nullReceiver else .ok (q.1, u)) >>= fun y =>
          Evaluating.send call y.2.1 name y.1 y.2.2) := by
  have hvalue : (Expr.methodCall e name es b l).evaluate classes call ρ σ =
      (Expr.evaluateReversed classes call ρ es σ >>= fun q => e.evaluate classes call ρ q.2 >>= fun u =>
        (if u.1 = -1 then throw .nullReceiver else Evaluating.send call u.1 name q.1 : Evaluating Int32) u.2) := rfl
  rw [hvalue, bind_assoc]
  refine congrArg (_ >>= ·) (funext fun q => ?_)
  rw [bind_assoc]
  refine congrArg (_ >>= ·) (funext fun u => ?_)
  by_cases hu : u.1 = -1
  · rw [if_pos hu, if_pos hu]
    rfl
  · rw [if_neg hu, if_neg hu]
    rfl

theorem Expr.reaches_methodCall {e : Expr} {es : List Expr} {b : Option Binding} (hp : p.Sound) (hl : p.Laid code)
    (hes : ∀ e ∈ es, e.Simulated p code hsize W n) (he : e.Simulated p code hsize W n) :
    (Expr.methodCall e name es b l).Reaches p code hsize W n := by
  intro v ρ σ i c a t hat hip hsite hst howns
  have hbegun : Begun p code ⟨.methodCall e name es b l, a⟩ i := ⟨c, v, ρ, σ, t, hat, hip, hsite, hst⟩
  have hlt := hsite.lt
  obtain ⟨cls, hcls, b', g, hlook, hm, hb, hbt, hgt, hfp, hsites, hse, hsend⟩ := hsite.methodCall
  have hlen : (Expr.methodCall e name es b l).size = 1 + Expr.sizeAll es + e.size + 8 := by
    rw [hb]
    rfl
  have hwithin := Expr.spotsReversed_within es (a + 1)
  have hwithin' := e.spots_within (a + 1 + Expr.sizeAll es)
  have hin : Covers W (Expr.spotsReversed (a + 1) es ++ e.spots (a + 1 + Expr.sizeAll es)) (a + 1)
      (a + (Expr.methodCall e name es b l).size) := Owns.inside howns
  have hboth : Within (a + 1) (a + 1 + Expr.sizeAll es + e.size)
      (Expr.spotsReversed (a + 1) es ++ e.spots (a + 1 + Expr.sizeAll es)) :=
    (hwithin.mono (Nat.le_refl _) (by omega)).append (hwithin'.mono (by omega) (Nat.le_refl _))
  have hquiet : Covers W [] (a + 1 + Expr.sizeAll es + e.size) (a + (Expr.methodCall e name es b l).size) :=
    hin.rest hboth (by omega) (Nat.le_refl _)
  obtain ⟨k₀, hk₀⟩ := List.getElem?_of_mem hcls
  have hclass := hp.classes k₀ cls hk₀
  obtain ⟨s, m, hsm, rfl, rfl⟩ := ClassDecl.method_of_lookup hclass.methods hlook hm
  cases hbt
  refine ⟨_, _, _, Expr.evaluate_methodCall _ _ _ _ _ _ _ _, ?_⟩
  refine Runs.enter (enters_load hip hfp) (fun _ h => h.inside (Nat.le_refl _) (by omega) rfl)
    (fun spot hspot hs => howns.first (by omega) hbegun hboth hspot hs) (.empty (Nat.le_refl _)) hat
    fun j hij hat₁ => ?_
  have hr₁ : Reached p code σ σ c { c with ip := a + 1, stack := c.fp :: c.stack } (a + 1) [c.fp] j :=
    hst.reached hij rfl rfl rfl rfl rfl rfl
  refine (Expr.simulatedReversed hes hat₁ hr₁.ip hsites (hr₁.standing_fp hst)
    (hin.front hwithin' (Nat.le_refl _) (by omega))).seq
    (fun _ h => h.mono (by omega) (by omega) rfl) fun q k c₂ _ hjk hat₂ ⟨hr₂, hf₂⟩ => ?_
  have hback := hin.back hwithin (show a + 1 ≤ a + 1 + Expr.sizeAll es by omega)
    (show a + 1 + Expr.sizeAll es + e.size ≤ a + (Expr.methodCall e m.header.name es b l).size by omega)
  refine (he hat₂ hr₂.ip hse ((hr₁.trans hr₂).standing_fp hst) (hback.owns k)).seq
    (fun _ h => h.mono (by omega) (by omega) hr₂.level) fun u k' c₃ _ hkk' hat₃ ⟨hr₃, hf₃⟩ => ?_
  have hr₀ := (hr₁.trans hr₂).trans hr₃
  have hstack₃ : c₃.stack = u.1 :: (q.1 ++ c.fp :: c.stack) := by
    rw [hr₀.stack]
    simp
  by_cases hu : u.1 = -1
  · -- The receiver is null, so there is no dispatch table to read.
    rw [if_pos hu]
    rw [hu] at hstack₃
    have hdup : Stands code (a + 1 + Expr.sizeAll es + e.size) (Code.ops Code.duplicate) :=
      ⟨hsend.1, hsend.2.1, hsend.2.2.1, trivial⟩
    refine Runs.glue (path_duplicate hr₃.ip hdup hstack₃) (fun _ h => h.inside (by omega) (by omega) hr₀.level)
      (hquiet.mono (Nat.le_refl _) (by omega)) hat₃ fun k'' hk'' hat₄ => ?_
    have hbetween : Between (a + 1 + Expr.sizeAll es + e.size) (a + 1 + Expr.sizeAll es + e.size + 4) c.level
        { c₃ with
          ip := a + 1 + Expr.sizeAll es + e.size + 3
          stack := -1 :: -1 :: (q.1 ++ c.fp :: c.stack)
          tm := -1 } :=
      ⟨by simp, by simp, hr₀.level⟩
    refine .dereferences hat₄ (hbetween.inside (by omega) (by omega) rfl) hbetween
      (hquiet.mono (Nat.le_refl _) (by omega)) hsend.2.2.2.1 rfl
      ⟨⟨_, a⟩, hsite.spots List.mem_cons_self, ⟨e, m.header.name, es, b, l, rfl⟩, ?_⟩
    show a + 1 + Expr.sizeAll es + e.size + 3 + 5 = a + (Expr.methodCall e m.header.name es b l).size
    omega
  · rw [if_neg hu]
    obtain ⟨o, ho, hname⟩ := hf₃.resolve_left hu
    have hstanding := hr₀.standing hst
    have hcls' := (hstanding.world.made u.1 o ho).cls_eq hp hcls hname
    have hmethod : o.cls.methods[s]? = some m := by rw [hcls']; exact hsm
    obtain ⟨t', v', c₄, hcallee, hstanding', hcalls, hrun⟩ := hstanding.sends hp hl ho hmethod hr₃.ip hsend hstack₃
    have hend : a + 1 + Expr.sizeAll es + e.size + 8 = a + (Expr.methodCall e m.header.name es b l).size := by omega
    rw [hend] at hcalls
    have hlast := hcalls.last
    have hle := hcalls.le
    have hlevel := hcalls.level
    refine Runs.glue hcalls.path (fun _ h => h.inside (by omega) (by omega) hr₀.level)
      (hquiet.mono (Nat.le_refl _) (by omega)) hat₃ fun k'' hk'' hat₄ => ?_
    refine .done hat₄ ⟨hquiet.watch (d := c₄.level) ⟨hle, by omega, rfl⟩ k'', u.2, m.header.signature,
      (t', m.routine), v', o.env u.1, q.1,
      ⟨hlast, hlevel.trans hr₀.level, hcalls.op, _, hcalls.step, hcallee, rfl, ⟨u.1, rfl, ?_⟩, rfl, hlt, ?_,
        hr₀.heap, hf₂.mono hr₃.store⟩, hgt, hr₀.store, hrun _ _⟩
    · exact hstanding'.mono (by omega) ⟨⟨[], hstack₃.symm⟩, [], by simp⟩ rfl rfl
    · show c₃.level + 1 = _
      rw [hr₀.level]

/-- What comes to a routine does what its evaluation does, if the routine does. -/
theorem Expr.Reaches.simulated {e : Expr} (h : e.Reaches p code hsize W n) (hr : Routine.Simulated p code hsize W n) :
    e.Simulated p code hsize W n := by
  intro v ρ σ i c a t hat hip hsite hst howns
  obtain ⟨α, r, f, hvalue, hruns⟩ := h hat hip hsite hst howns
  rw [hvalue]
  refine hruns.seq (fun _ h => h.mono (Nat.le_refl _) (by omega) rfl)
    fun q j c₁ _ hij hat₁ ⟨hwatch, σ', g, x, v', ρ', vs, hcalling, hresult, hstore, hf⟩ => ?_
  obtain ⟨hlast, hlevel, -, c₂, hstep, hentered⟩ := hcalling
  have hpos := e.size_pos
  rw [hf]
  refine Runs.step (S := watching p code hsize W) hat₁ (.inl ⟨by omega, by omega, hlevel⟩) hwatch hstep fun hat₂ => ?_
  refine (hr hat₂ hentered).last (fun _ h => .inr h) fun q' k c₃ _ hjk hat₃ ⟨hr₃, hf₃, _⟩ => ?_
  exact .done hat₃ ⟨{ hr₃ with store := hstore.trans hr₃.store }, hresult ▸ hf₃⟩

end

end FoolLang
