/-
The machine evaluates the arguments of calls and of instantiations: the values of some expressions come to
stand on the stack, and those that an instantiation asks for move to the heap as an object of its class.
-/
import FoolLang.Proofs.Simulation.Expressions
import Mathlib.Data.List.Forall2

namespace FoolLang

open Machine

/-- Some words are values of some types. -/
def Store.FitsAll (σ : Store) (ws : List Int32) (ts : List Ty) : Prop := List.Forall₂ σ.Fits ws ts

theorem Store.FitsAll.mono {σ σ' : Store} {ws : List Int32} {ts : List Ty} (h : σ.FitsAll ws ts)
    (hσ : σ.Extends σ') : σ'.FitsAll ws ts := List.Forall₂.imp (fun _ _ hf => hf.mono hσ) h

section

variable (p : Program) (code : Array Op) (hsize : code.size < 2 ^ 31) (W : List Spot) (n : Nat)

/-- The machine does what an evaluation of some expressions from right to left does. -/
def Expr.SimulatedReversed (es : List Expr) : Prop :=
  ∀ ⦃v : View⦄ ⦃ρ : Env⦄ ⦃σ : Store⦄ ⦃i : Nat⦄ ⦃c : Config⦄ ⦃a : Nat⦄ ⦃ts : List Ty⦄, At code i c → c.ip = a →
    SiteReversed p code v es a ts → Standing p code v ρ σ i c c.fp →
    Covers W (Expr.spotsReversed a es) a (a + Expr.sizeAll es) →
    Runs (watching p code hsize W) (Inside a (a + Expr.sizeAll es) c.level) n i
      (Expr.evaluateReversed p.classes (Routine.run p.classes n) ρ es σ)
      fun q j c' => Reached p code σ q.2 c c' (a + Expr.sizeAll es) q.1 j ∧ q.2.FitsAll q.1 ts

/-- The machine does what an evaluation of some expressions from left to right does. -/
def Expr.SimulatedAll (es : List Expr) : Prop :=
  ∀ ⦃v : View⦄ ⦃ρ : Env⦄ ⦃σ : Store⦄ ⦃i : Nat⦄ ⦃c : Config⦄ ⦃a : Nat⦄ ⦃ts : List Ty⦄, At code i c → c.ip = a →
    SiteAll p code v es a ts → Standing p code v ρ σ i c c.fp →
    Owns p code W (Expr.spotsAll a es) a (a + Expr.sizeAll es) i →
    Runs (watching p code hsize W) (Inside a (a + Expr.sizeAll es) c.level) n i
      (Expr.evaluateAll p.classes (Routine.run p.classes n) ρ es σ)
      fun q j c' => Reached p code σ q.2 c c' (a + Expr.sizeAll es) q.1.reverse j ∧ q.2.FitsAll q.1 ts

end

section

variable {p : Program} {code : Array Op} {hsize : code.size < 2 ^ 31} {W : List Spot} {n : Nat} {es : List Expr}

theorem Expr.simulatedReversed (h : ∀ e ∈ es, e.Simulated p code hsize W n) :
    Expr.SimulatedReversed p code hsize W n es := by
  induction es with
  | nil =>
    intro v ρ σ i c a ts hat hip hsite hst _
    cases hsite.types
    exact .done hat ⟨hst.reached (Nat.le_refl i) hip rfl rfl rfl rfl rfl, .nil⟩
  | cons e es ih =>
    intro v ρ σ i c a ts hat hip hsite hst hcovers
    cases ts with
    | nil => cases hsite.types
    | cons t ts =>
      obtain ⟨s, hst', hse, hses⟩ := hsite.cons
      have hwe := e.spots_within (a + Expr.sizeAll es)
      have hwes := Expr.spotsReversed_within es a
      have hlen : Expr.sizeAll (e :: es) = e.size + Expr.sizeAll es := rfl
      have hback : Covers W (e.spots (a + Expr.sizeAll es)) (a + Expr.sizeAll es) (a + Expr.sizeAll es + e.size) :=
        hcovers.back hwes (by omega) (by omega)
      have hvalue : Expr.evaluateReversed p.classes (Routine.run p.classes n) ρ (e :: es) σ =
          (Expr.evaluateReversed p.classes (Routine.run p.classes n) ρ es σ >>= fun q =>
            e.evaluate p.classes (Routine.run p.classes n) ρ q.2 >>= fun r => pure (r.1 :: q.1, r.2)) := rfl
      rw [hvalue]
      refine (ih (fun e he => h e (List.mem_cons_of_mem _ he)) hat hip hses hst
        (hcovers.front hwe (Nat.le_refl _) (by omega))).seq
        (fun _ h => h.mono (Nat.le_refl _) (by omega) rfl) fun q j c₁ _ hij hat₁ ⟨hr₁, hf₁⟩ => ?_
      refine (h e List.mem_cons_self hat₁ hr₁.ip hse (hr₁.standing_fp hst) (hback.owns j)).seq
        (fun _ h => h.mono (by omega) (by omega) hr₁.level) fun r k c₂ _ hjk hat₂ ⟨hr₂, hf₂⟩ => ?_
      refine .done hat₂ ⟨(hr₁.trans hr₂).moved (Nat.le_refl k) ?_ (hr₁.trans hr₂).stack rfl rfl rfl rfl,
        .cons (hf₂.subtype hst') (hf₁.mono hr₂.store)⟩
      rw [hr₂.ip]
      omega

theorem Expr.simulatedAll (h : ∀ e ∈ es, e.Simulated p code hsize W n) : Expr.SimulatedAll p code hsize W n es := by
  induction es with
  | nil =>
    intro v ρ σ i c a ts hat hip hsite hst _
    cases hsite.types
    exact .done hat ⟨hst.reached (Nat.le_refl i) hip rfl rfl rfl rfl rfl, .nil⟩
  | cons e es ih =>
    intro v ρ σ i c a ts hat hip hsite hst howns
    cases ts with
    | nil => cases hsite.types
    | cons t ts =>
      obtain ⟨s, hst', hse, hses⟩ := hsite.cons
      have hwe := e.spots_within a
      have hwes := Expr.spotsAll_within es (a + e.size)
      have hlen : Expr.sizeAll (e :: es) = e.size + Expr.sizeAll es := rfl
      have hpos := e.size_pos
      have howns : Owns p code W (e.spots a ++ Expr.spotsAll (a + e.size) es) a (a + Expr.sizeAll (e :: es)) i := howns
      have hback : Covers W (Expr.spotsAll (a + e.size) es) (a + e.size) (a + e.size + Expr.sizeAll es) :=
        (howns.back hwe (by omega)).mono (Nat.le_refl _) (by omega)
      have hvalue : Expr.evaluateAll p.classes (Routine.run p.classes n) ρ (e :: es) σ =
          (e.evaluate p.classes (Routine.run p.classes n) ρ σ >>= fun q =>
            Expr.evaluateAll p.classes (Routine.run p.classes n) ρ es q.2 >>= fun r => pure (q.1 :: r.1, r.2)) := rfl
      rw [hvalue]
      refine (h e List.mem_cons_self hat hip hse hst (howns.front hwes (by omega))).seq
        (fun _ h => h.mono (Nat.le_refl _) (by omega) rfl) fun q j c₁ _ hij hat₁ ⟨hr₁, hf₁⟩ => ?_
      refine (ih (fun e he => h e (List.mem_cons_of_mem _ he)) hat₁ hr₁.ip hses (hr₁.standing_fp hst)
        (hback.owns j)).seq (fun _ h => h.mono (by omega) (by omega) hr₁.level) fun r k c₂ _ hjk hat₂ ⟨hr₂, hf₂⟩ => ?_
      refine .done hat₂ ⟨(hr₁.trans hr₂).moved (Nat.le_refl k) ?_ ?_ rfl rfl rfl rfl,
        .cons ((hf₁.subtype hst').mono hr₂.store) hf₂⟩
      · rw [hr₂.ip]
        omega
      · rw [List.reverse_cons]
        exact (hr₁.trans hr₂).stack

end

/-! ## Objects -/

/-- The store with one more object at the first free addresses. -/
def Store.made (σ : Store) (cls : ClassDecl) (vs : List Int32) : Store :=
  { σ with free := σ.free + vs.length + 1
           objects := (.ofNat (σ.free + vs.length), ⟨cls, vs⟩) :: σ.objects }

theorem Store.made_self (σ : Store) (cls : ClassDecl) (vs : List Int32) :
    (σ.made cls vs).object? (.ofNat (σ.free + vs.length)) = some ⟨cls, vs⟩ := by
  simp [Store.object?, Store.made]

section

variable {p : Program} {code : Array Op} {σ : Store} {heap output : List Int32} {cls : ClassDecl} {vs : List Int32}

theorem ofNat_inj {m n : Nat} (hm : m < 2 ^ 31) (hn : n < 2 ^ 31) (h : Int32.ofNat m = .ofNat n) : m = n := by
  have hi := congrArg Int32.toInt h
  rw [toInt_ofNat hm, toInt_ofNat hn] at hi
  omega

/-- A new object has an address of its own, so the objects made before stay. -/
theorem World.extends_made (h : World p σ heap output) (hsize : heap.length + vs.length < memSize) :
    σ.Extends (σ.made cls vs) := by
  have hm : memSize < 2 ^ 31 := by decide
  intro a o ho
  obtain ⟨k, _, rfl, -, htable, -, -⟩ := (h.made a o ho).place
  have hlt := (List.getElem?_eq_some_iff.mp htable).1
  have hne : (Int32.ofNat k == .ofNat (σ.free + vs.length)) = false := by
    rw [beq_eq_false_iff_ne]
    intro heq
    have hk := ofNat_inj (by omega) (by rw [h.free]; omega) heq
    rw [h.free] at hk
    omega
  rw [Store.object?, Store.made, List.lookup_cons, hne]
  exact ho

/-- A new object stands on the heap as its class and its fields say. -/
theorem World.allocate {i : Nat} (h : World p σ heap output) (hi : p.classes[i]? = some cls)
    (hcount : vs.length = cls.fields.length) (hfits : σ.FitsAll vs (cls.fields.map (·.type)))
    (hsize : heap.length + vs.length < memSize) :
    World p (σ.made cls vs) (heap ++ vs.reverse ++ [.ofNat (p.tableAt i)]) output := by
  have hextends : σ.Extends (σ.made cls vs) := h.extends_made hsize
  refine ⟨by simp [Store.made, h.free]; omega, h.output, fun a o ho => ?_⟩
  rw [Store.object?, Store.made, List.lookup_cons] at ho
  split at ho
  · rename_i heq
    cases ho
    cases beq_iff_eq.mp heq
    refine ⟨⟨heap.length + vs.length, i, by rw [h.free], hi, ?_, Nat.le_add_left _ _, fun j w hj => ?_⟩, hcount,
      fun j f w hf hw => ?_⟩
    · rw [List.getElem?_append_right (by simp)]
      simp
    · have hlt := (List.getElem?_eq_some_iff.mp hj).1
      simp only at hlt
      rw [List.getElem?_append_left (by simp; omega), List.getElem?_append_right (by omega),
        List.getElem?_reverse (by omega), ← hj]
      congr 1
      omega
    · refine Store.Fits.mono ?_ hextends
      have hfield : (cls.fields.map (·.type))[j]? = some f.type := by rw [List.getElem?_map, hf]; rfl
      obtain ⟨hj, hget⟩ := List.getElem?_eq_some_iff.mp hw
      obtain ⟨hj', hget'⟩ := List.getElem?_eq_some_iff.mp hfield
      rw [← hget, ← hget']
      exact hfits.get hj hj'
  · rw [List.append_assoc]
    exact (h.made a o ho).mono hextends _

/-- Something is found by its name where nothing else has it. -/
theorem find?_name {α : Type} {name : α → String} {as : List α} (hd : (as.map name).Nodup) {i : Nat} {a : α}
    (hi : as[i]? = some a) : as.find? (name · == name a) = some a := by
  induction as generalizing i with
  | nil => cases hi
  | cons b as ih =>
    rw [List.map_cons, List.nodup_cons] at hd
    cases i with
    | zero =>
      cases hi
      rw [List.find?_cons, beq_self_eq_true]
    | succ i =>
      have hi : as[i]? = some a := hi
      have hne : (name b == name a) = false := by
        rw [beq_eq_false_iff_ne]
        rintro heq
        exact hd.1 (heq ▸ List.mem_map_of_mem (List.mem_of_getElem? hi))
      rw [List.find?_cons, hne]
      exact ih hd.2 hi

end

section

variable {p : Program} {code : Array Op} {hsize : code.size < 2 ^ 31} {W : List Spot} {n : Nat}
    {es : List Expr} {l : Nat}
variable {v : View} {ρ : Env} {σ σ' : Store} {i j : Nat} {c c₁ : Config} {a : Nat} {t : Ty} {x : String}
variable {r : Option Resolution} {vs : List Int32}

/-- From behind the code of its arguments, an object is made of them. -/
theorem runs_object {k : Nat} {cls : ClassDecl} (hp : p.Sound)
    (hsite : Site p code v (.new cls.name es r l) a (.ref cls.name))
    (hst : Standing p code v ρ σ i c c.fp) (hk : p.classes[k]? = some cls)
    (hlen : (Expr.new cls.name es r l).size = Expr.sizeAll es + (Code.object es.length (View.offset k)).length)
    (hobject : Stands code (a + Expr.sizeAll es) (Code.ops (Code.object es.length (View.offset k))))
    (hes : es.length = vs.length) (hat : At code j c₁)
    (hr : Reached p code σ σ' c c₁ (a + Expr.sizeAll es) vs.reverse j)
    (hfits : σ'.FitsAll vs (cls.ownFields.map (·.type)))
    (hfirst : ∀ spot ∈ W, spot.start = a + Expr.sizeAll es → Begun p code spot j)
    (hquiet : Covers W [] (a + Expr.sizeAll es + 1) (a + (Expr.new cls.name es r l).size)) :
    Runs (watching p code hsize W) (Inside a (a + (Expr.new cls.name es r l).size) c.level) n j
      (.ok (.ofNat (σ'.free + vs.length), σ'.made cls vs))
      fun q j c' => Reached p code σ q.2 c c' (a + (Expr.new cls.name es r l).size) [q.1] j ∧
        q.2.Fits q.1 (.ref cls.name) := by
  have hvs : vs.reverse.length = es.length := by rw [List.length_reverse, hes]
  rw [← hvs] at hobject hlen
  have hclass := hp.classes k cls hk
  have hcount : vs.length = cls.fields.length := by
    rw [hfits.length_eq, List.length_map, hclass.fields]
  obtain ⟨c₂, henters, hbetween, hip₂, hstep⟩ := enters_object hr.ip hobject hr.stack hr.heap (hst.tables.slot k cls hk)
  have hend : a + Expr.sizeAll es + (Code.object vs.reverse.length (View.offset k)).length =
      a + (Expr.new cls.name es r l).size := by omega
  rw [hend] at henters hbetween hip₂ hstep
  refine Runs.enter henters (fun _ h => h.inside (by omega) (Nat.le_refl _) hr.level) hfirst hquiet hat
    fun m hjm hat₂ => ?_
  have hpos : a + Expr.sizeAll es + 1 ≤ c₂.ip := by
    rw [Code.object_length] at hlen
    omega
  have hbetween' : Between (a + Expr.sizeAll es + 1) (a + (Expr.new cls.name es r l).size) c₁.level c₂ :=
    ⟨hpos, hbetween.2⟩
  refine Runs.step (S := watching p code hsize W) hat₂ (hbetween.inside (by omega) (Nat.le_refl _) hr.level)
    (hquiet.watch hbetween' m) hstep fun hat₃ => ?_
  obtain ⟨s, hv, hs, -⟩ := hat₂
  obtain ⟨s', hv', hs', hl'⟩ := hat₃
  have hroom := hs'.stack_le
  simp only [List.length_append, List.length_reverse, List.length_cons, List.length_nil] at hroom
  have hworld := hr.world.allocate hk hcount (hclass.fields ▸ hfits) (by omega)
  have hextends : σ'.Extends (σ'.made cls vs) := hr.world.extends_made (by omega)
  have haddress : Int32.ofNat (c₁.heap.length + vs.reverse.length) = .ofNat (σ'.free + vs.length) := by
    rw [hr.world.free, List.length_reverse]
  have hbuilt : Built p code (m + 1) (.ofNat (σ'.free + vs.length)) cls.name := by
    refine ⟨⟨.new cls.name es r l, a⟩, hsite.spots List.mem_cons_self, ⟨es, r, l, rfl⟩, m,
      Nat.lt_succ_self m, s, s', hv, ?_, hv', ?_⟩
    · rw [hs.ip]
      exact hip₂
    · rw [hs'.sp, hs'.word (Config.Shown.holds_top _ rfl), haddress]
  obtain ⟨more, hmore⟩ := hr.heap
  refine .done ⟨s', hv', hs', hl'⟩ ⟨⟨rfl, by rw [haddress]; rfl, ⟨more ++ (vs.reverse ++ [.ofNat (p.tableAt k)]), ?_⟩,
    hr.fp, hr.level, hworld, fun b o ho => ?_, hr.store.trans hextends⟩, .inr ⟨_, σ'.made_self cls vs, rfl⟩⟩
  · rw [← List.append_assoc, ← hmore, List.append_assoc]
  · rw [Store.object?, Store.made, List.lookup_cons] at ho
    split at ho
    · rename_i heq
      cases ho
      rw [beq_iff_eq.mp heq]
      exact hbuilt
    · exact (hr.built b o ho).mono (by omega)

theorem Expr.simulated_new (hp : p.Sound) (h : ∀ e ∈ es, e.Simulated p code hsize W n) :
    (Expr.new x es r l).Simulated p code hsize W n := by
  intro v ρ σ i c a t hat hip hsite hst howns
  have hbegun : Begun p code ⟨.new x es r l, a⟩ i := ⟨c, v, ρ, σ, t, hat, hip, hsite, hst⟩
  obtain ⟨k, cls, hk, rfl, rfl, hr, hsites, hobject⟩ := hsite.new
  have hlen : (Expr.new cls.name es r l).size = Expr.sizeAll es + (Code.object es.length (View.offset k)).length := by
    rw [hr]
    rfl
  have hpos := Code.object_pos es.length (View.offset k)
  have hwithin := Expr.spotsAll_within es a
  have howns : Owns p code W (⟨.new cls.name es r l, a⟩ :: (Expr.spotsAll a es ++ [])) a
      (a + (Expr.new cls.name es r l).size) i := by
    rw [List.append_nil]
    exact howns
  have hvalue : (Expr.new cls.name es r l).evaluate p.classes (Routine.run p.classes n) ρ σ =
      (Expr.evaluateAll p.classes (Routine.run p.classes n) ρ es σ >>= fun q =>
        pure (.ofNat (q.2.free + q.1.length), q.2.made cls q.1)) := by
    rw [Expr.evaluate, find?_name hp.distinct hk]
    rfl
  rw [hvalue]
  cases es with
  | nil =>
    -- Without arguments, the first instruction is one of those that make the object.
    have hr : Reached p code σ σ c c a [] i := hst.reached (Nat.le_refl i) hip rfl rfl rfl rfl rfl
    have hfits : σ.FitsAll [] (cls.ownFields.map (·.type)) :=
      List.forall₂_nil_left_iff.mpr (List.forall₂_nil_left_iff.mp hsites.types)
    refine runs_object hp hsite hst hk hlen hobject rfl hat hr hfits ?_ howns.inside
    exact fun spot hspot hs => howns.first (by omega) hbegun (Within.nil (b := a)) hspot hs
  | cons e es =>
    have hsizes : Expr.sizeAll (e :: es) = e.size + Expr.sizeAll es := rfl
    have hpos' := e.size_pos
    have hquiet : Covers W [] (a + Expr.sizeAll (e :: es)) (a + (Expr.new cls.name (e :: es) r l).size) :=
      (howns.tail hbegun).back hwithin (by omega)
    refine (Expr.simulatedAll h hat hip hsites hst ((howns.tail hbegun).front (Within.nil (b := a)) (by omega))).seq
      (fun _ h => h.mono (Nat.le_refl _) (by omega) rfl) fun q j c₁ _ hij hat₁ hreached => ?_
    obtain ⟨hr₁, hf₁⟩ := hreached
    have hes : (e :: es).length = q.1.length := by rw [hf₁.length_eq, hsites.types.length_eq]
    refine runs_object hp hsite hst hk hlen hobject hes hat₁ hr₁ hf₁ ?_ (hquiet.mono (Nat.le_succ _) (Nat.le_refl _))
    exact fun spot hspot hs => absurd (hquiet spot hspot (by omega) (by omega)) List.not_mem_nil

end

end FoolLang
