/-
The machine evaluates expressions: from the beginning of the code of an expression, it comes to the end of
it with the value of the expression on top of the stack, or stops for the reason for which the evaluation
does. Every construct is shown to do so when its parts do.
-/
import FoolLang.Proofs.Simulation.Sites

namespace FoolLang

open Machine

section

variable (p : Program) (code : Array Op) (hsize : code.size < 2 ^ 31) (W : List Spot) (n : Nat)

/-- From where the code of an expression begins, the machine does what an evaluation of the expression does. -/
def Expr.Simulated (e : Expr) : Prop :=
  ∀ ⦃v : View⦄ ⦃ρ : Env⦄ ⦃σ : Store⦄ ⦃i : Nat⦄ ⦃c : Config⦄ ⦃a : Nat⦄ ⦃t : Ty⦄, At code i c → c.ip = a →
    Site p code v e a t → Standing p code v ρ σ i c c.fp → Owns p code W (e.spots a) a (a + e.size) i →
    Runs (watching p code hsize W) (Inside a (a + e.size) c.level) n i
      (e.evaluate p.classes (Routine.run p.classes n) ρ σ)
      fun q j c' => Reached p code σ q.2 c c' (a + e.size) [q.1] j ∧ q.2.Fits q.1 t

end

section

variable {p : Program} {code : Array Op} {hsize : code.size < 2 ^ 31} {W : List Spot} {n : Nat}
variable {v : View} {ρ : Env} {σ : Store} {i : Nat} {c c' : Config} {a l : Nat} {t : Ty} {w : Int32}
variable {e x y : Expr} {op : BinaryOp}

/-- An expression without parts. -/
theorem leaf (hat : At code i c) (hip : c.ip = a) (hsite : Site p code v e a t) (hst : Standing p code v ρ σ i c c.fp)
    (howns : Owns p code W [⟨e, a⟩] a (a + e.size) i) (henters : Enters code a (a + e.size) c c')
    (hip' : c'.ip = a + e.size) (hstack : c'.stack = w :: c.stack) (hheap : c'.heap = c.heap) (hfp : c'.fp = c.fp)
    (hlevel : c'.level = c.level) (hout : c'.output = c.output) (hfits : σ.Fits w t) :
    Runs (watching p code hsize W) (Inside a (a + e.size) c.level) n i (.ok (w, σ))
      fun q j c' => Reached p code σ q.2 c c' (a + e.size) [q.1] j ∧ q.2.Fits q.1 t := by
  have hbegun : Begun p code ⟨e, a⟩ i := ⟨c, v, ρ, σ, t, hat, hip, hsite, hst⟩
  have hpos := e.size_pos
  refine Runs.enter henters (fun _ h => .inl h) ?_ howns.inside hat fun j hij hat' => ?_
  · exact fun spot hspot hs => howns.first (by omega) hbegun (Within.nil (b := a)) hspot hs
  · exact .done hat' ⟨hst.reached hij hip' hstack hheap hfp hlevel hout, hfits⟩

theorem enters_push (hip : c.ip = a) (h : Stands code a [.push w]) :
    Enters code a (a + 1) c { c with ip := a + 1, stack := w :: c.stack } := by
  subst hip
  exact ⟨rfl, Nat.lt_succ_self _, _, .push h.1, .refl _⟩

theorem Expr.simulated_int (w : Int32) : (Expr.int w l).Simulated p code hsize W n := by
  intro v ρ σ i c a t hat hip hsite hst howns
  have ht : Ty.int = t := Except.ok.inj hsite.type
  exact leaf hat hip hsite hst howns (enters_push hip hsite.laid) rfl rfl rfl rfl rfl rfl (ht ▸ trivial)

theorem Expr.simulated_bool (b : Bool) : (Expr.bool b l).Simulated p code hsize W n := by
  intro v ρ σ i c a t hat hip hsite hst howns
  have ht : Ty.bool = t := Except.ok.inj hsite.type
  refine leaf hat hip hsite hst howns (enters_push hip hsite.laid) rfl rfl rfl rfl rfl rfl (ht ▸ ?_)
  cases b
  · exact .inl rfl
  · exact .inr rfl

theorem Expr.simulated_null : (Expr.null l).Simulated p code hsize W n := by
  intro v ρ σ i c a t hat hip hsite hst howns
  have ht : Ty.null = t := Except.ok.inj hsite.type
  exact leaf hat hip hsite hst howns (enters_push hip hsite.laid) rfl rfl rfl rfl rfl rfl (ht ▸ rfl)

theorem wordOf_bool (b : Bool) : wordOf b = 0 ∨ wordOf b = 1 := by
  cases b
  · exact .inl rfl
  · exact .inr rfl

theorem BinaryOp.resultType_fits {s u : Ty} {q q' : Int32} {r : Int32 × Store} (hop : op.isShort = false)
    (ht : op.resultType s u l = .ok t) (hw : op.apply q q' σ = .ok r) : r.2.Fits r.1 t := by
  cases op with
  | and | or => cases hop
  | plus | minus | times | div =>
    obtain ⟨_, -, hint⟩ := Sequencing.except_bind_ok ht
    cases hint
    trivial
  | equal | lessEqual | greaterEqual =>
    obtain ⟨_, -, hbool⟩ := Sequencing.except_bind_ok ht
    cases hbool
    cases hw
    exact wordOf_bool _

theorem Expr.simulated_strict (hx : x.Simulated p code hsize W n) (hy : y.Simulated p code hsize W n)
    (hop : op.isShort = false) : (Expr.binary op x y l).Simulated p code hsize W n := by
  intro v ρ σ i c a t hat hip hsite hst howns
  have hbegun : Begun p code ⟨.binary op x y l, a⟩ i := ⟨c, v, ρ, σ, t, hat, hip, hsite, hst⟩
  obtain ⟨s, u, hsx, hsy, hresult, htail⟩ := hsite.strict hop
  have hlen := Expr.size_strict x y l hop
  have hwx := x.spots_within a
  have hwy := y.spots_within (a + x.size)
  rw [Expr.spots_strict x y l a hop] at howns
  have hpos := x.size_pos
  have hin := howns.inside
  have hquiet : Covers W [] (a + x.size + y.size) (a + x.size + y.size + (op.tail 0).length) :=
    hin.rest ((hwx.mono (Nat.le_refl a) (by omega)).append (hwy.mono (by omega) (Nat.le_refl _))) (by omega) (by omega)
  rw [Expr.evaluate_strict x y l hop]
  refine (hx hat hip hsx hst (howns.left hbegun hwy (by omega))).seq
    (fun _ h => h.mono (Nat.le_refl _) (by omega) rfl) fun q j c₁ _ hij hat₁ ⟨hr₁, hf₁⟩ => ?_
  refine (hy hat₁ hr₁.ip hsy (hr₁.standing_fp hst) ((hin.back hwx (by omega) (by omega)).owns j)).seq
    (fun _ h => h.mono (by omega) (by omega) hr₁.level) fun q' k c₂ _ hjk hat₂ ⟨hr₂, hf₂⟩ => ?_
  have hlevel₂ : c₂.level = c.level := hr₂.level.trans hr₁.level
  have hstack₂ : c₂.stack = q'.1 :: q.1 :: c.stack := by rw [hr₂.stack, hr₁.stack]; rfl
  by_cases hdiv : op = .div ∧ q'.1 = 0
  · obtain ⟨rfl, hzero⟩ := hdiv
    have hstop : BinaryOp.div.apply q.1 q'.1 q'.2 = .error .divisionByZero := by
      rw [BinaryOp.apply, if_pos hzero]
      rfl
    have hone : (BinaryOp.div.tail 0).length = 1 := rfl
    have hbetween : Between (a + x.size + y.size) (a + x.size + y.size + 1) c.level c₂ :=
      ⟨Nat.le_of_eq hr₂.ip.symm, by rw [hr₂.ip]; omega, hlevel₂⟩
    rw [hstop]
    rw [hzero] at hstack₂
    exact .divides hat₂ (hbetween.inside (by omega) (by omega) rfl) hbetween hquiet
      (hr₂.ip ▸ htail.1) hstack₂
  · obtain ⟨w, c', happly, hpath, hip', hstack', hheap', hfp', hlevel', hout'⟩ :=
      path_tail hop (fun hd hz => hdiv ⟨hd, hz⟩) hr₂.ip htail hstack₂
    refine Runs.glue hpath (fun _ h => h.inside (by omega) (by omega) hlevel₂) hquiet hat₂ fun m hkm hat' => ?_
    have hfits := BinaryOp.resultType_fits (σ := q'.2) hop hresult (congrFun happly q'.2)
    rw [happly]
    exact .done hat' ⟨(hr₁.trans hr₂).moved hkm (by omega) hstack' hheap' hfp' hlevel' hout', hfits⟩

/-- A truth value is the one that settles a short operator or the other one. -/
theorem BinaryOp.settled_or (hop : op.isShort = true) (hw : w = 0 ∨ w = 1) :
    (if w = op.settled then op.settled else op.unsettled) = w := by
  cases op with
  | and | or =>
    rcases hw with rfl | rfl <;> decide
  | _ => cases hop

theorem Expr.simulated_short (hx : x.Simulated p code hsize W n) (hy : y.Simulated p code hsize W n)
    (hop : op.isShort = true) : (Expr.binary op x y l).Simulated p code hsize W n := by
  intro v ρ σ i c a t hat hip hsite hst howns
  have hbegun : Begun p code ⟨.binary op x y l, a⟩ i := ⟨c, v, ρ, σ, t, hat, hip, hsite, hst⟩
  obtain ⟨rfl, hsx, hsy, htest, htail⟩ := hsite.short hop
  have hlen := Expr.size_short x y l hop
  have hwx := x.spots_within a
  have hwy := y.spots_within (a + x.size + 2)
  rw [Expr.spots_short x y l a hop] at howns
  have hpos := x.size_pos
  have hin := howns.inside
  have hquiet : Covers W [] (a + x.size) (a + x.size + 2) := hin.gap hwx hwy (by omega) (by omega)
  have hquiet' : Covers W [] (a + x.size + 2 + y.size) (a + x.size + 2 + y.size + 5) :=
    hin.rest ((hwx.mono (Nat.le_refl a) (by omega)).append (hwy.mono (by omega) (Nat.le_refl _))) (by omega) (by omega)
  rw [Expr.evaluate_short x y l hop]
  refine (hx hat hip hsx hst (howns.left hbegun (hwy.mono (by omega) (Nat.le_refl _)) (by omega))).seq
    (fun _ h => h.mono (Nat.le_refl _) (by omega) rfl) fun q j c₁ _ hij hat₁ ⟨hr₁, hf₁⟩ => ?_
  have hpath := path_test hr₁.ip htest (show c₁.stack = q.1 :: c.stack from hr₁.stack)
  refine Runs.glue hpath (fun _ h => h.inside (by omega) (by omega) hr₁.level) hquiet hat₁ fun k hjk hat₂ => ?_
  by_cases hq : q.1 = op.settled
  · -- The left operand settles the value: the right one is left out.
    rw [if_pos hq] at hat₂ ⊢
    obtain ⟨-, -, -, -, hpush, -⟩ := htail
    have hsettle : Stands code (a + x.size + 2 + y.size + 4) [.push op.settled] := ⟨hpush, trivial⟩
    have henters : Enters code (a + x.size + 2 + y.size + 4) (a + x.size + 2 + y.size + 4 + 1) _ _ :=
      enters_push (c := { c₁ with ip := a + x.size + 2 + y.size + 4, stack := c.stack }) rfl hsettle
    have hpath := henters.path.widen (show a + x.size + 2 + y.size ≤ _ by omega) (Nat.le_refl _)
    refine Runs.glue hpath (fun _ h => h.inside (by omega) (by omega) hr₁.level) hquiet' hat₂ fun m hkm hat₃ => ?_
    exact .done hat₃ ⟨hr₁.moved (by omega) (by simp only; omega) rfl rfl rfl rfl rfl, hq ▸ hf₁⟩
  · rw [if_neg hq] at hat₂ ⊢
    have hr₂ : Reached p code σ q.2 c { c₁ with ip := a + x.size + 2, stack := c.stack } (a + x.size + 2) [] k :=
      hr₁.moved hjk rfl rfl rfl rfl rfl rfl
    have hback := hin.back (hwx.mono (Nat.le_refl a) (show a + x.size ≤ a + x.size + 2 by omega)) (by omega)
      (show a + x.size + 2 + y.size ≤ a + (Expr.binary op x y l).size by omega)
    refine (hy hat₂ hr₂.ip hsy (hr₂.standing_fp hst) (hback.owns k)).last
      (fun _ h => h.mono (by omega) (by omega) hr₁.level) fun q' m c₃ _ hkm hat₃ ⟨hr₃, hf₃⟩ => ?_
    have hpath' := path_settle hr₃.ip htail (show c₃.stack = q'.1 :: c.stack from hr₃.stack)
    rw [BinaryOp.settled_or hop hf₃] at hpath'
    refine Runs.glue hpath' (fun _ h => h.inside (by omega) (by omega) (hr₃.level.trans hr₁.level)) hquiet' hat₃
      fun m' hm hat₄ => ?_
    exact .done hat₄ ⟨(hr₂.trans hr₃).moved hm (by simp only; omega) rfl rfl rfl rfl rfl, hf₃⟩

theorem Expr.simulated_not (he : e.Simulated p code hsize W n) : (Expr.not e l).Simulated p code hsize W n := by
  intro v ρ σ i c a t hat hip hsite hst howns
  have hbegun : Begun p code ⟨.not e l, a⟩ i := ⟨c, v, ρ, σ, t, hat, hip, hsite, hst⟩
  obtain ⟨rfl, hone, hse, hsub⟩ := hsite.not
  have hlen : (Expr.not e l).size = 1 + e.size + 1 := rfl
  have hwithin := e.spots_within (a + 1)
  have hin : Covers W (e.spots (a + 1)) (a + 1) (a + (Expr.not e l).size) := Owns.inside howns
  have hquiet : Covers W [] (a + 1 + e.size) (a + 1 + e.size + 1) := hin.rest hwithin (by omega) (by omega)
  have hvalue : (Expr.not e l).evaluate p.classes (Routine.run p.classes n) ρ σ =
      (e.evaluate p.classes (Routine.run p.classes n) ρ σ >>= fun q => pure (wordOf (q.1 = 0), q.2)) := rfl
  rw [hvalue]
  refine Runs.enter (enters_push hip hone) (fun _ h => h.inside (Nat.le_refl _) (by omega) rfl)
    (fun spot hspot hs => howns.first (by omega) hbegun hwithin hspot hs) (.empty (Nat.le_refl _)) hat
    fun j hij hat₁ => ?_
  have hr₁ : Reached p code σ σ c { c with ip := a + 1, stack := 1 :: c.stack } (a + 1) [1] j :=
    hst.reached hij rfl rfl rfl rfl rfl rfl
  refine (he hat₁ hr₁.ip hse (hr₁.standing_fp hst) ((hin.mono (Nat.le_refl _) (by omega)).owns j)).seq
    (fun _ h => h.mono (by omega) (by omega) rfl) fun q k c₂ _ hjk hat₂ ⟨hr₂, hf₂⟩ => ?_
  have hstack₂ : c₂.stack = q.1 :: 1 :: c.stack := hr₂.stack
  have hnot : (1 : Int32) - q.1 = wordOf (q.1 = 0) := by
    rcases hf₂ with h | h <;> rw [h] <;> decide
  have hpath : Path code (Between (a + 1 + e.size) (a + 1 + e.size + 1) c₂.level) c₂
      { c₂ with ip := c₂.ip + 1, stack := (1 - q.1) :: c.stack } :=
    .single ⟨by rw [hr₂.ip], by rw [hr₂.ip]; omega, rfl⟩
      (.arith (hr₂.ip ▸ hsub.1) hstack₂ fun h => by cases h)
  rw [hnot] at hpath
  refine Runs.glue hpath (fun _ h => h.inside (by omega) (by omega) hr₂.level) hquiet hat₂ fun m hkm hat₃ => ?_
  refine .done hat₃ ⟨(hr₁.trans hr₂).moved hkm ?_ rfl rfl rfl rfl rfl, wordOf_bool _⟩
  show c₂.ip + 1 = a + (Expr.not e l).size
  rw [hr₂.ip]
  omega

theorem Expr.evaluate_cond (classes : List ClassDecl) (call : Evaluating.Calling) (ρ : Env) (σ : Store)
    (e x y : Expr) (l : Nat) : (Expr.cond e x y l).evaluate classes call ρ σ =
      (e.evaluate classes call ρ σ >>= fun q =>
        if q.1 = 1 then x.evaluate classes call ρ q.2 else y.evaluate classes call ρ q.2) := by
  refine congrArg (e.evaluate classes call ρ σ >>= ·) (funext fun q => ?_)
  show (if q.1 = 1 then x.evaluate classes call ρ else y.evaluate classes call ρ : Evaluating Int32) q.2 = _
  by_cases hq : q.1 = 1
  · rw [if_pos hq, if_pos hq]
  · rw [if_neg hq, if_neg hq]

theorem Expr.simulated_cond (he : e.Simulated p code hsize W n) (hx : x.Simulated p code hsize W n)
    (hy : y.Simulated p code hsize W n) : (Expr.cond e x y l).Simulated p code hsize W n := by
  intro v ρ σ i c a t hat hip hsite hst howns
  have hbegun : Begun p code ⟨.cond e x y l, a⟩ i := ⟨c, v, ρ, σ, t, hat, hip, hsite, hst⟩
  obtain ⟨hse, htest, hjump, s, u, hst', hut', hsx, hsy⟩ := hsite.cond
  have hlen : (Expr.cond e x y l).size = e.size + 2 + y.size + 1 + x.size := rfl
  have hwe := e.spots_within a
  have hwy := y.spots_within (a + e.size + 2)
  have hwx := x.spots_within (a + e.size + 2 + y.size + 1)
  have hpos := e.size_pos
  have howns : Owns p code W (⟨.cond e x y l, a⟩ :: (e.spots a ++ y.spots (a + e.size + 2) ++
    x.spots (a + e.size + 2 + y.size + 1))) a (a + (Expr.cond e x y l).size) i := howns
  have hboth : Owns p code W (e.spots a ++ y.spots (a + e.size + 2)) a (a + e.size + 2 + y.size + 1) i :=
    (howns.tail hbegun).front hwx (by omega)
  have hfront : Within a (a + e.size + 2 + y.size + 1) (e.spots a ++ y.spots (a + e.size + 2)) :=
    (hwe.mono (Nat.le_refl _) (by omega)).append (hwy.mono (by omega) (by omega))
  have hthen : Covers W (x.spots (a + e.size + 2 + y.size + 1)) (a + e.size + 2 + y.size + 1)
      (a + (Expr.cond e x y l).size) := (howns.tail hbegun).back hfront (by omega)
  have helse : Covers W (y.spots (a + e.size + 2)) (a + e.size) (a + e.size + 2 + y.size + 1) :=
    hboth.back hwe (by omega)
  have hquiet : Covers W [] (a + e.size) (a + e.size + 2) := by
    rw [← List.nil_append (y.spots _)] at helse
    exact helse.front hwy (Nat.le_refl _) (by omega)
  have hquiet' : Covers W [] (a + e.size + 2 + y.size) (a + e.size + 2 + y.size + 1) :=
    helse.rest hwy (by omega) (Nat.le_refl _)
  rw [Expr.evaluate_cond]
  refine (he hat hip hse hst (hboth.front (hwy.mono (by omega) (Nat.le_refl _)) (by omega))).seq
    (fun _ h => h.mono (Nat.le_refl _) (by omega) rfl) fun q j c₁ _ hij hat₁ ⟨hr₁, _⟩ => ?_
  have hpath := path_test hr₁.ip htest (show c₁.stack = q.1 :: c.stack from hr₁.stack)
  refine Runs.glue hpath (fun _ h => h.inside (by omega) (by omega) hr₁.level) hquiet hat₁ fun k hjk hat₂ => ?_
  by_cases hq : q.1 = 1
  · rw [if_pos hq] at hat₂ ⊢
    have hr₂ : Reached p code σ q.2 c { c₁ with ip := a + e.size + 2 + y.size + 1, stack := c.stack }
        (a + e.size + 2 + y.size + 1) [] k := hr₁.moved hjk rfl rfl rfl rfl rfl rfl
    refine (hx hat₂ hr₂.ip hsx (hr₂.standing_fp hst) ((hthen.mono (Nat.le_refl _) (by omega)).owns k)).last
      (fun _ h => h.mono (by omega) (by omega) hr₁.level) fun q' m c₃ _ hkm hat₃ ⟨hr₃, hf₃⟩ => ?_
    refine .done hat₃ ⟨(hr₂.trans hr₃).moved (Nat.le_refl _) ?_ hr₃.stack rfl rfl rfl rfl, hf₃.subtype hst'⟩
    rw [hr₃.ip]
    omega
  · rw [if_neg hq] at hat₂ ⊢
    have hr₂ : Reached p code σ q.2 c { c₁ with ip := a + e.size + 2, stack := c.stack } (a + e.size + 2) [] k :=
      hr₁.moved hjk rfl rfl rfl rfl rfl rfl
    refine (hy hat₂ hr₂.ip hsy (hr₂.standing_fp hst) ((helse.mono (by omega) (by omega)).owns k)).last
      (fun _ h => h.mono (by omega) (by omega) hr₁.level) fun q' m c₃ _ hkm hat₃ ⟨hr₃, hf₃⟩ => ?_
    have hpath' : Path code (Between (a + e.size + 2 + y.size) (a + e.size + 2 + y.size + 1) c₃.level) c₃
        { c₃ with ip := a + e.size + 2 + y.size + 1 + x.size } :=
      .single ⟨by rw [hr₃.ip], by rw [hr₃.ip]; omega, rfl⟩ (.jump (hr₃.ip ▸ hjump.1))
    refine Runs.glue hpath' (fun _ h => h.inside (by omega) (by omega) (hr₃.level.trans hr₁.level)) hquiet' hat₃
      fun m' hm hat₄ => ?_
    exact .done hat₄ ⟨(hr₂.trans hr₃).moved hm (by simp only; omega) hr₃.stack rfl rfl rfl rfl, hf₃.subtype hut'⟩

/-- What is printed adds to the output of a store and of the machine. -/
theorem World.print {heap output : List Int32} (h : World p σ heap output) (w : Int32) :
    World p { σ with output := σ.output ++ [w] } heap (output ++ [w]) := by
  refine ⟨h.free, by rw [h.output], fun a o ho => ?_⟩
  obtain ⟨hplace, hcount, htypes⟩ := h.made a o ho
  exact ⟨hplace, hcount, fun j f w hf hw => (htypes j f w hf hw).mono fun _ _ h => h⟩

theorem Expr.simulated_print (he : e.Simulated p code hsize W n) : (Expr.print e l).Simulated p code hsize W n := by
  intro v ρ σ i c a t hat hip hsite hst howns
  have hbegun : Begun p code ⟨.print e l, a⟩ i := ⟨c, v, ρ, σ, t, hat, hip, hsite, hst⟩
  obtain ⟨hse, hprint⟩ := hsite.print
  have hlen : (Expr.print e l).size = e.size + 1 := rfl
  have hpos := e.size_pos
  have hwithin := e.spots_within a
  have hin : Covers W (e.spots a) (a + 1) (a + (Expr.print e l).size) := Owns.inside howns
  have hquiet : Covers W [] (a + e.size) (a + e.size + 1) := hin.rest hwithin (by omega) (by omega)
  have hvalue : (Expr.print e l).evaluate p.classes (Routine.run p.classes n) ρ σ =
      (e.evaluate p.classes (Routine.run p.classes n) ρ σ >>= fun q =>
        pure (q.1, { q.2 with output := q.2.output ++ [q.1] })) := rfl
  have hown : Owns p code W (e.spots a) a (a + e.size) i := by
    have htail : Owns p code W (e.spots a ++ []) a (a + (Expr.print e l).size) i := by
      rw [List.append_nil]
      exact Owns.tail howns hbegun
    exact htail.front (Within.nil (b := a)) (by omega)
  rw [hvalue]
  refine (he hat hip hse hst hown).seq (fun _ h => h.mono (Nat.le_refl _) (by omega) rfl)
    fun q j c₁ _ hij hat₁ ⟨hr₁, hf₁⟩ => ?_
  have hstack₁ : c₁.stack = q.1 :: c.stack := hr₁.stack
  have hpath : Path code (Between (a + e.size) (a + e.size + 1) c₁.level) c₁
      { c₁ with ip := c₁.ip + 1, output := c₁.output ++ [q.1] } :=
    .single ⟨by rw [hr₁.ip], by rw [hr₁.ip]; omega, rfl⟩ (.print (hr₁.ip ▸ hprint.1) hstack₁)
  refine Runs.glue hpath (fun _ h => h.inside (by omega) (by omega) hr₁.level) hquiet hat₁ fun k hjk hat₂ => ?_
  refine .done hat₂ ⟨⟨?_, hstack₁, hr₁.heap, hr₁.fp, hr₁.level, hr₁.world.print q.1, hr₁.built.mono hjk, hr₁.store⟩,
    hf₁.mono fun _ _ h => h⟩
  show c₁.ip + 1 = a + (Expr.print e l).size
  rw [hr₁.ip]
  omega

theorem Expr.simulated_id (name : String) (r : Option Resolution) : (Expr.id name r l).Simulated p code hsize W n := by
  intro v ρ σ i c a t hat hip hsite hst howns
  obtain ⟨b, hb, rfl, rfl, hvalue, hslot⟩ := hsite.id
  have hcls : ∀ fs ms, b.type ≠ .cls fs ms := fun fs ms h => by rw [h] at hvalue; cases hvalue
  obtain ⟨m, ns, sc, outer, ρ', base', hfound⟩ := hst.env.find hb hcls
  obtain ⟨w, rfl, hholds, hfits⟩ := hfound.value hvalue
  obtain ⟨hzero, hlinked⟩ := hfound.reach
  have hresult : (Expr.id name (some ⟨b, v.depth⟩) l).evaluate p.classes (Routine.run p.classes n) ρ σ =
      .ok (w, σ) := by
    rw [Expr.evaluate, hfound.found]
    rfl
  rw [hresult]
  exact leaf hat hip hsite hst howns (enters_slotOf hip hslot hzero hlinked hholds) rfl rfl rfl rfl rfl rfl hfits

end

end FoolLang
