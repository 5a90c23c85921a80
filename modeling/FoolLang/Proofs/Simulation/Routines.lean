/-
The machine runs routines: the declarations of a routine come to stand in its frame, its body leaves a value
on top of them, and the end of its code takes the frame away. By induction on the depth to which calls are
nested, every routine and every expression is run as it is evaluated.
-/
import FoolLang.Proofs.Simulation.Calls

namespace FoolLang

open Machine

variable {p : Program} {code : Array Op} {hsize : code.size < 2 ^ 31} {W : List Spot} {n : Nat}

/-! ## Expressions -/

mutual

/-- Every expression is run as it is evaluated, if every routine is. -/
theorem Expr.simulated (hp : p.Sound) (hl : p.Laid code) (hr : Routine.Simulated p code hsize W n) :
    ∀ e : Expr, e.Simulated p code hsize W n
  | .int w _ => Expr.simulated_int w
  | .bool b _ => Expr.simulated_bool b
  | .null _ => Expr.simulated_null
  | .binary op x y _ => by
    have hx := x.simulated hp hl hr
    have hy := y.simulated hp hl hr
    cases hop : op.isShort with
    | true => exact Expr.simulated_short hx hy hop
    | false => exact Expr.simulated_strict hx hy hop
  | .not e _ => Expr.simulated_not (e.simulated hp hl hr)
  | .cond e x y _ => Expr.simulated_cond (e.simulated hp hl hr) (x.simulated hp hl hr) (y.simulated hp hl hr)
  | .print e _ => Expr.simulated_print (e.simulated hp hl hr)
  | .id name r _ => Expr.simulated_id name r
  | .call _ args _ _ => (Expr.reaches_call hp hl (Expr.simulatedEach hp hl hr args)).simulated hr
  | .new _ args _ _ => Expr.simulated_new hp (Expr.simulatedEach hp hl hr args)
  | .methodCall receiver _ args _ _ =>
    (Expr.reaches_methodCall hp hl (Expr.simulatedEach hp hl hr args) (receiver.simulated hp hl hr)).simulated hr

theorem Expr.simulatedEach (hp : p.Sound) (hl : p.Laid code) (hr : Routine.Simulated p code hsize W n) :
    ∀ es : List Expr, ∀ e ∈ es, e.Simulated p code hsize W n
  | [] => fun _ h => (List.not_mem_nil h).elim
  | e :: es => List.forall_mem_cons.mpr ⟨e.simulated hp hl hr, Expr.simulatedEach hp hl hr es⟩

end

/-! ## Declarations -/

/-- Behind some words, the frame at a base has as many declarations as a view has seen. -/
structure Framed (v : View) (c : Config) : Prop where
  depth : ∃ d, c.fp = stackAt d ∧ c.stack.length = d + 1 + v.taken

section

variable {v : View} {ρ : Env} {σ : Store} {i : Nat} {c c' : Config} {name : String} {t : Ty} {m : Meaning}

/-- The word on top stands where the next declaration of a frame is to stand. -/
theorem Framed.holds {w : Int32} (h : Framed v c) (hs : c'.stack = w :: c.stack) (hfp : c'.fp = c.fp) :
    c'.Holds (c'.fp + View.offset v.taken) w := by
  obtain ⟨d, hd, hlen⟩ := h.depth
  have hlen' : c'.stack.length = c.stack.length + 1 := by rw [hs]; rfl
  rw [hfp, hd, View.offset, stackAt_add (e := c'.stack.length) (by omega)]
  exact Config.Shown.holds_top c' hs

theorem Framed.declare {w : Int32} (h : Framed v c) (hs : c'.stack = w :: c.stack) (hfp : c'.fp = c.fp) :
    Framed (v.declare name t) c' := by
  obtain ⟨d, hd, hlen⟩ := h.depth
  refine ⟨d, hfp.trans hd, ?_⟩
  rw [hs, List.length_cons, hlen]
  rfl

end

/-- The declarations of a frame are evaluated onto it, one behind the other. -/
theorem Decl.simulatedAll (hsim : ∀ e : Expr, e.Simulated p code hsize W n) : ∀ (ds : List Decl) {v : View} {ρ : Env}
    {σ : Store} {i : Nat} {c : Config} {a : Nat}, At code i c → c.ip = a → Decl.SoundAll p.classes v ds →
    Decl.LaidAll code p.placed a ds → a + Decl.sizeAll ds < code.size → Decl.spotsAll a ds ⊆ p.spots →
    Covers W (Decl.spotsAll a ds) a (a + Decl.sizeAll ds) → Standing p code v ρ σ i c c.fp → Framed v c →
    Runs (watching p code hsize W) (Inside a (a + Decl.sizeAll ds) c.level) n i
      (Decl.evaluateAll p.classes (Routine.run p.classes n) ρ ds σ) fun q j c' =>
        ∃ news, news.length = ds.length ∧ Reached p code σ q.2 c c' (a + Decl.sizeAll ds) news j ∧
          EnvAt p q.2 c' (v.behindAll ds).scopes q.1 c'.fp
  | [], v, ρ, σ, i, c, a, hat, hip, _, _, _, _, _, hst, _ =>
    .done hat ⟨[], rfl, hst.reached (Nat.le_refl i) hip rfl rfl rfl rfl rfl, hst.env⟩
  | .var name type value l :: ds, v, ρ, σ, i, c, a, hat, hip, hs, hl, hlt, hspots, hcovers, hst, hframed => by
    obtain ⟨⟨hvalued, hr, s, hs', hst'⟩, hds⟩ := hs
    obtain ⟨hlv, hlds⟩ := hl
    have hlen : Decl.sizeAll (.var name type value l :: ds) = value.size + Decl.sizeAll ds := rfl
    have hpos := value.size_pos
    have hwv := value.spots_within a
    have hwds := Decl.spotsAll_within ds (a + value.size)
    have hcovers : Covers W (value.spots a ++ Decl.spotsAll (a + value.size) ds) a
        (a + Decl.sizeAll (.var name type value l :: ds)) := hcovers
    have hsite : Site p code v value a s :=
      ⟨hr, hs', hlv, by omega, fun spot hspot => hspots (List.mem_append_left _ hspot)⟩
    have hvalue : Decl.evaluateAll p.classes (Routine.run p.classes n) ρ (.var name type value l :: ds) σ =
        (value.evaluate p.classes (Routine.run p.classes n) ρ σ >>= fun q =>
          Decl.evaluateAll p.classes (Routine.run p.classes n) (ρ.declare name (.value q.1)) ds q.2) := rfl
    rw [hvalue]
    refine (hsim value hat hip hsite hst ((hcovers.front hwds (Nat.le_refl _) (by omega)).owns i)).seq
      (fun _ h => h.mono (Nat.le_refl _) (by omega) rfl) fun q j c₁ _ hij hat₁ ⟨hr₁, hf₁⟩ => ?_
    have hst₁ := hr₁.standing_fp hst
    have hst₂ : Standing p code (v.declare name type) (ρ.declare name (.value q.1)) q.2 j c₁ c₁.fp :=
      ⟨hst₁.tables, hst₁.world, hst₁.built, hst₁.env.declare fun sc hm =>
        .entry (.value rfl rfl hvalued (hframed.holds hr₁.stack hr₁.fp) (hf₁.subtype hst')) hm⟩
    refine (Decl.simulatedAll hsim ds hat₁ hr₁.ip hds hlds (by omega)
      (fun spot hspot => hspots (List.mem_append_right _ hspot)) (hcovers.back hwv (by omega) (by omega)) hst₂
      (hframed.declare hr₁.stack hr₁.fp)).last (fun _ h => h.mono (by omega) (by omega) hr₁.level)
      fun q' k c₂ _ hjk hat₂ ⟨news, hnews, hr₂, henv⟩ => ?_
    refine .done hat₂ ⟨news ++ [q.1], by simp [hnews], ?_, henv⟩
    exact (hr₁.trans hr₂).moved (Nat.le_refl k) (by rw [hr₂.ip]; omega) (hr₁.trans hr₂).stack rfl rfl rfl rfl
  | .function header locals body :: ds, v, ρ, σ, i, c, a, hat, hip, hs, hl, hlt, hspots, hcovers, hst, hframed => by
    obtain ⟨hfun, hds⟩ := hs
    obtain ⟨⟨t, ht, hpush⟩, hlds⟩ := hl
    have hlen : Decl.sizeAll (.function header locals body :: ds) = 1 + Decl.sizeAll ds := rfl
    have hwds := Decl.spotsAll_within ds (a + 1)
    have hcovers : Covers W (Decl.spotsAll (a + 1) ds) a (a + Decl.sizeAll (.function header locals body :: ds)) :=
      hcovers
    have hquiet : Covers W [] a (a + 1) := by
      rw [← List.nil_append (Decl.spotsAll _ _)] at hcovers
      exact hcovers.front hwds (Nat.le_refl _) (by omega)
    have hvalue : Decl.evaluateAll p.classes (Routine.run p.classes n) ρ (.function header locals body :: ds) σ =
        Decl.evaluateAll p.classes (Routine.run p.classes n)
          (ρ.declare header.name (.function header locals body)) ds σ :=
      rfl
    rw [hvalue]
    refine Runs.glue (enters_push hip hpush).path (fun _ h => h.inside (Nat.le_refl _) (by omega) rfl) hquiet hat
      fun j hij hat₁ => ?_
    have hr₁ : Reached p code σ σ c { c with ip := a + 1, stack := .ofNat t :: c.stack } (a + 1) [.ofNat t] j :=
      hst.reached hij rfl rfl rfl rfl rfl rfl
    have hst₁ := hr₁.standing_fp hst
    have hst₂ : Standing p code (v.declare header.name (.arrow header.signature))
        (ρ.declare header.name (.function header locals body)) σ j
        { c with ip := a + 1, stack := .ofNat t :: c.stack } c.fp :=
      ⟨hst₁.tables, hst₁.world, hst₁.built, hst₁.env.declare fun sc hm =>
        .function (hframed.holds hr₁.stack hr₁.fp) ht hfun hm⟩
    refine (Decl.simulatedAll hsim ds hat₁ hr₁.ip hds hlds (by omega) hspots
      (hcovers.mono (Nat.le_succ a) (by omega)) hst₂ (hframed.declare hr₁.stack hr₁.fp)).last
        (fun _ h => h.mono (by omega) (by omega) rfl)
      fun q' k c₂ _ hjk hat₂ ⟨news, hnews, hr₂, henv⟩ => ?_
    refine .done hat₂ ⟨news ++ [.ofNat t], by simp [hnews], ?_, henv⟩
    exact (hr₁.trans hr₂).moved (Nat.le_refl k) (by rw [hr₂.ip]; omega) (hr₁.trans hr₂).stack rfl rfl rfl rfl

/-! ## Routines -/

/-- From where a routine is entered, its body leaves its value in front of the end of the routine. -/
theorem Routine.runs_body (hl : p.Laid code) (hW : W ⊆ p.spots) (hsim : ∀ e : Expr, e.Simulated p code hsize W n)
    {σ : Store} {i : Nat} {c₀ c : Config} {g : Signature} {x : Nat × Routine} {v : View} {ρ : Env} {vs : List Int32}
    {stop : Nat} (hat : At code i c) (h : Entered p code σ i c₀ c g x v ρ vs stop) :
    Runs (watching p code hsize W) (Inside x.1 (x.1 + x.2.bodySize) c.level) (n + 1) i
      (x.2.evaluate p.classes (Routine.run p.classes n) ρ vs σ) fun q j c' =>
        ∃ ls, ls.length = x.2.locals.length ∧
          Reached p code σ q.2 { c with fp := stackAt c.stack.length } c' (x.1 + x.2.bodySize)
            (q.1 :: (ls ++ [.ofNat stop])) j ∧ q.2.Fits q.1 g.result := by
  obtain ⟨⟨hplaced, ⟨hvalued, hdecls, hbody, t, ht, htg⟩, hparams⟩, hip, ⟨link, hstack, hst⟩, hra, -, -, -, hfits⟩ := h
  obtain ⟨⟨hentry, hlocals, hlbody, -⟩, hle⟩ := hl.routines x hplaced
  have hlen : x.2.bodySize = 2 + Decl.sizeAll x.2.locals + x.2.body.size := rfl
  have hsizes : x.2.size = x.2.bodySize + (Code.epilogue x.2.params.length x.2.locals.length).length := rfl
  have hpos := Code.epilogue_pos x.2.params.length x.2.locals.length
  have hspots : x.2.spots x.1 ⊆ p.spots := fun spot hspot =>
    List.mem_append_right _ (List.mem_flatMap.mpr ⟨x, hplaced, hspot⟩)
  have hcovers : Covers W (x.2.spots x.1) x.1 (x.1 + x.2.size) := fun spot hspot =>
    p.covers_routine hplaced spot (hW hspot)
  have hcovers : Covers W (Decl.spotsAll (x.1 + 2) x.2.locals ++ x.2.body.spots (x.1 + 2 + Decl.sizeAll x.2.locals)) x.1
      (x.1 + x.2.size) := hcovers
  have hwl := Decl.spotsAll_within x.2.locals (x.1 + 2)
  have hwb := x.2.body.spots_within (x.1 + 2 + Decl.sizeAll x.2.locals)
  have hquiet : Covers W [] x.1 (x.1 + 2) := by
    rw [← List.nil_append (Decl.spotsAll _ _ ++ _)] at hcovers
    exact hcovers.front ((hwl.mono (Nat.le_refl _) (Nat.le_add_right _ _)).append (hwb.mono (by omega) (Nat.le_refl _)))
      (Nat.le_refl _) (by omega)
  have hvalue : x.2.evaluate p.classes (Routine.run p.classes n) ρ vs σ =
      (Decl.evaluateAll p.classes (Routine.run p.classes n) (x.2.arguments vs :: ρ) x.2.locals σ >>= fun q =>
        x.2.body.evaluate p.classes (Routine.run p.classes n) q.1 q.2) := rfl
  rw [hvalue]
  obtain ⟨hcopy, hra', -⟩ := hentry
  rw [← hip] at hcopy hra'
  -- The frame is opened, and the return address is put into it.
  refine Runs.step_succ (S := watching p code hsize W) hat (.inl ⟨by omega, by omega, rfl⟩)
    (hquiet.watch (d := c.level) ⟨by omega, by omega, rfl⟩ i) (.copyFp hcopy) fun hat₁ => ?_
  have hload : Path code (Between x.1 (x.1 + 2) c.level) { c with ip := c.ip + 1, fp := stackAt c.stack.length }
      { c with ip := c.ip + 1 + 1, stack := c.ra :: c.stack, fp := stackAt c.stack.length } :=
    .single ⟨by simp only; omega, by simp only; omega, rfl⟩ (.load (r := .ra) hra')
  refine Runs.glue hload (fun _ h => h.inside (Nat.le_refl _) (by omega) rfl) hquiet hat₁ fun m hm hat₂ => ?_
  have hgrown : c.Extends { c with ip := c.ip + 1 + 1, stack := c.ra :: c.stack, fp := stackAt c.stack.length } :=
    ⟨⟨[c.ra], rfl⟩, [], by simp⟩
  have hst₂ : Standing p code (v.inside x.2.params) (x.2.arguments vs :: ρ) σ m
      { c with ip := c.ip + 1 + 1, stack := c.ra :: c.stack, fp := stackAt c.stack.length } (stackAt c.stack.length) :=
    ⟨hst.tables.mono hgrown, hst.world, hst.built.mono (by omega),
      (hst.env.inside hstack hvalued (hparams ▸ hfits)).mono (.refl σ) hgrown⟩
  have hframed : Framed (v.inside x.2.params)
      { c with ip := c.ip + 1 + 1, stack := c.ra :: c.stack, fp := stackAt c.stack.length } :=
    ⟨c.stack.length, rfl, rfl⟩
  refine (Decl.simulatedAll hsim x.2.locals hat₂ (by simp only; omega) hdecls hlocals (by omega)
    (fun spot hspot => hspots (List.mem_append_left _ hspot)) (hcovers.front hwb (by omega) (by omega))
    hst₂ hframed).seq
    (fun _ h => h.mono (by omega) (by omega) rfl) fun q j c₃ _ hij hat₃ ⟨ls, hls, hr₃, henv⟩ => ?_
  have hst₃ := hr₃.standing hst₂
  have hsite : Site p code ((v.inside x.2.params).behindAll x.2.locals) x.2.body
      (x.1 + 2 + Decl.sizeAll x.2.locals) t :=
    ⟨hbody, ht, hlbody, by omega, fun spot hspot => hspots (List.mem_append_right _ hspot)⟩
  refine (hsim x.2.body hat₃ hr₃.ip hsite ⟨hst₃.tables, hst₃.world, hst₃.built, henv⟩
    ((hcovers.back hwl (by omega) (by omega)).owns j)).last
    (fun _ h => h.mono (by omega) (by omega) hr₃.level) fun q' k c₄ _ hjk hat₄ ⟨hr₄, hf₄⟩ => ?_
  have hr₀ := hr₃.trans hr₄
  refine .done hat₄ ⟨ls, hls, ⟨by rw [hr₄.ip]; omega, ?_, hr₀.heap, hr₀.fp, hr₀.level, hr₀.world, hr₀.built, hr₀.store⟩,
    hf₄.subtype htg⟩
  rw [hr₀.stack, hra]
  simp

/-- A routine is run as it is evaluated, if the expressions are whose calls are nested less deeply. -/
theorem Routine.simulated_succ (hl : p.Laid code) (hW : W ⊆ p.spots) (hsim : ∀ e : Expr, e.Simulated p code hsize W n) :
    Routine.Simulated p code hsize W (n + 1) := by
  intro σ i c₀ c g x v ρ vs stop hat h
  have hbody := Routine.runs_body hl hW hsim hat h
  obtain ⟨⟨hplaced, -, hparams⟩, hip, ⟨link, hstack, hst⟩, hra, hlt, hlevel, hheap, hfits⟩ := h
  obtain ⟨⟨-, -, -, hepilogue⟩, hle⟩ := hl.routines x hplaced
  have hsizes : x.2.size = x.2.bodySize + (Code.epilogue x.2.params.length x.2.locals.length).length := rfl
  have hquiet : Covers W [] (x.1 + x.2.bodySize) (x.1 + x.2.size) := by
    have hcovers : Covers W (x.2.spots x.1) x.1 (x.1 + x.2.size) :=
      fun spot hspot => p.covers_routine hplaced spot (hW hspot)
    exact hcovers.rest (x.2.spots_within_body x.1) (by omega) (Nat.le_refl _)
  refine hbody.record.last ?_ fun q e c₁ _ hie hat₁ ⟨⟨ls, hls, hr₁, hf₁⟩, hway⟩ => ?_
  · rintro c' (⟨-, -, hlevel'⟩ | hlevel') <;> omega
  have hvs : x.2.params.length = vs.length := by
    rw [hfits.length_eq, ← hparams, List.length_map]
  have hstack₁ : c₁.stack = q.1 :: (ls ++ .ofNat stop :: (link :: vs ++ c₀.fp :: c₀.stack)) := by
    rw [hr₁.stack, show ({ c with fp := stackAt c.stack.length } : Config).stack = c.stack from rfl, hstack]
    simp
  rw [hvs, ← hls] at hepilogue hsizes
  obtain ⟨c₂, ⟨hip₁, hlast, c₃, hstep, hpath⟩, hip₂, hstack₂, hheap₂, hfp₂, hout₂, hlevel₂⟩ :=
    enters_epilogue hr₁.ip hepilogue hstack₁ hlt
  have hlevel₁ : c₁.level = c.level := hr₁.level
  have hreached : ∀ j, e ≤ j → Reached p code σ q.2 c₀ c₂ stop [q.1] j := fun j hj => by
    obtain ⟨more, hmore⟩ := hheap
    obtain ⟨more', hmore'⟩ := hr₁.heap
    refine ⟨hip₂, hstack₂, ⟨more ++ more', ?_⟩, hfp₂, by omega, ?_, hr₁.built.mono hj, hr₁.store⟩
    · rw [hheap₂, hmore']
      show c.heap ++ more' = _
      rw [hmore, List.append_assoc]
    · rw [hheap₂, hout₂]
      exact hr₁.world
  have hend : x.1 + x.2.bodySize + (Code.epilogue vs.length ls.length).length = x.1 + x.2.size := by omega
  rw [hend] at hpath hlast
  refine Runs.step (S := watching p code hsize W) hat₁ (by omega)
    (hquiet.watch (d := c₁.level) ⟨by omega, by omega, rfl⟩ e) hstep fun hat₃ => ?_
  have hrest : Runs (watching p code hsize W) (Between (x.1 + x.2.bodySize + 1) (x.1 + x.2.size) c₁.level)
      (n + 1) (e + 1)
      (.ok q) fun q j c' => Reached p code σ q.2 c₀ c' stop [q.1] j :=
    Runs.glue hpath (fun _ h => h) (hquiet.mono (Nat.le_succ _) (Nat.le_refl _)) hat₃
      fun j hj hat₂ => .done hat₂ (hreached j (by omega))
  refine hrest.record.last (fun c' h => ?_) fun q' j c' hq hej hat' ⟨hr', hway'⟩ => ?_
  · obtain ⟨-, -, h⟩ := h
    omega
  cases hq
  obtain ⟨s₁, hv₁, hs₁, hl₁⟩ := id hat₁
  refine .done hat' ⟨hr', hf₁, e, s₁, hie, hej, hv₁, hs₁.ip.trans hr₁.ip, hl₁.symm.trans hlevel₁, ?_,
    fun k t hik hkj hvk hipk hlk => ?_⟩
  · rw [hs₁.sp]
    exact hs₁.word (Config.Shown.holds_top c₁ hr₁.stack)
  -- Before the body is done, its code is executed; behind it, the end of the routine is.
  rcases Nat.lt_trichotomy k e with hlt | rfl | hgt
  · obtain ⟨ck, ⟨tk, htk, hsk, hlevelk⟩, hinside⟩ := hway k hik hlt
    have hip' : ck.ip = t.ip := by rw [← hsk.ip, htk.unique hvk]
    have hlevelk : ck.level = levelAt code k := hlevelk
    rcases hinside with ⟨-, hhigh, -⟩ | hhigh <;> omega
  · rfl
  · obtain ⟨ck, ⟨tk, htk, hsk, -⟩, hlow, -, -⟩ := hway' k hgt hkj
    have hip' : ck.ip = t.ip := by rw [← hsk.ip, htk.unique hvk]
    omega

variable (hsize) in
/-- Every routine is run as it is evaluated, to whatever depth calls are nested. -/
theorem Routine.simulated (hp : p.Sound) (hl : p.Laid code) (hW : W ⊆ p.spots) : ∀ n, Routine.Simulated p code hsize W n
  | 0 => fun _ i _ c _ _ _ _ _ _ hat _ =>
    ⟨i, Nat.le_refl i, fun _ _ _ => by omega, .inr ⟨⟨c, hat⟩, Nat.le_refl i⟩⟩
  | n + 1 => Routine.simulated_succ hl hW (Expr.simulated hp hl (Routine.simulated hp hl hW n))

end FoolLang
