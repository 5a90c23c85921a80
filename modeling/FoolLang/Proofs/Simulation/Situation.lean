/-
Where an evaluation and a run of the machine stand together: at some time, in front of the code of an
expression, with the frames, the objects and the output of the evaluation. From there the run is compared
with the evaluation, and every expression whose code is begun on the way is seen to stand so, too.
-/
import FoolLang.Proofs.Simulation.Fragments

namespace FoolLang

open Machine

section

variable (p : Program) (code : Array Op)

/--
Before some time, the last instruction of the code of some instantiation of a class has been executed, and
has left an address on top of the stack.
-/
def Built (k : Nat) (a : Int32) (c : String) : Prop :=
  ∃ spot ∈ p.spots, (∃ args r l, spot.expr = .new c args r l) ∧
    ∃ j < k, ∃ s s', Visits code j s ∧ s.ip + 1 = spot.stop ∧ Visits code (j + 1) s' ∧ s'.word? s'.sp = some a

/-- Every object of a store has been built before some time. -/
def Store.Built (σ : Store) (k : Nat) : Prop :=
  ∀ a o, σ.object? a = some o → FoolLang.Built p code k a o.cls.name

/-- At some time, a configuration stands as an evaluation does, with the innermost frame at a base. -/
structure Standing (v : View) (ρ : Env) (σ : Store) (i : Nat) (c : Config) (base : Int32) : Prop where
  tables : Tables p c
  world : World p σ c.heap c.output
  built : σ.Built p code i
  env : EnvAt p σ c v.scopes ρ base

/-- An expression of a program that has a type where some scopes are visible, and whose code begins at an address. -/
structure Site (v : View) (e : Expr) (a : Nat) (t : Ty) : Prop where
  resolved : e.Resolved p.classes v
  type : e.type = .ok t
  laid : e.Laid code a
  lt : a + e.size < code.size
  spots : e.spots a ⊆ p.spots

/-- At some time, the run stands in front of the code of an expression as an evaluation of it does. -/
def Begun (spot : Spot) (i : Nat) : Prop :=
  ∃ c v ρ σ t, At code i c ∧ c.ip = spot.start ∧ Site p code v spot.expr spot.start t ∧
    Standing p code v ρ σ i c c.fp

/--
From one configuration, in which an evaluation has a store, another one has been reached, in which it has
another store: some words have been pushed, the heap has grown, and every routine called has come back.
-/
structure Reached (σ σ' : Store) (c c' : Config) (b : Nat) (news : List Int32) (j : Nat) : Prop where
  ip : c'.ip = b
  stack : c'.stack = news ++ c.stack
  heap : ∃ more, c'.heap = c.heap ++ more
  fp : c'.fp = c.fp
  level : c'.level = c.level
  world : World p σ' c'.heap c'.output
  built : σ'.Built p code j
  store : σ.Extends σ'

/-- Those expressions out of some that begin in a piece of code are its own, unless they have begun already. -/
def Owns (W l : List Spot) (a b i : Nat) : Prop :=
  ∀ spot ∈ W, a ≤ spot.start → spot.start < b → spot ∈ l ∨ spot.start = a ∧ Begun p code spot i

end

section

variable {p : Program} {code : Array Op} {σ σ' σ'' : Store} {c c' c'' : Config} {i j k : Nat}

/-! ## Standing -/

theorem Built.mono {a : Int32} {x : String} (h : Built p code i a x) (hij : i ≤ j) : Built p code j a x := by
  obtain ⟨spot, hspot, hnew, k, hk, hrest⟩ := h
  exact ⟨spot, hspot, hnew, k, by omega, hrest⟩

theorem Store.Built.mono (h : σ.Built p code i) (hij : i ≤ j) : σ.Built p code j :=
  fun a o ho => (h a o ho).mono hij

namespace Reached

variable {a b b' : Nat} {news news' : List Int32} {base : Int32} {v : View} {ρ : Env}

theorem grown (h : Reached p code σ σ' c c' b news j) : c.Extends c' := ⟨⟨news, h.stack⟩, h.heap⟩

theorem standing (h : Reached p code σ σ' c c' b news j) (hs : Standing p code v ρ σ i c base) :
    Standing p code v ρ σ' j c' base :=
  ⟨hs.tables.mono h.grown, h.world, h.built, hs.env.mono h.store h.grown⟩

theorem standing_fp (h : Reached p code σ σ' c c' b news j) (hs : Standing p code v ρ σ i c c.fp) :
    Standing p code v ρ σ' j c' c'.fp := by
  rw [h.fp]
  exact h.standing hs

theorem trans (h : Reached p code σ σ' c c' b news j) (h' : Reached p code σ' σ'' c' c'' b' news' k) :
    Reached p code σ σ'' c c'' b' (news' ++ news) k := by
  obtain ⟨more, hm⟩ := h.heap
  obtain ⟨more', hm'⟩ := h'.heap
  refine ⟨h'.ip, ?_, ⟨more ++ more', ?_⟩, h'.fp.trans h.fp, h'.level.trans h.level, h'.world, h'.built,
    h.store.trans h'.store⟩
  · rw [h'.stack, h.stack, List.append_assoc]
  · rw [hm', hm, List.append_assoc]

/-- The code behind replaces what has been pushed. -/
theorem moved (h : Reached p code σ σ' c c' b news j) (hjk : j ≤ k) (hip : c''.ip = b')
    (hstack : c''.stack = news' ++ c.stack) (hheap : c''.heap = c'.heap) (hfp : c''.fp = c'.fp)
    (hlevel : c''.level = c'.level) (hout : c''.output = c'.output) : Reached p code σ σ' c c'' b' news' k := by
  obtain ⟨more, hm⟩ := h.heap
  exact ⟨hip, hstack, ⟨more, by rw [hheap, hm]⟩, hfp.trans h.fp,
    hlevel.trans h.level, by rw [hheap, hout]; exact h.world, h.built.mono hjk, h.store⟩

end Reached

theorem Standing.reached {base : Int32} {v : View} {ρ : Env} {b : Nat} {news : List Int32}
    (h : Standing p code v ρ σ i c base) (hij : i ≤ j)
    (hip : c'.ip = b) (hstack : c'.stack = news ++ c.stack) (hheap : c'.heap = c.heap) (hfp : c'.fp = c.fp)
    (hlevel : c'.level = c.level) (hout : c'.output = c.output) : Reached p code σ σ c c' b news j :=
  ⟨hip, hstack, ⟨[], by rw [hheap, List.append_nil]⟩, hfp, hlevel, by rw [hheap, hout]; exact h.world, h.built.mono hij,
    .refl σ⟩

/-! ## Owning -/

variable {W l rest : List Spot} {e : Expr} {a b a' b' d x : Nat}

theorem Covers.owns (h : Covers W l a b) (i : Nat) : Owns p code W l a b i :=
  fun spot hspot hlow hhigh => .inl (h spot hspot hlow hhigh)

namespace Owns

/-- Behind the first instruction of an expression, only expressions inside it begin. -/
theorem inside (h : Owns p code W (⟨e, a⟩ :: rest) a b i) : Covers W rest (a + 1) b := by
  intro spot hspot hlow hhigh
  rcases h spot hspot (by omega) hhigh with hmem | ⟨hstart, -⟩
  · rcases List.mem_cons.mp hmem with rfl | hmem
    · exact absurd hlow (Nat.not_succ_le_self a)
    · exact hmem
  · omega

/-- Where an expression begins whose first instruction is its own, every expression that begins there has begun. -/
theorem first (h : Owns p code W (⟨e, a⟩ :: rest) a b i) (hb : a < b) (hpre : Begun p code ⟨e, a⟩ i)
    (hrest : Within (a + 1) d rest) {spot : Spot} (hspot : spot ∈ W) (hs : spot.start = a) : Begun p code spot i := by
  rcases h spot hspot (by omega) (by omega) with hmem | ⟨-, hbegun⟩
  · rcases List.mem_cons.mp hmem with rfl | hmem
    · exact hpre
    · have hstart := hrest spot hmem
      omega
  · exact hbegun

/-- Where an expression has begun, its parts are left. -/
theorem tail (h : Owns p code W (⟨e, a⟩ :: l) a b i) (hpre : Begun p code ⟨e, a⟩ i) : Owns p code W l a b i := by
  intro spot hspot hlow hhigh
  rcases h spot hspot hlow hhigh with hmem | hbegun
  · rcases List.mem_cons.mp hmem with rfl | hmem
    · exact .inr ⟨rfl, hpre⟩
    · exact .inl hmem
  · exact .inr hbegun

/-- Of the expressions in two pieces of code, those in the first one are its own. -/
theorem front (h : Owns p code W (l ++ rest) a b i) (hrest : Within b' d rest) (hb : b' ≤ b) :
    Owns p code W l a b' i := by
  intro spot hspot hlow hhigh
  rcases h spot hspot hlow (by omega) with hmem | hbegun
  · rcases List.mem_append.mp hmem with hmem | hmem
    · exact .inl hmem
    · have hstart := hrest spot hmem
      omega
  · exact .inr hbegun

/-- Of the expressions in two pieces of code, those in the second one are its own. -/
theorem back (h : Owns p code W (l ++ rest) a b i) (hl : Within a b' l) (ha : a < b') : Covers W rest b' b := by
  intro spot hspot hlow hhigh
  rcases h spot hspot (by omega) hhigh with hmem | ⟨hstart, -⟩
  · rcases List.mem_append.mp hmem with hmem | hmem
    · have hstart := hl spot hmem
      omega
    · exact hmem
  · omega

/-- The first part of an expression begins where the expression does. -/
theorem left (h : Owns p code W (⟨e, a⟩ :: (l ++ rest)) a b i) (hpre : Begun p code ⟨e, a⟩ i)
    (hrest : Within b' d rest) (hb : b' ≤ b) : Owns p code W l a b' i := (h.tail hpre).front hrest hb

end Owns

/-! ## Runs -/

/-- The receiver of a method call of a program is dereferenced by the instruction at an address. -/
def Program.Dereferences (p : Program) (ip : Nat) : Prop :=
  ∃ spot ∈ p.spots, (∃ receiver m args b l, spot.expr = .methodCall receiver m args b l) ∧ ip + 5 = spot.stop

/-- What a run is watched for: that every expression out of some that is begun stands as an evaluation of it. -/
def watching (p : Program) (code : Array Op) (hsize : code.size < 2 ^ 31) (W : List Spot) : Setting where
  code := code
  size_lt := hsize
  watch k c := ∀ spot ∈ W, spot.start = c.ip → Begun p code spot k
  derefs := p.Dereferences

/-- Where the machine may stand while an expression is evaluated: in its code, or in routines called from there. -/
def Inside (a b level : Nat) (c : Config) : Prop := Between a b level c ∨ level < c.level

theorem Inside.mono {level level' : Nat} (h : Inside a' b' level' c) (ha : a ≤ a') (hb : b' ≤ b)
    (hl : level' = level) : Inside a b level c := by
  subst hl
  exact h.imp_left fun h => h.mono ha hb

theorem Between.inside {level level' : Nat} (h : Between a' b' level' c) (ha : a ≤ a') (hb : b' ≤ b)
    (hl : level' = level) : Inside a b level c := Inside.mono (.inl h) ha hb hl

/-- Where no expression begins, there is nothing to watch for. -/
theorem Covers.watch {hsize : code.size < 2 ^ 31} (h : Covers W [] a b) (hc : Between a b d c) (k : Nat) :
    (watching p code hsize W).watch k c := by
  intro spot hspot hstart
  obtain ⟨hlow, hhigh, -⟩ := hc
  exact absurd (h spot hspot (by omega) (by omega)) List.not_mem_nil

namespace Machine.Runs

variable {α β : Type} {hsize : code.size < 2 ^ 31} {P P' : Config → Prop} {n : Nat} {r : Except Stop α}
variable {Q : α → Nat → Config → Prop}

/-- One evaluation after another, the first one in a smaller piece of code. -/
theorem seq {S : Setting} {f : α → Except Stop β} {R : β → Nat → Config → Prop} (h : Runs S P' n i r Q)
    (hP : ∀ c, P' c → P c)
    (hf : ∀ x j c, r = .ok x → i ≤ j → At S.code j c → Q x j c → Runs S P n j (f x) R) : Runs S P n i (r >>= f) R :=
  (h.imp hP fun _ _ _ _ _ hq => hq).bind hf

/-- An evaluation whose value stands for that of a larger one. -/
theorem last {S : Setting} {R : α → Nat → Config → Prop} (h : Runs S P' n i r Q) (hP : ∀ c, P' c → P c)
    (hf : ∀ x j c, r = .ok x → i ≤ j → At S.code j c → Q x j c → Runs S P n j (.ok x) R) : Runs S P n i r R := by
  have hseq := h.seq (f := pure) hP hf
  rwa [bind_pure] at hseq

/-- Code in which no expression begins. -/
theorem glue (hpath : Path code (Between a b d) c c') (hP : ∀ c, Between a b d c → P c) (hquiet : Covers W [] a b)
    (h : At code i c) (hrest : ∀ j, i ≤ j → At code j c' → Runs (watching p code hsize W) P n j r Q) :
    Runs (watching p code hsize W) P n i r Q :=
  path (S := watching p code hsize W) hpath hP (fun k _ hc => hquiet.watch hc k) h hrest

/-- Code in whose first instruction only expressions begin that have begun. -/
theorem enter (henters : Enters code a b c c') (hP : ∀ c', Between a b c.level c' → P c')
    (hfirst : ∀ spot ∈ W, spot.start = a → Begun p code spot i) (hquiet : Covers W [] (a + 1) b) (h : At code i c)
    (hrest : ∀ j, i ≤ j → At code j c' → Runs (watching p code hsize W) P n j r Q) :
    Runs (watching p code hsize W) P n i r Q := by
  obtain ⟨hip, hlt, c₁, hs, hpath⟩ := henters
  refine step (S := watching p code hsize W) h (hP c ⟨by omega, by omega, rfl⟩) ?_ hs fun h' => ?_
  · exact fun spot hspot hstart => hfirst spot hspot (hstart.trans hip)
  · refine glue hpath (fun c hc => hP c (hc.mono (Nat.le_succ a) (Nat.le_refl b))) hquiet h' fun j hj => ?_
    exact hrest j (by omega)

theorem divides {st : List Int32} {w : Int32} (h : At code i c) (hP : P c) (hc : Between a b d c)
    (hquiet : Covers W [] a b) (hop : code[c.ip]? = some (.plain (.arith .div))) (hs : c.stack = 0 :: w :: st) :
    Runs (watching p code hsize W) P n i (.error .divisionByZero) Q :=
  ⟨i, Nat.le_refl i, fun _ _ _ => by omega, .inr ⟨c, h, hP, hquiet.watch hc i, hop, w, st, hs⟩⟩

theorem dereferences {st : List Int32} (h : At code i c) (hP : P c) (hc : Between a b d c)
    (hquiet : Covers W [] a b) (hop : code[c.ip]? = some (.plain .loadWord)) (hs : c.stack = -1 :: st)
    (hreceiver : (watching p code hsize W).derefs c.ip) :
    Runs (watching p code hsize W) P n i (.error .nullReceiver) Q :=
  ⟨i, Nat.le_refl i, fun _ _ _ => by omega, .inr ⟨c, h, hP, hquiet.watch hc i, hop, hreceiver, st, hs⟩⟩

end Machine.Runs

end

end FoolLang
