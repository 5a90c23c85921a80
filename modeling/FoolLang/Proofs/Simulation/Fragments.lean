/-
The pieces of code that the constructs of the language share, told by where they lead: from any
configuration in front of a piece, along a path inside it, to the configuration behind it.
-/
import FoolLang.Proofs.Code.Linking
import FoolLang.Proofs.Code.Spots
import FoolLang.Proofs.Machine.Timeline
import FoolLang.Proofs.Simulation.World

namespace FoolLang

open Machine

variable {code : Array Op} {c c' : Config} {st : List Int32} {x y : Int32} {a : Nat}

/-- The instruction pointer stands in a piece of code, with some number of routines running. -/
def Between (a b level : Nat) (c : Config) : Prop := a ≤ c.ip ∧ c.ip < b ∧ c.level = level

theorem Between.mono {a b a' b' level : Nat} (h : Between a b level c) (ha : a' ≤ a) (hb : b ≤ b') :
    Between a' b' level c := by
  obtain ⟨h₁, h₂, h₃⟩ := h
  exact ⟨by omega, by omega, h₃⟩

/-- A path inside a piece of code is one inside every larger piece. -/
theorem Machine.Path.widen {a b a' b' level : Nat} (h : Path code (Between a b level) c c') (ha : a' ≤ a)
    (hb : b ≤ b') : Path code (Between a' b' level) c c' :=
  Path.imp h fun _ hc => hc.mono ha hb

/-- A path inside a piece of code that has the first instruction behind it after one step. -/
structure Enters (code : Array Op) (a b : Nat) (c c' : Config) : Prop where
  ip : c.ip = a
  lt : a < b
  rest : ∃ c₁, c.Step code c₁ ∧ Path code (Between (a + 1) b c.level) c₁ c'

namespace Enters

variable {b : Nat}

theorem path (h : Enters code a b c c') : Path code (Between a b c.level) c c' := by
  obtain ⟨ha, hlt, c₁, hs, hrest⟩ := h
  exact .step ⟨by omega, by omega, rfl⟩ hs (hrest.widen (Nat.le_succ a) (Nat.le_refl b))

theorem widen {b' : Nat} (h : Enters code a b c c') (hb : b ≤ b') : Enters code a b' c c' := by
  obtain ⟨hip, hlt, c₁, hs, hrest⟩ := h
  exact ⟨hip, by omega, c₁, hs, hrest.widen (Nat.le_refl _) hb⟩

theorem trans {a' b' : Nat} {c'' : Config} (h : Enters code a b c c') (h' : Path code (Between a' b' c.level) c' c'')
    (ha : a + 1 ≤ a') (hb : b ≤ b') : Enters code a b' c c'' := by
  obtain ⟨hip, hlt, c₁, hs, hrest⟩ := h.widen hb
  exact ⟨hip, hlt, c₁, hs, hrest.trans (h'.widen ha (Nat.le_refl b'))⟩

end Enters

theorem step_add (h : code[c.ip]? = some (.plain (.arith .add))) (hs : c.stack = y :: x :: st) :
    c.Step code { c with ip := c.ip + 1, stack := (x + y) :: st } := .arith h hs fun h => by cases h

/-! ## Frames -/

theorem path_loadWords {n : Nat} : ∀ {d : Config} {a : Nat} {base base' : Int32}, d.ip = a →
    Stands code a (List.replicate n (.plain .loadWord)) → Linked c n base base' →
    d.stack = base :: c.stack → d.heap = c.heap →
    Path code (Between a (a + n) d.level) d { d with ip := a + n, stack := base' :: c.stack } := by
  induction n with
  | zero =>
    intro d a base base' ha _ hl hs _
    have hbase : base = base' := hl
    rw [← hbase, ← hs, ← ha]
    exact .refl d
  | succ n ih =>
    intro d a base base' ha h hl hs hh
    obtain ⟨link, hlink, hrest⟩ := hl
    have hextends : c.Extends d := ⟨⟨[base], hs⟩, [], by rw [hh, List.append_nil]⟩
    subst ha
    have hpath : Path code (Between (d.ip + 1) (d.ip + 1 + n) d.level)
        { d with ip := d.ip + 1, stack := link :: c.stack }
        { d with ip := d.ip + 1 + n, stack := base' :: c.stack } :=
      ih (d := { d with ip := d.ip + 1, stack := link :: c.stack }) rfl h.2 hrest rfl hh
    have hend : d.ip + 1 + n = d.ip + (n + 1) := by omega
    rw [hend] at hpath
    refine .step ⟨Nat.le_refl _, by omega, rfl⟩ (.loadWord h.1 hs (hlink.mono hextends)) ?_
    exact Path.widen hpath (Nat.le_succ _) (Nat.le_refl _)

/-- The base of the frame of a binding is pushed. -/
theorem enters_frameOf {r : Resolution} {base : Int32} (ha : c.ip = a)
    (h : Stands code a (Code.ops (Code.frameOf r))) (h₀ : r.entry.level = 0 → base = stackBase)
    (hl : r.entry.level ≠ 0 → Linked c r.hops c.fp base) :
    Enters code a (a + (Code.frameOf r).length) c
      { c with ip := a + (Code.frameOf r).length, stack := base :: c.stack } := by
  subst ha
  unfold Code.frameOf at h ⊢
  split at h
  · rename_i hlevel
    rw [if_pos hlevel, h₀ hlevel]
    exact ⟨rfl, by simp, _, .push h.1, .refl _⟩
  · rename_i hlevel
    rw [if_neg hlevel]
    have hops : Code.ops (Code.load .fp :: List.replicate r.hops (.plain .loadWord)) =
        .plain (.load .fp) :: List.replicate r.hops (.plain .loadWord) := by
      simp [Code.ops, Code.load]
    rw [hops] at h
    have hpath : Path code (Between (c.ip + 1) (c.ip + 1 + r.hops) c.level)
        { c with ip := c.ip + 1, stack := c.fp :: c.stack }
        { c with ip := c.ip + 1 + r.hops, stack := base :: c.stack } :=
      path_loadWords (d := { c with ip := c.ip + 1, stack := c.fp :: c.stack }) rfl h.2 (hl hlevel) rfl rfl
    have hend : c.ip + 1 + r.hops = c.ip + (r.hops + 1) := by omega
    rw [hend] at hpath
    rw [List.length_cons, List.length_replicate]
    exact ⟨rfl, by omega, _, .load h.1, hpath⟩

theorem path_addConst {n : Int32} (ha : c.ip = a) (h : Stands code a (Code.ops (Code.addConst n)))
    (hs : c.stack = x :: st) : Path code (Between a (a + 2) c.level) c
      { c with ip := a + 2, stack := (x + n) :: st } := by
  obtain ⟨ip, stack, heap, spare, fp, ra, tm, output, level⟩ := c
  subst hs ha
  obtain ⟨hpush, hadd, -⟩ := h
  refine .step (by simp [Between]) (.push hpush) ?_
  exact .single (by simp [Between]) (step_add hadd rfl)

/-- The content of the slot of a binding is pushed. -/
theorem enters_slotOf {r : Resolution} {base w : Int32} (ha : c.ip = a)
    (h : Stands code a (Code.ops (Code.slotOf r))) (h₀ : r.entry.level = 0 → base = stackBase)
    (hl : r.entry.level ≠ 0 → Linked c r.hops c.fp base) (hw : c.Holds (base + r.entry.offset) w) :
    Enters code a (a + (Code.slotOf r).length) c
      { c with ip := a + (Code.slotOf r).length, stack := w :: c.stack } := by
  have hextends : ∀ a ip, c.Extends { c with ip, stack := a :: c.stack } := fun a _ => ⟨⟨[a], rfl⟩, [], by simp⟩
  unfold Code.slotOf at h ⊢
  split at h
  · rename_i hlevel
    subst ha
    obtain ⟨hpush, hload, -⟩ := h
    rw [h₀ hlevel] at hw
    rw [if_pos hlevel]
    refine ⟨rfl, by simp, _, .push hpush, ?_⟩
    exact .single (by simp [Between]) (.loadWord hload rfl (hw.mono (hextends _ _)))
  · rename_i hlevel
    rw [if_neg hlevel]
    rw [Code.ops_append, Code.ops_append, stands_append, stands_append] at h
    obtain ⟨⟨hframe, hadd⟩, hload, -⟩ := h
    rw [(Code.flat_frameOf r).ops_length] at hadd
    rw [List.length_append, (Code.flat_frameOf r).ops_length] at hload
    have henters := enters_frameOf ha hframe h₀ hl
    have hlt := henters.lt
    have hlen : (Code.frameOf r ++ Code.addConst r.entry.offset ++ [Instruction.plain .loadWord]).length =
        (Code.frameOf r).length + 2 + 1 := by simp [Code.addConst]
    rw [hlen]
    generalize (Code.frameOf r).length = n at *
    have hpath : Path code (Between (a + n) (a + n + 2) c.level)
        { c with ip := a + n, stack := base :: c.stack }
        { c with ip := a + n + 2, stack := (base + r.entry.offset) :: c.stack } :=
      path_addConst (c := { c with ip := a + n, stack := base :: c.stack }) rfl hadd rfl
    have hlast : Path code (Between (a + n + 2) (a + (n + 2) + 1) c.level)
        { c with ip := a + n + 2, stack := (base + r.entry.offset) :: c.stack }
        { c with ip := a + (n + 2) + 1, stack := w :: c.stack } :=
      .single (by simp [Between]; omega) (.loadWord hload rfl (hw.mono (hextends _ _)))
    exact (henters.trans hpath hlt (by omega)).trans hlast (by omega) (by omega)

/-! ## Operators -/

/-- A comparison of the two words on top becomes a truth value. -/
theorem path_select {j : Jump} (hj : j ≠ .always) (ha : c.ip = a)
    (h : Stands code a [.jump j (a + 3), .push 0, .jump .always (a + 4), .push 1]) (hs : c.stack = y :: x :: st) :
    Path code (Between a (a + 4) c.level) c
      { c with ip := a + 4, stack := wordOf (j.taken x y) :: st } := by
  obtain ⟨ip, stack, heap, spare, fp, ra, tm, output, level⟩ := c
  subst hs ha
  obtain ⟨hjump, hzero, hdone, hone, -⟩ := h
  have hstep := Config.Step.branch hjump hj rfl
  cases htaken : j.taken x y with
  | true =>
    rw [htaken] at hstep
    refine .step (by simp [Between]) hstep ?_
    exact .step (by simp [Between]) (.push hone) (.refl _)
  | false =>
    rw [htaken] at hstep
    refine .step (by simp [Between]) hstep ?_
    refine .step (by simp [Between]) (.push hzero) ?_
    exact .step (by simp [Between]; omega) (.jump hdone) (.refl _)

/-- The two words on top change places. -/
theorem path_swap (ha : c.ip = a) (h : Stands code a (Code.ops Code.swap)) (hs : c.stack = y :: x :: st) :
    Path code (Between a (a + 6) c.level) c
      { c with ip := a + 6, stack := x :: y :: st, spare := some x, tm := y } := by
  obtain ⟨ip, stack, heap, spare, fp, ra, tm, output, level⟩ := c
  subst hs ha
  obtain ⟨hstore, hhp, hput, htm, hhp', hget, -⟩ := h
  refine .step (by simp [Between]) (.storeTm hstore rfl) ?_
  refine .step (by simp [Between]) (.load hhp) ?_
  refine .step (by simp [Between]; omega) (.storeSpare hput rfl) ?_
  refine .step (by simp [Between]; omega) (.load htm) ?_
  refine .step (by simp [Between]; omega) (.load hhp') ?_
  exact .step (by simp [Between]; omega) (.loadSpare hget rfl rfl) (.refl _)

/-- The values of both operands are replaced by that of an operator on them. -/
theorem path_tail {op : BinaryOp} (hop : op.isShort = false) (hd : op = .div → y ≠ 0) (ha : c.ip = a)
    (h : Stands code a (op.tail a)) (hs : c.stack = y :: x :: st) :
    ∃ w c', op.apply x y = pure w ∧ Path code (Between a (a + (op.tail 0).length) c.level) c c' ∧
      c'.ip = a + (op.tail 0).length ∧ c'.stack = w :: st ∧ c'.heap = c.heap ∧ c'.fp = c.fp ∧
      c'.level = c.level ∧ c'.output = c.output := by
  have harith : ∀ i : Arith, (i = .div → y ≠ 0) → Stands code a [.plain (.arith i)] →
      Path code (Between a (a + 1) c.level) c { c with ip := a + 1, stack := i.apply x y :: st } := by
    intro i hi hstands
    subst ha
    exact .single ⟨Nat.le_refl _, by omega, rfl⟩ (.arith hstands.1 hs hi)
  cases op with
  | and | or => cases hop
  | plus => exact ⟨x + y, _, rfl, harith .add (fun h => by cases h) h, rfl, rfl, rfl, rfl, rfl, rfl⟩
  | minus => exact ⟨x - y, _, rfl, harith .sub (fun h => by cases h) h, rfl, rfl, rfl, rfl, rfl, rfl⟩
  | times => exact ⟨x * y, _, rfl, harith .mult (fun h => by cases h) h, rfl, rfl, rfl, rfl, rfl, rfl⟩
  | div =>
    refine ⟨x / y, _, ?_, harith .div (fun _ => hd rfl) h, rfl, rfl, rfl, rfl, rfl, rfl⟩
    rw [BinaryOp.apply, if_neg (hd rfl)]
  | equal =>
    have hpath := path_select (fun h => by cases h) ha h hs
    have htaken : Jump.ifEqual.taken x y = decide (x = y) := by rw [Bool.eq_iff_iff]; simp [Jump.taken]
    exact ⟨_, _, congrArg (pure <| wordOf ·) htaken.symm, hpath, rfl, rfl, rfl, rfl, rfl, rfl⟩
  | lessEqual =>
    have hpath := path_select (fun h => by cases h) ha h hs
    exact ⟨_, _, rfl, hpath, rfl, rfl, rfl, rfl, rfl, rfl⟩
  | greaterEqual =>
    obtain ⟨hswap, hselect⟩ := (stands_append (Code.ops Code.swap) _ a).mp h
    have hpath := path_swap ha hswap hs
    have hpath' := path_select (c := { c with ip := a + 6, stack := x :: y :: st, spare := some x, tm := y })
      (fun h => by cases h) rfl hselect rfl
    have hboth := (hpath.widen (Nat.le_refl _) (show a + 6 ≤ a + 10 by omega)).trans
      (hpath'.widen (Nat.le_add_right a 6) (Nat.le_refl _))
    exact ⟨_, _, rfl, hboth, rfl, rfl, rfl, rfl, rfl, rfl⟩

/-- The word on top is compared with a constant. -/
theorem path_test {k : Int32} {t : Nat} (ha : c.ip = a) (h : Stands code a [.push k, .jump .ifEqual t])
    (hs : c.stack = x :: st) : Path code (Between a (a + 2) c.level) c
      { c with ip := if x = k then t else a + 2, stack := st } := by
  obtain ⟨ip, stack, heap, spare, fp, ra, tm, output, level⟩ := c
  subst hs ha
  obtain ⟨hpush, hjump, -⟩ := h
  have hstep := Config.Step.branch (c := ⟨ip + 1, k :: x :: st, heap, spare, fp, ra, tm, output, level⟩) hjump
    (fun h => by cases h) rfl
  simp only [Jump.taken, beq_iff_eq] at hstep
  refine .step (by simp [Between]) (.push hpush) ?_
  exact .step (by simp [Between]) hstep (.refl _)

/-- The word on top, when it is compared with a constant, is replaced by one of two others. -/
theorem path_settle {k u u' : Int32} (ha : c.ip = a)
    (h : Stands code a [.push k, .jump .ifEqual (a + 4), .push u, .jump .always (a + 5), .push u'])
    (hs : c.stack = x :: st) : Path code (Between a (a + 5) c.level) c
      { c with ip := a + 5, stack := (if x = k then u' else u) :: st } := by
  have hbegin : Stands code a [.push k, .jump .ifEqual (a + 4)] := ⟨h.1, h.2.1, trivial⟩
  have htest := path_test ha hbegin hs
  obtain ⟨-, -, hno, hdone, hyes, -⟩ := h
  refine (htest.widen (Nat.le_refl _) (by omega)).trans ?_
  by_cases hx : x = k
  · rw [if_pos hx, if_pos hx]
    exact .step (by simp [Between]) (.push hyes) (.refl _)
  · rw [if_neg hx, if_neg hx]
    refine .step (by simp [Between]) (.push hno) ?_
    exact .step (by simp [Between]; omega) (.jump hdone) (.refl _)

/-! ## Calls -/

theorem levelAfter_call {level : Nat} (h : code[a + 1]? = some (.plain .jumpSubroutine))
    (hload : code[a]? = some (.plain .loadWord)) : levelAfter code (a + 1) level = level + 1 := by
  simp [levelAfter, h, hload]

theorem levelAfter_back {level : Nat} (h : code[a + 1]? = some (.plain .jumpSubroutine))
    (hload : code[a]? = some (.plain (.load .ra))) : levelAfter code (a + 1) level = level - 1 := by
  simp [levelAfter, h, hload]

theorem path_duplicate (ha : c.ip = a) (h : Stands code a (Code.ops Code.duplicate)) (hs : c.stack = x :: st) :
    Path code (Between a (a + 3) c.level) c { c with ip := a + 3, stack := x :: x :: st, tm := x } := by
  obtain ⟨ip, stack, heap, spare, fp, ra, tm, output, level⟩ := c
  subst hs ha
  obtain ⟨hstore, hload, hload', -⟩ := h
  refine .step (by simp [Between]) (.storeTm hstore rfl) ?_
  refine .step (by simp [Between]) (.load hload) ?_
  exact .step (by simp [Between]; omega) (.load hload') (.refl _)

/-- A path inside a piece of code to the jump of a call, which is the last of its instructions, and that jump. -/
structure Calls (code : Array Op) (a b : Nat) (c c₁ c' : Config) : Prop where
  path : Path code (Between a c₁.ip c.level) c c₁
  le : a ≤ c₁.ip
  last : c₁.ip + 1 = b
  level : c₁.level = c.level
  op : code[c₁.ip]? = some (.plain .jumpSubroutine)
  step : c₁.Step code c'

/-- Other code in front of a call. -/
theorem Calls.behind {b e : Nat} {c₁ c₂ : Config} (h : Calls code b e c' c₁ c₂)
    (hpath : Path code (Between a b c.level) c c') (ha : a ≤ b) (hl : c'.level = c.level) : Calls code a e c c₁ c₂ := by
  obtain ⟨hpath', hle, hlast, hlevel, hop, hstep⟩ := h
  rw [hl] at hpath'
  refine ⟨(hpath.widen (Nat.le_refl a) hle).trans (hpath'.widen ha (Nat.le_refl _)), by omega, hlast, ?_, hop, hstep⟩
  rw [hlevel, hl]

/-- The routine in a slot of the table whose address is on top is called. -/
theorem calls_slot {offset : Int32} {t : Nat} (ha : c.ip = a) (h : Stands code a (Code.ops (Code.callSlot offset)))
    (hs : c.stack = x :: st) (ht : t < code.size)
    (hx : ∀ ip w, ({ c with ip, stack := w :: st } : Config).Holds (x + offset) (.ofNat t)) :
    ∃ c₁, Calls code a (a + 4) c c₁ { c with ip := t, stack := st, ra := .ofNat (a + 4), level := c.level + 1 } := by
  have hpath := path_addConst (n := offset) ha ⟨h.1, h.2.1, trivial⟩ hs
  obtain ⟨-, -, hload, hjump, -⟩ := h
  have hstep := Config.Step.call (c := { c with ip := a + 3, stack := .ofNat t :: st }) hjump rfl ht
  rw [levelAfter_call hjump hload] at hstep
  have hload' : Path code (Between a (a + 3) c.level) { c with ip := a + 2, stack := (x + offset) :: st }
      { c with ip := a + 3, stack := .ofNat t :: st } :=
    .single (by simp [Between]) (.loadWord hload rfl (hx _ _))
  have hfront := (hpath.widen (Nat.le_refl a) (show a + 2 ≤ a + 3 by omega)).trans hload'
  exact ⟨{ c with ip := a + 3, stack := .ofNat t :: st }, hfront, by simp, rfl, rfl, hjump, hstep⟩

/-- The method in a slot of the dispatch table of the object on top is called. -/
theorem calls_sendTo {slot table : Int32} {t : Nat} (ha : c.ip = a) (h : Stands code a (Code.ops (Code.sendTo slot)))
    (hs : c.stack = x :: st) (ht : t < code.size)
    (hx : ∀ ip w, ({ c with ip, stack := w :: x :: st, tm := x } : Config).Holds x table)
    (htable : ∀ ip w, ({ c with ip, stack := w :: x :: st, tm := x } : Config).Holds (table + slot) (.ofNat t)) :
    ∃ c₁, Calls code a (a + 8) c c₁
      { c with ip := t, stack := x :: st, tm := x, ra := .ofNat (a + 8), level := c.level + 1 } := by
  have hops : Code.ops (Code.sendTo slot) =
      Code.ops Code.duplicate ++ (.plain .loadWord :: Code.ops (Code.callSlot slot)) := rfl
  rw [hops, stands_append] at h
  obtain ⟨hduplicate, hload, hcall⟩ := h
  have hpath := path_duplicate ha hduplicate hs
  have hload' : Path code (Between a (a + 4) c.level) { c with ip := a + 3, stack := x :: x :: st, tm := x }
      { c with ip := a + 4, stack := table :: x :: st, tm := x } :=
    .single (by simp [Between]) (.loadWord hload rfl (hx _ _))
  obtain ⟨c₁, hcalls⟩ := calls_slot (c := { c with ip := a + 4, stack := table :: x :: st, tm := x }) rfl hcall rfl ht
    htable
  have hfront := (hpath.widen (Nat.le_refl a) (show a + 3 ≤ a + 4 by omega)).trans hload'
  exact ⟨c₁, hcalls.behind hfront (by simp) rfl⟩

/-- The routine that a binding means, as seen from a use, is called. -/
theorem calls_callOf {r : Resolution} {base : Int32} {t : Nat} (ha : c.ip = a)
    (h : Stands code a (Code.ops (Code.callOf r))) (h₀ : r.entry.level = 0 → base = stackBase)
    (hl : r.entry.level ≠ 0 → Linked c r.hops c.fp base) (ht : t < code.size)
    (hfunction : r.entry.isMethod = false → c.Holds (base + r.entry.offset) (.ofNat t))
    (hmethod : r.entry.isMethod = true → ∃ table, c.Holds base table ∧
      c.Holds (table + r.entry.offset) (.ofNat t)) :
    ∃ c₁, Calls code a (a + (Code.callOf r).length) c c₁
      { c with ip := t, stack := base :: c.stack, tm := base, ra := .ofNat (a + (Code.callOf r).length)
               level := c.level + 1 } := by
  have hextends : ∀ ip w, c.Extends { c with ip, stack := w :: base :: c.stack, tm := base } :=
    fun _ w => ⟨⟨[w, base], rfl⟩, [], by simp⟩
  have hflat := (Code.flat_frameOf r).ops_length
  cases hm : r.entry.isMethod with
  | true =>
    obtain ⟨table, hbase, htable⟩ := hmethod hm
    have hcode : Code.callOf r = Code.frameOf r ++ Code.sendTo r.entry.offset := by
      simp [Code.callOf, Code.sendTo, hm]
    rw [hcode, Code.ops_append, stands_append, hflat] at h
    obtain ⟨hframe, hsend⟩ := h
    have hpath := (enters_frameOf ha hframe h₀ hl).path
    have hlen : (Code.sendTo r.entry.offset).length = 8 := rfl
    rw [hcode, List.length_append, hlen, ← Nat.add_assoc]
    obtain ⟨c₁, hcalls⟩ := calls_sendTo (c := { c with ip := a + (Code.frameOf r).length, stack := base :: c.stack })
      rfl hsend rfl ht (fun ip w => hbase.mono (hextends ip w)) (fun ip w => htable.mono (hextends ip w))
    exact ⟨c₁, hcalls.behind hpath (by simp) rfl⟩
  | false =>
    have hbase := hfunction hm
    have hcode : Code.callOf r = Code.frameOf r ++ (Code.duplicate ++ Code.callSlot r.entry.offset) := by
      simp [Code.callOf, hm]
    rw [hcode, Code.ops_append, Code.ops_append, stands_append, stands_append, hflat] at h
    obtain ⟨hframe, hduplicate, hcall⟩ := h
    have hpath := (enters_frameOf ha hframe h₀ hl).path
    have hlen : (Code.duplicate ++ Code.callSlot r.entry.offset).length = 7 := rfl
    rw [hcode, List.length_append, hlen, ← Nat.add_assoc]
    generalize (Code.frameOf r).length = n at *
    have hpath' : Path code (Between (a + n) (a + n + 3) c.level)
        { c with ip := a + n, stack := base :: c.stack }
        { c with ip := a + n + 3, stack := base :: base :: c.stack, tm := base } :=
      path_duplicate (c := { c with ip := a + n, stack := base :: c.stack }) rfl hduplicate rfl
    obtain ⟨c₁, hcalls⟩ := calls_slot (c := { c with ip := a + n + 3, stack := base :: base :: c.stack, tm := base })
      rfl hcall rfl ht fun ip w => hbase.mono (hextends ip w)
    have hfront := (hpath.widen (Nat.le_refl a) (by omega)).trans (hpath'.widen (by omega) (Nat.le_refl _))
    exact ⟨c₁, hcalls.behind hfront (by simp; omega) rfl⟩

/-! ## Objects -/

theorem heap_next (n : Nat) : Int32.ofNat n + 1 = .ofNat (n + 1) := (Int32.ofNat_add n 1).symm

/-- The word on top moves to the heap. -/
theorem enters_allocate (ha : c.ip = a) (h : Stands code a (Code.ops Code.allocate)) (hs : c.stack = x :: st) :
    Enters code a (a + 6) c
      { c with ip := a + 6, stack := st, heap := c.heap ++ [x], spare := none } := by
  obtain ⟨ip, stack, heap, spare, fp, ra, tm, output, level⟩ := c
  subst hs ha
  obtain ⟨hload, hstore, hload', hpush, hadd, hset, -⟩ := h
  refine ⟨rfl, by omega, _, .load hload, ?_⟩
  refine .step (by simp [Between]) (.storeSpare hstore rfl) ?_
  refine .step (by simp [Between]) (.load hload') ?_
  refine .step (by simp [Between]) (.push hpush) ?_
  refine .step (by simp [Between]) (step_add hadd rfl) ?_
  exact .step (by simp [Between]) (.storeHp hset (congrArg (· :: st) (heap_next heap.length)) rfl) (.refl _)

/-- Some words on the stack move to the heap, the topmost one first. -/
theorem enters_allocateAll (us : List Int32) : ∀ {u : Int32} {c : Config} {a : Nat}, c.ip = a →
    Stands code a (Code.ops (List.replicate (us.length + 1) Code.allocate).flatten) → c.stack = u :: us ++ st →
    Enters code a (a + 6 * (us.length + 1)) c
      { c with ip := a + 6 * (us.length + 1), stack := st, heap := c.heap ++ u :: us, spare := none } := by
  induction us with
  | nil =>
    intro u c a ha h hs
    exact enters_allocate ha h hs
  | cons u' us ih =>
    intro u c a ha h hs
    rw [List.length_cons, List.replicate_succ, List.flatten_cons, Code.ops_append, stands_append] at h
    have henters := enters_allocate ha h.1 hs
    have hrest : Enters code (a + 6) (a + 6 + 6 * (us.length + 1))
        { c with ip := a + 6, stack := u' :: us ++ st, heap := c.heap ++ [u], spare := none }
        { c with ip := a + 6 + 6 * (us.length + 1), stack := st, heap := c.heap ++ [u] ++ u' :: us, spare := none } :=
      ih (c := { c with ip := a + 6, stack := u' :: us ++ st, heap := c.heap ++ [u], spare := none }) rfl h.2 rfl
    have hend : a + 6 + 6 * (us.length + 1) = a + 6 * (us.length + 1 + 1) := by omega
    rw [hend, List.append_assoc] at hrest
    exact henters.trans hrest.path (by omega) (by omega)

/-- The instructions that put the mark of a class behind the fields of an object. -/
def Code.mark (offset : Int32) : List Op :=
  [.push (outermostSlot offset), .plain .loadWord, .plain (.load .hp), .plain .storeWord, .plain (.load .hp),
    .plain (.load .hp), .push 1, .plain (.arith .add), .plain (.store .hp)]

/-- The mark of a class is found, and the address of the object is left, before the heap takes the mark. -/
theorem enters_mark {offset table : Int32} (ha : c.ip = a) (h : Stands code a (Code.mark offset))
    (htable : ∀ ip w, ({ c with ip, stack := w :: c.stack } : Config).Holds (Code.outermostSlot offset) table) :
    Enters code a (a + 8) c
      { c with ip := a + 8, stack := .ofNat (c.heap.length + 1) :: .ofNat c.heap.length :: c.stack,
               spare := some table } := by
  subst ha
  obtain ⟨hpush, hload, hhp, hstore, hhp', hhp'', hone, hadd, -⟩ := h
  refine ⟨rfl, by omega, _, .push hpush, ?_⟩
  refine .step (by simp [Between]) (.loadWord hload rfl (htable _ _)) ?_
  refine .step (by simp [Between]) (.load hhp) ?_
  refine .step (by simp [Between]) (.storeSpare hstore rfl) ?_
  refine .step (by simp [Between]) (.load hhp') ?_
  refine .step (by simp [Between]) (.load hhp'') ?_
  refine .step (by simp [Between]) (.push hone) ?_
  rw [← heap_next c.heap.length]
  exact .step (by simp [Between]) (step_add hadd rfl) (.refl _)

theorem step_mark (table : Int32) {offset : Int32} (h : Stands code a (Code.mark offset)) :
    ({ c with ip := a + 8, stack := .ofNat (c.heap.length + 1) :: .ofNat c.heap.length :: c.stack,
              spare := some table } : Config).Step code
      { c with ip := a + 9, stack := .ofNat c.heap.length :: c.stack, heap := c.heap ++ [table], spare := none } := by
  obtain ⟨-, -, -, -, -, -, -, -, hset, -⟩ := h
  exact .storeHp hset rfl rfl

theorem Code.object_ops (n : Nat) (offset : Int32) :
    ops (object n offset) = ops (List.replicate n allocate).flatten ++ mark offset := by
  rw [object, List.append_assoc, List.append_assoc, ops_append]
  rfl

theorem Code.object_length (n : Nat) (offset : Int32) : (object n offset).length = 6 * n + 9 := by
  simp [object, allocate, addConst, Nat.mul_comm]

theorem Code.allocateAll_ops_length (n : Nat) :
    (ops (List.replicate n allocate).flatten).length = 6 * n := by
  rw [(flat_allocateAll n).ops_length]
  simp [allocate, addConst, Nat.mul_comm]

/--
An object is made of the fields on the stack and of a dispatch table; the last instruction of this is the
one by which the heap takes the mark of the class.
-/
theorem enters_object {c₀ : Config} {offset table : Int32} {us : List Int32} (ha : c.ip = a)
    (h : Stands code a (Code.ops (Code.object us.length offset))) (hs : c.stack = us ++ c₀.stack)
    (hheap : ∃ more, c.heap = c₀.heap ++ more) (htable : c₀.Holds (Code.outermostSlot offset) table) :
    ∃ c₁, Enters code a (a + (Code.object us.length offset).length) c c₁ ∧
      Between a (a + (Code.object us.length offset).length) c.level c₁ ∧
      c₁.ip + 1 = a + (Code.object us.length offset).length ∧
      c₁.Step code { c with ip := a + (Code.object us.length offset).length,
                            stack := .ofNat (c.heap.length + us.length) :: c₀.stack,
                            heap := c.heap ++ us ++ [table], spare := none } := by
  obtain ⟨more, hheap⟩ := hheap
  rw [Code.object_ops, stands_append, Code.allocateAll_ops_length] at h
  obtain ⟨hfields, hmark⟩ := h
  -- The configuration in which all fields are on the heap and the mark is not.
  have hmid : ∃ c₂ : Config, c₂ = { c with ip := a + 6 * us.length, stack := c₀.stack, heap := c.heap ++ us,
                                           spare := c₂.spare } ∧
      (c₂ = c ∧ us = [] ∨ Enters code a (a + 6 * us.length) c c₂) := by
    cases us with
    | nil =>
      have hs : c.stack = c₀.stack := hs
      refine ⟨c, ?_, .inl ⟨rfl, rfl⟩⟩
      rw [← hs, ← ha]
      simp
    | cons u us =>
      exact ⟨_, rfl, .inr (enters_allocateAll us ha hfields hs)⟩
  obtain ⟨c₂, hc₂, henters⟩ := hmid
  have hip : c₂.ip = a + 6 * us.length := by rw [hc₂]
  have hstack : c₂.stack = c₀.stack := by rw [hc₂]
  have hslot : ∀ ip w, ({ c₂ with ip, stack := w :: c₂.stack } : Config).Holds (Code.outermostSlot offset) table := by
    refine fun ip w => htable.mono ⟨⟨[w], ?_⟩, more ++ us, ?_⟩
    · rw [hstack]; rfl
    · rw [hc₂, ← List.append_assoc, ← hheap]
  have hmarked := enters_mark hip hmark hslot
  have hstep := step_mark (c := c₂) table hmark
  rw [Code.object_length]
  generalize hc₃ : ({ c₂ with ip := a + 6 * us.length + 8
                              stack := .ofNat (c₂.heap.length + 1) :: .ofNat c₂.heap.length :: c₂.stack
                              spare := some table } : Config) = c₃ at hmarked hstep
  have hip₃ : c₃.ip = a + 6 * us.length + 8 := by rw [← hc₃]
  have hlevel₂ : c₂.level = c.level := by rw [hc₂]
  have hlevel₃ : c₃.level = c₂.level := by rw [← hc₃]
  refine ⟨c₃, ?_, ⟨by omega, by omega, hlevel₃.trans hlevel₂⟩, by omega, ?_⟩
  · rcases henters with ⟨hc, hus⟩ | henters
    · rw [hc, hus] at hmarked
      exact hmarked.widen (by simp)
    · have hlt := henters.lt
      have hpath := hmarked.path
      rw [hlevel₂] at hpath
      exact (henters.trans hpath (by omega) (by omega)).widen (by omega)
  · rw [hc₂] at hstep
    rw [← Nat.add_assoc, ← List.length_append]
    exact hstep

/-! ## Routines -/

theorem path_pops (us : List Int32) : ∀ {c : Config} {a : Nat}, c.ip = a →
    Stands code a (List.replicate us.length (.plain .pop)) → c.stack = us ++ st →
    Path code (Between a (a + us.length) c.level) c { c with ip := a + us.length, stack := st } := by
  induction us with
  | nil =>
    intro c a ha _ hs
    have hs : c.stack = st := hs
    rw [List.length_nil, Nat.add_zero, ← ha, ← hs]
    exact .refl c
  | cons u us ih =>
    intro c a ha h hs
    subst ha
    have hrest : Path code (Between (c.ip + 1) (c.ip + 1 + us.length) c.level)
        { c with ip := c.ip + 1, stack := us ++ st } { c with ip := c.ip + 1 + us.length, stack := st } :=
      ih (c := { c with ip := c.ip + 1, stack := us ++ st }) rfl h.2 rfl
    have hend : c.ip + 1 + us.length = c.ip + (us.length + 1) := by omega
    rw [hend] at hrest
    refine .step ⟨Nat.le_refl _, by simp, rfl⟩ (.pop h.1 hs) ?_
    exact hrest.widen (Nat.le_succ _) (Nat.le_refl _)

theorem Code.epilogue_ops (params locals : Nat) : ops (epilogue params locals) =
    [.plain (.store .tm)] ++ List.replicate locals (.plain .pop) ++ [.plain (.store .ra)] ++
      List.replicate (params + 1) (.plain .pop) ++
      [.plain (.store .fp), .plain (.load .tm), .plain (.load .ra), .plain .jumpSubroutine] := by
  simp [epilogue, ops, store, load, List.replicate_succ]

/-- Behind the last argument of a routine, the frame of its caller comes back. -/
theorem path_leave {t : Nat} {fp₀ : Int32} (ha : c.ip = a)
    (h : Stands code a [.plain (.store .fp), .plain (.load .tm), .plain (.load .ra), .plain .jumpSubroutine])
    (hs : c.stack = fp₀ :: st) (hra : c.ra = .ofNat t) (ht : t < code.size) :
    Path code (Between a (a + 4) c.level) c
      { c with ip := t, stack := c.tm :: st, fp := fp₀, ra := .ofNat (a + 4), level := c.level - 1 } := by
  obtain ⟨ip, stack, heap, spare, fp, ra, tm, output, level⟩ := c
  subst hs ha hra
  obtain ⟨hfp, htm, hra, hjump, -⟩ := h
  refine .step (by simp [Between]) (.storeFp hfp rfl) ?_
  refine .step (by simp [Between]) (.load htm) ?_
  refine .step (by simp [Between]; omega) (.load hra) ?_
  have hstep := Config.Step.call (c := ⟨ip + 3, .ofNat t :: tm :: st, heap, spare, fp₀, .ofNat t, tm, output, level⟩)
    hjump rfl ht
  rw [levelAfter_back hjump hra] at hstep
  exact .single (by simp [Between]; omega) hstep

/-- The end of a routine takes its frame away and goes back, with its value on top. -/
theorem enters_epilogue {ls vs : List Int32} {w link fp₀ : Int32} {t : Nat} (ha : c.ip = a)
    (h : Stands code a (Code.ops (Code.epilogue vs.length ls.length)))
    (hs : c.stack = w :: (ls ++ .ofNat t :: (link :: vs ++ fp₀ :: st))) (ht : t < code.size) :
    ∃ c', Enters code a (a + (Code.epilogue vs.length ls.length).length) c c' ∧ c'.ip = t ∧
      c'.stack = w :: st ∧ c'.heap = c.heap ∧ c'.fp = fp₀ ∧ c'.output = c.output ∧ c'.level = c.level - 1 := by
  rw [← (Code.flat_epilogue vs.length ls.length).ops_length]
  rw [Code.epilogue_ops] at h ⊢
  rw [stands_append, stands_append, stands_append, stands_append] at h
  obtain ⟨⟨⟨⟨hstore, hlocals⟩, hra⟩, hparams⟩, hend⟩ := h
  simp only [List.length_append, List.length_replicate, List.length_cons, List.length_nil,
    ← Nat.add_assoc] at hlocals hra hparams hend ⊢
  obtain ⟨ip, stack, heap, spare, fp, ra, tm, output, level⟩ := c
  subst hs ha
  have hlocals' : Path code (Between (ip + 1) (ip + 1 + ls.length) level)
      ⟨ip + 1, ls ++ .ofNat t :: (link :: vs ++ fp₀ :: st), heap, spare, fp, ra, w, output, level⟩
      ⟨ip + 1 + ls.length, .ofNat t :: (link :: vs ++ fp₀ :: st), heap, spare, fp, ra, w, output, level⟩ :=
    path_pops ls (c := ⟨ip + 1, ls ++ .ofNat t :: (link :: vs ++ fp₀ :: st), heap, spare, fp, ra, w, output, level⟩)
      rfl hlocals rfl
  have hparams' : Path code (Between (ip + 1 + ls.length + 1) (ip + 1 + ls.length + 1 + (vs.length + 1)) level)
      ⟨ip + 1 + ls.length + 1, link :: vs ++ fp₀ :: st, heap, spare, fp, .ofNat t, w, output, level⟩
      ⟨ip + 1 + ls.length + 1 + (vs.length + 1), fp₀ :: st, heap, spare, fp, .ofNat t, w, output, level⟩ :=
    path_pops (link :: vs) (c := ⟨ip + 1 + ls.length + 1, link :: vs ++ fp₀ :: st, heap, spare, fp, .ofNat t, w, output,
      level⟩) rfl hparams rfl
  have hend' : Path code (Between (ip + 1 + ls.length + 1 + (vs.length + 1))
        (ip + 1 + ls.length + 1 + (vs.length + 1) + 4) level)
      ⟨ip + 1 + ls.length + 1 + (vs.length + 1), fp₀ :: st, heap, spare, fp, .ofNat t, w, output, level⟩ _ :=
    path_leave (c := ⟨ip + 1 + ls.length + 1 + (vs.length + 1), fp₀ :: st, heap, spare, fp, .ofNat t, w, output, level⟩)
      rfl hend rfl rfl ht
  have hdown := (Path.widen hparams' (show ip + 1 ≤ _ by omega) (by omega)).trans
    (Path.widen hend' (show ip + 1 ≤ _ by omega) (Nat.le_refl _))
  have hup := (Path.widen hlocals' (show ip + 1 ≤ _ by omega) (by omega)).trans
    (.step (by simp [Between]; omega) (.storeRa hra.1 rfl) hdown)
  exact ⟨_, ⟨rfl, by omega, _, .storeTm hstore.1 rfl, hup⟩, rfl, rfl, rfl, rfl, rfl, rfl⟩

end FoolLang
