/-
Compiled programs are safe: unless the stack meets the heap, an instruction fails only where it divides by
zero or dereferences the null reference, however long the run has been going on. And wherever the code of an
expression has been executed, the word it has left is a value of the type of the expression.
-/
import FoolLang.Proofs.Simulation.Preservation

namespace FoolLang

open Machine

section

variable (p : Program) (code : Array Op)

/-- What an instruction of a program may fail with. -/
inductive Machine.Excused (ip : Nat) : Fault → Prop
  | division (h : code[ip]? = some (.plain (.arith .div))) : Excused ip (.divisionByZero ip)
  | receiver (h : code[ip]? = some (.plain .loadWord)) (hd : p.Dereferences ip) : Excused ip (.outOfBounds (-1))

/-- Whether a word is a value of a type at some time: a reference is null or to an object built before. -/
def Machine.IsValue (k : Nat) (w : Int32) : Ty → Prop
  | .bool => w = 0 ∨ w = 1
  | .null => w = -1
  | .ref c => w = -1 ∨ Built p code k w c
  | _ => True

/--
From one time to another, the code of an expression is executed: the run stands at its beginning, and for
the first time afterwards at its end with just as many routines running.
-/
structure Machine.Executes (spot : Spot) (i j : Nat) (s s' : State) : Prop where
  start : Visits code i s ∧ s.ip = spot.start
  stop : Visits code j s' ∧ s'.ip = spot.stop
  lt : i < j
  level : levelAt code j = levelAt code i
  first : ∀ k t, i < k → k < j → Visits code k t → t.ip = spot.stop → levelAt code k ≠ levelAt code i

end

variable {p : Program} {code : Array Op} {spot : Spot} {i j k : Nat} {s s' : State} {t : Ty}

/-! ## Faults -/

/-- An instruction of a program fails for no other reason than its evaluation has. -/
theorem Program.excused (hp : p.Sound) (hl : p.Laid code) (hsize : code.size < 2 ^ 31)
    (hfree : ∀ j ≤ k, ¬ Crowded code j) (hv : Visits code k s) {f : Fault} (hf : step code s = .error f s') :
    Excused p code s.ip f := by
  have hruns := Program.simulated hsize hp hl (List.nil_subset _) (k + 1)
  rcases hruns.visited (Nat.zero_le k) (by omega) hfree hv with
    ⟨c, hat, -, -, ⟨u, hu⟩ | hdivides | hderefs⟩ | ⟨x, j, c, -, -, hjk, hat, hhalt, ⟨st, hstack⟩, -⟩
  · rw [hv.step_eq hu] at hf
    cases hf
  · obtain ⟨s₁, s₂, hv₁, hip, hstep⟩ := hat.divides (hfree k (Nat.le_refl k)) hdivides
    cases hv.unique hv₁
    cases hf.symm.trans hstep
    rw [hip]
    exact .division hdivides.1
  · obtain ⟨s₁, s₂, hv₁, hip, hstep⟩ := hat.dereferences (hfree k (Nat.le_refl k)) hderefs
    cases hv.unique hv₁
    cases hf.symm.trans hstep
    rw [hip]
    exact .receiver hderefs.1 hderefs.2.1
  · obtain ⟨s₁, hv₁, hs₁, -⟩ := hat
    obtain ⟨s₂, hstep⟩ := step_halt hs₁ hhalt hstack
    have hle := hv₁.le_of_stop hv fun u hu => by cases hu.symm.trans hstep
    cases Nat.le_antisymm hjk hle
    cases hv.unique hv₁
    cases hf.symm.trans hstep

/-! ## Values -/

/-- Where the code of an expression is begun, the run stands as an evaluation of the expression does. -/
theorem Program.begun (hp : p.Sound) (hl : p.Laid code) (hsize : code.size < 2 ^ 31)
    (hfree : ∀ j ≤ i, ¬ Crowded code j) (hspot : spot ∈ p.spots) (hv : Visits code i s) (hip : s.ip = spot.start)
    (hnext : Visits code (i + 1) s') : Begun p code spot i := by
  have hruns := Program.simulated hsize hp hl (List.Subset.refl _) (i + 1)
  rcases hruns.visited (Nat.zero_le i) (by omega) hfree hv with
    ⟨c, ⟨s₁, hv₁, hs₁, -⟩, -, hwatch, -⟩ | ⟨x, j, c, -, -, hji, ⟨s₁, hv₁, hs₁, -⟩, hhalt, ⟨st, hstack⟩, -⟩
  · refine hwatch spot hspot ?_
    rw [← hs₁.ip, ← hip, hv.unique hv₁]
  · obtain ⟨s₂, hstep⟩ := step_halt hs₁ hhalt hstack
    have hle := hv₁.le_of_stop hnext fun u hu => by cases hu.symm.trans hstep
    omega

/-- Where the code of an expression that was begun has been executed, its value is on top of what was there. -/
theorem Begun.reached (h : Begun p code spot i) (hp : p.Sound) (hl : p.Laid code) (hsize : code.size < 2 ^ 31)
    (hfree : ∀ k ≤ j, ¬ Crowded code k) (hx : Executes code spot i j s s') :
    ∃ c c' σ σ' w t, At code i c ∧ At code j c' ∧ Reached p code σ σ' c c' spot.stop [w] j ∧
      spot.expr.type = .ok t ∧ σ'.Fits w t := by
  obtain ⟨c, v, ρ, σ, t, hat, hip, hsite, hst⟩ := h
  have hlt := hx.lt
  have hpos := spot.expr.size_pos
  have hstop : spot.stop = spot.start + spot.expr.size := rfl
  have hsim := Expr.simulated hp hl (Routine.simulated hsize hp hl (List.nil_subset _) (j + 1)) spot.expr
  have hruns := hsim hat hip hsite hst fun spot hspot => (List.not_mem_nil hspot).elim
  obtain ⟨s₁, hv₁, hs₁, hl₁⟩ := id hat
  rcases hruns.visited (by omega) (by omega) hfree hx.stop.1 with
    ⟨c', hat', hinside, -⟩ | ⟨q, k, c', -, hik, hkj, hat', hr, hf⟩
  · have hat' : At code j c' := hat'
    obtain ⟨s₂, hv₂, hs₂, hl₂⟩ := hat'
    have hip₂ : c'.ip = spot.stop := by rw [← hs₂.ip, ← hx.stop.2, hx.stop.1.unique hv₂]
    have hlevel := hx.level
    rcases hinside with ⟨-, hhigh, -⟩ | hhigh <;> omega
  · have hat' : At code k c' := hat'
    obtain ⟨s₂, hv₂, hs₂, hl₂⟩ := id hat'
    have hip₂ : s₂.ip = spot.stop := by rw [hs₂.ip, hr.ip, hstop]
    have hik' : i ≠ k := by
      rintro rfl
      have hstart := hx.start.2
      rw [← hv₂.unique hx.start.1] at hstart
      omega
    have hkj' : k = j := by
      by_contra hne
      refine hx.first k s₂ (by omega) (by omega) hv₂ hip₂ ?_
      rw [← hl₁, ← hl₂, hr.level]
    cases hkj'
    exact ⟨c, c', σ, q.2, q.1, t, hat, hat', hr, hsite.type, hf⟩

/-- A value in a store is one for the run that has built the objects of the store. -/
theorem Store.Fits.isValue {σ : Store} {w : Int32} (h : σ.Fits w t) (hb : σ.Built p code k) : IsValue p code k w t := by
  cases t with
  | ref c =>
    rcases h with h | ⟨o, ho, rfl⟩
    · exact .inl h
    · exact .inr (hb w o ho)
  | _ => exact h

/--
Compiled programs are safe. The code of a text that compiles links. If its addresses are words, then as long as
the stack has not met the heap, its run fails only by a division by zero or by dereferencing the null reference;
and wherever the code of an expression has been executed, a value of the type of the expression has been pushed.
-/
theorem compile_safe {source : String} {is : List Instruction} (h : compile source = .ok is) :
    ∃ p ops, Program.ofSource source = .ok p ∧ link is = .ok ops ∧ (ops.size < 2 ^ 31 →
      ∀ k, (∀ j ≤ k, ¬ Crowded ops j) →
        (∀ s f s', Visits ops k s → step ops s = .error f s' → Excused p.resolve.1 ops s.ip f) ∧
        ∀ spot ∈ p.resolve.1.spots, ∀ i s s', Executes ops spot i k s s' → ∃ t w, spot.expr.type = .ok t ∧
          s'.sp = s.sp - 1 ∧ s'.word? s'.sp = some w ∧ IsValue p.resolve.1 ops k w t) := by
  obtain ⟨p, ops, hp, hlink, hsound, hlaid⟩ := compile_laid h
  refine ⟨p, ops, hp, hlink, fun hsize k hfree => ?_⟩
  have hlaid := hlaid hsize
  refine ⟨fun s f s' hv hf => ?_, fun spot hspot i s s' hx => ?_⟩
  · exact Program.excused hsound hlaid hsize hfree hv hf
  · obtain ⟨u, hu⟩ := hx.stop.1.before hx.lt
    have hbegun := Program.begun hsound hlaid hsize (fun j hj => hfree j (by have := hx.lt; omega)) hspot hx.start.1
      hx.start.2 hu
    obtain ⟨c, c', σ, σ', w, t, ⟨s₁, hv₁, hs₁, -⟩, ⟨s₂, hv₂, hs₂, -⟩, hr, ht, hf⟩ :=
      hbegun.reached hsound hlaid hsize hfree hx
    cases hv₁.unique hx.start.1
    cases hv₂.unique hx.stop.1
    refine ⟨t, w, ht, ?_, ?_, hf.isValue hr.built⟩
    · rw [hs₁.sp, hs₂.sp, hr.stack, stackAt_succ]
      rfl
    · rw [hs₂.sp]
      exact hs₂.word (Config.Shown.holds_top c' hr.stack)

/-- The condition of the recursive function is executed and leaves a truth value, and nothing fails. -/
theorem compile_safe_boxed : ∃ p ops, Program.ofSource boxed = .ok p ∧ link boxedCode = .ok ops ∧
    (∀ k s f s', Visits ops k s → step ops s = .error f s' → Excused p.resolve.1 ops s.ip f) ∧
    ∃ spot ∈ p.resolve.1.spots, spot.expr.type = .ok .bool ∧ ∃ s s' w, Executes ops spot 23 31 s s' ∧
      s'.word? s'.sp = some w ∧ (w = 0 ∨ w = 1) := by
  have hspots : ∃ spot ∈ boxedProgram.resolve.1.spots,
      spot.start = 62 ∧ spot.stop = 71 ∧ spot.expr.type = .ok .bool := by decide +kernel
  have htrace : (∃ c ∈ Config.initial.after? boxedOps 23, c.ip = 62 ∧ c.level = 1) ∧
      (∃ c ∈ Config.initial.after? boxedOps 31, c.ip = 71 ∧ c.level = 1) ∧
      ∀ k < 31, ∃ c ∈ Config.initial.after? boxedOps k, c.ip ≠ 71 := by
    rw [boxedOps_eq]
    decide +kernel
  obtain ⟨p, ops, hp, hlink, hsafe⟩ := compile_safe compile_boxed
  cases hlink.symm.trans link_boxed
  cases hp.symm.trans ofSource_boxed
  have hsafe := hsafe boxedOps_size
  obtain ⟨spot, hspot, hat₁, hat₂, ht⟩ := hspots
  obtain ⟨hstart, hstop, hfirst⟩ := htrace
  obtain ⟨c, hc, hip, hlevel⟩ := hstart
  obtain ⟨c', hc', hip', hlevel'⟩ := hstop
  obtain ⟨s, hv, hs, hl⟩ := at_boxed hc
  obtain ⟨s', hv', hs', hl'⟩ := at_boxed hc'
  have hx : Executes boxedOps spot 23 31 s s' := by
    refine ⟨⟨hv, ?_⟩, ⟨hv', ?_⟩, by decide, ?_, fun k u _ hk hu huip => ?_⟩
    · rw [hs.ip, hip, hat₁]
    · rw [hs'.ip, hip', hat₂]
    · rw [← hl', ← hl, hlevel, hlevel']
    · obtain ⟨d, hd, hne⟩ := hfirst k hk
      obtain ⟨u', hu', hd', -⟩ := at_boxed hd
      cases hu.unique hu'
      exact absurd (hd'.ip.symm.trans (huip.trans hat₂)) hne
  obtain ⟨t, w, ht', -, hw, hvalue⟩ := (hsafe 31 fun j _ => boxed_not_crowded j).2 spot hspot 23 s s' hx
  cases ht.symm.trans ht'
  refine ⟨boxedProgram, boxedOps, hp, hlink, fun k s f s' hv hf => ?_, spot, hspot, ht, s, s', w, hx, hw, hvalue⟩
  exact (hsafe k fun j _ => boxed_not_crowded j).1 s f s' hv hf

end FoolLang
