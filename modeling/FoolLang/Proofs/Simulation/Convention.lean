/-
The calling convention: where the routine that a call has entered comes to its end, the run goes on behind the
call as if the call had been one push of the value of the routine. The frame of the caller is the innermost
one again, and nothing of what the caller had on the stack has changed.
-/
import FoolLang.Proofs.Simulation.Safety

namespace FoolLang

open Machine

/-! ## Calls and returns -/

/-- Whether an expression is a call, of a function or of a method. -/
def Expr.isCall : Expr → Bool
  | .call _ _ _ _ | .methodCall _ _ _ _ _ => true
  | _ => false

section

variable (code : Array Op)

/--
From one time to another, the code of a call is executed up to the jump of the call: the run stands at its
beginning, and then for the first time at its last instruction with just as many routines running.
-/
structure Machine.Issues (spot : Spot) (i m : Nat) (s s' : State) : Prop where
  start : Visits code i s ∧ s.ip = spot.start
  jump : Visits code m s' ∧ s'.ip + 1 = spot.stop
  lt : i < m
  level : levelAt code m = levelAt code i
  first : ∀ k t, i ≤ k → k < m → Visits code k t → t.ip + 1 = spot.stop → levelAt code k ≠ levelAt code i

/--
A routine comes to its last instruction at some time, in the activation that a jump has begun: ever since, at
least that routine has been running.
-/
structure Machine.Closes (x : Nat × Routine) (m k : Nat) (s : State) : Prop where
  last : Visits code k s ∧ s.ip + 1 = x.1 + x.2.size
  lt : m < k
  level : levelAt code k = levelAt code m + 1
  within : ∀ j, m < j → j ≤ k → levelAt code m < levelAt code j

end

/-- A state in which the run goes on at an address as if, in another state, a word had just been pushed. -/
structure Machine.Resumes (stop : Nat) (w : Int32) (s s' : State) : Prop where
  ip : s'.ip = stop
  fp : s'.fp = s.fp
  sp : s'.sp = s.sp - 1
  top : s'.word? s'.sp = some w
  above : ∀ a, s.sp ≤ a → s'.word? a = s.word? a

variable {p : Program} {code : Array Op} {spot : Spot} {i j k m : Nat} {s s' : State} {x : Nat × Routine}

/-- The last instruction of a routine jumps back to where the routine has been called from. -/
theorem Routine.Laid.closes {placed : List (Nat × Routine)} {r : Routine} {a ip : Nat} (h : r.Laid code placed a)
    (hip : ip + 1 = a + r.size) :
    code[ip]? = some (.plain .jumpSubroutine) ∧ code[ip - 1]? = some (.plain (.load .ra)) := by
  obtain ⟨-, -, -, hepilogue⟩ := h
  have hlen := (Code.flat_epilogue r.params.length r.locals.length).ops_length
  have hsize : r.size = r.bodySize + (Code.epilogue r.params.length r.locals.length).length := rfl
  rw [Code.epilogue_ops] at hepilogue hlen
  rw [List.length_append] at hlen
  simp only [List.length_cons, List.length_nil] at hlen
  obtain ⟨b, hb, -, -, hback, hjump, -⟩ : ∃ b, b + 4 = a + r.size ∧
      Stands code b [.plain (.store .fp), .plain (.load .tm), .plain (.load .ra), .plain .jumpSubroutine] :=
    ⟨_, by omega, ((stands_append _ _ _).mp hepilogue).2⟩
  cases show ip = b + 3 by omega
  exact ⟨hjump, hback⟩

/-- The last instruction of a routine leaves it. -/
theorem Machine.Closes.leaves (h : Closes code x m k s) (hl : p.Laid code) (hx : x ∈ p.placed) :
    levelAt code (k + 1) = levelAt code m := by
  obtain ⟨hjump, hback⟩ := (hl.routines x hx).1.closes h.last.2
  rw [levelAt, show Machine.run code k .initial = (.unfinished, s) from h.last.1, levelAfter,
    if_pos hjump, if_pos hback, h.level, Nat.add_sub_cancel]

/-! ## What a call does -/

/-- Where a call has been executed up to its jump, a routine is about to be entered. -/
theorem Begun.calling (h : Begun p code spot i) (hp : p.Sound) (hl : p.Laid code) (hsize : code.size < 2 ^ 31)
    (hcall : spot.expr.isCall = true) (hfree : ∀ j ≤ m, ¬ Crowded code j) (hx : Issues code spot i m s s') :
    ∃ c c' σ g x v ρ vs, At code i c ∧ At code m c' ∧ Calling p code σ m c c' g x v ρ vs spot.stop := by
  obtain ⟨c, v, ρ, σ, t, hat, hip, hsite, hst⟩ := h
  have hpos := spot.expr.size_pos
  have hlt := hx.lt
  have hstop : spot.stop = spot.start + spot.expr.size := rfl
  have hsim := Expr.simulated hp hl (Routine.simulated hsize hp hl (List.nil_subset _) (m + 1))
  have hreaches : spot.expr.Reaches p code hsize [] (m + 1) := by
    match spot.expr, hcall with
    | .call _ args _ _, _ => exact Expr.reaches_call hp hl fun e _ => hsim e
    | .methodCall receiver _ args _ _, _ => exact Expr.reaches_methodCall hp hl (fun e _ => hsim e) (hsim receiver)
  obtain ⟨α, r, f, -, hruns⟩ := hreaches hat hip hsite hst fun spot hspot => (List.not_mem_nil hspot).elim
  have hlevel : c.level = levelAt code i := hat.level_eq
  rcases hruns.visited (by omega) (by omega) hfree hx.jump.1 with
    ⟨c', hat', hinside, -⟩ | ⟨q, k, c', -, hik, hkm, hat', -, σ', g, x, v', ρ', vs, hcalling, -⟩
  · have hat' : At code m c' := hat'
    obtain ⟨s₂, hv₂, hs₂, hl₂⟩ := hat'
    have hip₂ : c'.ip + 1 = spot.stop := by rw [← hs₂.ip, ← hx.jump.2, hx.jump.1.unique hv₂]
    have hlevel := hx.level
    rcases hinside with ⟨-, hhigh, -⟩ | hhigh <;> omega
  · have hat' : At code k c' := hat'
    obtain ⟨s₂, hv₂, hs₂, hl₂⟩ := id hat'
    have hkm' : k = m := by
      by_contra hne
      refine hx.first k s₂ hik (by omega) hv₂ ?_ ?_
      · rw [hs₂.ip, hcalling.last, hstop]
      · rw [← hl₂, hcalling.level, hlevel]
    cases hkm'
    exact ⟨c, c', σ', g, x, v', ρ', vs, hat, hat', hcalling⟩

/-- Where the routine that a call has entered comes to its end, the run goes on behind the call with its value. -/
theorem Calling.closes {c c' : Config} {σ : Store} {g : Signature} {v : View} {ρ : Env} {vs : List Int32} {stop : Nat}
    (h : Calling p code σ m c c' g x v ρ vs stop) (hat : At code m c') (hp : p.Sound) (hl : p.Laid code)
    (hsize : code.size < 2 ^ 31) (hx : Closes code x m k s) (hfree : ∀ j ≤ k + 1, ¬ Crowded code j) :
    ∃ c'' σ' w, At code (k + 1) c'' ∧ Reached p code σ σ' c c'' stop [w] (k + 1) ∧
      Yields code (m + 1) (k + 1) (x.1 + x.2.bodySize) (levelAt code m + 1) w := by
  obtain ⟨-, hlevel, -, c₁, hstep, hentered⟩ := h
  have hplaced := hentered.callee.placed
  have hlt := hx.lt
  have hlevel' : c.level = levelAt code m := hlevel.symm.trans hat.level_eq
  have hat₁ := (hat.succ hsize hstep).resolve_left (hfree m (by omega))
  have hruns := Routine.simulated hsize hp hl (List.nil_subset _) (k + 2) hat₁ hentered
  have hlast := (hl.routines x hplaced).1.closes hx.last.2
  -- The routine has not been left before, for then less routines would be running.
  have hrunning : ∀ j c₂ (q : Int32 × Store), m + 1 ≤ j → At code j c₂ → Reached p code σ q.2 c c₂ stop [q.1] j →
      k < j := fun j c₂ q hj hat₂ hr => by
    by_contra hjk
    have hwithin := hx.within j (by omega) (by omega)
    rw [← hat₂.level_eq, hr.level, hlevel'] at hwithin
    omega
  have hnext : ∃ t, Visits code (k + 1) t := by
    rcases hruns.visited (by omega) (by omega) (fun j hj => hfree j (by omega)) hx.last.1 with
      ⟨c₂, ⟨s₂, hv₂, hs₂, -⟩, -, -, hgo | hdivides | hderefs⟩ | ⟨q, j, c₂, -, hj, hjk, hat₂, hr, -⟩
    · exact hgo
    · rw [hx.last.1.unique hv₂, hs₂.ip] at hlast
      cases hdivides.1.symm.trans hlast.1
    · rw [hx.last.1.unique hv₂, hs₂.ip] at hlast
      cases hderefs.1.symm.trans hlast.1
    · exact absurd (hrunning j c₂ q hj hat₂ hr) (by omega)
  obtain ⟨t, ht⟩ := hnext
  rcases hruns.visited (by omega) (by omega) hfree ht with
    ⟨c₂, hat₂, hhigh, -⟩ | ⟨q, j, c₂, -, hj, hjk, hat₂, hr, -, hyields⟩
  · have hat₂ : At code (k + 1) c₂ := hat₂
    have hback := hx.leaves hl hplaced
    rw [← hat₂.level_eq] at hback
    omega
  · have hkj := hrunning j c₂ q hj hat₂ hr
    cases Nat.le_antisymm hjk hkj
    rw [hentered.level, hlevel'] at hyields
    exact ⟨c₂, q.2, q.1, hat₂, hr, hyields⟩

/-- What has been reached with one word more on the stack is shown by states in which the run goes on. -/
theorem Reached.resumes {c c' : Config} {σ σ' : Store} {stop : Nat} {w : Int32}
    (h : Reached p code σ σ' c c' stop [w] k) (hs : c.Shown s) (hs' : c'.Shown s') : Resumes stop w s s' := by
  refine ⟨hs'.ip.trans h.ip, ?_, ?_, ?_, fun a ha => hs.word_above hs' h.stack ha⟩
  · rw [hs'.fp, h.fp, hs.fp]
  · rw [hs.sp, hs'.sp, h.stack, stackAt_succ]
    rfl
  · rw [hs'.sp]
    exact hs'.word (Config.Shown.holds_top c' h.stack)

/--
The calling convention of compiled code, which links and the addresses of which are words. Where a call has been
executed up to its jump, a routine is entered. If the last instruction of the routine is reached in this activation,
the run goes on behind the call: with the frame pointer as it was when the call began, with one word more on the
stack, the one that the body of the routine has left, and with every cell above unchanged. All this holds as long as
the stack does not meet the heap.
-/
theorem compile_convention {source : String} {is : List Instruction} (h : compile source = .ok is) :
    ∃ p ops, Program.ofSource source = .ok p ∧ link is = .ok ops ∧ (ops.size < 2 ^ 31 →
      ∀ spot ∈ p.resolve.1.spots, spot.expr.isCall = true →
        ∀ i m s s', Issues ops spot i m s s' → (∀ j ≤ m, ¬ Crowded ops j) →
          ∃ x ∈ p.resolve.1.placed, (∃ t, Visits ops (m + 1) t ∧ t.ip = x.1) ∧
            ∀ k t, Closes ops x m k t → (∀ j ≤ k + 1, ¬ Crowded ops j) →
              ∃ t' w, Visits ops (k + 1) t' ∧ Resumes spot.stop w s t' ∧
                Yields ops (m + 1) (k + 1) (x.1 + x.2.bodySize) (levelAt ops m + 1) w) := by
  obtain ⟨p, ops, hp, hlink, hsound, hlaid⟩ := compile_laid h
  refine ⟨p, ops, hp, hlink, fun hsize spot hspot hcall i m s s' hx hfree => ?_⟩
  have hlaid := hlaid hsize
  obtain ⟨u, hu⟩ := hx.jump.1.before hx.lt
  have hbegun := Program.begun hsound hlaid hsize (fun j hj => hfree j (by have := hx.lt; omega)) hspot hx.start.1
    hx.start.2 hu
  obtain ⟨c, c', σ, g, x, v, ρ, vs, hat, hat', hcalling⟩ := hbegun.calling hsound hlaid hsize hcall hfree hx
  obtain ⟨c₁, hstep, hentered⟩ := hcalling.entered
  refine ⟨x, hentered.callee.placed, ?_, fun k t hcloses hfree' => ?_⟩
  · obtain ⟨t, ht, hs, -⟩ := (hat'.succ hsize hstep).resolve_left (hfree m (Nat.le_refl m))
    exact ⟨t, ht, hs.ip.trans hentered.ip⟩
  · obtain ⟨c₂, σ', w, ⟨t', ht', hs', -⟩, hr, hyields⟩ := hcalling.closes hat' hsound hlaid hsize hcloses hfree'
    obtain ⟨s₁, hv₁, hs₁, -⟩ := hat
    cases hv₁.unique hx.start.1
    exact ⟨t', w, ht', hr.resumes hs₁ hs', hyields⟩

/-- The innermost call of the recursive function returns to the one around it. -/
theorem compile_convention_boxed : ∃ p ops s s' w, Program.ofSource boxed = .ok p ∧ link boxedCode = .ok ops ∧
    (∃ spot ∈ p.resolve.1.spots, spot.expr.isCall = true ∧ spot.start = 77 ∧ spot.stop = 92) ∧
    (Visits ops 99 s ∧ s.ip = 77) ∧ Visits ops 134 s' ∧ Resumes 92 w s s' := by
  have htree : (∃ spot ∈ boxedProgram.resolve.1.spots, spot.start = 77 ∧ spot.stop = 92 ∧ spot.expr.isCall = true) ∧
      ∀ x ∈ boxedProgram.resolve.1.placed, x.1 = 60 → x.1 + x.2.size = 103 := by decide +kernel
  have htrace : ∃ c ∈ Config.initial.after? boxedOps 99, (c.ip = 77 ∧ c.level = 3) ∧
      (∀ j < 14, ∃ c' ∈ c.after? boxedOps j, c'.ip + 1 ≠ 92) ∧
      (∃ c' ∈ c.after? boxedOps 14, c'.ip = 91 ∧ c'.level = 3) ∧
      (∃ c' ∈ c.after? boxedOps 15, c'.ip = 60) ∧
      (∀ j < 20, ∃ c' ∈ c.after? boxedOps (15 + j), 3 < c'.level) ∧
      ∃ c' ∈ c.after? boxedOps 34, c'.ip = 102 ∧ c'.level = 4 := by
    rw [boxedOps_eq]
    decide +kernel
  obtain ⟨p, ops, hp, hlink, hcalls⟩ := compile_convention compile_boxed
  cases hlink.symm.trans link_boxed
  cases hp.symm.trans ofSource_boxed
  obtain ⟨⟨spot, hspot, hstart, hstop, hcall⟩, hsize⟩ := htree
  obtain ⟨c, hc, ⟨hip, hlevel⟩, hfirst, ⟨cm, hcm, hipm, hlevelm⟩, ⟨ce, hce, hipe⟩, hwithin, ck, hck, hipk,
    hlevelk⟩ := htrace
  have hat := at_boxed hc
  have hats : ∀ j c', c.after? boxedOps j = some c' → At boxedOps (99 + j) c' :=
    fun j c' h => (hat.after boxedOps_size h).1
  obtain ⟨s, hv, hs, hl⟩ := hat
  obtain ⟨sm, hvm, hsm, hlm⟩ := hats 14 cm hcm
  obtain ⟨se, hve, hse, -⟩ := hats 15 ce hce
  obtain ⟨sk, hvk, hsk, hlk⟩ := hats 34 ck hck
  have hx : Issues boxedOps spot 99 113 s sm := by
    refine ⟨⟨hv, ?_⟩, ⟨hvm, ?_⟩, by decide, ?_, fun k t hik hkm ht htip => ?_⟩
    · rw [hs.ip, hip, hstart]
    · rw [hsm.ip, hipm, hstop]
    · rw [← hl, ← hlm, hlevel, hlevelm]
    · obtain ⟨d, hd, hne⟩ := hfirst (k - 99) (by omega)
      obtain ⟨u, hu, hdu, -⟩ := hats _ d hd
      rw [show 99 + (k - 99) = k by omega] at hu
      cases hu.unique ht
      exact absurd (by rw [← hdu.ip, htip, hstop]) hne
  obtain ⟨x, hxp, ⟨t, ht, htip⟩, hreturn⟩ := hcalls boxedOps_size spot hspot hcall 99 113 s sm hx fun j _ =>
    boxed_not_crowded j
  have hx60 : x.1 = 60 := by rw [← htip, ht.unique hve, hse.ip, hipe]
  have hcloses : Closes boxedOps x 113 133 sk := by
    refine ⟨⟨hvk, ?_⟩, by decide, ?_, fun j hmj hjk => ?_⟩
    · rw [hsk.ip, hipk, hsize x hxp hx60]
    · rw [← hlk, ← hlm, hlevelk, hlevelm]
    · obtain ⟨d, hd, hlt⟩ := hwithin (j - 114) (by omega)
      have hatj := hats _ d hd
      rw [show 99 + (15 + (j - 114)) = j by omega] at hatj
      rw [← hlm, hlevelm, ← hatj.level_eq]
      exact hlt
  obtain ⟨s', w, hv', hresumes, -⟩ := hreturn 133 sk hcloses fun j _ => boxed_not_crowded j
  rw [hstop] at hresumes
  exact ⟨boxedProgram, boxedOps, s, s', w, hp, hlink, ⟨spot, hspot, hcall, hstart, hstop⟩, ⟨hv, hs.ip.trans hip⟩, hv',
    hresumes⟩

end FoolLang
