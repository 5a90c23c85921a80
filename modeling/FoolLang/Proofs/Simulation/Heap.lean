/-
The heap of a compiled program only grows: as long as the stack does not meet it, the heap pointer never goes
back, and what stands below it stays as it is. So dispatch tables and objects, once they are there, do not
change, whatever is called, compared and built after them.
-/
import FoolLang.Proofs.Simulation.Preservation

namespace FoolLang

open Machine

variable {α β : Type} {code : Array Op} {c c' : Config} {s t u : State} {k : Nat}

/-! ## Growth -/

/-- The heap of one state is the beginning of the heap of another. -/
structure Machine.State.HeapGrows (s t : State) : Prop where
  hp : s.hp ≤ t.hp
  word : ∀ a, a < s.hp → t.word? a = s.word? a

theorem Machine.State.HeapGrows.refl (s : State) : s.HeapGrows s := ⟨Int32.le_refl _, fun _ _ => rfl⟩

theorem Machine.State.HeapGrows.trans (h : s.HeapGrows t) (h' : t.HeapGrows u) : s.HeapGrows u where
  hp := Int32.le_trans h.hp h'.hp
  word a ha := (h'.word a (Int32.lt_of_lt_of_le ha h.hp)).trans (h.word a ha)

/-- A step told by lists keeps the heap, or puts one word behind it. -/
theorem Machine.Config.Step.heap_prefix (h : c.Step code c') : c.heap <+: c'.heap := by
  cases h with
  | storeHp => exact List.prefix_append _ _
  | _ => exact List.prefix_refl _

/-- What holds of heaps as lists holds of the states that show them. -/
theorem Machine.Config.Shown.heapGrows (h : c.Shown s) (h' : c'.Shown t) (hheap : c.heap <+: c'.heap) :
    s.HeapGrows t := by
  obtain ⟨more, hmore⟩ := hheap
  have hm : memSize < 2 ^ 31 := by decide
  have hle := h.stack_le
  have hle' := h'.stack_le
  have hlen := congrArg List.length hmore
  rw [List.length_append] at hlen
  constructor
  · rw [h.hp, h'.hp, Int32.le_iff_toInt_le, toInt_ofNat (by omega), toInt_ofNat (by omega)]
    omega
  · intro a ha
    rw [h.hp, Int32.lt_iff_toInt_lt, toInt_ofNat (by omega)] at ha
    by_cases hneg : a.toInt < 0
    · -- Below the memory no state has words.
      have hnone : ∀ u : State, u.word? a = none := fun u => by
        rw [State.word?, cell?, dif_neg (by omega)]
        rfl
      rw [hnone, hnone]
    · obtain ⟨j, hj⟩ := Int.eq_ofNat_of_zero_le (Int.not_lt.mp hneg)
      have ha' : a = .ofNat j := by
        apply Int32.toInt_inj.mp
        rw [toInt_ofNat (by omega), hj]
      have hlt : j < c.heap.length := by omega
      have hword : c.heap[j]? = some c.heap[j] := List.getElem?_eq_getElem hlt
      have hword' : c'.heap[j]? = some c.heap[j] := by
        rw [← hmore, List.getElem?_append_left hlt, hword]
      rw [ha', h.word (.heap hword), h'.word (.heap hword')]

/-! ## Instructions that end a run -/

/-- From states with a memory and a heap pointer, an action leads to such states. -/
def Machine.Idle (x : Act α) : Prop := ∀ m p,
  Leads (fun s => s.memory = m ∧ s.hp = p) x (fun _ s => s.memory = m ∧ s.hp = p) fun s => s.memory = m ∧ s.hp = p

/-- What an instruction does to memory and heap pointer it does last: if it fails or halts, both stay. -/
def Machine.Tidy (x : Act (Option Result)) : Prop := ∀ m p,
  Leads (fun s => s.memory = m ∧ s.hp = p) x (fun r s => r = none ∨ s.memory = m ∧ s.hp = p)
    fun s => s.memory = m ∧ s.hp = p

namespace Machine

namespace Idle

variable {x : Act α} {f : α → Act β}

theorem bind (h : Idle x) (hf : ∀ a, Idle (f a)) : Idle (x >>= f) := fun m p => Leads.bind (h m p) fun a => hf a m p

theorem pure (a : α) : Idle (pure a) := fun _ _ => Leads.pure a fun _ hs => hs

theorem throw (e : Fault) : Idle (throw e : Act α) := fun _ _ => Leads.throw e fun _ hs => hs

theorem get : Idle get := fun _ _ => Leads.get

theorem modify {g : State → State} (h : ∀ s, (g s).memory = s.memory ∧ (g s).hp = s.hp) : Idle (modify g) :=
  fun _ _ => Leads.modify fun s hs => ⟨(h s).1.trans hs.1, (h s).2.trans hs.2⟩

theorem read (a : Int32) : Idle (read a) := by
  refine .bind .get fun s => ?_
  split
  · exact .pure _
  · exact .throw _

theorem pop : Idle pop :=
  .bind .get fun s => .bind (.read s.sp) fun v => .bind (.modify fun _ => ⟨rfl, rfl⟩) fun _ => .pure v

theorem popOperands : Idle popOperands := .bind .pop fun _ => .bind .pop fun _ => .pure _

theorem jumpTo (size : Nat) (a : Int32) : Idle (jumpTo size a) := by
  unfold Machine.jumpTo
  split
  · exact .modify fun _ => ⟨rfl, rfl⟩
  · exact .throw _

end Idle

namespace Tidy

variable {x : Act α} {f : α → Act (Option Result)}

theorem bind (h : Idle x) (hf : ∀ a, Tidy (f a)) : Tidy (x >>= f) := fun m p => Leads.bind (h m p) fun a => hf a m p

theorem of_idle {x : Act (Option Result)} (h : Idle x) : Tidy x := fun m p =>
  (h m p).imp (fun _ hs => hs) fun _ _ hs => .inr hs

/-- An action that fails before it does anything, and an instruction that goes on after it. -/
theorem last {x : Act α} (h : ∀ s, match x s with
    | .ok _ _ => True
    | .error _ s' => s'.memory = s.memory ∧ s'.hp = s.hp) :
    Tidy (x >>= fun _ => Pure.pure none) := fun m p => by
  refine Leads.bind (Q := fun _ _ => True) (fun s hs => ?_) fun _ => .pure none fun _ _ => .inl rfl
  have hx := h s
  split
  · trivial
  · rename_i e s' hxs
    rw [hxs] at hx
    exact ⟨hx.1.trans hs.1, hx.2.trans hs.2⟩

theorem write (a v : Int32) : Tidy (write a v >>= fun _ => Pure.pure none) := by
  refine last fun s => ?_
  cases h : cell? a with
  | some i => rw [write_of_cell h]; trivial
  | none => rw [write_of_none h]; exact ⟨rfl, rfl⟩

theorem push (v : Int32) : Tidy (push v >>= fun _ => Pure.pure none) := by
  refine last fun s => ?_
  by_cases hlt : s.sp - 1 < s.hp
  · rw [push_of_lt hlt]; exact ⟨rfl, rfl⟩
  · rw [push_of_not_lt hlt]
    cases h : cell? (s.sp - 1) with
    | some i => rw [write_of_cell h]; trivial
    | none => rw [write_of_none h]; exact ⟨rfl, rfl⟩

theorem goOn : Tidy (Pure.pure none) := .of_idle (.pure none)

end Tidy

theorem Plain.execute_tidy (size here : Nat) (p : Plain) : Tidy (p.execute size here) := by
  cases p with
  | pop => exact .bind .pop fun _ => .goOn
  | arith a =>
    refine .bind .popOperands fun x => ?_
    obtain ⟨l, r⟩ := x
    dsimp only
    split
    · exact .bind (.throw _) fun _ => .push _
    · exact .push _
  | storeWord => exact .bind .pop fun a => .bind .pop fun v => .write a v
  | loadWord => exact .bind .pop fun a => .bind (.read a) fun v => .push v
  | jumpSubroutine =>
    exact .bind .pop fun a => .bind (.modify fun _ => ⟨rfl, rfl⟩) fun _ => .bind (.jumpTo size a) fun _ => .goOn
  | load r => exact .bind .get fun s => .push _
  | store r => exact .bind .pop fun v => .last fun _ => trivial
  | copyFp => exact .bind (.modify fun _ => ⟨rfl, rfl⟩) fun _ => .goOn
  | print => exact .bind .get fun s => .bind (.read s.sp) fun v => .bind (.modify fun _ => ⟨rfl, rfl⟩) fun _ => .goOn
  | halt => exact fun _ _ _ hs => .inr hs

theorem Op.execute_tidy (size here : Nat) (op : Op) : Tidy (op.execute size here) := by
  cases op with
  | plain p => exact p.execute_tidy size here
  | push n => exact .push n
  | jump j target =>
    cases j with
    | always => exact .bind (.modify fun _ => ⟨rfl, rfl⟩) fun _ => .goOn
    | ifEqual | ifLessEqual =>
      refine .bind .popOperands fun x => ?_
      obtain ⟨l, r⟩ := x
      dsimp only
      split
      · exact .bind (.modify fun _ => ⟨rfl, rfl⟩) fun _ => .goOn
      · exact .goOn

theorem step_tidy (code : Array Op) (s : State) : match step code s with
    | .ok r t => r = none ∨ t.memory = s.memory ∧ t.hp = s.hp
    | .error _ t => t.memory = s.memory ∧ t.hp = s.hp := by
  cases hop : code[s.ip]? with
  | none => rw [step_of_none hop]; exact ⟨rfl, rfl⟩
  | some op =>
    rw [step_eq hop]
    have htidy := op.execute_tidy code.size s.ip s.memory s.hp { s with ip := s.ip + 1 } ⟨rfl, rfl⟩
    cases hx : op.execute code.size s.ip { s with ip := s.ip + 1 } with
    | ok r t => rw [hx] at htidy; exact htidy
    | error f t => rw [hx] at htidy; exact htidy

/-- Where memory and heap pointer are the same, so is the heap. -/
theorem State.HeapGrows.of_eq (hm : t.memory = s.memory) (hp : t.hp = s.hp) : s.HeapGrows t := by
  constructor
  · rw [hp]
    exact Int32.le_refl _
  · intro a _
    rw [State.word?, State.word?, hm]

end Machine

/-! ## Runs -/

variable {p : Program}

/-- From one time to the next, the heap grows. -/
theorem Program.heapGrows_succ (hp : p.Sound) (hl : p.Laid code) (hsize : code.size < 2 ^ 31)
    (hfree : ∀ j ≤ k, ¬ Crowded code j) :
    (Machine.run code k .initial).2.HeapGrows (Machine.run code (k + 1) .initial).2 := by
  rw [run_add]
  cases hrun : Machine.run code k .initial with
  | mk o s =>
    cases o with
    | halted r => exact .refl s
    | faulted f => exact .refl s
    | unfinished =>
      have hv : Visits code k s := hrun
      show s.HeapGrows (Machine.run code 1 s).2
      have htidy := step_tidy code s
      rw [Machine.run]
      cases hstep : step code s with
      | error f t =>
        rw [hstep] at htidy
        exact .of_eq htidy.1 htidy.2
      | ok r t =>
        rw [hstep] at htidy
        cases r with
        | some r =>
          have hstays := htidy.resolve_left (Option.some_ne_none r)
          exact .of_eq hstays.1 hstays.2
        | none =>
          show s.HeapGrows t
          have hnext := hv.succ hstep
          -- The run of the program tells every step by lists, and a step told by lists keeps the heap or prolongs it.
          have hruns := Program.simulated hsize hp hl (List.nil_subset _) (k + 1)
          rcases hruns.moves (Nat.zero_le k) (by omega) hfree hnext with
            ⟨c, c', hat, hmove⟩ | ⟨x, j, c, -, -, hjk, ⟨s₁, hv₁, hs₁, -⟩, hhalt, ⟨st, hstack⟩, -⟩
          · have hr := hat.roomy (hfree k (Nat.le_refl k))
            obtain ⟨s₁, hv₁, hs₁, -⟩ := hat
            cases hv.unique hv₁
            obtain ⟨t₁, hstep₁, ht₁⟩ := step_shown hsize hs₁ hr hmove
            cases hstep.symm.trans hstep₁
            exact hs₁.heapGrows ht₁ hmove.heap_prefix
          · -- A run that halts has no next time.
            obtain ⟨s₂, hstep₂⟩ := step_halt hs₁ hhalt hstack
            have hle := hv₁.le_of_stop hnext fun u hu => by cases hu.symm.trans hstep₂
            omega

/-- From an earlier time to a later one, the heap grows. -/
theorem Program.heapGrows (hp : p.Sound) (hl : p.Laid code) (hsize : code.size < 2 ^ 31) {j : Nat} (hjk : j ≤ k)
    (hfree : ∀ i < k, ¬ Crowded code i) :
    (Machine.run code j .initial).2.HeapGrows (Machine.run code k .initial).2 := by
  induction k, hjk using Nat.le_induction with
  | base => exact .refl _
  | succ k _ ih =>
    have hbefore := ih fun i hi => hfree i (Nat.lt_succ_of_lt hi)
    exact hbefore.trans (Program.heapGrows_succ hp hl hsize fun i hi => hfree i (Nat.lt_succ_of_le hi))

/--
The heap of compiled code is append-only. The code of a text that compiles links. If its addresses are words, then
between any two states of its run, the last one included, the heap pointer does not go back and the cells below it
keep their words, as long as the stack does not meet the heap.
-/
theorem compile_heap_grows {source : String} {is : List Instruction} (h : compile source = .ok is) :
    ∃ ops, link is = .ok ops ∧ (ops.size < 2 ^ 31 → ∀ k, (∀ i < k, ¬ Crowded ops i) →
      ∀ j ≤ k, (Machine.run ops j .initial).2.HeapGrows (Machine.run ops k .initial).2) := by
  obtain ⟨p, ops, -, hlink, hsound, hlaid⟩ := compile_laid h
  exact ⟨ops, hlink, fun hsize k hfree j hjk => Program.heapGrows hsound (hlaid hsize) hsize hjk hfree⟩

/-- The dispatch table of the boxes is built by the ninth instruction and outlasts the calls of the function. -/
theorem compile_heap_grows_boxed : ∃ ops s t, link boxedCode = .ok ops ∧ Machine.run ops 9 .initial = (.unfinished, s) ∧
    (Machine.run ops 203 .initial).2 = t ∧ s.HeapGrows t ∧ s.hp = 1 ∧ t.word? 0 = some 46 := by
  obtain ⟨ops, hlink, hgrows⟩ := compile_heap_grows compile_boxed
  cases hlink.symm.trans link_boxed
  have htrace : ∃ c ∈ Config.initial.after? boxedOps 9, c.heap = [46] := by
    rw [boxedOps_eq]
    decide +kernel
  obtain ⟨c, hc, hheap⟩ := htrace
  obtain ⟨s, hv, hs, -⟩ := at_boxed hc
  have hst := hgrows boxedOps_size 203 (fun i _ => boxed_not_crowded i) 9 (by decide)
  rw [show (Machine.run boxedOps 9 .initial).2 = s from congrArg Prod.snd hv] at hst
  have hhp : s.hp = 1 := by
    rw [hs.hp, hheap]
    rfl
  have hword : s.word? 0 = some 46 := hs.word (.heap (by rw [hheap]; rfl : c.heap[0]? = some 46))
  refine ⟨boxedOps, s, _, link_boxed, hv, rfl, hst, hhp, ?_⟩
  rw [hst.word 0 (by rw [hhp]; decide), hword]

end FoolLang
