/-
The actions of the machine as equations: what each one gives in a state and the state it leaves, also
where it fails.
-/
import FoolLang.Machine.Run
import FoolLang.Proofs.Sequencing

namespace FoolLang.Machine

variable {s : State} {a v : Int32} {code : Array Op} {op : Op}

/-! ## Cells -/

theorem read_of_word {w : Int32} (h : s.word? a = some w) : read a s = .ok w s := by
  unfold read
  refine (Sequencing.bind_run (x := get) (s := s) rfl).trans ?_
  rw [h]
  rfl

theorem read_of_none (h : s.word? a = none) : read a s = .error (.outOfBounds a) s := by
  unfold read
  refine (Sequencing.bind_run (x := get) (s := s) rfl).trans ?_
  rw [h]
  rfl

theorem write_of_cell {i : Fin memSize} (h : cell? a = some i) (v : Int32) :
    write a v s = .ok () { s with memory := s.memory.set i v i.isLt } := by
  unfold write
  rw [h]
  rfl

theorem write_of_none (h : cell? a = none) (v : Int32) : write a v s = .error (.outOfBounds a) s := by
  unfold write
  rw [h]
  rfl

/-! ## The stack -/

theorem pop_of_word {w : Int32} (h : s.word? s.sp = some w) : pop s = .ok w { s with sp := s.sp + 1 } :=
  Sequencing.bind_run (read_of_word h)

theorem pop_of_none (h : s.word? s.sp = none) : pop s = .error (.outOfBounds s.sp) s := by
  show (read s.sp >>= fun v => modify (fun t => { t with sp := t.sp + 1 }) >>= fun _ => pure v :
    Act Int32).run s = _
  exact Sequencing.bind_run_error (read_of_none h)

theorem push_of_lt (h : s.sp - 1 < s.hp) (v : Int32) : push v s = .error (.stackOverflow s.sp s.hp) s := by
  show (if s.sp - 1 < s.hp then throw (.stackOverflow s.sp s.hp) else _ : Act Unit) s = _
  rw [if_pos h]
  rfl

/-- Above the heap, a push is a write below the stack. -/
theorem push_of_not_lt (h : ¬ s.sp - 1 < s.hp) (v : Int32) :
    push v s = write (s.sp - 1) v { s with sp := s.sp - 1 } := by
  show (if s.sp - 1 < s.hp then throw (.stackOverflow s.sp s.hp)
    else set { s with sp := s.sp - 1 } >>= fun _ => write (s.sp - 1) v : Act Unit) s = _
  rw [if_neg h]
  rfl

/-! ## Steps -/

theorem jumpTo_of_mem {size : Nat} (h : 0 ≤ a.toInt ∧ a.toInt.toNat < size) :
    jumpTo size a s = .ok () { s with ip := a.toInt.toNat } := by
  rw [jumpTo, if_pos h]
  rfl

/-- A jump on two words goes on behind its instruction where it is not taken. -/
theorem execute_branch {j : Jump} {target size here : Nat} {x y : Int32} {s' : State} (hj : j ≠ .always)
    (h : popOperands s = .ok (x, y) s') : Op.execute size here (.jump j target) s =
      .ok none { s' with ip := if j.taken x y then target else s'.ip } := by
  cases j with
  | always => exact absurd rfl hj
  | ifEqual | ifLessEqual =>
    refine (Sequencing.bind_run h).trans ?_
    dsimp only
    split
    · rfl
    · rfl

theorem step_of_none (h : code[s.ip]? = none) : step code s = .error .endOfCode s := by
  refine (Sequencing.bind_run (x := get) (s := s) rfl).trans ?_
  dsimp only
  rw [h]
  rfl

theorem step_eq (h : code[s.ip]? = some op) :
    step code s = op.execute code.size s.ip { s with ip := s.ip + 1 } := by
  refine (Sequencing.bind_run (x := get) (s := s) rfl).trans ?_
  dsimp only
  rw [h]
  rfl

/-! ## What actions lead to -/

/--
From states with one property an action leads to results and states with another; where it fails, it leaves a
state with a third.
-/
def Leads {α : Type} (P : State → Prop) (x : Act α) (Q : α → State → Prop) (E : State → Prop) : Prop :=
  ∀ s, P s → match x s with
    | .ok a s' => Q a s'
    | .error _ s' => E s'

namespace Leads

variable {α β : Type} {P P' E : State → Prop} {Q Q' : α → State → Prop} {R : β → State → Prop}
variable {x : Act α} {f : α → Act β}

theorem bind (h : Leads P x Q E) (hf : ∀ a, Leads (Q a) (f a) R E) : Leads P (x >>= f) R E := by
  intro s hs
  have hx := h s hs
  show match EStateM.bind x f s with
    | .ok a s' => R a s'
    | .error _ s' => E s'
  unfold EStateM.bind
  cases hxs : x s with
  | ok a s' =>
    rw [hxs] at hx
    exact hf a s' hx
  | error e s' =>
    rw [hxs] at hx
    exact hx

theorem pure (a : α) (h : ∀ s, P s → Q a s) : Leads P (Pure.pure a) Q E := h

theorem throw (e : Fault) (h : ∀ s, P s → E s) : Leads P (MonadExcept.throw e : Act α) Q E := h

theorem get : Leads P get (fun _ => P) E := fun _ h => h

theorem modify {g : State → State} {Q : State → Prop} (h : ∀ s, P s → Q (g s)) :
    Leads P (modify g) (fun _ => Q) E := h

theorem imp (h : Leads P x Q E) (hP : ∀ s, P' s → P s) (hQ : ∀ a s, Q a s → Q' a s) : Leads P' x Q' E := by
  intro s hs
  have hx := h s (hP s hs)
  split
  · rename_i a s' hxs
    rw [hxs] at hx
    exact hQ a s' hx
  · rename_i e s' hxs
    rw [hxs] at hx
    exact hx

end Leads

/-! ## Runs -/

theorem run_add (n m : Nat) (s : State) : run code (n + m) s =
    match run code n s with
    | (.unfinished, t) => run code m t
    | r => r := by
  induction n generalizing s with
  | zero => rw [Nat.zero_add, run]
  | succ n ih =>
    rw [Nat.succ_add, run, run]
    split
    · exact ih _
    · rfl
    · rfl

theorem run_add_of_unfinished {n : Nat} {t : State} (h : run code n s = (.unfinished, t)) (m : Nat) :
    run code (n + m) s = run code m t := by
  rw [run_add, h]

theorem run_succ_of_ok {n : Nat} {t : State} (h : step code s = .ok none t) : run code (n + 1) s = run code n t := by
  rw [run, h]

theorem run_succ_of_error {n : Nat} {f : Fault} {t : State} (h : step code s = .error f t) :
    run code (n + 1) s = (.faulted f, t) := by
  rw [run, h]

end FoolLang.Machine
