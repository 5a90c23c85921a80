/-
Code without backward jumps. From wherever it is started, the machine executes such code from lower addresses
to higher ones, so it comes to a call, a return, a halt or a fault within as many steps as the code is long.
-/
import FoolLang.Proofs.Machine.Acts

namespace FoolLang.Machine

variable {α β : Type} {code : Array Op} {s s' : State}

/-! ## The instruction pointer -/

/-- An action that leaves the instruction pointer alone and gives certain results, unless it fails. -/
def Stays (x : Act α) (Q : α → Prop) : Prop :=
  ∀ n, Leads (fun s => s.ip = n) x (fun a s => s.ip = n ∧ Q a) fun _ => True

namespace Stays

variable {x : Act α} {f : α → Act β} {Q : α → Prop} {R : β → Prop}

theorem bind (h : Stays x Q) (hf : ∀ a, Stays (f a) R) : Stays (x >>= f) R := fun n =>
  Leads.bind (h n) fun a => (hf a n).imp (fun _ hs => hs.1) fun _ _ hs => hs

theorem pure (a : α) (h : Q a) : Stays (pure a) Q := fun _ => Leads.pure a fun _ hs => ⟨hs, h⟩

theorem throw (e : Fault) : Stays (throw e : Act α) Q := fun _ => Leads.throw e fun _ _ => trivial

theorem get : Stays get fun _ => True := fun _ => Leads.get.imp (fun _ hs => hs) fun _ _ hs => ⟨hs, trivial⟩

theorem modify {g : State → State} (h : ∀ s, (g s).ip = s.ip) : Stays (modify g) fun _ => True := fun _ =>
  (Leads.modify fun s hs => (h s).trans hs).imp (fun _ hs => hs) fun _ _ hs => ⟨hs, trivial⟩

theorem read (a : Int32) : Stays (read a) fun _ => True := by
  refine .bind .get fun s => ?_
  split
  · exact .pure _ trivial
  · exact .throw _

theorem write (a v : Int32) : Stays (write a v) fun _ => True := by
  unfold Machine.write
  split
  · exact .modify fun _ => rfl
  · exact .throw _

theorem pop : Stays pop fun _ => True :=
  .bind .get fun s => .bind (.read s.sp) fun v => .bind (.modify fun _ => rfl) fun _ => .pure v trivial

theorem push (v : Int32) : Stays (push v) fun _ => True := by
  intro n s hs
  by_cases hlt : s.sp - 1 < s.hp
  · rw [push_of_lt hlt]
    trivial
  · rw [push_of_not_lt hlt]
    exact write (s.sp - 1) v n { s with sp := s.sp - 1 } hs

theorem popOperands : Stays popOperands fun _ => True :=
  .bind .pop fun _ => .bind .pop fun _ => .pure _ trivial

/-- An instruction that ends without a halt. -/
theorem goOn : Stays (Pure.pure none : Act (Option Result)) (· = none) := .pure none rfl

end Stays

/-- Every instruction but a jump, a call, a return and a halt goes on behind itself. -/
theorem Plain.execute_stays (size here : Nat) (p : Plain) (hjs : p ≠ .jumpSubroutine) (hhalt : p ≠ .halt) :
    Stays (p.execute size here) (· = none) := by
  cases p with
  | pop => exact .bind .pop fun _ => .goOn
  | arith a =>
    refine .bind .popOperands fun x => ?_
    obtain ⟨l, r⟩ := x
    dsimp only
    split
    · exact .throw _
    · exact .bind (.push _) fun _ => .goOn
  | storeWord => exact .bind .pop fun a => .bind .pop fun v => .bind (.write a v) fun _ => .goOn
  | loadWord => exact .bind .pop fun a => .bind (.read a) fun v => .bind (.push v) fun _ => .goOn
  | jumpSubroutine => exact absurd rfl hjs
  | load r => exact .bind .get fun s => .bind (.push _) fun _ => .goOn
  | store r =>
    refine .bind .pop fun v => .bind (.modify fun s => ?_) fun _ => .goOn
    cases r <;> rfl
  | copyFp => exact .bind (.modify fun _ => rfl) fun _ => .goOn
  | print => exact .bind .get fun s => .bind (.read s.sp) fun v => .bind (.modify fun _ => rfl) fun _ => .goOn
  | halt => exact absurd rfl hhalt

/-! ## Steps -/

/-- Every jump goes to a higher address. -/
def Onward (code : Array Op) : Prop := ∀ (a : Nat) (j : Jump) (t : Nat), code[a]? = some (.jump j t) → a < t

/-- The next instruction is a call or a return, or halts the machine, or fails. -/
def Breaks (code : Array Op) (s : State) : Prop :=
  code[s.ip]? = some (.plain .jumpSubroutine) ∨ code[s.ip]? = some (.plain .halt) ∨
    ∃ f s', step code s = .error f s'

/-- A jump goes on at its target or behind itself. -/
theorem Op.jump_leads (size here target : Nat) (j : Jump) (n : Nat) : Leads (fun s => s.ip = n)
    ((Op.jump j target).execute size here) (fun r s => (s.ip = n ∨ s.ip = target) ∧ r = none) fun _ => True := by
  have htaken : ∀ P : State → Prop, Leads P
      (modify (fun s => { s with ip := target }) >>= fun _ => pure none : Act (Option Result))
      (fun r s => (s.ip = n ∨ s.ip = target) ∧ r = none) fun _ => True :=
    fun P s _ => ⟨.inr rfl, rfl⟩
  cases j with
  | always => exact htaken _
  | ifEqual | ifLessEqual =>
    refine Leads.bind (Stays.popOperands n) fun x => ?_
    obtain ⟨l, r⟩ := x
    dsimp only
    split
    · exact htaken _
    · exact .pure _ fun s hs => ⟨.inl hs.1, rfl⟩

/-- What an instruction ends with in code without backward jumps: a break, or a step to a higher address. -/
theorem Onward.step (h : Onward code) (s : State) :
    Breaks code s ∨ ∃ s', step code s = .ok none s' ∧ s.ip < s'.ip ∧ s.ip < code.size := by
  cases hop : code[s.ip]? with
  | none => exact .inl (.inr (.inr ⟨_, _, step_of_none hop⟩))
  | some op =>
    have hsize : s.ip < code.size := (Array.getElem?_eq_some_iff.mp hop).1
    have hstep := step_eq hop
    suffices hlead : Breaks code s ∨ Leads (fun t => t.ip = s.ip + 1) (op.execute code.size s.ip)
        (fun r t => s.ip < t.ip ∧ r = none) fun _ => True by
      rcases hlead with hb | hlead
      · exact .inl hb
      · have hleft := hlead { s with ip := s.ip + 1 } rfl
        cases hx : op.execute code.size s.ip { s with ip := s.ip + 1 } with
        | error f s' => exact .inl (.inr (.inr ⟨f, s', hstep.trans hx⟩))
        | ok r s' =>
          rw [hx] at hleft
          obtain ⟨hip, rfl⟩ := hleft
          exact .inr ⟨s', hstep.trans hx, hip, hsize⟩
    have hnext : ∀ (r : Option Result) (t : State), t.ip = s.ip + 1 ∧ r = none → s.ip < t.ip ∧ r = none := by
      rintro r t ⟨ht, rfl⟩
      exact ⟨by omega, rfl⟩
    cases op with
    | plain p =>
      by_cases hjs : p = .jumpSubroutine
      · exact .inl (.inl (hop.trans (by rw [hjs])))
      · by_cases hhalt : p = .halt
        · exact .inl (.inr (.inl (hop.trans (by rw [hhalt]))))
        · exact .inr ((p.execute_stays _ _ hjs hhalt (s.ip + 1)).imp (fun _ hs => hs) hnext)
    | push n =>
      have hpush : Stays (Machine.push n >>= fun _ => pure none) (· = none) := .bind (.push n) fun _ => .goOn
      exact .inr ((hpush (s.ip + 1)).imp (fun _ hs => hs) hnext)
    | jump j target =>
      have htarget : s.ip < target := h _ _ _ hop
      refine .inr ((Op.jump_leads code.size s.ip target j (s.ip + 1)).imp (fun _ hs => hs) ?_)
      rintro r t ⟨ht, rfl⟩
      exact ⟨by omega, rfl⟩

/-- In code without backward jumps, a break comes within as many steps as the code is long. -/
theorem Onward.breaks (h : Onward code) : ∀ (n : Nat) (s : State), code.size - s.ip ≤ n →
    ∃ k ≤ n, ∃ s', run code k s = (.unfinished, s') ∧ Breaks code s' := by
  intro n
  induction n with
  | zero =>
    intro s hn
    rcases h.step s with hb | ⟨s', -, -, hlt⟩
    · exact ⟨0, Nat.le_refl 0, s, rfl, hb⟩
    · omega
  | succ n ih =>
    intro s hn
    rcases h.step s with hb | ⟨s', hs, hup, hlt⟩
    · exact ⟨0, Nat.zero_le _, s, rfl, hb⟩
    · obtain ⟨k, hk, t, hrun, hb⟩ := ih s' (by omega)
      exact ⟨k + 1, by omega, t, (run_succ_of_ok hs).trans hrun, hb⟩

end FoolLang.Machine
