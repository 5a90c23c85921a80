/-
Comparisons made wherever the machine may be, close to the heap too. The operands of `>=` change places through the
free cell at the end of the heap; where the stack stands at the heap pointer, that cell is the one on top of the stack,
and what is compared is the heap pointer in the place of the left operand.
-/
import FoolLang.Proofs.Code.Lowered
import FoolLang.Proofs.Machine.Snapshot
import FoolLang.Proofs.Simulation.Objects

namespace FoolLang

open Machine

variable {code : Array Op} {table : List (String × Nat)}

/-- Whether a comparison holds between two integers. -/
def BinaryOp.Holds (op : BinaryOp) (a b : Int) : Prop :=
  match op with
  | .equal => a = b
  | .lessEqual => a ≤ b
  | .greaterEqual => b ≤ a
  | _ => False

instance (op : BinaryOp) (a b : Int) : Decidable (op.Holds a b) :=
  match op with
  | .equal => inferInstanceAs (Decidable (a = b))
  | .lessEqual => inferInstanceAs (Decidable (a ≤ b))
  | .greaterEqual => inferInstanceAs (Decidable (b ≤ a))
  | .plus | .minus | .times | .div | .and | .or => inferInstanceAs (Decidable False)

theorem taken_ifEqual (v w : Int32) : Jump.ifEqual.taken v w = decide (v.toInt = w.toInt) := by
  rw [Bool.eq_iff_iff]
  simp [Jump.taken, Int32.toInt_inj]

theorem taken_ifLessEqual (v w : Int32) : Jump.ifLessEqual.taken v w = decide (v.toInt ≤ w.toInt) := by
  rw [Bool.eq_iff_iff]
  simp [Jump.taken, Int32.le_iff_toInt_le]

/-! ## Operands -/

namespace Machine.Snapshot

variable {m m' m'' : Snapshot}

/-- The two words on top have changed places, but for the lower one where the stack stands at the heap pointer. -/
structure Swapped (m m' : Snapshot) : Prop where
  ip : m'.ip = m.ip + 6
  sp : m'.sp = m.sp
  hp : m'.hp = m.hp
  top : m'.cells m.sp = if m.sp = m.hp then .ofNat m.hp else m.cells (m.sp + 1)
  next : m'.cells (m.sp + 1) = m.cells m.sp
  rest : ∀ j, j < m.hp ∨ m.sp + 2 ≤ j → m'.cells j = m.cells j
  registers : m'.fp = m.fp ∧ m'.ra = m.ra ∧ m'.output = m.output

theorem goes_swap (h : Stands code m.ip (Code.ops Code.swap)) (hgap : m.hp ≤ m.sp) (hsp : m.sp + 1 < memSize) :
    ∃ m', Goes code 6 m m' ∧ Swapped m m' := by
  obtain ⟨hstore, hload, hput, hload', hload'', hget, -⟩ := h
  have h₁ : Goes code 1 (m.put m.ip m.sp m.cells) _ := .storeTm hstore rfl (by omega)
  have h₂ := h₁.trans (.load hload hgap)
  have h₃ := h₂.trans (.storeWord (i := m.hp) hput (by simp [register]) (by simp; rfl) (by omega) hsp)
  have h₄ := h₃.trans (.load (p := m.sp + 1) hload' (show m.hp ≤ m.sp + 1 by omega))
  have h₅ := h₄.trans (.load hload'' hgap)
  have h₆ := h₅.trans (.loadWord (i := m.hp) hget (by simp [register]) rfl (by omega) (by omega) hgap)
  refine ⟨_, h₆, rfl, rfl, rfl, ?_, ?_, fun j hj => ?_, rfl, rfl, rfl⟩
  · by_cases hfull : m.sp = m.hp
    · -- The second load of the heap pointer has fallen on the word that was put aside.
      simp [put, hfull, register]
    · simp [put, Ne.symm hfull, hfull, show m.hp ≠ m.sp + 1 by omega]
  · simp [put, register]
  · have hne : j ≠ m.sp ∧ j ≠ m.sp + 1 ∧ j ≠ m.hp := by omega
    simp [put, hne]

/-! ## Truth values -/

/-- The two words on top have been replaced by a truth value. -/
structure Judged (b : Bool) (m m' : Snapshot) : Prop where
  sp : m'.sp = m.sp + 1
  hp : m'.hp = m.hp
  top : m'.cells m'.sp = wordOf b
  rest : ∀ j, j < m.hp ∨ m.sp + 2 ≤ j → m'.cells j = m.cells j
  registers : m'.fp = m.fp ∧ m'.ra = m.ra ∧ m'.output = m.output

/-- A swap does not change what a truth value replaces. -/
theorem Swapped.judged {b : Bool} (h : Swapped m m') (h' : Judged b m' m'') : Judged b m m'' := by
  obtain ⟨-, hsp, hhp, -, -, hrest, hfp, hra, hout⟩ := h
  obtain ⟨hsp', hhp', htop', hrest', hfp', hra', hout'⟩ := h'
  refine ⟨by omega, by omega, htop', fun j hj => ?_, hfp'.trans hfp, hra'.trans hra, hout'.trans hout⟩
  rw [hrest' j (by omega), hrest j hj]

/-- A jump on the two words on top chooses between two truth values. -/
theorem goes_select {f : Jump} {ok done : String} (h : Placed table code m.ip (.jump f ok :: Code.select ok done))
    (hf : f ≠ .always) (hgap : m.hp ≤ m.sp) (hsp : m.sp + 1 < memSize) :
    ∃ n ≤ 3, ∃ m', Goes code n m m' ∧ m'.ip = m.ip + 4 ∧ table.lookup done = some m'.ip ∧
      Judged (f.taken (m.cells (m.sp + 1)) (m.cells m.sp)) m m' := by
  obtain ⟨⟨t, ht, hjump⟩, hzero, ⟨u, hu, hskip⟩, hok, hone, hdone, -⟩ := h
  -- The labels stand in front of the last push and behind it.
  cases hok.symm.trans ht
  cases hdone.symm.trans hu
  have hrest : ∀ v j, j < m.hp ∨ m.sp + 2 ≤ j → Function.update m.cells (m.sp + 1) v j = m.cells j := fun v j hj =>
    Function.update_of_ne (by omega) _ _
  have hbranch : Goes code 1 (m.put m.ip m.sp m.cells) _ := .branch hjump hf rfl rfl hsp
  cases htaken : f.taken (m.cells (m.sp + 1)) (m.cells m.sp) with
  | true =>
    rw [htaken] at hbranch
    have h₂ := hbranch.trans (.push (p := m.sp + 1) hone (by omega))
    exact ⟨2, by decide, _, h₂, rfl, hdone, rfl, rfl, Function.update_self .., hrest 1, rfl, rfl, rfl⟩
  | false =>
    rw [htaken] at hbranch
    have h₂ := hbranch.trans (.push (p := m.sp + 1) hzero (by omega))
    have h₃ := h₂.trans (.jump hskip)
    exact ⟨3, by decide, _, h₃, rfl, hdone, rfl, rfl, Function.update_self .., hrest 0, rfl, rfl, rfl⟩

/-- The left operand that a comparison has: for `>=`, the heap pointer where the stack stands there. -/
def leftOf (op : BinaryOp) (m : Snapshot) : Int32 :=
  if op = .greaterEqual ∧ m.sp = m.hp then .ofNat m.hp else m.cells (m.sp + 1)

theorem goes_compare {op : BinaryOp} {ok done : String} (hop : op = .equal ∨ op = .lessEqual ∨ op = .greaterEqual)
    (h : Placed table code m.ip (Code.compare op ok ++ Code.select ok done)) (hgap : m.hp ≤ m.sp)
    (hsp : m.sp + 1 < memSize) :
    ∃ n ≤ 9, ∃ m', Goes code n m m' ∧ table.lookup done = some m'.ip ∧
      Judged (decide (op.Holds (leftOf op m).toInt (m.cells m.sp).toInt)) m m' := by
  rcases hop with rfl | rfl | rfl
  · obtain ⟨n, hn, m', hgoes, -, hdone, hjudged⟩ := goes_select h (by decide) hgap hsp
    rw [taken_ifEqual] at hjudged
    exact ⟨n, by omega, m', hgoes, hdone, hjudged⟩
  · obtain ⟨n, hn, m', hgoes, -, hdone, hjudged⟩ := goes_select h (by decide) hgap hsp
    rw [taken_ifLessEqual] at hjudged
    exact ⟨n, by omega, m', hgoes, hdone, hjudged⟩
  · have hcode : Code.compare .greaterEqual ok ++ Code.select ok done =
        Code.swap ++ (.jump .ifLessEqual ok :: Code.select ok done) := rfl
    rw [hcode, placed_append] at h
    obtain ⟨m₁, hswap, hswapped⟩ := goes_swap (h.1.stands _ _ rfl rfl) hgap hsp
    have hselect := h.2
    rw [show m.ip + width Code.swap = m₁.ip from hswapped.ip.symm] at hselect
    have hsp₁ := hswapped.sp
    have hhp₁ := hswapped.hp
    obtain ⟨n, hn, m', hgoes, -, hdone, hjudged⟩ := goes_select hselect (by decide) (by omega) (by omega)
    have hleft : leftOf .greaterEqual m = m₁.cells m.sp :=
      (if_congr (by simp) rfl rfl).trans hswapped.top.symm
    rw [taken_ifLessEqual, hsp₁, hswapped.next, ← hleft] at hjudged
    exact ⟨6 + n, by omega, m', hswap.trans hgoes, hdone, hswapped.judged hjudged⟩

end Machine.Snapshot

/-! ## Comparisons -/

/-- The two words on top of the stack have been replaced by a truth value. -/
structure Machine.Judged (b : Bool) (s t : State) : Prop where
  sp : t.sp = s.sp + 1
  hp : t.hp = s.hp
  top : t.word? t.sp = some (wordOf b)
  above : ∀ a : Int32, s.sp.toInt + 2 ≤ a.toInt → t.word? a = s.word? a
  below : ∀ a, a < s.hp → t.word? a = s.word? a
  registers : t.fp = s.fp ∧ t.ra = s.ra ∧ t.output = s.output

section

variable {s t : State} {v w : Int32}

/-- What a truth value replaces, told by words. -/
theorem Machine.Snapshot.Judged.shown {b : Bool} {m m' : Snapshot} (h : Snapshot.Judged b m m') (hs : m.Shown s)
    (ht : m'.Shown t) (hsp : m.sp + 1 < memSize) : Machine.Judged b s t := by
  have hm : memSize = 10000 := rfl
  have hspt := h.sp
  refine ⟨?_, ?_, ?_, fun a ha => ?_, fun a ha => ?_, ?_⟩
  · rw [ht.sp, hs.sp, hspt, Int32.ofNat_add]
    rfl
  · rw [ht.hp, hs.hp, h.hp]
  · rw [ht.sp, ht.word (by omega), h.top]
  · refine hs.word_eq ht fun hpos => h.rest _ (.inr ?_)
    rw [hs.sp, toInt_ofNat (by omega)] at ha
    omega
  · refine hs.word_eq ht fun hpos => h.rest _ (.inl ?_)
    have hle := hs.hp_le
    rw [hs.hp, Int32.lt_iff_toInt_lt, toInt_ofNat (by omega)] at ha
    omega
  · rw [ht.fp, ht.ra, ht.output, hs.fp, hs.ra, hs.output]
    exact h.registers

/--
From behind the values of its operands, a comparison comes to its end label with the truth value that it has, in every
state that the machine admits. With the stack at the heap pointer, `>=` compares that in the place of its left operand.
-/
theorem Code.compare_judges {op : BinaryOp} {ok done : String}
    (hop : op = .equal ∨ op = .lessEqual ∨ op = .greaterEqual)
    (hplaced : Placed table code s.ip (Code.compare op ok ++ Code.select ok done)) (hadmitted : s.Admitted)
    (hv : s.word? (s.sp + 1) = some v) (hw : s.word? s.sp = some w) :
    ∃ n ≤ 9, ∃ t, Machine.run code n s = (.unfinished, t) ∧ table.lookup done = some t.ip ∧
      Machine.Judged
        (decide (op.Holds (if op = .greaterEqual ∧ s.sp = s.hp then s.hp else v).toInt w.toInt)) s t := by
  obtain ⟨hhp, hgap, hsp⟩ := hadmitted.bounds
  have hshown := hadmitted.shown
  have hsp' : s.snapshot.sp = s.sp.toInt.toNat := rfl
  have hhp' : s.snapshot.hp = s.hp.toInt.toNat := rfl
  have hnext : (s.sp + 1).toInt = s.sp.toInt + 1 := toInt_add_one ⟨by omega, sp_lt_of_word hw⟩
  have hroom : s.snapshot.sp + 1 < memSize := by
    have hcell := (cell_of_word hv).2
    omega
  obtain ⟨n, hn, m', hgoes, hdone, hjudged⟩ := Snapshot.goes_compare (m := s.snapshot) hop hplaced (by omega) hroom
  obtain ⟨t, hrun, ht⟩ := hgoes s hshown
  have hright : s.snapshot.cells s.snapshot.sp = w := by
    rw [hshown.sp, hshown.word (by omega)] at hw
    exact Option.some.inj hw
  have hbelow : s.snapshot.cells (s.snapshot.sp + 1) = v := by
    rw [hshown.sp, show Int32.ofNat s.snapshot.sp + 1 = .ofNat (s.snapshot.sp + 1) from heap_next _,
      hshown.word hroom] at hv
    exact Option.some.inj hv
  have hfull : s.snapshot.sp = s.snapshot.hp ↔ s.sp = s.hp := by
    rw [← Int32.toInt_inj]
    omega
  have hleft : s.snapshot.leftOf op = if op = .greaterEqual ∧ s.sp = s.hp then s.hp else v :=
    if_congr (and_congr_right fun _ => hfull) hshown.hp.symm hbelow
  rw [hleft, hright] at hjudged
  exact ⟨n, hn, t, hrun, by rw [ht.ip]; exact hdone, hjudged.shown hshown ht hroom⟩

/--
The code of a comparison behind that of its operands comes to its end label with a truth value in the place of theirs,
in every state that the machine admits. It is the right one, unless the operator is `>=` and the stack stands at the
heap pointer: then the heap pointer is compared in the place of the left operand.
-/
theorem Expr.comparison_judges {op : BinaryOp} {x y : Expr} {l : Nat} {b b' : CodeBuffer} {is : List Instruction}
    (hop : op = .equal ∨ op = .lessEqual ∨ op = .greaterEqual)
    (h : (Expr.binary op x y l).lower b = .ok is b') :
    ∃ left right rest done b₁, is = left ++ right ++ (rest ++ [.label done]) ∧ x.lower b.drawTwo = .ok left b₁ ∧
      y.lower b₁ = .ok right b' ∧
      ∀ code table s v w, Placed table code s.ip (rest ++ [.label done]) → s.Admitted →
        s.word? (s.sp + 1) = some v → s.word? s.sp = some w →
          ∃ n ≤ 9, ∃ t, Machine.run code n s = (.unfinished, t) ∧ table.lookup done = some t.ip ∧
            Machine.Judged
              (decide (op.Holds (if op = .greaterEqual ∧ s.sp = s.hp then s.hp else v).toInt w.toInt)) s t := by
  have hcode : ∃ ok done left b₁ right, x.lower b.drawTwo = .ok left b₁ ∧ y.lower b₁ = .ok right b' ∧
      is = left ++ right ++ Code.compare op ok ++ Code.select ok done := by
    rcases hop with rfl | rfl | rfl <;>
    · simp only [Expr.lower, BinaryOp.arith?] at h
      obtain ⟨ok, b₁, hok, h⟩ := Lowering.bind_ok h
      cases hok
      obtain ⟨done, b₂, hdone, h⟩ := Lowering.bind_ok h
      cases hdone
      obtain ⟨left, b₃, hx, h⟩ := Lowering.bind_ok h
      obtain ⟨right, b₄, hy, h⟩ := Lowering.bind_ok h
      cases h
      exact ⟨_, _, left, b₃, right, hx, hy, rfl⟩
  obtain ⟨ok, done, left, b₁, right, hx, hy, rfl⟩ := hcode
  -- The end label is the last line of the code.
  obtain ⟨rest, hrest⟩ : ∃ rest, Code.compare op ok ++ Code.select ok done = rest ++ [.label done] :=
    ⟨Code.compare op ok ++ [.push 0, .jump .always done, .label ok, .push 1], by rw [List.append_assoc]; rfl⟩
  refine ⟨left, right, rest, done, b₁, ?_, hx, hy, fun code table s v w hplaced hadmitted hv hw => ?_⟩
  · rw [← hrest, ← List.append_assoc]
  · rw [← hrest] at hplaced
    exact Code.compare_judges hop hplaced hadmitted hv hw

end

/-! ## A comparison -/

/-- Whether -5 is at least 0. -/
def negativeTest : Expr := .binary .greaterEqual (.int (-5) 1) (.int 0 1) 1

/-- The code of the test behind that of its operands. -/
def negativeTestCode : List Instruction :=
  Code.compare .greaterEqual s!"label{0}" ++ [.push 0, .jump .always s!"label{1}", .label s!"label{0}", .push 1]

/-- The linked form of the test. -/
def negativeTestOps : Array Op := (BinaryOp.greaterEqual.tail 0).toArray

/-- The addresses of its labels. -/
def negativeTestLabels : List (String × Nat) := [(s!"label{0}", 9), (s!"label{1}", 10)]

theorem rightOperand_lt : 9998 < memSize := by decide

/-- Both operands are on the stack, which is empty otherwise, and the heap ends somewhere below. -/
def negativeTestState (hp : Int32) : State :=
  { State.initial with
    hp, sp := 9998, memory := (State.initial.memory.set 9999 (-5)).set 9998 0 rightOperand_lt }

theorem negativeTest_lower : negativeTest.lower .empty =
    .ok ([.push (-5)] ++ [.push 0] ++ (negativeTestCode ++ [.label s!"label{1}"])) ⟨2, 0, [], .empty⟩ := rfl

theorem negativeTestCode_placed :
    Placed negativeTestLabels negativeTestOps 0 (negativeTestCode ++ [.label s!"label{1}"]) := by
  have hok : negativeTestLabels.lookup s!"label{0}" = some 9 := by decide
  have hdone : negativeTestLabels.lookup s!"label{1}" = some 10 := by decide
  exact ⟨rfl, rfl, rfl, rfl, rfl, rfl, ⟨9, hok, rfl⟩, rfl, ⟨10, hdone, rfl⟩, hok, rfl, hdone, trivial⟩

theorem negativeTestState_operands (hp : Int32) : (negativeTestState hp).word? (9998 + 1) = some (-5) ∧
    (negativeTestState hp).word? 9998 = some 0 := by
  have hlen : (State.initial.memory.toList).length = 10000 := Vector.length_toList
  constructor
  · show (negativeTestState hp).word? (.ofNat 9999) = some (-5)
    rw [word?_ofNat _ (by decide), negativeTestState, Vector.toList_set, Vector.toList_set,
      List.getElem?_set_ne (by decide), List.getElem?_set_self]
    rw [hlen]
    decide
  · show (negativeTestState hp).word? (.ofNat 9998) = some 0
    rw [word?_ofNat _ (by decide), negativeTestState, Vector.toList_set, List.getElem?_set_self]
    rw [Vector.toList_set, List.length_set, hlen]
    decide

theorem negativeTestState_admitted {hp : Int32} (hpos : 0 ≤ hp) (hle : hp ≤ 9998) : (negativeTestState hp).Admitted :=
  ⟨hpos, hle, show (9998 : Int32) ≤ stackBase by decide⟩

/-- Far above the heap, the test fails as it should. -/
theorem Expr.comparison_judges_negative : ∃ n ≤ 9, ∃ t,
    Machine.run negativeTestOps n (negativeTestState 0) = (.unfinished, t) ∧
    negativeTestLabels.lookup s!"label{1}" = some t.ip ∧ Machine.Judged false (negativeTestState 0) t := by
  obtain ⟨left, right, rest, done, b₁, his, hleft, hright, hjudges⟩ :=
    Expr.comparison_judges (.inr (.inr rfl)) negativeTest_lower
  have hfive : (Expr.int (-5) 1).lower CodeBuffer.empty.drawTwo = .ok [.push (-5)] ⟨2, 0, [], .empty⟩ := rfl
  cases hfive.symm.trans hleft
  have hzero : (Expr.int 0 1).lower ⟨2, 0, [], .empty⟩ = .ok [.push 0] ⟨2, 0, [], .empty⟩ := rfl
  cases hzero.symm.trans hright
  obtain ⟨rfl, hdone⟩ := List.append_inj' (List.append_cancel_left his) rfl
  cases hdone
  have hwords := negativeTestState_operands 0
  exact hjudges negativeTestOps negativeTestLabels (negativeTestState 0) (-5) 0 negativeTestCode_placed
    (negativeTestState_admitted (by decide) (by decide)) hwords.1 hwords.2

/-- With the stack at the heap pointer, the test holds: neither does it fail as it should nor does a push overflow. -/
theorem negativeTest_holds :
    negativeTest.lower .empty =
      .ok ([.push (-5)] ++ [.push 0] ++ (negativeTestCode ++ [.label s!"label{1}"])) ⟨2, 0, [], .empty⟩ ∧
    Placed negativeTestLabels negativeTestOps (negativeTestState 9998).ip (negativeTestCode ++ [.label s!"label{1}"]) ∧
    (negativeTestState 9998).Admitted ∧
    (negativeTestState 9998).word? ((negativeTestState 9998).sp + 1) = some (-5) ∧
    (negativeTestState 9998).word? (negativeTestState 9998).sp = some 0 ∧
    ¬ ((∃ n, Overflows negativeTestOps n (negativeTestState 9998)) ∨
      ∃ n t, Machine.run negativeTestOps n (negativeTestState 9998) = (.unfinished, t) ∧
        negativeTestLabels.lookup s!"label{1}" = some t.ip ∧
        Machine.Judged (decide (BinaryOp.greaterEqual.Holds (-5) 0)) (negativeTestState 9998) t) := by
  obtain ⟨hleft, hright⟩ := negativeTestState_operands 9998
  have hadmitted : (negativeTestState 9998).Admitted := negativeTestState_admitted (by decide) (by decide)
  refine ⟨negativeTest_lower, negativeTestCode_placed, hadmitted, hleft, hright, ?_⟩
  have hcode : Placed negativeTestLabels negativeTestOps (negativeTestState 9998).ip
    (Code.compare .greaterEqual s!"label{0}" ++ Code.select s!"label{0}" s!"label{1}") := negativeTestCode_placed
  obtain ⟨n, -, t, hrun, hdone, hjudged⟩ := Code.compare_judges (.inr (.inr rfl)) hcode hadmitted hleft hright
  -- The end label stands at the end of the code.
  have hend : ∀ u : State, negativeTestLabels.lookup s!"label{1}" = some u.ip → negativeTestOps[u.ip]? = none := by
    intro u hu
    have hten : negativeTestLabels.lookup s!"label{1}" = some 10 := by decide
    rw [← Option.some.inj (hten.symm.trans hu)]
    rfl
  rintro (hover | ⟨k, u, hrun', hdone', hjudged'⟩)
  · exact not_overflows_of_end hrun (hend t hdone) hover
  · cases run_end_unique hrun (hend t hdone) hrun' (hend u hdone')
    have htop := hjudged.top.symm.trans hjudged'.top
    exact absurd htop (by decide)

end FoolLang
