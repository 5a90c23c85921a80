/-
The code that lowering gives: its labels are distinct and it refers to no others, so it links; and in
the linked code every part of the program stands where its layout says.
-/
import FoolLang.Proofs.Code.Linking
import FoolLang.Proofs.Static.Judgement

namespace FoolLang

open Machine

/-! ## Labels -/

theorem localLabel_inj {m n : Nat} (h : s!"label{m}" = s!"label{n}") : m = n := by
  have h : "label" ++ Nat.repr m = "label" ++ Nat.repr n := h
  have hdigits := congrArg (fun s : String => Nat.ofDigitChars 10 (s.toList.drop 5) 0) h
  simpa using hdigits

theorem routineLabel_inj {m n : Nat} (h : s!"function{m}" = s!"function{n}") : m = n := by
  have h : "function" ++ Nat.repr m = "function" ++ Nat.repr n := h
  have hdigits := congrArg (fun s : String => Nat.ofDigitChars 10 (s.toList.drop 8) 0) h
  simpa using hdigits

theorem localLabel_ne_routineLabel (m n : Nat) : s!"label{m}" ≠ s!"function{n}" := by
  intro h
  have h : "label" ++ Nat.repr m = "function" ++ Nat.repr n := h
  have hfirst := congrArg (fun s : String => s.toList.head?) h
  simp at hfirst

/-- Distinct labels that a lowering has drawn on its way from one state to another. -/
structure Draws (b b' : CodeBuffer) (ls : List String) : Prop where
  labelCount : b.labelCount ≤ b'.labelCount
  routineCount : b.routineCount ≤ b'.routineCount
  nodup : ls.Nodup
  drawn : ∀ l ∈ ls, (∃ k, b.labelCount ≤ k ∧ k < b'.labelCount ∧ l = s!"label{k}") ∨
    ∃ k, b.routineCount ≤ k ∧ k < b'.routineCount ∧ l = s!"function{k}"

namespace Draws

variable {b b₁ b₂ : CodeBuffer} {ls ms : List String}

theorem refl (b : CodeBuffer) : Draws b b [] := ⟨Nat.le_refl _, Nat.le_refl _, .nil, by simp⟩

theorem append (h : Draws b b₁ ls) (h' : Draws b₁ b₂ ms) : Draws b b₂ (ls ++ ms) := by
  refine ⟨Nat.le_trans h.labelCount h'.labelCount, Nat.le_trans h.routineCount h'.routineCount, ?_, fun l hl => ?_⟩
  · refine List.nodup_append.mpr ⟨h.nodup, h'.nodup, fun l hl m hm he => ?_⟩
    subst he
    rcases h.drawn l hl with ⟨i, -, hi, rfl⟩ | ⟨i, -, hi, rfl⟩
    · rcases h'.drawn _ hm with ⟨j, hj, -, he⟩ | ⟨j, -, -, he⟩
      · have := localLabel_inj he; omega
      · exact localLabel_ne_routineLabel _ _ he
    · rcases h'.drawn _ hm with ⟨j, -, -, he⟩ | ⟨j, hj, -, he⟩
      · exact localLabel_ne_routineLabel _ _ he.symm
      · have := routineLabel_inj he; omega
  · have hlabel := h'.labelCount
    have hroutine := h'.routineCount
    have hlabel₁ := h.labelCount
    have hroutine₁ := h.routineCount
    rcases List.mem_append.mp hl with hl | hl
    · rcases h.drawn l hl with ⟨k, hk, hk', rfl⟩ | ⟨k, hk, hk', rfl⟩
      · exact .inl ⟨k, hk, by omega, rfl⟩
      · exact .inr ⟨k, hk, by omega, rfl⟩
    · rcases h'.drawn l hl with ⟨k, hk, hk', rfl⟩ | ⟨k, hk, hk', rfl⟩
      · exact .inl ⟨k, by omega, hk', rfl⟩
      · exact .inr ⟨k, by omega, hk', rfl⟩

theorem perm (h : Draws b b₁ ls) (hp : ls.Perm ms) : Draws b b₁ ms :=
  ⟨h.labelCount, h.routineCount, hp.nodup_iff.mp h.nodup, fun l hl => h.drawn l (hp.mem_iff.mpr hl)⟩

theorem putCode (h : Draws b b₁ ls) (code : List Instruction) :
    Draws b { b₁ with routines := b₁.routines ++ code } ls :=
  ⟨h.labelCount, h.routineCount, h.nodup, h.drawn⟩

theorem label (b : CodeBuffer) :
    Draws b { b with labelCount := b.labelCount + 1 } [s!"label{b.labelCount}"] :=
  ⟨Nat.le_succ _, Nat.le_refl _, by simp, fun l hl =>
    .inl ⟨_, Nat.le_refl _, Nat.lt_succ_self _, List.mem_singleton.mp hl⟩⟩

theorem routine (b : CodeBuffer) :
    Draws b { b with routineCount := b.routineCount + 1 } [s!"function{b.routineCount}"] :=
  ⟨Nat.le_refl _, Nat.le_succ _, by simp, fun l hl =>
    .inr ⟨_, Nat.le_refl _, Nat.lt_succ_self _, List.mem_singleton.mp hl⟩⟩

end Draws

/-! ## Pieces of code -/

/-- Code from the label of an entry to a closing jump back, whose jumps all go forward in between. -/
def IsRoutine (entry : String) (is : List Instruction) : Prop :=
  ∃ body, is = .label entry :: (body ++ [.plain .jumpSubroutine]) ∧ Forward [] body

/-- The code put aside is that of routines, and the labels pushed there and in some other code are their entries. -/
def Segmented (is aside : List Instruction) : Prop :=
  ∃ rs : List (String × List Instruction), aside = rs.flatMap (·.2) ∧ (∀ r ∈ rs, IsRoutine r.1 r.2) ∧
    ∀ l ∈ pushed is ++ pushed aside, l ∈ rs.map (·.1)

theorem Segmented.append {is js aside aside' : List Instruction} (h : Segmented is aside)
    (h' : Segmented js aside') : Segmented (is ++ js) (aside ++ aside') := by
  obtain ⟨rs, rfl, hrs, hp⟩ := h
  obtain ⟨rs', rfl, hrs', hp'⟩ := h'
  refine ⟨rs ++ rs', List.flatMap_append.symm, List.forall_mem_append.mpr ⟨hrs, hrs'⟩, fun l hl => ?_⟩
  have h := hp l
  have h' := hp' l
  simp only [pushed_append, List.map_append, List.mem_append] at hl h h' ⊢
  grind

theorem Segmented.of_pushed {is js aside : List Instruction} (h : Segmented is aside)
    (hp : ∀ l ∈ pushed js, l ∈ pushed is) : Segmented js aside := by
  obtain ⟨rs, rfl, hrs, hentries⟩ := h
  refine ⟨rs, rfl, hrs, fun l hl => hentries l ?_⟩
  rw [List.mem_append] at hl ⊢
  exact hl.imp_left (hp l)

/-- Where no routine is put aside, no entry is pushed. -/
theorem Segmented.pushed_nil {is : List Instruction} (h : Segmented is []) : pushed is = [] := by
  obtain ⟨rs, hrs, hroutines, hp⟩ := h
  have hnone : rs = [] := by
    apply List.eq_nil_iff_forall_not_mem.mpr
    intro r hr
    obtain ⟨body, hbody, -⟩ := hroutines r hr
    rw [List.flatMap_eq_nil_iff.mp hrs.symm r hr] at hbody
    cases hbody
  subst hnone
  apply List.eq_nil_iff_forall_not_mem.mpr
  intro l hl
  exact List.not_mem_nil (hp l (List.mem_append_left _ hl))

/--
A lowering has gone on from one state to another: it has given some code of a known size and put that of
some routines aside; the labels in both are new and distinct, and all that both refer to; and jumps go forward.
-/
structure Lowers (b b' : CodeBuffer) (is aside : List Instruction) (size : Nat) : Prop where
  routines : b'.routines = b.routines ++ aside
  width : width is = size
  draws : Draws b b' (defined is ++ defined aside)
  closed : ∀ l ∈ wanted is ++ wanted aside, l ∈ defined is ++ defined aside
  forward : Forward [] is
  segmented : Segmented is aside

namespace Lowers

variable {b b₁ b₂ : CodeBuffer} {is js aside aside' : List Instruction} {m n : Nat} {ls : List String}

theorem flat (h : Flat is) : Lowers b b is [] is.length :=
  ⟨by simp, h.width, by rw [h.1]; exact .refl b, by rw [h.2]; simp [wanted], forward_of_wanted h.2,
    [], rfl, by simp, by
      have hpushed : pushed is = [] := List.sublist_nil.mp (h.2 ▸ pushed_sublist_wanted is)
      simp [hpushed, pushed]⟩

theorem append (h : Lowers b b₁ is aside m) (h' : Lowers b₁ b₂ js aside' n) :
    Lowers b b₂ (is ++ js) (aside ++ aside') (m + n) := by
  refine ⟨by rw [h'.routines, h.routines, List.append_assoc], by rw [width_append, h.width, h'.width],
    (h.draws.append h'.draws).perm ?_, fun l hl => ?_, ?_, h.segmented.append h'.segmented⟩
  · rw [List.perm_iff_count]
    intro l
    simp only [defined_append, List.count_append]
    omega
  · have hs := h.closed l
    have hs' := h'.closed l
    simp only [defined_append, wanted_append, List.mem_append] at hl hs hs' ⊢
    grind
  · rw [forward_append]
    exact ⟨h.forward.mono (by simp), h'.forward⟩

/-- Code around other code may use labels drawn before. -/
theorem around (hd : Draws b b₁ ls) (hr : b₁.routines = b.routines) (h : Lowers b₁ b₂ is aside m)
    (hp : (ls ++ defined is).Perm (defined js)) (hw : ∀ l ∈ wanted js, l ∈ ls ∨ l ∈ wanted is)
    (hn : Machine.width js = n) (hf : Forward [] js) (hs : ∀ l ∈ pushed js, l ∈ pushed is) :
    Lowers b b₂ js aside n := by
  refine ⟨by rw [h.routines, hr], hn, (hd.append h.draws).perm ?_, fun l hl => ?_, hf, h.segmented.of_pushed hs⟩
  · rw [← List.append_assoc]
    exact hp.append_right _
  · have hs := h.closed l
    have hmem := hp.mem_iff (a := l)
    have hl' := hw l
    simp only [List.mem_append] at hl hs hmem ⊢
    grind

end Lowers

/-- What goes wrong first goes wrong in the whole; otherwise the second part goes on from the first. -/
theorem Lowering.bind_ok {α β : Type} {x : Lowering α} {f : α → Lowering β} {b b' : CodeBuffer} {r : β}
    (h : (x >>= f) b = .ok r b') : ∃ a b₁, x b = .ok a b₁ ∧ f a b₁ = .ok r b' := by
  simp only [bind, EStateM.bind] at h
  split at h
  · rename_i a b₁ hx; exact ⟨a, b₁, hx, h⟩
  · cases h

/-! ## Expressions -/

/-- The code of an expression stands wherever the code that lowering gives for it is placed. -/
def Expr.Lowers (e : Expr) (b b' : CodeBuffer) (is : List Instruction) : Prop :=
  FoolLang.Lowers b b' is [] e.size ∧ ∀ table ops a, Placed table ops a is → e.Laid ops a

/-- The state with two labels for jumps drawn. -/
def CodeBuffer.drawTwo (b : CodeBuffer) : CodeBuffer := { b with labelCount := b.labelCount + 2 }

theorem Draws.two (b : CodeBuffer) :
    Draws b b.drawTwo [s!"label{b.labelCount}", s!"label{b.labelCount + 1}"] :=
  (Draws.label b).append (Draws.label { b with labelCount := b.labelCount + 1 })

section

variable {b b₁ b₂ b₃ : CodeBuffer} {l : Nat}

/-- The code of an operator that may leave its right operand out. -/
theorem Expr.lowers_short {x y : Expr} {left right : List Instruction} (hx : x.Lowers b.drawTwo b₁ left)
    (hy : y.Lowers b₁ b₂ right) (m n : Int32) : let code := left ++
      [.push m, .jump .ifEqual s!"label{b.labelCount}"] ++ right ++
        [.push m, .jump .ifEqual s!"label{b.labelCount}", .push n,
          .jump .always s!"label{b.labelCount + 1}", .label s!"label{b.labelCount}", .push m,
          .label s!"label{b.labelCount + 1}"]
    FoolLang.Lowers b b₂ code [] (x.size + 2 + y.size + 5) ∧ ∀ table ops a, Placed table ops a code →
      x.Laid ops a ∧ Stands ops (a + x.size) [.push m, .jump .ifEqual (a + x.size + 2 + y.size + 4)] ∧
      y.Laid ops (a + x.size + 2) ∧ Stands ops (a + x.size + 2 + y.size)
        [.push m, .jump .ifEqual (a + x.size + 2 + y.size + 4), .push n,
          .jump .always (a + x.size + 2 + y.size + 5), .push m] := by
  intro code
  obtain ⟨hx, hlaid⟩ := hx
  obtain ⟨hy, hlaid'⟩ := hy
  refine ⟨.around (.two b) rfl (hx.append hy) ?_ ?_ ?_ ?_ ?_, fun table ops a h => ?_⟩
  · rw [List.perm_iff_count]
    intro l
    simp [code, defined, List.count_append, List.count_cons]
    omega
  · simp [code, wanted]
    grind
  · simp [code, width, hx.width, hy.width]
    omega
  · simp only [code, forward_append, Forward, defined, List.mem_append, List.mem_cons, true_or, or_true, and_true]
    exact ⟨hx.forward.mono (by simp), hy.forward.mono (by simp)⟩
  · simp [code, pushed]
  · simp only [code, placed_append, Placed, width_append, width, hx.width, hy.width, Nat.zero_add,
      Nat.reduceAdd, ← Nat.add_assoc] at h
    obtain ⟨⟨⟨hleft, hm, ⟨t, ht, hjump⟩, -⟩, hright⟩, hm', ⟨t', ht', hjump'⟩, hn, ⟨u, hu, hdone⟩, hs, hm'', hd, -⟩ := h
    rw [hs, Option.some.injEq] at ht ht'
    rw [hd, Option.some.injEq] at hu
    subst ht ht' hu
    exact ⟨hlaid _ _ _ hleft, ⟨hm, hjump, trivial⟩, hlaid' _ _ _ hright, hm', hjump', hn, hdone, hm'', trivial⟩

theorem Expr.lowers_compare {x y : Expr} {left right : List Instruction} (hx : x.Lowers b.drawTwo b₁ left)
    (hy : y.Lowers b₁ b₂ right) {op : BinaryOp} (hop : op = .equal ∨ op = .lessEqual ∨ op = .greaterEqual) :
    (Expr.binary op x y l).Lowers b b₂ (left ++ right ++ Code.compare op s!"label{b.labelCount}" ++
      Code.select s!"label{b.labelCount}" s!"label{b.labelCount + 1}") := by
  obtain ⟨hx, hlaid⟩ := hx
  obtain ⟨hy, hlaid'⟩ := hy
  refine ⟨.around (.two b) rfl (hx.append hy) ?_ ?_ ?_ ?_ ?_, fun table ops a h => ?_⟩
  · rw [List.perm_iff_count]
    intro l
    rcases hop with rfl | rfl | rfl <;>
      simp [Code.compare, Code.select, Code.swap, Code.load, Code.store, defined, List.count_append,
        List.count_cons] <;> omega
  · rcases hop with rfl | rfl | rfl <;>
      simp [Code.compare, Code.select, Code.swap, Code.load, Code.store, wanted] <;> grind
  · rcases hop with rfl | rfl | rfl <;>
      simp [Code.compare, Code.select, Code.swap, Code.load, Code.store, width, hx.width, hy.width,
        Expr.size, BinaryOp.tail] <;> omega
  · have hcode : Forward [] (left ++ right) := (forward_append _ _).mpr ⟨hx.forward.mono (by simp), hy.forward⟩
    rw [List.append_assoc _ (Code.compare _ _), forward_append]
    refine ⟨hcode.mono (by simp), ?_⟩
    rcases hop with rfl | rfl | rfl <;>
      simp [Code.compare, Code.select, Code.swap, Code.load, Code.store, Forward, defined]
  · rcases hop with rfl | rfl | rfl <;>
      simp [Code.compare, Code.select, Code.swap, Code.load, Code.store, pushed]
  · rcases hop with rfl | rfl | rfl <;>
      simp only [Code.compare, Code.select, Code.swap, Code.load, Code.store, List.cons_append, List.nil_append,
        placed_append, Placed, width_append, width, hx.width, hy.width, Nat.zero_add, Nat.reduceAdd,
        ← Nat.add_assoc] at h
    · obtain ⟨⟨⟨hleft, hright⟩, ⟨t, ht, hjump⟩, -⟩, h0, ⟨u, hu, hdone⟩, hs, h1, hd, -⟩ := h
      rw [hs, Option.some.injEq] at ht
      rw [hd, Option.some.injEq] at hu
      subst ht hu
      exact ⟨hlaid _ _ _ hleft, hlaid' _ _ _ hright, hjump, h0, hdone, h1, trivial⟩
    · obtain ⟨⟨⟨hleft, hright⟩, ⟨t, ht, hjump⟩, -⟩, h0, ⟨u, hu, hdone⟩, hs, h1, hd, -⟩ := h
      rw [hs, Option.some.injEq] at ht
      rw [hd, Option.some.injEq] at hu
      subst ht hu
      exact ⟨hlaid _ _ _ hleft, hlaid' _ _ _ hright, hjump, h0, hdone, h1, trivial⟩
    · obtain ⟨⟨⟨hleft, hright⟩, w₀, w₁, w₂, w₃, w₄, w₅, ⟨t, ht, hjump⟩, -⟩, h0, ⟨u, hu, hdone⟩, hs, h1, hd, -⟩ := h
      rw [hs, Option.some.injEq] at ht
      rw [hd, Option.some.injEq] at hu
      subst ht hu
      exact ⟨hlaid _ _ _ hleft, hlaid' _ _ _ hright, w₀, w₁, w₂, w₃, w₄, w₅, hjump, h0, hdone, h1, trivial⟩

theorem Expr.lowers_cond {c x y : Expr} {condition thenCode elseCode : List Instruction}
    (hc : c.Lowers b.drawTwo b₁ condition) (hy : y.Lowers b₁ b₂ elseCode) (hx : x.Lowers b₂ b₃ thenCode) :
    (Expr.cond c x y l).Lowers b b₃ (condition ++ [.push 1, .jump .ifEqual s!"label{b.labelCount}"] ++
      elseCode ++ [.jump .always s!"label{b.labelCount + 1}", .label s!"label{b.labelCount}"] ++ thenCode ++
        [.label s!"label{b.labelCount + 1}"]) := by
  obtain ⟨hc, hlaid⟩ := hc
  obtain ⟨hy, hlaid₁⟩ := hy
  obtain ⟨hx, hlaid₂⟩ := hx
  refine ⟨.around (.two b) rfl ((hc.append hy).append hx) ?_ ?_ ?_ ?_ ?_, fun table ops a h => ?_⟩
  · rw [List.perm_iff_count]
    intro l
    simp [defined, List.count_append, List.count_cons]
    omega
  · simp [wanted]
    grind
  · simp [width, hc.width, hx.width, hy.width, Expr.size]
    omega
  · simp only [forward_append, Forward, defined, List.mem_append, List.mem_cons, true_or, or_true, and_true]
    exact ⟨⟨hc.forward.mono (by simp), hy.forward.mono (by simp)⟩, hx.forward.mono (by simp)⟩
  · simp [pushed]
  · simp only [placed_append, Placed, width_append, width, hc.width, hx.width, hy.width, Nat.zero_add,
      Nat.reduceAdd, ← Nat.add_assoc] at h
    obtain ⟨⟨⟨⟨⟨hcond, h1, ⟨t, ht, hjump⟩, -⟩, helse⟩, ⟨u, hu, hdone⟩, hs, -⟩, hthen⟩, hd, -⟩ := h
    rw [hs, Option.some.injEq] at ht
    rw [hd, Option.some.injEq] at hu
    subst ht hu
    exact ⟨hlaid _ _ _ hcond, ⟨h1, hjump, trivial⟩, hlaid₁ _ _ _ helse, ⟨hdone, trivial⟩, hlaid₂ _ _ _ hthen⟩

theorem Expr.lowers_arith {x y : Expr} {left right : List Instruction} (hx : x.Lowers b b₁ left)
    (hy : y.Lowers b₁ b₂ right) {op : BinaryOp} {i : Arith} (hop : op.arith? = some i) :
    (Expr.binary op x y l).Lowers b b₂ (left ++ right ++ [.plain (.arith i)]) := by
  obtain ⟨hx, hlaid⟩ := hx
  obtain ⟨hy, hlaid'⟩ := hy
  have hlast : FoolLang.Lowers b₂ b₂ [.plain (.arith i)] [] 1 := .flat ⟨rfl, rfl⟩
  cases op <;> cases hop <;> refine ⟨(hx.append hy).append hlast, fun table ops a h => ?_⟩ <;>
  · simp only [placed_append, Placed, width_append, hx.width, hy.width, ← Nat.add_assoc] at h
    exact ⟨hlaid _ _ _ h.1.1, hlaid' _ _ _ h.1.2, h.2.1, trivial⟩

/-- Flat code stands as it is. -/
theorem Lowers.flatLaid (b : CodeBuffer) (is : List Instruction) (h : Flat is) : FoolLang.Lowers b b is [] is.length ∧
    ∀ table ops a, Placed table ops a is → Stands ops a (Code.ops is) :=
  ⟨.flat h, fun _ _ a hp => Placed.stands is a h.1 h.2 hp⟩

theorem Expr.lowers_not {e : Expr} {code : List Instruction} (he : e.Lowers b b₁ code) :
    (Expr.not e l).Lowers b b₁ ([.push 1] ++ code ++ [.plain (.arith .sub)]) := by
  obtain ⟨he, hlaid⟩ := he
  obtain ⟨hone, hone'⟩ := Lowers.flatLaid b [.push 1] ⟨rfl, rfl⟩
  obtain ⟨hsub, hsub'⟩ := Lowers.flatLaid b₁ [.plain (.arith .sub)] ⟨rfl, rfl⟩
  refine ⟨(hone.append he).append hsub, fun table ops a h => ?_⟩
  simp only [placed_append, width_append, he.width, hone.width, ← Nat.add_assoc] at h
  obtain ⟨⟨h₁, h₂⟩, h₃⟩ := h
  exact ⟨hone' _ _ _ h₁, hlaid _ _ _ h₂, hsub' _ _ _ h₃⟩

theorem Expr.lowers_print {e : Expr} {code : List Instruction} (he : e.Lowers b b₁ code) :
    (Expr.print e l).Lowers b b₁ (code ++ [.plain .print]) := by
  obtain ⟨he, hlaid⟩ := he
  obtain ⟨hprint, hprint'⟩ := Lowers.flatLaid b₁ [.plain .print] ⟨rfl, rfl⟩
  refine ⟨he.append hprint, fun table ops a h => ?_⟩
  rw [placed_append, he.width] at h
  exact ⟨hlaid _ _ _ h.1, hprint' _ _ _ h.2⟩

/-- The code of fields, and that of an object around them. -/
theorem Expr.lowers_new {c : String} {es : List Expr} {code : List Instruction} {r : Resolution}
    (hes : FoolLang.Lowers b b₁ code [] (Expr.sizeAll es))
    (hlaid : ∀ table ops a, Placed table ops a code → Expr.LaidAll ops a es) :
    (Expr.new c es (some r) l).Lowers b b₁ (code ++ Code.object es.length r.entry.offset) := by
  obtain ⟨hobject, hobject'⟩ := Lowers.flatLaid b₁ _ (Code.flat_object es.length r.entry.offset)
  refine ⟨hes.append hobject, fun table ops a h => ?_⟩
  rw [placed_append, hes.width] at h
  exact ⟨hlaid _ _ _ h.1, hobject' _ _ _ h.2⟩

section

variable {name : String} {es : List Expr} {code : List Instruction}
  (hes : FoolLang.Lowers b b₁ code [] (Expr.sizeAll es))
  (hlaid : ∀ table ops a, Placed table ops a code → Expr.LaidReversed ops a es)

include hes hlaid

theorem Expr.lowers_call (r : Resolution) :
    (Expr.call name es (some r) l).Lowers b b₁ ([Code.load .fp] ++ code ++ Code.callOf r) := by
  obtain ⟨hfp, hfp'⟩ := Lowers.flatLaid b [Code.load .fp] ⟨rfl, rfl⟩
  obtain ⟨hcall, hcall'⟩ := Lowers.flatLaid b₁ _ (Code.flat_callOf r)
  refine ⟨(hfp.append hes).append hcall, fun table ops a h => ?_⟩
  simp only [placed_append, width_append, hes.width, hfp.width, ← Nat.add_assoc] at h
  obtain ⟨⟨h₁, h₂⟩, h₃⟩ := h
  exact ⟨hfp' _ _ _ h₁, hlaid _ _ _ h₂, hcall' _ _ _ h₃⟩

theorem Expr.lowers_methodCall {e : Expr} {object : List Instruction} (he : e.Lowers b₁ b₂ object) (m : Binding) :
    (Expr.methodCall e name es (some m) l).Lowers b b₂
      ([Code.load .fp] ++ code ++ object ++ Code.sendTo m.offset) := by
  obtain ⟨he, hlaid'⟩ := he
  obtain ⟨hfp, hfp'⟩ := Lowers.flatLaid b [Code.load .fp] ⟨rfl, rfl⟩
  obtain ⟨hsend, hsend'⟩ := Lowers.flatLaid b₂ (Code.sendTo m.offset) ⟨rfl, rfl⟩
  refine ⟨((hfp.append hes).append he).append hsend, fun table ops a h => ?_⟩
  simp only [placed_append, width_append, hes.width, hfp.width, he.width, ← Nat.add_assoc] at h
  obtain ⟨⟨⟨h₁, h₂⟩, h₃⟩, h₄⟩ := h
  exact ⟨hfp' _ _ _ h₁, hlaid _ _ _ h₂, hlaid' _ _ _ h₃, hsend' _ _ _ h₄⟩

end

end

theorem Lowering.decoration_ok {α : Type} {node : String} {line : Nat} {x : Option α} {a : α}
    {b b' : CodeBuffer} (h : decoration node line x b = .ok a b') : x = some a ∧ b' = b := by
  cases x with
  | none => cases h
  | some c => cases h; exact ⟨rfl, rfl⟩

mutual

theorem Expr.lower_lowers : ∀ (e : Expr) {b b' : CodeBuffer} {is : List Instruction},
    e.lower b = .ok is b' → e.Lowers b b' is
  | .int v l, b, b', is, h => by
    rw [Expr.lower] at h; cases h; exact Lowers.flatLaid _ _ ⟨rfl, rfl⟩
  | .bool v l, b, b', is, h => by
    rw [Expr.lower] at h; cases h; exact Lowers.flatLaid _ _ ⟨rfl, rfl⟩
  | .null l, b, b', is, h => by
    rw [Expr.lower] at h; cases h; exact Lowers.flatLaid _ _ ⟨rfl, rfl⟩
  | .binary op x y l, b, b', is, h => by
    cases op with
    | and | or =>
      rw [Expr.lower] at h
      obtain ⟨short, b₁, hs, h⟩ := Lowering.bind_ok h
      cases hs
      obtain ⟨done, b₂, hd, h⟩ := Lowering.bind_ok h
      cases hd
      obtain ⟨left, b₃, hx, h⟩ := Lowering.bind_ok h
      obtain ⟨right, b₄, hy, h⟩ := Lowering.bind_ok h
      cases h
      exact lowers_short (b := b) (lower_lowers x hx) (lower_lowers y hy) _ _
    | plus | minus | times | div =>
      simp only [Expr.lower, BinaryOp.arith?] at h
      obtain ⟨left, b₁, hx, h⟩ := Lowering.bind_ok h
      obtain ⟨right, b₂, hy, h⟩ := Lowering.bind_ok h
      cases h
      exact lowers_arith (lower_lowers x hx) (lower_lowers y hy) rfl
    | equal | lessEqual | greaterEqual =>
      simp only [Expr.lower, BinaryOp.arith?] at h
      obtain ⟨ok, b₁, hs, h⟩ := Lowering.bind_ok h
      cases hs
      obtain ⟨done, b₂, hd, h⟩ := Lowering.bind_ok h
      cases hd
      obtain ⟨left, b₃, hx, h⟩ := Lowering.bind_ok h
      obtain ⟨right, b₄, hy, h⟩ := Lowering.bind_ok h
      cases h
      exact lowers_compare (b := b) (lower_lowers x hx) (lower_lowers y hy) (by decide)
  | .not e l, b, b', is, h => by
    rw [Expr.lower] at h
    obtain ⟨code, b₁, he, h⟩ := Lowering.bind_ok h
    cases h
    exact lowers_not (lower_lowers e he)
  | .cond c x y l, b, b', is, h => by
    rw [Expr.lower] at h
    obtain ⟨thenLabel, b₁, ht, h⟩ := Lowering.bind_ok h
    cases ht
    obtain ⟨done, b₂, hd, h⟩ := Lowering.bind_ok h
    cases hd
    obtain ⟨condition, b₃, hc, h⟩ := Lowering.bind_ok h
    obtain ⟨elseCode, b₄, hy, h⟩ := Lowering.bind_ok h
    obtain ⟨thenCode, b₅, hx, h⟩ := Lowering.bind_ok h
    cases h
    exact lowers_cond (b := b) (lower_lowers c hc) (lower_lowers y hy) (lower_lowers x hx)
  | .print e l, b, b', is, h => by
    rw [Expr.lower] at h
    obtain ⟨code, b₁, he, h⟩ := Lowering.bind_ok h
    cases h
    exact lowers_print (lower_lowers e he)
  | .id name r l, b, b', is, h => by
    rw [Expr.lower] at h
    obtain ⟨r', b₁, hr, h⟩ := Lowering.bind_ok h
    obtain ⟨rfl, rfl⟩ := Lowering.decoration_ok hr
    cases h
    exact Lowers.flatLaid _ _ (Code.flat_slotOf r')
  | .call name args r l, b, b', is, h => by
    rw [Expr.lower] at h
    obtain ⟨r', b₁, hr, hrest⟩ := Lowering.bind_ok h
    obtain ⟨rfl, rfl⟩ := Lowering.decoration_ok hr
    obtain ⟨code, b₂, hargs, h⟩ := Lowering.bind_ok hrest
    cases h
    obtain ⟨hargs, hlaid⟩ := lowerReversed_lowers args hargs
    have hcode : [Code.load .fp] ++ code ++ Code.frameOf r' ++ Code.duplicate ++
        (if r'.entry.isMethod then [.plain .loadWord] else []) ++ Code.callSlot r'.entry.offset =
          [Code.load .fp] ++ code ++ Code.callOf r' := by
      simp only [Code.callOf, List.append_assoc]
    rw [hcode]
    exact lowers_call hargs hlaid r'
  | .new c args r l, b, b', is, h => by
    rw [Expr.lower] at h
    obtain ⟨r', b₁, hr, hrest⟩ := Lowering.bind_ok h
    obtain ⟨rfl, rfl⟩ := Lowering.decoration_ok hr
    obtain ⟨code, b₂, hargs, h⟩ := Lowering.bind_ok hrest
    cases h
    obtain ⟨hargs, hlaid⟩ := lowerAll_lowers args hargs
    exact lowers_new hargs hlaid
  | .methodCall receiver method args e l, b, b', is, h => by
    rw [Expr.lower] at h
    obtain ⟨e', b₁, hr, hrest⟩ := Lowering.bind_ok h
    obtain ⟨rfl, rfl⟩ := Lowering.decoration_ok hr
    obtain ⟨code, b₂, hargs, h⟩ := Lowering.bind_ok hrest
    obtain ⟨object, b₃, hreceiver, h⟩ := Lowering.bind_ok h
    cases h
    obtain ⟨hargs, hlaid⟩ := lowerReversed_lowers args hargs
    have hcode : [Code.load .fp] ++ code ++ object ++ Code.duplicate ++ [.plain .loadWord] ++
        Code.callSlot e'.offset = [Code.load .fp] ++ code ++ object ++ Code.sendTo e'.offset := by
      simp only [Code.sendTo, List.append_assoc]
    rw [hcode]
    exact lowers_methodCall hargs hlaid (lower_lowers receiver hreceiver) e'

theorem Expr.lowerAll_lowers : ∀ (es : List Expr) {b b' : CodeBuffer} {is : List Instruction},
    Expr.lowerAll es b = .ok is b' → FoolLang.Lowers b b' is [] (Expr.sizeAll es) ∧
      ∀ table ops a, Placed table ops a is → Expr.LaidAll ops a es
  | [], b, b', is, h => by
    rw [Expr.lowerAll] at h; cases h; exact ⟨.flat ⟨rfl, rfl⟩, fun _ _ _ _ => trivial⟩
  | e :: es, b, b', is, h => by
    rw [Expr.lowerAll] at h
    obtain ⟨code, b₁, he, h⟩ := Lowering.bind_ok h
    obtain ⟨more, b₂, hes, h⟩ := Lowering.bind_ok h
    cases h
    obtain ⟨he, hlaid⟩ := lower_lowers e he
    obtain ⟨hes, hlaid'⟩ := lowerAll_lowers es hes
    refine ⟨he.append hes, fun table ops a h => ?_⟩
    rw [placed_append, he.width] at h
    exact ⟨hlaid _ _ _ h.1, hlaid' _ _ _ h.2⟩

theorem Expr.lowerReversed_lowers : ∀ (es : List Expr) {b b' : CodeBuffer} {is : List Instruction},
    Expr.lowerReversed es b = .ok is b' → FoolLang.Lowers b b' is [] (Expr.sizeAll es) ∧
      ∀ table ops a, Placed table ops a is → Expr.LaidReversed ops a es
  | [], b, b', is, h => by
    rw [Expr.lowerReversed] at h; cases h; exact ⟨.flat ⟨rfl, rfl⟩, fun _ _ _ _ => trivial⟩
  | e :: es, b, b', is, h => by
    rw [Expr.lowerReversed] at h
    obtain ⟨more, b₁, hes, h⟩ := Lowering.bind_ok h
    obtain ⟨code, b₂, he, h⟩ := Lowering.bind_ok h
    cases h
    obtain ⟨he, hlaid⟩ := lower_lowers e he
    obtain ⟨hes, hlaid'⟩ := lowerReversed_lowers es hes
    refine ⟨?_, fun table ops a h => ?_⟩
    · rw [Expr.sizeAll, Nat.add_comm]
      exact hes.append he
    · rw [placed_append, hes.width] at h
      exact ⟨hlaid' _ _ _ h.1, hlaid _ _ _ h.2⟩

end

/-! ## Routines -/

/-- How many instructions some routines have. -/
def Routine.sizeAll (rs : List Routine) : Nat := (rs.map Routine.size).sum

theorem Routine.place_append (rs rs' : List Routine) : ∀ a,
    Routine.place a (rs ++ rs') = Routine.place a rs ++ Routine.place (a + Routine.sizeAll rs) rs' := by
  induction rs with
  | nil => exact fun _ => rfl
  | cons r rs ih => intro a; simp [Routine.place, ih, Routine.sizeAll, Nat.add_assoc]

@[simp] theorem Routine.sizeAll_append (rs rs' : List Routine) :
    Routine.sizeAll (rs ++ rs') = Routine.sizeAll rs + Routine.sizeAll rs' := by
  simp [Routine.sizeAll]

theorem Routine.place_le (rs : List Routine) : ∀ a, ∀ x ∈ Routine.place a rs,
    x.1 + x.2.size ≤ a + Routine.sizeAll rs := by
  induction rs with
  | nil => exact fun _ _ hx => (List.not_mem_nil hx).elim
  | cons r rs ih =>
    intro a x hx
    simp only [Routine.sizeAll, List.map_cons, List.sum_cons]
    rcases List.mem_cons.mp hx with rfl | hx
    · exact Nat.add_le_add_left (Nat.le_add_right _ _) _
    · have := ih _ x hx
      rw [Routine.sizeAll] at this
      omega

theorem Code.routine_eq (label : String) (params : Nat) (locals : List Instruction) (n : Nat)
    (body : List Instruction) : Code.routine label params locals n body =
      [.label label, .plain .copyFp, load .ra] ++ (locals ++ body) ++ Code.epilogue params n := by
  simp [Code.routine, Code.epilogue]

theorem Code.defined_routine (label : String) (params : Nat) (locals : List Instruction) (n : Nat)
    (body : List Instruction) :
    defined (Code.routine label params locals n body) = label :: (defined locals ++ defined body) := by
  rw [routine_eq]
  simp [defined, load, (flat_epilogue params n).1]

theorem Code.wanted_routine (label : String) (params : Nat) (locals : List Instruction) (n : Nat)
    (body : List Instruction) :
    wanted (Code.routine label params locals n body) = wanted locals ++ wanted body := by
  rw [routine_eq]
  simp [wanted, load, (flat_epilogue params n).2]

theorem Code.isRoutine {label : String} {locals body : List Instruction} (params n : Nat)
    (hl : Forward [] locals) (hb : Forward [] body) : IsRoutine label (Code.routine label params locals n body) := by
  refine ⟨[.plain .copyFp, load .ra] ++ (locals ++ body) ++ ([store .tm] ++ List.replicate n (.plain .pop) ++
    [store .ra, .plain .pop] ++ List.replicate params (.plain .pop) ++ [store .fp, load .tm, load .ra]), ?_, ?_⟩
  · simp [routine_eq, epilogue]
  · have hpops : ∀ n, Forward [] (List.replicate n (.plain .pop)) := fun n =>
      forward_of_wanted (Flat.replicate n .pop).2
    simp only [forward_append, Forward, load, store, and_true, true_and]
    exact ⟨⟨hl.mono (by simp), hb.mono (by simp)⟩, (hpops n).mono (by simp), (hpops params).mono (by simp)⟩

theorem Code.pushed_routine (label : String) (params : Nat) (locals : List Instruction) (n : Nat)
    (body : List Instruction) :
    pushed (Code.routine label params locals n body) = pushed locals ++ pushed body := by
  have hend : pushed (epilogue params n) = [] :=
    List.sublist_nil.mp ((flat_epilogue params n).2 ▸ pushed_sublist_wanted _)
  rw [routine_eq]
  simp [pushed, load, hend]

/-- A routine is put aside behind those that are declared in it. -/
theorem Segmented.routine {locals body aside : List Instruction} (h : Segmented locals aside) (label : String)
    (params n : Nat) (hl : Forward [] locals) {b b' : CodeBuffer} {m : Nat} (hb : Lowers b b' body [] m) :
    Segmented [.pushLabel label] (aside ++ Code.routine label params locals n body) := by
  obtain ⟨rs, rfl, hrs, hp⟩ := h
  refine ⟨rs ++ [(label, Code.routine label params locals n body)], by simp, ?_, fun l hl => ?_⟩
  · exact List.forall_mem_append.mpr ⟨hrs, List.forall_mem_singleton.mpr (Code.isRoutine params n hl hb.forward)⟩
  · have hp := hp l
    simp only [pushed, pushed_append, Code.pushed_routine, hb.segmented.pushed_nil, List.map_append, List.mem_append,
      List.mem_cons, List.map_cons, List.map_nil] at hl hp ⊢
    grind

section

variable {table : List (String × Nat)} {code : Array Op} {placed : List (Nat × Routine)}
variable {localCode bodyCode : List Instruction} {r : Routine}

theorem Routine.width_code (hl : width localCode = Decl.sizeAll r.locals) (hb : width bodyCode = r.body.size)
    (label : String) :
    width (Code.routine label r.params.length localCode r.locals.length bodyCode) = r.size := by
  rw [Code.routine_eq]
  simp [width, Code.load, hl, hb, (Code.flat_epilogue _ _).width, Routine.size, Routine.bodySize]
  omega

/-- Where the code of a routine is placed, its parts are. -/
theorem Routine.placed_parts {label : String} {a : Nat} (hl : width localCode = Decl.sizeAll r.locals)
    (hb : width bodyCode = r.body.size)
    (h : Placed table code a (Code.routine label r.params.length localCode r.locals.length bodyCode)) :
    table.lookup label = some a ∧ Stands code a [.plain .copyFp, .plain (.load .ra)] ∧
      Placed table code (a + 2) localCode ∧ Placed table code (a + 2 + Decl.sizeAll r.locals) bodyCode ∧
      Stands code (a + r.bodySize) (Code.ops (Code.epilogue r.params.length r.locals.length)) := by
  rw [Code.routine_eq] at h
  simp only [placed_append, width_append, Placed, width, Code.load, hl, hb, Nat.zero_add, Nat.reduceAdd,
    ← Nat.add_assoc] at h
  obtain ⟨⟨⟨hlabel, hfp, hra, -⟩, h₁, h₂⟩, h₃⟩ := h
  have hflat := Code.flat_epilogue r.params.length r.locals.length
  have hstands := Placed.stands _ _ hflat.1 hflat.2 h₃
  refine ⟨hlabel, ⟨hfp, hra, trivial⟩, h₁, h₂, ?_⟩
  simpa only [Routine.bodySize, ← Nat.add_assoc] using hstands

end

/-! ## Declarations -/

/--
A lowering has gone on from one state to another and put the code of some routines aside. Wherever the
code it has given and that of the routines are placed, both stand as their layout says.
-/
def LowersWith (b b' : CodeBuffer) (is : List Instruction) (size : Nat) (routines : List Routine)
    (laid : Array Op → List (Nat × Routine) → Nat → Prop) : Prop :=
  ∃ aside, Lowers b b' is aside size ∧ width aside = Routine.sizeAll routines ∧
    ∀ table ops placed a start, Placed table ops a is → Placed table ops start aside →
      (∀ x ∈ Routine.place start routines, x ∈ placed) →
      laid ops placed a ∧ ∀ x ∈ Routine.place start routines, x.2.Laid ops placed x.1

section

variable {b b₁ b₂ b₃ b₄ b₅ : CodeBuffer} {is js localCode bodyCode aside : List Instruction} {m n : Nat}
variable {rs rs' : List Routine} {laid laid' : Array Op → List (Nat × Routine) → Nat → Prop}

theorem Expr.Lowers.with {e : Expr} (h : e.Lowers b b₁ is) :
    LowersWith b b₁ is e.size [] fun ops _ a => e.Laid ops a :=
  ⟨[], h.1, rfl, fun _ _ _ _ _ hp _ _ => ⟨h.2 _ _ _ hp, fun _ hx => (List.not_mem_nil hx).elim⟩⟩

theorem LowersWith.imp (h : LowersWith b b₁ is m rs laid)
    (hi : ∀ ops placed a, laid ops placed a → laid' ops placed a) : LowersWith b b₁ is m rs laid' := by
  obtain ⟨aside, hl, hw, hlaid⟩ := h
  refine ⟨aside, hl, hw, fun table ops placed a start hp hs hx => ?_⟩
  obtain ⟨h₁, h₂⟩ := hlaid table ops placed a start hp hs hx
  exact ⟨hi _ _ _ h₁, h₂⟩

theorem LowersWith.flat (b : CodeBuffer) (is : List Instruction) (h : Flat is) :
    LowersWith b b is is.length [] fun ops _ a => Stands ops a (Code.ops is) :=
  ⟨[], .flat h, rfl, fun _ _ _ a _ hp _ _ =>
    ⟨Placed.stands is a h.1 h.2 hp, fun _ hx => (List.not_mem_nil hx).elim⟩⟩

/-- Which labels are noted for methods does not matter. -/
theorem LowersWith.record (h : LowersWith b b₁ is m rs laid) (t : Table (String × String) String) :
    LowersWith b { b₁ with methodLabels := t } is m rs laid := by
  obtain ⟨aside, hl, hw⟩ := h
  obtain ⟨hr, hwidth, hd, hc, hf, hs⟩ := hl
  exact ⟨aside, ⟨hr, hwidth, ⟨hd.labelCount, hd.routineCount, hd.nodup, hd.drawn⟩, hc, hf, hs⟩, hw⟩

theorem LowersWith.append (h : LowersWith b b₁ is m rs laid) (h' : LowersWith b₁ b₂ js n rs' laid') :
    LowersWith b b₂ (is ++ js) (m + n) (rs ++ rs') fun ops placed a =>
      laid ops placed a ∧ laid' ops placed (a + m) := by
  obtain ⟨aside, hl, hw, hlaid⟩ := h
  obtain ⟨aside', hl', hw', hlaid'⟩ := h'
  refine ⟨aside ++ aside', hl.append hl', by simp [hw, hw'], fun table ops placed a start hp hs hx => ?_⟩
  rw [placed_append, hl.width] at hp
  rw [placed_append, hw] at hs
  rw [Routine.place_append] at hx ⊢
  obtain ⟨h₁, h₂⟩ := hlaid table ops placed a start hp.1 hs.1 fun x h => hx x (List.mem_append_left _ h)
  obtain ⟨h₃, h₄⟩ := hlaid' table ops placed _ _ hp.2 hs.2 fun x h => hx x (List.mem_append_right _ h)
  refine ⟨⟨h₁, h₃⟩, fun x h => ?_⟩
  rcases List.mem_append.mp h with h | h
  · exact h₂ x h
  · exact h₄ x h

/-- The address of a routine whose code is put aside, behind that of the routines in it. -/
theorem LowersWith.routine {label : String} {r : Routine}
    (hr : b₅.routines = b.routines ++
      (aside ++ Code.routine label r.params.length localCode r.locals.length bodyCode))
    (hd : Draws b b₅ (label :: (defined localCode ++ defined aside ++ defined bodyCode)))
    (hl : Lowers b₁ b₂ localCode aside (Decl.sizeAll r.locals))
    (hw : width aside = Routine.sizeAll (Decl.routinesAll r.locals))
    (hlaid : ∀ table ops placed a start, Placed table ops a localCode → Placed table ops start aside →
      (∀ x ∈ Routine.place start (Decl.routinesAll r.locals), x ∈ placed) →
      Decl.LaidAll ops placed a r.locals ∧
        ∀ x ∈ Routine.place start (Decl.routinesAll r.locals), x.2.Laid ops placed x.1)
    (hb : r.body.Lowers b₃ b₄ bodyCode) :
    LowersWith b b₅ [.pushLabel label] 1 (Decl.routinesAll r.locals ++ [r]) fun ops placed a =>
      ∃ t, (t, r) ∈ placed ∧ Stands ops a [.push (.ofNat t)] := by
  refine ⟨_, ⟨hr, rfl, hd.perm ?_, fun l hmem => ?_, trivial, hl.segmented.routine label _ _ hl.forward hb.1⟩, ?_,
    fun table ops placed a start hp hs hx => ?_⟩
  · rw [List.perm_iff_count]
    intro l
    simp only [defined, defined_append, Code.defined_routine, List.count_append, List.count_cons]
    simp
    omega
  · have hclosed := hl.closed l
    have hclosed' := hb.1.closed l
    simp only [defined, wanted, wanted_append, defined_append, Code.defined_routine, Code.wanted_routine,
      List.mem_append, List.mem_cons, List.nil_append] at hmem hclosed hclosed' ⊢
    grind
  · rw [width_append, hw, Routine.width_code hl.width hb.1.width]
    simp [Routine.sizeAll]
  · rw [placed_append, hw] at hs
    rw [Routine.place_append] at hx ⊢
    have hself : (start + Routine.sizeAll (Decl.routinesAll r.locals), r) ∈ placed :=
      hx _ (List.mem_append_right _ List.mem_cons_self)
    have hinner : ∀ x ∈ Routine.place start (Decl.routinesAll r.locals), x ∈ placed :=
      fun x h => hx x (List.mem_append_left _ h)
    obtain ⟨hlabel, hbegin, hlocals, hbody, hend⟩ := Routine.placed_parts hl.width hb.1.width hs.2
    obtain ⟨hlocals, hrest⟩ := hlaid table ops placed _ start hlocals hs.1 hinner
    obtain ⟨⟨t, ht, hpush⟩, -⟩ := hp
    rw [hlabel, Option.some.injEq] at ht
    subst ht
    refine ⟨⟨_, hself, hpush, trivial⟩, fun x h => ?_⟩
    rcases List.mem_append.mp h with h | h
    · exact hrest x h
    · rcases List.mem_singleton.mp h
      exact ⟨hbegin, hlocals, hb.2 _ _ _ hbody, hend⟩

end

theorem Decl.laidAll_cons {code : Array Op} {placed : List (Nat × Routine)} {a : Nat} {d : Decl}
    {ds : List Decl} (h : Decl.LaidAll code placed a [d]) (h' : Decl.LaidAll code placed (a + d.size) ds) :
    Decl.LaidAll code placed a (d :: ds) := by
  cases d with
  | var => exact ⟨h.1, h'⟩
  | function => exact ⟨h.1, h'⟩

theorem Decl.sizeAll_cons (d : Decl) (ds : List Decl) : Decl.sizeAll (d :: ds) = d.size + Decl.sizeAll ds := by
  rw [Decl.sizeAll, List.map_cons, List.sum_cons, Decl.sizeAll]

mutual

theorem Decl.lower_lowers : ∀ (d : Decl) {b b' : CodeBuffer} {is : List Instruction}, d.lower b = .ok is b' →
    LowersWith b b' is d.size d.routines fun ops placed a => Decl.LaidAll ops placed a [d]
  | .var name type value line, b, b', is, h => (value.lower_lowers h).with.imp fun _ _ _ h => ⟨h, trivial⟩
  | .function header locals body, b, b', is, h => by
    rw [Decl.lower] at h
    obtain ⟨localCode, b₁, hlocals, h⟩ := Lowering.bind_ok h
    obtain ⟨label, b₂, hlabel, h⟩ := Lowering.bind_ok h
    cases hlabel
    obtain ⟨bodyCode, b₃, hbody, h⟩ := Lowering.bind_ok h
    obtain ⟨_, b₄, hput, h⟩ := Lowering.bind_ok h
    cases hput
    cases h
    obtain ⟨aside, hl, hw, hlaid⟩ := Decl.lowerAll_lowers locals hlocals
    have hb := body.lower_lowers hbody
    have hd := ((hl.draws.append (.routine b₁)).append hb.1.draws).putCode
      (Code.routine s!"function{b₁.routineCount}" header.params.length localCode locals.length bodyCode)
    refine (LowersWith.routine (r := ⟨header.params, locals, body⟩) ?_ (hd.perm ?_) hl hw hlaid hb).imp
      fun _ _ _ h => ⟨h, trivial⟩
    · simp [hb.1.routines, hl.routines]
    · rw [List.perm_iff_count]
      intro l
      simp [defined, List.count_append, List.count_cons]
      omega

theorem Decl.lowerAll_lowers : ∀ (ds : List Decl) {b b' : CodeBuffer} {is : List Instruction},
    Decl.lowerAll ds b = .ok is b' → LowersWith b b' is (Decl.sizeAll ds) (Decl.routinesAll ds)
      fun ops placed a => Decl.LaidAll ops placed a ds
  | [], b, b', is, h => by
    rw [Decl.lowerAll] at h
    cases h
    exact ⟨[], .flat ⟨rfl, rfl⟩, rfl, fun _ _ _ _ _ _ _ _ => ⟨trivial, fun _ hx => (List.not_mem_nil hx).elim⟩⟩
  | d :: ds, b, b', is, h => by
    rw [Decl.lowerAll] at h
    obtain ⟨code, b₁, hd, h⟩ := Lowering.bind_ok h
    obtain ⟨more, b₂, hds, h⟩ := Lowering.bind_ok h
    cases h
    rw [Decl.sizeAll_cons]
    exact ((Decl.lower_lowers d hd).append (Decl.lowerAll_lowers ds hds)).imp fun _ _ _ h =>
      Decl.laidAll_cons h.1 h.2

end

/-! ## Classes -/

section

variable {b b' : CodeBuffer} {is : List Instruction}

theorem Method.lower_lowers {m : Method} {label : String} (h : m.lower b = .ok label b') :
    LowersWith b b' [.pushLabel label] 1 m.routines fun ops placed a =>
      ∃ t, (t, m.routine) ∈ placed ∧ Stands ops a [.push (.ofNat t)] := by
  rw [Method.lower] at h
  obtain ⟨_, b₁, hlabel, h⟩ := Lowering.bind_ok h
  cases hlabel
  obtain ⟨localCode, b₂, hlocals, h⟩ := Lowering.bind_ok h
  obtain ⟨bodyCode, b₃, hbody, h⟩ := Lowering.bind_ok h
  obtain ⟨_, b₄, hput, h⟩ := Lowering.bind_ok h
  cases hput
  cases h
  obtain ⟨aside, hl, hw, hlaid⟩ := Decl.lowerAll_lowers m.locals hlocals
  have hb := m.body.lower_lowers hbody
  have hd := (((Draws.routine b).append hl.draws).append hb.1.draws).putCode
    (Code.routine s!"function{b.routineCount}" m.header.params.length localCode m.locals.length bodyCode)
  refine LowersWith.routine (r := m.routine) ?_ (hd.perm ?_) hl hw hlaid hb
  · simp [hb.1.routines, hl.routines, Method.routine]
  · rw [List.perm_iff_count]
    intro l
    simp [defined, List.count_append, List.count_cons]

/-- The instructions that put the address of a routine on the heap. -/
def Code.entry (label : String) : List Instruction := .pushLabel label :: allocate

theorem ClassDecl.lowerMethods_lowers (c : String) (ms : List Method) :
    ∀ {b b' : CodeBuffer} {slots : List (Int32 × String)}, lowerMethods c ms b = .ok slots b' →
      ms.map (·.slot) = slots.map (some ·.1) ∧
      LowersWith b b' (slots.flatMap (Code.entry ·.2)) (7 * ms.length) (ms.flatMap Method.routines)
        fun ops placed a => Method.LaidAll ops placed a ms := by
  induction ms with
  | nil =>
    intro b b' slots h
    rw [lowerMethods] at h
    cases h
    exact ⟨rfl, [], .flat ⟨rfl, rfl⟩, rfl, fun _ _ _ _ _ _ _ _ => ⟨trivial, fun _ hx => (List.not_mem_nil hx).elim⟩⟩
  | cons m ms ih =>
    intro b b' slots h
    rw [lowerMethods] at h
    obtain ⟨slot, b₁, hdecoration, hrest⟩ := Lowering.bind_ok h
    obtain ⟨hslot, rfl⟩ := Lowering.decoration_ok hdecoration
    obtain ⟨label, b₂, hlabel, hrest⟩ := Lowering.bind_ok hrest
    obtain ⟨_, b₃, hrecord, hrest⟩ := Lowering.bind_ok hrest
    cases hrecord
    obtain ⟨more, b₄, hmore, hrest⟩ := Lowering.bind_ok hrest
    cases hrest
    obtain ⟨hslots, hms⟩ := ih hmore
    refine ⟨by rw [List.map_cons, hslot, hslots, List.map_cons], ?_⟩
    have hm := (Method.lower_lowers hlabel).append (LowersWith.flat b₂ Code.allocate ⟨rfl, rfl⟩)
    have hsize : 7 * (m :: ms).length = 1 + Code.allocate.length + 7 * ms.length := by
      rw [List.length_cons, Nat.mul_succ, Nat.add_comm]; rfl
    rw [hsize, List.flatMap_cons, List.flatMap_cons]
    have hall := (hm.record _).append hms
    rw [List.append_nil] at hall
    refine hall.imp fun ops placed a h => ?_
    obtain ⟨⟨⟨t, ht, hpush, -⟩, hallocate⟩, hrest⟩ := h
    exact ⟨⟨t, ht, hpush, hallocate⟩, hrest⟩

/-- Slots that count upward are sorted. -/
theorem ClassDecl.mergeSort_slots {slots : List (Int32 × String)}
    (h : ∀ (i : Nat) x, slots[i]? = some x → x.1 = .ofNat i) (hlen : slots.length < 2 ^ 31) :
    (slots.mergeSort fun a b => decide (a.1 ≤ b.1)) = slots := by
  refine List.mergeSort_of_pairwise (List.pairwise_iff_getElem.mpr fun i j hi hj hij => ?_)
  rw [h i _ (List.getElem?_eq_getElem hi), h j _ (List.getElem?_eq_getElem hj), decide_eq_true_eq,
    Int32.le_iff_toInt_le, Int32.toInt_ofNat_of_lt (by omega), Int32.toInt_ofNat_of_lt (by omega)]
  omega

/-- Where the slots of methods count upward, they are sorted as they are. -/
theorem ClassDecl.lowerMethods_sorted {c : String} {ms : List Method} {slots : List (Int32 × String)}
    (h : lowerMethods c ms b = .ok slots b') (hslots : ∀ (i : Nat) m, ms[i]? = some m → m.slot = some (.ofNat i))
    (hlen : ms.length < 2 ^ 31) : (slots.mergeSort fun a b => decide (a.1 ≤ b.1)) = slots := by
  have hmap := (lowerMethods_lowers c ms h).1
  have hcount : slots.length = ms.length := by
    have := congrArg List.length hmap
    rw [List.length_map, List.length_map] at this
    exact this.symm
  refine mergeSort_slots (fun i x hx => ?_) (by omega)
  have hi : i < ms.length := hcount ▸ (List.getElem?_eq_some_iff.mp hx).1
  have hget := congrArg (fun l => l[i]?) hmap
  simp only [List.getElem?_map, hx, List.getElem?_eq_getElem hi, Option.map_some, Option.some.injEq] at hget
  rw [hslots i _ (List.getElem?_eq_getElem hi), Option.some.injEq] at hget
  exact hget.symm

theorem ClassDecl.lower_lowers {c : ClassDecl} (h : c.lower b = .ok is b')
    (hslots : ∀ (i : Nat) m, c.methods[i]? = some m → m.slot = some (.ofNat i))
    (hlen : c.methods.length < 2 ^ 31) :
    LowersWith b b' is c.size (c.methods.flatMap Method.routines) fun ops placed a =>
      Stands ops a [.plain (.load .hp)] ∧ Method.LaidAll ops placed (a + 1) c.methods := by
  rw [ClassDecl.lower] at h
  obtain ⟨slots, b₁, hms, h⟩ := Lowering.bind_ok h
  cases h
  have hsorted := lowerMethods_sorted hms hslots hlen
  obtain ⟨-, hms⟩ := lowerMethods_lowers c.name c.methods hms
  have hcode : Code.dispatchTable ((slots.mergeSort fun a b => decide (a.1 ≤ b.1)).map (·.2)) =
      [Code.load .hp] ++ slots.flatMap (Code.entry ·.2) := by
    rw [hsorted, Code.dispatchTable, List.flatMap_map]
    rfl
  rw [hcode]
  exact (LowersWith.flat b [Code.load .hp] ⟨rfl, rfl⟩).append hms

theorem Code.dispatchTable_width (ls : List String) : width (dispatchTable ls) = 1 + 7 * ls.length := by
  have hentries : width (ls.flatMap fun l => .pushLabel l :: allocate) = 7 * ls.length := by
    induction ls with
    | nil => rfl
    | cons l ls ih =>
      rw [List.flatMap_cons, width_append, ih, Nat.add_comm]
      rfl
  rw [dispatchTable, Nat.add_comm 1, ← hentries]
  rfl

theorem ClassDecl.le_width_lower {c : ClassDecl} (h : c.lower b = .ok is b') : c.methods.length ≤ width is := by
  rw [ClassDecl.lower] at h
  obtain ⟨slots, b₁, hms, h⟩ := Lowering.bind_ok h
  cases h
  obtain ⟨hmap, -⟩ := lowerMethods_lowers c.name c.methods hms
  have hcount := congrArg List.length hmap
  rw [List.length_map, List.length_map] at hcount
  rw [Code.dispatchTable_width, List.length_map, List.length_mergeSort, hcount]
  omega

theorem ClassDecl.lowerAll_lowers (cs : List ClassDecl) : ∀ {b b' : CodeBuffer} {is : List Instruction},
    lowerAll cs b = .ok is b' →
    (∀ c ∈ cs, ∀ (i : Nat) m, c.methods[i]? = some m → m.slot = some (.ofNat i)) → width is < 2 ^ 31 →
    LowersWith b b' is (cs.map ClassDecl.size).sum (cs.flatMap fun c => c.methods.flatMap Method.routines)
      fun ops placed a => ClassDecl.LaidAll ops placed a cs := by
  induction cs with
  | nil =>
    intro b b' is h _ _
    rw [lowerAll] at h
    cases h
    exact (LowersWith.flat b [] ⟨rfl, rfl⟩).imp fun _ _ _ _ => trivial
  | cons c cs ih =>
    intro b b' is h hslots hlen
    rw [lowerAll] at h
    obtain ⟨code, b₁, hc, h⟩ := Lowering.bind_ok h
    obtain ⟨more, b₂, hcs, h⟩ := Lowering.bind_ok h
    cases h
    rw [width_append] at hlen
    have hcount := le_width_lower hc
    have hfirst := lower_lowers hc (hslots c List.mem_cons_self) (by omega)
    have hrest := ih hcs (fun d hd => hslots d (List.mem_cons_of_mem _ hd)) (by omega)
    exact (hfirst.append hrest).imp fun _ _ _ h => ⟨h.1.1, h.1.2, h.2⟩

end

/-! ## Programs -/

theorem Program.lowerMain_lowers {p : Program} {is : List Instruction} {b : CodeBuffer}
    (h : p.lowerMain .empty = .ok is b) (hp : p.Sound) (hlen : width is < 2 ^ 31) :
    LowersWith .empty b is p.mainSize p.routines fun ops placed a => a = 0 →
      (∀ classes decls body, p = .letIn classes decls body →
        Stands ops 0 [.push 0] ∧ ClassDecl.LaidAll ops placed 1 classes) ∧
      Decl.LaidAll ops placed p.declsStart p.decls ∧ p.body.Laid ops p.bodyStart ∧
      Stands ops (p.bodyStart + p.body.size) [.plain .halt] := by
  cases p with
  | letIn classes decls body =>
    rw [lowerMain] at h
    obtain ⟨classCode, b₁, hclasses, h⟩ := Lowering.bind_ok h
    obtain ⟨declCode, b₂, hdecls, h⟩ := Lowering.bind_ok h
    obtain ⟨bodyCode, b₃, hbody, h⟩ := Lowering.bind_ok h
    cases h
    simp only [width_append] at hlen
    have hslots : ∀ c ∈ classes, ∀ (i : Nat) m, c.methods[i]? = some m → m.slot = some (.ofNat i) := by
      intro c hc
      obtain ⟨i, hi⟩ := List.getElem?_of_mem hc
      exact (hp.classes i c hi).slots
    have hpush := LowersWith.flat .empty [.push 0] ⟨rfl, rfl⟩
    have htables := ClassDecl.lowerAll_lowers classes hclasses hslots (by omega)
    have hlocals := Decl.lowerAll_lowers decls hdecls
    have hvalue := (body.lower_lowers hbody).with
    have hhalt := LowersWith.flat b [.plain .halt] ⟨rfl, rfl⟩
    have hall := (((hpush.append htables).append hlocals).append hvalue).append hhalt
    rw [List.append_nil, List.append_nil, List.nil_append] at hall
    refine hall.imp fun ops placed a h ha => ?_
    subst ha
    obtain ⟨⟨⟨⟨h₁, h₂⟩, h₃⟩, h₄⟩, h₅⟩ := h
    simp only [Nat.zero_add] at h₂ h₃ h₄ h₅
    refine ⟨?_, h₃, h₄, h₅⟩
    rintro _ _ _ ⟨⟩
    exact ⟨h₁, h₂⟩
  | expr body =>
    rw [lowerMain] at h
    obtain ⟨bodyCode, b₁, hbody, h⟩ := Lowering.bind_ok h
    cases h
    have hhalt := LowersWith.flat b [.plain .halt] ⟨rfl, rfl⟩
    have hall := (body.lower_lowers hbody).with.append hhalt
    have hstart : (expr body).bodyStart = 0 := rfl
    rw [mainSize, hstart, Nat.zero_add]
    refine hall.imp fun ops placed a h ha => ?_
    subst ha
    rw [Nat.zero_add] at h
    refine ⟨?_, trivial, h.1, h.2⟩
    rintro _ _ _ ⟨⟩

/-- The code of a program is its main code and what was put aside on the way. -/
theorem Program.lower_ok {p : Program} {is : List Instruction} (h : p.lower = .ok is) :
    ∃ main b, p.lowerMain .empty = .ok main b ∧ is = main ++ b.routines ∧
      p.lowerParts .empty = .ok is { b with routines := [] } := by
  unfold Program.lower EStateM.run at h
  split at h
  · rename_i code b hb
    cases h
    have hparts := hb
    rw [lowerParts] at hb
    obtain ⟨main, b₁, hmain, hrest⟩ := Lowering.bind_ok hb
    obtain ⟨rest, b₂, htake, hrest⟩ := Lowering.bind_ok hrest
    cases htake
    cases hrest
    exact ⟨main, b₁, hmain, rfl, hparts⟩
  · cases h

/-- A sound program is laid in its linked code as its layout says, if code addresses are words. -/
theorem Program.lower_laid {p : Program} {is : List Instruction} {ops : Array Op} (h : p.lower = .ok is) (hp : p.Sound)
    (hlink : link is = .ok ops) (hlen : ops.size < 2 ^ 31) : p.Laid ops := by
  obtain ⟨main, b₁, hmain, rfl, -⟩ := lower_ok h
  rw [link_size hlink, width_append] at hlen
  obtain ⟨aside, hl, hw, hlaid⟩ := lowerMain_lowers hmain hp (by omega)
  have haside : b₁.routines = aside := hl.routines
  have hdistinct : (defined (main ++ aside)).Nodup := by rw [defined_append]; exact hl.draws.nodup
  obtain ⟨ops', hlink', hsize, hplaced⟩ :=
    link_placed hdistinct (by rw [defined_append, wanted_append]; exact hl.closed)
  rw [haside] at hlink
  cases hlink'.symm.trans hlink
  rw [placed_append, hl.width, Nat.zero_add] at hplaced
  rw [width_append, hl.width, hw] at hsize
  obtain ⟨hmain, hroutines⟩ := hlaid _ ops p.placed 0 p.mainSize hplaced.1 hplaced.2 fun _ hx => hx
  obtain ⟨htables, hdecls, hbody, hhalt⟩ := hmain rfl
  refine ⟨htables, hdecls, hbody, hhalt, fun x hx => ⟨hroutines x hx, ?_⟩⟩
  have hle := Routine.place_le p.routines p.mainSize x hx
  omega

end FoolLang
