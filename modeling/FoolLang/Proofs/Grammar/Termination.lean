/-
Reading ends. At every place of a token list each form takes a token at least where it has a result, never gives one
back, and never takes an end of the program; so nesting and loops are bounded by the number of tokens left, and with
limits from that number on every reading is what its recursion says without limits.
-/
import FoolLang.Proofs.Grammar.Progress

namespace FoolLang

open Reading Sequencing

/-! ## Places -/

/-- Some tokens, with an end of the program behind them unless the last one is an end itself. -/
def Token.withEnd (ts : List Token) : List Token :=
  match ts.getLast? with
  | none => [.atEnd 1]
  | some t => if t.kind = .eof then ts else ts ++ [.atEnd t.line]

namespace Cursor

theorem closed_withEnd (t : Token) (ts : List Token) : t :: closed t ts = Token.withEnd (t :: ts) := by
  induction ts generalizing t with
  | nil =>
    simp only [closed, Token.withEnd, List.getLast?_singleton]
    split <;> rfl
  | cons u us ih =>
    rw [closed, ih u]
    simp only [Token.withEnd, List.getLast?_cons_cons]
    cases h : (u :: us).getLast? with
    | none => exact absurd (List.getLast?_eq_none_iff.mp h) (List.cons_ne_nil u us)
    | some v =>
      simp only
      split <;> rfl

/-- The first place in a token list has all of its tokens, and an end. -/
theorem ofTokens_tokens (ts : List Token) : (ofTokens ts).tokens = Token.withEnd ts := by
  cases ts with
  | nil => rfl
  | cons t ts => exact closed_withEnd t ts

theorem tokens_inj {c d : Cursor} (h : c.tokens = d.tokens) : c = d := by
  obtain ⟨t, ts⟩ := c
  obtain ⟨u, us⟩ := d
  cases h
  rfl

end Cursor

theorem Token.exists_withEnd (ts : List Token) : ∃ eof us, eof.kind = .eof ∧ withEnd ts = us ++ [eof] := by
  unfold withEnd
  cases h : ts.getLast? with
  | none => exact ⟨.atEnd 1, [], rfl, rfl⟩
  | some t =>
    by_cases ht : t.kind = .eof
    · obtain ⟨us, rfl⟩ := List.getLast?_eq_some_iff.mp h
      exact ⟨t, us, ht, if_pos ht⟩
    · exact ⟨.atEnd t.line, ts, rfl, if_neg ht⟩

/-- Every place in a token list stands before some tokens and an end of the program. -/
theorem Cursor.exists_before {ts earlier : List Token} {c : Cursor} (h : Token.withEnd ts = earlier ++ c.tokens) :
    ∃ eof us, eof.kind = .eof ∧ c = before eof us := by
  obtain ⟨eof, vs, he, hvs⟩ := Token.exists_withEnd ts
  have hne : c.tokens ≠ [] := List.cons_ne_nil _ _
  have hlast : c.tokens.getLast hne = eof := by
    have h := congrArg List.getLast? (hvs.symm.trans h)
    rw [List.getLast?_concat, List.getLast?_append, List.getLast?_eq_some_getLast hne] at h
    exact (Option.some.inj h).symm
  refine ⟨eof, c.tokens.dropLast, he, tokens_inj ?_⟩
  rw [before_tokens, ← hlast, List.dropLast_concat_getLast]

namespace Reading

variable {α β : Type} {x : Reading α} {eof : Token} {ts : List Token} {least : Nat}

/--
From a place a reading moves on. It stops behind some tokens, one at least if it has a result, and none of them an end
of the program; so the place where it stops has a token still.
-/
def MovesOn (x : Reading α) (c : Cursor) : Prop :=
  ∃ o ws c', x.run c = ended o c' ∧ c.tokens = ws ++ c'.tokens ∧ (∀ t ∈ ws, t.kind ≠ .eof) ∧ ∀ a, o = .ok a → ws ≠ []

/-- No limits. -/
def Limits.free : Limits Unit := ⟨fun _ _ => True, fun _ _ => trivial⟩

theorem Stops.movesOn (he : eof.kind = .eof) (h : Stops .free eof ts 1 fun _ => x) : MovesOn x (.before eof ts) := by
  obtain ⟨o, ws, us, h⟩ := h
  have hsplit := h.split
  subst hsplit
  refine ⟨o, ws, .before eof us, h.run (i := ()) he rfl trivial, ?_, h.not_end, fun a ha => ?_⟩
  · rw [Cursor.before_tokens, Cursor.before_tokens, List.append_assoc]
  · exact List.length_pos_iff.mp (h.least_le a ha)

/-- Behind a reading that moves on, readings need to be the same only where fewer tokens are left. -/
theorem Stops.bind_congr (he : eof.kind = .eof) {f g : α → Reading β} (h : Stops .free eof ts 1 fun _ => x)
    (hfg : ∀ a us, us.length < ts.length → (f a).run (.before eof us) = (g a).run (.before eof us)) :
    (x >>= f).run (.before eof ts) = (x >>= g).run (.before eof ts) := by
  obtain ⟨o, ws, us, h⟩ := h
  have hsplit := h.split
  subst hsplit
  have hrun := h.run (i := ()) he rfl trivial
  cases o with
  | error d => rw [bind_run_error hrun, bind_run_error hrun]
  | ok a =>
    have hws := h.least_le a rfl
    rw [bind_run hrun, bind_run hrun, hfg a us (by rw [List.length_append]; omega)]

/--
At a place a loop is not limited: as many turns as tokens are left are enough, and with these it is the loop that goes
on as long as its test passes.
-/
structure LoopsFreely (test : Kind → Bool) (item : Reading α) (c : Cursor) : Prop where
  enough : ∀ n, c.rest.length < n → (manyUpTo test item n).run c = (many test item).run c
  unrolls : (many test item).run c =
    (do if test (← kind) then return (← item) :: (← many test item) else return [] : Reading (List α)).run c

theorem loopsFreely {test : Kind → Bool} {item : Reading α} (he : eof.kind = .eof)
    (hi : ∀ us, test (Cursor.before eof us).current.kind = true → Stops .free eof us 1 fun _ => item)
    (ts : List Token) :
    LoopsFreely test item (.before eof ts) := by
  have henough : ∀ us n, us.length < n →
      (manyUpTo test item n).run (.before eof us) = (many test item).run (.before eof us) := by
    intro us n hn
    have hstops := manyUpTo_stops (L := .free) (fun vs _ => hi vs) (us.length + 1) (Nat.le_refl _) us
      (Nat.lt_succ_self _)
    rw [many, bind_run (run_remaining _), Cursor.before_rest_length]
    exact hstops.agree (i := ((), n)) (j := ((), us.length + 1)) he ⟨trivial, hn⟩ ⟨trivial, Nat.lt_succ_self _⟩
  refine ⟨fun n hn => henough ts n (by rwa [Cursor.before_rest_length] at hn), ?_⟩
  rw [← henough ts (ts.length + 1) (Nat.lt_succ_self _), manyUpTo, bind_run (run_kind _), bind_run (run_kind _)]
  split
  · rename_i ht
    exact (hi ts ht).bind_congr he fun a us hus => by
      rw [EStateM.run_bind, EStateM.run_bind, henough us ts.length hus]
  · rfl

end Reading

namespace Grammar

variable {ι : Type} {eof : Token} (he : eof.kind = .eof) (ts : List Token) (p : Power)

include he

theorem expr_recursion :
    (standard.expr p).run (.before eof ts) = (standard.exprOver standard.expr p).run (.before eof ts) := by
  have hparts : ∀ p, StopsWithin ((Limits.depth 1).after 1) eof ts.length 0 fun i => standard.exprUpTo i p :=
    fun p us hus => (exprUpTo_stops he ts.length p us hus).mono (Nat.zero_le 1) fun i n hi m hm => by
      have := hi m hm; omega
  -- The parts come behind a token, so that one level less is still above the number of tokens left there.
  have hagree := (exprOver_stops he hparts p ts (Nat.lt_succ_self _)).agree (i := some ts.length) (j := none) he
    (fun m hm => by cases hm; exact Nat.lt_succ_self _) (fun m hm => by cases hm)
  rw [expr, bind_run (run_remaining _), Cursor.before_rest_length, exprWithin_succ]
  exact hagree

/-- What the loop over trailing forms needs of the reader of expressions. -/
theorem parts_stop {L : Limits ι} {k : Nat} (p : Power) : StopsWithin (L.after 1) eof k 0 fun _ => standard.expr p :=
  (expr_stops he p).weaken

theorem extend_enough {n : Nat} (hn : ts.length < n) (left : Expr) :
    (standard.extend standard.expr p n left).run (.before eof ts) =
      (standard.goOn standard.expr p left).run (.before eof ts) := by
  have hstops := extend_stops (L := .free) (p := p) he (parts_stop he) (ts.length + 1) (Nat.le_refl _) left ts
    (Nat.lt_succ_self _)
  rw [goOn, bind_run (run_remaining _), Cursor.before_rest_length]
  exact hstops.agree (i := ((), n)) (j := ((), ts.length + 1)) he ⟨trivial, hn⟩ ⟨trivial, Nat.lt_succ_self _⟩

theorem goOn_recursion (left : Expr) : (standard.goOn standard.expr p left).run (.before eof ts) =
    (standard.goOnOver standard.expr p (standard.goOn standard.expr p) left).run (.before eof ts) := by
  rw [← extend_enough he ts p (Nat.lt_succ_self _) left, extend, goOnOver, bind_run (run_kind _), bind_run (run_kind _)]
  cases hform : standard.trailing (Cursor.before eof ts).current.kind with
  | none => rfl
  | some f =>
    obtain ⟨q, form⟩ := f
    obtain ⟨t, us, rfl⟩ := exists_cons he (ne_eof_of_form standard.trailing rfl hform)
    simp only
    split
    · exact (Trailing.read_stops he (parts_stop he) hform (Nat.lt_succ_self us.length) left).bind_congr he
        fun e vs hvs => extend_enough he vs p hvs e
    · rfl

theorem declaration_recursion :
    standard.declaration.run (.before eof ts) = (standard.declOver standard.declaration).run (.before eof ts) := by
  have hparts : StopsWithin ((Limits.depth 1).after 1) eof ts.length 1 fun i => standard.declUpTo i := fun us hus =>
    (declUpTo_stops he ts.length us hus).mono (Nat.le_refl 1) fun i n hi m hm => by
      have := hi m hm; omega
  have hagree := (declOver_stops he hparts ts (Nat.lt_succ_self _)).agree (i := some ts.length) (j := none) he
    (fun m hm => by cases hm; exact Nat.lt_succ_self _) (fun m hm => by cases hm)
  rw [declaration, bind_run (run_remaining _), Cursor.before_rest_length, declWithin_succ]
  exact hagree

theorem exprWithin_enough {n : Nat} (hn : ts.length < n) :
    (standard.exprWithin n p).run (.before eof ts) = (standard.expr p).run (.before eof ts) :=
  (exprUpTo_stops he (ts.length + 1) p ts (Nat.lt_succ_self _)).agree (i := some n) (j := none) he
    (fun m hm => by cases hm; exact hn) (fun m hm => by cases hm)

theorem declWithin_enough {n : Nat} (hn : ts.length < n) :
    (standard.declWithin n).run (.before eof ts) = standard.declaration.run (.before eof ts) :=
  (declUpTo_stops he (ts.length + 1) ts (Nat.lt_succ_self _)).agree (i := some n) (j := none) he
    (fun m hm => by cases hm; exact hn) (fun m hm => by cases hm)

omit he

/-- Every form moves on from a place; a variable is read from its keyword. -/
structure MovesOn (g : Grammar) (c : Cursor) : Prop where
  expr : ∀ p, Reading.MovesOn (g.expr p) c
  arguments : Reading.MovesOn (FoolLang.arguments g.expr) c
  typeName : Reading.MovesOn g.typeName c
  declaration : Reading.MovesOn g.declaration c
  varDecl : c.current.kind = .kwVar → Reading.MovesOn g.varDecl c
  functionDecl : Reading.MovesOn (g.functionDecl g.declaration) c
  classDecl : Reading.MovesOn g.classDecl c

/-- At a place the readings are what their recursion says, with no limit on nesting or on the turns of loops. -/
structure Recurs (g : Grammar) (c : Cursor) : Prop where
  expr : ∀ p, (g.expr p).run c = (g.exprOver g.expr p).run c
  trailing : ∀ p left, (g.goOn g.expr p left).run c = (g.goOnOver g.expr p (g.goOn g.expr p) left).run c
  arguments : LoopsFreely (· == .comma) (advance >>= fun _ => g.expr .default) c
  formals : LoopsFreely (· == .comma) (advance >>= fun _ => g.formal) c
  declaration : g.declaration.run c = (g.declOver g.declaration).run c
  locals : LoopsFreely (· != .kwIn) g.declaration c
  methods : LoopsFreely (· == .kwFun) g.method c
  classes : LoopsFreely (· == .kwClass) g.classDecl c
  globals : LoopsFreely (fun k => k != .kwIn && k != .eof) g.declaration c

/-- At a place a limit above the number of tokens left is none. -/
structure Bounded (g : Grammar) (c : Cursor) : Prop where
  nesting : ∀ n p, c.rest.length < n → (g.exprWithin n p).run c = (g.expr p).run c
  trailing : ∀ n p left, c.rest.length < n → (g.extend g.expr p n left).run c = (g.goOn g.expr p left).run c
  declarations : ∀ n, c.rest.length < n → (g.declWithin n).run c = g.declaration.run c

/--
Reading ends. At every place of every token list, each form takes a token at least where it has a result, and gives
none back where it has a problem; it takes no end of the program, so that it stops at a token of the list. Every
reading is what its recursion says without limits, and as many levels of nesting and turns of a loop as tokens are
left are enough for it.
-/
theorem standard_terminates (ts earlier : List Token) (c : Cursor) (h : Token.withEnd ts = earlier ++ c.tokens) :
    standard.MovesOn c ∧ standard.Recurs c ∧ standard.Bounded c := by
  obtain ⟨eof, us, he, rfl⟩ := Cursor.exists_before h
  have hmoves : ∀ {α : Type} {x : Reading α}, (∀ k, StopsWithin .free eof k 1 fun _ => x) →
      Reading.MovesOn x (.before eof us) := fun hx => Stops.movesOn he (hx _ us (Nat.lt_succ_self _))
  have hloop : ∀ {α : Type} {test : Kind → Bool} {x : Reading α}, (∀ k, StopsWithin .free eof k 1 fun _ => x) →
      LoopsFreely test x (.before eof us) :=
    fun hx => loopsFreely he (fun vs _ => hx _ vs (Nat.lt_succ_self _)) us
  have hmoved : standard.MovesOn (.before eof us) := {
    expr := fun p => hmoves fun _ => expr_stops he p
    arguments := hmoves fun _ => arguments_stops he fun p => (expr_stops he p).weaken
    typeName := hmoves fun _ => typeName_stops he
    declaration := hmoves fun _ => declaration_stops he
    varDecl := fun hk => by
      obtain ⟨t, vs, rfl, ht⟩ := exists_cons_of_kind he hk (by decide)
      exact (varDecl_stops he ht).movesOn he
    functionDecl := (functionDecl_stops he (declaration_stops he) us (Nat.lt_succ_self _)).movesOn he
    classDecl := hmoves fun _ => classDecl_stops he }
  have hrecurs : standard.Recurs (.before eof us) := {
    expr := expr_recursion he us
    trailing := goOn_recursion he us
    -- The comma in front of an item is what each turn of these two takes at least.
    arguments := loopsFreely he (fun _ => afterComma_stops he (expr_stops he .default).weaken (Nat.le_refl _)) us
    formals := loopsFreely he (fun _ => afterComma_stops he (formal_stops he).weaken (Nat.le_refl _)) us
    declaration := declaration_recursion he us
    locals := hloop fun _ => declaration_stops he
    methods := hloop fun _ => method_stops he
    classes := hloop fun _ => classDecl_stops he
    globals := hloop fun _ => declaration_stops he }
  refine ⟨hmoved, hrecurs, fun n p hn => ?_, fun n p left hn => ?_, fun n hn => ?_⟩ <;>
    rw [Cursor.before_rest_length] at hn
  · exact exprWithin_enough he us p hn
  · exact extend_enough he us p hn left
  · exact declWithin_enough he us hn

/-- The tokens of `f(1, !` without an end. -/
def brokenCall : List Token :=
  [⟨.identifier, "f", 1⟩, ⟨.openParen, "(", 1⟩, ⟨.number, "1", 1⟩, ⟨.comma, ",", 1⟩, ⟨.not, "!", 1⟩]

theorem standard_terminates_brokenCall :
    let c : Cursor := ⟨⟨.openParen, "(", 1⟩, brokenCall.drop 2 ++ [.atEnd 1]⟩
    Token.withEnd brokenCall = brokenCall.take 1 ++ c.tokens ∧
      standard.MovesOn c ∧ standard.Recurs c ∧ standard.Bounded c :=
  ⟨by decide, standard_terminates brokenCall (brokenCall.take 1) _ (by decide)⟩

end Grammar

end FoolLang
