/-
Every form of the grammar moves on: wherever the reading of one begins, it stops behind tokens that it has taken, with
a result behind one token at least. So the limits on nesting and on the turns of loops, which are the number of tokens
left, are never met, and the readings are what their recursion says without limits.
-/
import FoolLang.Proofs.Grammar.Soundness
import FoolLang.Proofs.Grammar.Stops

namespace FoolLang

open Reading Sequencing Phrases

variable {ι : Type} {L : Limits ι} {eof t : Token} {ts : List Token} {k : Nat} {r : ι → ExprReader}

namespace Grammar

/-! ## Recursion without limits -/

/-- Goes on from an expression as long as trailing forms follow that bind tighter than a power. -/
def goOn (g : Grammar) (expr : ExprReader) (power : Power) (left : Expr) : Reading Expr := do
  extend g expr power ((← remaining) + 1) left

/-- One trailing form, if one follows that binds tighter than a power, and what comes behind it. -/
def goOnOver (g : Grammar) (expr : ExprReader) (power : Power) (rest : Expr → Reading Expr) (left : Expr) :
    Reading Expr := do
  match g.trailing (← kind) with
  | some (tighter, form) => if power < tighter then rest (← form.read expr left tighter) else return left
  | none => return left

/-- An expression whose parts a reader reads. -/
def exprOver (g : Grammar) (expr : ExprReader) (power : Power) : Reading Expr := do
  match g.leading (← kind) with
  | some form => g.goOn expr power (← form.read expr)
  | none => refuseToken (← get).current

/-- A declaration whose local declarations a reader reads. -/
def declOver (g : Grammar) (decl : Reading Decl) : Reading Decl := do
  match g.decl (← kind) with
  | some .var => g.varDecl
  | some .function => g.functionDecl decl
  | none => refuse "expected a var or fun declaration"

/-- The reader of expressions, or the one that nests no deeper than a limit. -/
def exprUpTo (g : Grammar) : Option Nat → ExprReader
  | none => g.expr
  | some depth => g.exprWithin depth

/-- The reader of declarations, or the one that nests no deeper than a limit. -/
def declUpTo (g : Grammar) : Option Nat → Reading Decl
  | none => g.declaration
  | some depth => g.declWithin depth

theorem exprWithin_succ (g : Grammar) (depth : Nat) : g.exprWithin (depth + 1) = g.exprOver (g.exprWithin depth) := rfl

theorem declWithin_succ (g : Grammar) (depth : Nat) : g.declWithin (depth + 1) = g.declOver (g.declWithin depth) := rfl

end Grammar

/-! ## Expressions -/

theorem numeral_ended (text : String) (line : Nat) : ∃ o : Except Diagnostic Expr,
    (∀ c, (numeral text line).run c = ended o c) ∧ ∀ d, o = .error d → d = ⟨.numberParseError text, line⟩ := by
  unfold numeral
  cases Text.int32? text.toList with
  | some n => exact ⟨.ok (.int n line), fun _ => rfl, fun _ h => by cases h⟩
  | none => exact ⟨.error ⟨.numberParseError text, line⟩, fun _ => rfl, fun _ h => by cases h; rfl⟩

/-- A number that is taken, and read in some spelling. -/
theorem numeral_stops (ht : t.kind = .number) (spelling : Token → String) :
    Stops L eof (t :: ts) 1 fun _ => advance >>= fun u => numeral (spelling u) u.line := by
  obtain ⟨o, hrun, ho⟩ := numeral_ended (spelling t) t.line
  refine ⟨o, [t], ts, rfl, List.forall_mem_singleton.mpr (by rw [ht]; decide), fun _ _ => Nat.le_refl 1, ?_, ?_⟩
  · rintro d hd
    rw [ho d hd]
    exact .number _ (List.mem_singleton_self t) ht
  · intro eof' us' i _ _ _
    rw [List.singleton_append, bind_run (run_advance _), Cursor.before_cons_current, Cursor.before_cons_next]
    exact hrun _

namespace Leading

theorem readLiteral_stops (ht : Grammar.standard.leading t.kind = some .literal) :
    Stops L eof (t :: ts) 1 fun _ => readLiteral := by
  have hk : t.kind ∈ opening .literal := leading_kind ht
  simp only [opening, List.mem_cons, List.not_mem_nil, or_false] at hk
  rcases hk with hk | hk
  · have hnumber : Stops L eof (t :: ts) 1 fun _ => advance >>= fun u => numeral u.value u.line :=
      numeral_stops hk (·.value)
    refine hnumber.of_run fun i eof' vs _ hvs hi => ⟨i, hi, ?_⟩
    unfold readLiteral
    rw [bind_run (run_advance _), bind_run (run_advance _), hvs]
    simp only [Cursor.before_cons_current, hk]
  · unfold readLiteral
    rcases hk with hk | hk | hk <;>
    · refine .advance (by rw [hk]; decide) ?_
      simp only [hk]
      exact .pure _

end Leading

section

variable (he : eof.kind = .eof) (h : ∀ p, StopsWithin L eof k 0 fun i => r i p)

include he h

theorem arguments_stops : StopsWithin L eof k 1 fun i => arguments (r i) := commaList_stops he (h .default)

theorem Leading.readBraced_stops : StopsWithin L eof k 1 fun i => readBraced (r i) :=
  (StopsWithin.expect he (by decide)).bind fun _ => (h .default).bind fun e =>
    (StopsWithin.expect he (by decide)).bind fun _ => .pure e

end

variable (he : eof.kind = .eof) (h : ∀ p, StopsWithin (L.after 1) eof k 0 fun i => r i p)

include he h

theorem Leading.read_stops {form : Leading} (ht : Grammar.standard.leading t.kind = some form) (hts : ts.length < k) :
    Stops L eof (t :: ts) 1 fun i => form.read (r i) := by
  have hk : t.kind ≠ .eof := ne_eof_of_form Grammar.standard.leading rfl ht
  have hexpect : ∀ {kd : Kind} (e : Expr), kd ≠ .eof →
      StopsWithin (L.after 1) eof k 0 fun _ => Reading.expect kd >>= fun _ => pure e := fun e hkd =>
    (StopsWithin.expect he hkd).weaken.bind fun _ => .pure e
  cases form with
  | literal => exact readLiteral_stops ht
  | name =>
    have hargs := (arguments_stops he h).weaken.bind fun es => .pure (Expr.call t.value es none t.line)
    exact .advance hk (StopsWithin.ite (p := (· = .openParen)) hargs (.pure (.id t.value none t.line)) ts hts)
  | negative =>
    refine .advance hk (.kind ?_)
    by_cases hn : (Cursor.before eof ts).current.kind = .number
    · obtain ⟨u, us, rfl, hu⟩ := exists_cons_of_kind he hn (by decide)
      simp only [if_pos hn]
      exact (numeral_stops hu fun u => String.ofList ('-' :: u.value.toList)).mono (Nat.zero_le 1) fun _ _ hi => hi
    · simp only [if_neg hn]
      exact .refuse _
  | not => exact .advance hk ((h .unary).bind (fun _ => .pure _) ts hts)
  | group => exact .advance hk ((h .default).bind (fun e => hexpect e (by decide)) ts hts)
  | new =>
    have hargs := fun u : Token => (arguments_stops he h).bind fun es => .pure (Expr.new u.value es none u.line)
    exact .advance hk ((StopsWithin.expectAs he (by decide) _).weaken.bind hargs ts hts)
  | cond =>
    have hbraced := readBraced_stops he h
    refine .advance hk ((h .default).bind (m := 1) (fun _ => ?_) ts hts)
    exact (StopsWithin.expect he (by decide)).bind fun _ => hbraced.bind fun _ =>
      (StopsWithin.expect he (by decide)).bind fun _ => hbraced.bind fun _ => .pure _
  | print =>
    refine .advance hk ((StopsWithin.expect he (by decide)).weaken.bind (m := 0) (fun _ => ?_) ts hts)
    exact (h .default).bind fun e => hexpect (.print e t.line) (by decide)

theorem Trailing.read_stops {form : Trailing} {q : Power} (ht : Grammar.standard.trailing t.kind = some (q, form))
    (hts : ts.length < k) (left : Expr) : Stops L eof (t :: ts) 1 fun i => form.read (r i) left q := by
  have hk : t.kind ≠ .eof := ne_eof_of_form Grammar.standard.trailing rfl ht
  cases form with
  | binary =>
    obtain ⟨op, hop⟩ : ∃ op, BinaryOp.ofKind? t.kind = some op := by
      revert ht
      cases t.kind <;> intro ht <;> cases ht <;> exact ⟨_, rfl⟩
    refine .advance hk ?_
    simp only [hop]
    exact (h q).bind (fun _ => .pure _) ts hts
  | methodCall =>
    have hargs := fun u : Token => (arguments_stops he h).bind fun es =>
      .pure (Expr.methodCall left u.value es none u.line)
    refine .advance hk ((StopsWithin.expectAs he (by decide) _).weaken.bind (m := 1) (fun u => ?_) ts hts)
    exact .ite (hargs u) (.refuse _)

omit h

/-- The loop over trailing forms stops, if the operands do that it reads. -/
theorem Grammar.extend_stops {p : Power} (h : ∀ p, StopsWithin (L.after 1) eof k 0 fun i => r i p) :
    ∀ n ≤ k, ∀ left, StopsWithin (L.turns 0) eof n 0 fun j => standard.extend (r j.1) p j.2 left := by
  intro n
  induction n with
  | zero => exact fun _ _ _ hts => absurd hts (Nat.not_lt_zero _)
  | succ n ih =>
    intro hn left ts hts
    have hturn : Stops (L.turns 1) eof ts 0 fun j => Reading.kind >>= fun kd =>
        match standard.trailing kd with
        | some (tighter, form) =>
          if p < tighter then form.read (r j.1) left tighter >>= fun e => standard.extend (r j.1) p j.2 e
          else pure left
        | none => pure left := by
      refine .kind ?_
      split
      · rename_i q form ht
        obtain ⟨t, us, rfl⟩ := exists_cons he (ne_eof_of_form standard.trailing rfl ht)
        split
        · rw [List.length_cons] at hts
          have hread : Stops (L.turns 1) eof (t :: us) 1 fun j => form.read (r j.1) left q :=
            (Trailing.read_stops he h ht (by omega) left).of_run fun j _ _ _ _ hj => ⟨j.1, hj.1, rfl⟩
          refine (hread.bind_after fun e vs hvs => ?_).mono (Nat.zero_le 1) fun _ _ hj => hj
          rw [List.length_cons] at hvs
          exact (ih (Nat.le_of_succ_le hn) e vs (by omega)).mono (Nat.le_refl 0)
            fun j m hj => ⟨L.anti (Nat.le_add_left m 1) hj.1, by have := hj.2; omega⟩
        · exact .pure left
      · exact .pure left
    refine hturn.of_run fun j eof' vs _ _ hj => ?_
    obtain ⟨i, m⟩ := j
    obtain ⟨m, rfl⟩ : ∃ m', m = m' + 1 := ⟨m - 1, by have := hj.2; omega⟩
    exact ⟨(i, m), hj, rfl⟩

theorem Grammar.goOn_stops {p : Power} (h : ∀ p, StopsWithin (L.after 1) eof k 0 fun i => r i p) (left : Expr) :
    StopsWithin L eof k 0 fun i => standard.goOn (r i) p left := by
  intro ts hts
  refine (extend_stops (p := p) he h k (Nat.le_refl k) left ts hts).of_run fun i eof' vs _ _ hj =>
    ⟨(i, vs.length + 1), ⟨hj, Nat.lt_succ_self _⟩, ?_⟩
  rw [goOn, bind_run (run_remaining _), Cursor.before_rest_length]

theorem Grammar.exprOver_stops (h : ∀ p, StopsWithin (L.after 1) eof k 0 fun i => r i p) (p : Power) :
    StopsWithin L eof (k + 1) 1 fun i => standard.exprOver (r i) p := by
  intro ts hts
  refine .kind ?_
  split
  · rename_i form ht
    obtain ⟨t, us, rfl⟩ := exists_cons he (ne_eof_of_form standard.leading rfl ht)
    rw [List.length_cons] at hts
    refine (Leading.read_stops he h ht (by omega)).bind_after fun e vs hvs => ?_
    rw [List.length_cons] at hvs
    refine goOn_stops (k := k) he (fun p us hus => ?_) e vs (by omega)
    exact (h p us hus).mono (Nat.le_refl 0) fun _ n hi => L.anti (by omega) hi
  · exact .refuseCurrent

/--
The reader of expressions stops behind a token at least, and a limit that leaves room for all tokens is never met.
-/
theorem Grammar.exprUpTo_stops : ∀ (k : Nat) (p : Power),
    StopsWithin (.depth 0) eof k 1 fun i => standard.exprUpTo i p
  | 0, _ => fun _ hts => absurd hts (Nat.not_lt_zero _)
  | k + 1, p => by
    intro ts hts
    have hparts : ∀ p, StopsWithin ((Limits.depth 1).after 1) eof k 0 fun i => standard.exprUpTo i p := fun p us hus =>
      (exprUpTo_stops k p us hus).mono (Nat.zero_le 1) fun i n hi m hm => by have := hi m hm; omega
    refine (exprOver_stops he hparts p ts hts).of_run fun i eof' vs _ _ hi => ?_
    cases i with
    | none => exact ⟨some vs.length, fun m hm => by cases hm; exact Nat.lt_succ_self _, by
        show (standard.expr p).run _ = _
        rw [expr, bind_run (run_remaining _), Cursor.before_rest_length]
        rfl⟩
    | some n =>
      obtain ⟨n, rfl⟩ : ∃ m, n = m + 1 := ⟨n - 1, by have := hi n rfl; omega⟩
      exact ⟨some n, fun m hm => by cases hm; exact hi _ rfl, rfl⟩

/-! ## Declarations -/

namespace Grammar

/-- Reading an expression knows of no limits. -/
theorem expr_stops (p : Power) : StopsWithin L eof k 1 fun _ => standard.expr p :=
  fun ts hts => (exprUpTo_stops he k p ts hts).of_run fun _ _ _ _ _ _ => ⟨none, fun _ hm => (by cases hm), rfl⟩

theorem typeName_stops : StopsWithin L eof k 1 fun _ => standard.typeName := by
  intro ts _
  refine .kind ?_
  split
  · rename_i form hform
    obtain ⟨t, ts, rfl⟩ := exists_cons he (ne_eof_of_form standard.type rfl hform)
    cases form with
    | primitive =>
      have hk : t.kind = .kwInt ∨ t.kind = .kwBool := by
        revert hform
        cases hk : (Cursor.before eof (t :: ts)).current.kind <;> intro h <;> cases h
        · exact .inl hk
        · exact .inr hk
      rcases hk with hk | hk
      all_goals
        refine .advance (by rw [hk]; decide) ?_
        simp only [hk]
        exact .pure _
    | className => exact (Stops.expect he (by decide)).bind fun _ _ _ _ _ => .pure _
  · exact .refuse _

theorem formal_stops : StopsWithin L eof k 1 fun _ => standard.formal :=
  (StopsWithin.expect he (by decide)).bind fun _ => (StopsWithin.expect he (by decide)).bind fun _ =>
    (typeName_stops he).bind fun _ => .pure _

theorem formals_stops : StopsWithin L eof k 1 fun _ => standard.formals := commaList_stops he (formal_stops he).weaken

theorem varDecl_stops (ht : t.kind = .kwVar) : Stops L eof (t :: ts) 1 fun _ => standard.varDecl := by
  refine .advance (by rw [ht]; decide) ?_
  refine .of_within ?_ (Nat.lt_succ_self _)
  exact (StopsWithin.expectAs he (by decide) _).weaken.bind fun _ => (StopsWithin.expect he (by decide)).bind fun _ =>
    (typeName_stops he).bind fun _ => (StopsWithin.expect he (by decide)).bind fun _ =>
      (expr_stops he .default).bind fun _ => (StopsWithin.expect he (by decide)).bind fun _ => .pure _

theorem header_stops : StopsWithin L eof k 1 fun _ => standard.header :=
  (StopsWithin.expect he (by decide)).bind fun _ => (StopsWithin.expectAs he (by decide) _).bind fun _ =>
    (StopsWithin.expect he (by decide)).bind fun _ => (typeName_stops he).bind fun _ =>
      (formals_stops he).bind fun _ => .pure _

variable {decl : ι → Reading Decl}

theorem localDecls_stops (h : StopsWithin L eof k 1 decl) : StopsWithin L eof k 0 fun i => localDecls (decl i) := by
  intro ts hts
  refine .kind ?_
  by_cases hl : (Cursor.before eof ts).current.kind = .kwLet
  · obtain ⟨t, us, rfl, ht⟩ := exists_cons_of_kind he hl (by decide)
    simp only [if_pos hl]
    have hmore : StopsWithin L eof k 0 fun i => many (· != .kwIn) (decl i) := many_stops fun ts hts _ => h ts hts
    refine (Stops.advance (by rw [ht]; decide) ?_).mono (Nat.zero_le 1) fun _ _ hi => hi
    refine (Stops.of_within ?_ (Nat.lt_of_succ_lt hts)).mono (Nat.le_refl 0) fun _ n hi =>
      L.anti (Nat.le_add_left n 1) hi
    exact h.weaken.bind fun _ => hmore.bind fun _ => (StopsWithin.expect he (by decide)).bind fun _ => .pure _
  · simp only [if_neg hl]
    exact .pure []

theorem routine_stops (h : StopsWithin (L.after 1) eof k 1 decl) :
    StopsWithin L eof (k + 1) 1 fun i => standard.routine (decl i) := by
  intro ts hts
  refine (header_stops he ts hts).bind_after fun header us hus => ?_
  refine .of_within ?_ (by omega : us.length < k)
  exact (localDecls_stops he h).bind fun _ => (expr_stops he .default).bind fun _ =>
    (StopsWithin.expect he (by decide)).bind fun _ => .pure _

theorem functionDecl_stops (h : StopsWithin (L.after 1) eof k 1 decl) :
    StopsWithin L eof (k + 1) 1 fun i => standard.functionDecl (decl i) :=
  (routine_stops he h).bind fun _ => .pure _

theorem declOver_stops (h : StopsWithin (L.after 1) eof k 1 decl) :
    StopsWithin L eof (k + 1) 1 fun i => standard.declOver (decl i) := by
  intro ts hts
  refine .kind ?_
  split
  · rename_i hform
    obtain ⟨t, us, rfl⟩ := exists_cons he (ne_eof_of_form standard.decl rfl hform)
    refine varDecl_stops he ?_
    revert hform
    cases hk : (Cursor.before eof (t :: us)).current.kind <;> intro h <;> cases h
    exact hk
  · exact functionDecl_stops he h ts hts
  · exact .refuse _

/--
The reader of declarations stops behind a token at least, and a limit that leaves room for all tokens is never met.
-/
theorem declUpTo_stops : ∀ k, StopsWithin (.depth 0) eof k 1 fun i => standard.declUpTo i
  | 0 => fun _ hts => absurd hts (Nat.not_lt_zero _)
  | k + 1 => by
    intro ts hts
    have hparts : StopsWithin ((Limits.depth 1).after 1) eof k 1 fun i => standard.declUpTo i := fun us hus =>
      (declUpTo_stops k us hus).mono (Nat.le_refl 1) fun i n hi m hm => by have := hi m hm; omega
    refine (declOver_stops he hparts ts hts).of_run fun i eof' vs _ _ hi => ?_
    cases i with
    | none => exact ⟨some vs.length, fun m hm => by cases hm; exact Nat.lt_succ_self _, by
        show standard.declaration.run _ = _
        rw [declaration, bind_run (run_remaining _), Cursor.before_rest_length]
        rfl⟩
    | some n =>
      obtain ⟨n, rfl⟩ : ∃ m, n = m + 1 := ⟨n - 1, by have := hi n rfl; omega⟩
      exact ⟨some n, fun m hm => by cases hm; exact hi _ rfl, rfl⟩

theorem declaration_stops : StopsWithin L eof k 1 fun _ => standard.declaration :=
  fun ts hts => (declUpTo_stops he k ts hts).of_run fun _ _ _ _ _ _ => ⟨none, fun _ hm => (by cases hm), rfl⟩

theorem method_stops : StopsWithin L eof k 1 fun _ => standard.method := by
  intro ts hts
  refine .of_within ?_ (Nat.lt_succ_of_lt hts)
  exact (routine_stops he (declaration_stops he)).bind fun _ => .pure _

theorem classDecl_stops : StopsWithin L eof k 1 fun _ => standard.classDecl := by
  have hmethods : StopsWithin L eof k 0 fun _ => many (· == .kwFun) standard.method :=
    many_stops fun ts hts _ => method_stops he ts hts
  exact (StopsWithin.expect he (by decide)).bind fun _ => (StopsWithin.expectAs he (by decide) _).bind fun _ =>
    (formals_stops he).bind fun _ => (StopsWithin.expect he (by decide)).bind fun _ =>
      hmethods.bind fun _ => (StopsWithin.expectAs he (by decide) _).bind fun _ => .pure _

/-! ## Programs -/

theorem programBody_stops : StopsWithin L eof k 1 fun _ => standard.programBody :=
  (expr_stops he .default).bind fun _ => (StopsWithin.expect he (by decide)).bind fun _ => .pure _

theorem programText_stops : StopsWithin L eof k 1 fun _ => standard.programText := by
  intro ts hts
  refine .kind ?_
  by_cases hl : (Cursor.before eof ts).current.kind = .kwLet
  · obtain ⟨t, us, rfl, ht⟩ := exists_cons_of_kind he hl (by decide)
    simp only [if_pos hl]
    have hclasses : StopsWithin (L.after 1) eof k 0 fun _ => many (· == .kwClass) standard.classDecl :=
      many_stops fun ts hts _ => classDecl_stops he ts hts
    have hdecls : StopsWithin (L.after 1) eof k 0 fun _ =>
        many (fun k => k != .kwIn && k != .eof) standard.declaration :=
      many_stops fun ts hts _ => declaration_stops he ts hts
    refine .advance (by rw [ht]; decide) (.of_within ?_ (Nat.lt_of_succ_lt hts))
    refine hclasses.bind fun classes => hdecls.bind (m := 1) fun decls => ?_
    split
    · exact .refuse _
    · exact (StopsWithin.expect he (by decide)).bind fun _ => (programBody_stops he).bind fun _ => .pure _
  · simp only [if_neg hl]
    exact (programBody_stops he).bind (fun _ => .pure _) ts hts

theorem program_stops : StopsWithin L eof k 1 fun _ => standard.program := by
  refine (programText_stops he).bind (m := 0) fun p => ?_
  have hend : StopsWithin L eof k 0 fun _ => Reading.kind >>= fun kd =>
      if kd = .eof then pure p else refuse "expected end of program" :=
    .ite (p := (· = .eof)) (.pure p) (.refuse _)
  refine fun ts hts => (hend ts hts).of_run fun i eof' vs _ _ hi => ⟨i, hi, ?_⟩
  rw [bind_run (run_kind _), bind_run (EStateM.run_get _)]
  by_cases h : (Cursor.before eof' vs).current.kind = .eof <;> simp [Cursor.hasTokens, h]

end Grammar

end FoolLang
