/-
Every form is viable: tokens that it has taken before one that it does not expect begin a phrase of the form. In the
loop over trailing forms that phrase goes on from the expression in front of it, whose grade fits the operator that
comes next.
-/
import FoolLang.Proofs.Grammar.Viability

namespace FoolLang.Phrases

open Reading Sequencing

variable {eof : Token}

/-! ## Expressions -/

/-- A number in some spelling. -/
def IsNumeral (spelling : Token → String) (ws : List Token) (e : Expr) : Prop :=
  ∃ t v, ws = [t] ∧ t.kind = .number ∧ Text.int32? (spelling t).toList = some v ∧ e = .int v t.line

/-- A number that is out of range is not a token that does not fit. -/
theorem not_unexpected_of_numeral {text : String} {line : Nat} {c c' : Cursor} {d : Diagnostic}
    (h : (numeral text line).run c = .error d c') : ¬ d.Unexpected := by
  unfold numeral at h
  split at h
  · cases h
  · cases h
    rintro ⟨_, h | ⟨_, h⟩⟩ <;> cases h

theorem numeral_viable (he : eof.kind = .eof) (spelling : Token → String) (hfill : ∃ ws e, IsNumeral spelling ws e) :
    Viable (· = .number) eof (advance >>= fun t => numeral (spelling t) t.line) (IsNumeral spelling) where
  sound hp hr := by
    obtain ⟨t, us, rfl, ht⟩ := exists_cons_of_kind he hp (by decide)
    rw [bind_run (run_advance _), Cursor.before_cons_current, Cursor.before_cons_next] at hr
    obtain ⟨rfl, v, hv, rfl⟩ := numeral_ok hr
    exact ⟨[t], us, rfl, rfl, t, v, rfl, ht, hv, rfl⟩
  begins _ hr hd := by
    rw [bind_run (run_advance _)] at hr
    exact absurd hd (not_unexpected_of_numeral hr)
  filled := hfill

/-- A form that only tokens of one kind begin is read where there is one. -/
theorem Viable.of_opening {α : Type} {form : Leading} {k : Kind} {x : Reading α} {R : List Token → α → Prop}
    (hk : opening form = [k]) (h : Viable (· = k) eof x R) : Viable (Grammar.standard.leading · = some form) eof x R :=
  h.guard fun _ hform => List.mem_singleton.mp (hk ▸ leading_kind hform)

section Expressions

variable {expr : ExprReader} (he : eof.kind = .eof)
  (h : ∀ p, ViableAll eof (expr p) fun ws e => Derives ws (.expr (grade p) e))

include he h

theorem arguments_viable : ViableAll eof (arguments expr) fun ws es => Derives ws (.arguments es) :=
  (commaList_viable he (h .default)).mono fun _ _ => derives_arguments

theorem readBraced_viable : ViableAll eof (Leading.readBraced expr) fun ws e => ∃ l us r, ws = l :: us ++ [r] ∧
    l.kind = .openCurly ∧ IsExpr us e ∧ r.kind = .closeCurly :=
  (Viable.expect he (by decide)).take fun l hl => (h .default).bind fun us _ hu =>
    (Viable.expect he (by decide)).take fun r hr => .pure ⟨l, us, r, rfl, hl, hu, hr⟩

theorem leading_viable (hs : ∀ p, SoundAt eof (expr p) p) (form : Leading) :
    Viable (Grammar.standard.leading · = some form) eof (form.read expr) fun ws e => Derives ws (.expr 5 e) := by
  cases form with
  | literal =>
    refine ⟨fun {ts a c} hp hr => ?_, fun {ts d c} hp hr hd => ?_, [⟨.kwNull, "", 0⟩], _, .null rfl⟩
    · obtain ⟨t, us, rfl⟩ := exists_cons he (ne_eof_of_form Grammar.standard.leading rfl hp)
      obtain ⟨ws, us, rfl, rfl, ha⟩ := leading_sound he hs hp hr
      exact ⟨t :: ws, us, rfl, rfl, ha.mono (Nat.le_max_left ..)⟩
    · unfold Leading.read Leading.readLiteral at hr
      rw [bind_run (run_advance _)] at hr
      have hk := leading_kind hp
      simp only [opening, List.mem_cons, List.not_mem_nil, or_false] at hk
      rcases hk with hk | hk | hk | hk <;> simp only [hk] at hr
      · exact absurd hd (not_unexpected_of_numeral hr)
      all_goals cases hr
  | name =>
    refine .of_opening rfl ((Viable.advance he (by decide)).take fun t ht => .ite (p := (· = .openParen))
      (.anywhere ((arguments_viable he h).bind fun ts es hes => .pure ?_)) (.pure (.name ht)))
    simpa using Derives.call ht hes
  | negative =>
    have hone : ∃ ws e, IsNumeral (fun u => String.ofList ('-' :: u.value.toList)) ws e :=
      ⟨[⟨.number, "1", 0⟩], .int (-1) 0, _, _, rfl, rfl, by decide, rfl⟩
    have hnumber := Viable.ite (p := (· = .number)) (q := fun _ => True) (numeral_viable he _ hone)
      (.refuse "only number literals can be negated" hone)
    refine .of_opening rfl ((Viable.advance he (by decide)).take fun d hd => hnumber.mono fun ws e hw => ?_)
    obtain ⟨t, v, rfl, ht, hv, rfl⟩ := hw
    exact .negative hd ht (by simpa using hv)
  | not =>
    refine .of_opening rfl ((Viable.advance he (by decide)).take fun t ht => (h .unary).bind fun ws e hws => .pure ?_)
    simpa using Derives.not (Nat.le_refl 5) ht hws
  | group =>
    refine .of_opening rfl ((Viable.advance he (by decide)).take fun l hl => (h .default).bind fun ws e hws =>
      (Viable.expect he (by decide)).take fun r hr => .pure ?_)
    simpa using Derives.group hl hws hr
  | new =>
    refine .of_opening rfl ((Viable.advance he (by decide)).take fun k hk => (Viable.expectAs he (by decide) _).take
      fun t ht => (arguments_viable he h).bind fun ts es hes => .pure ?_)
    simpa using Derives.new hk ht hes
  | cond =>
    refine .of_opening rfl ((Viable.advance he (by decide)).take fun i hi => (h .default).bind fun cs c hc =>
      (Viable.expect he (by decide)).take fun th hth => (readBraced_viable he h).bind fun _ a ha =>
        (Viable.expect he (by decide)).take fun el hel => (readBraced_viable he h).bind fun _ b hb => .pure ?_)
    obtain ⟨l₁, as, r₁, rfl, hl₁, ha, hr₁⟩ := ha
    obtain ⟨l₂, bs, r₂, rfl, hl₂, hb, hr₂⟩ := hb
    simpa using Derives.cond hi hc hth hl₁ ha hr₁ hel hl₂ hb hr₂
  | print =>
    refine .of_opening rfl ((Viable.advance he (by decide)).take fun k hk => (Viable.expect he (by decide)).take
      fun l hl => (h .default).bind fun ws e hws => (Viable.expect he (by decide)).take fun r hr => .pure ?_)
    simpa using Derives.print hk hl hws hr

/-- A trailing form makes a phrase together with an expression in front of it that its operator can use. -/
theorem trailing_viable {k : Kind} {q : Power} {form : Trailing} {ws : List Token} {left : Expr}
    (hform : Grammar.standard.trailing k = some (q, form)) (hl : Derives ws (.expr q.rank left)) :
    Viable (· = k) eof (form.read expr left q) fun vs e => Derives (ws ++ vs) (.expr q.rank e) := by
  have hk : k ≠ .eof := ne_eof_of_form Grammar.standard.trailing rfl hform
  cases form with
  | binary =>
    obtain ⟨op, hop⟩ : ∃ op, BinaryOp.ofKind? k = some op := by
      revert hform
      cases k <;> intro h <;> cases h <;> exact ⟨_, rfl⟩
    obtain ⟨hmark, hq⟩ := trailing_binary hform hop
    have hle := tightness_le op
    have hgrade : grade q = op.tightness + 1 := by unfold grade; omega
    have hread : Viable (· = k) eof (advance >>= fun t => expr q >>= fun r => pure (Expr.binary op left r t.line))
        fun vs e => Derives (ws ++ vs) (.expr q.rank e) := by
      refine (Viable.advance he hk).take fun t ht => (h q).bind fun rs r hr => .pure ?_
      simpa using Derives.binary (Nat.le_of_eq hq.symm) (hq ▸ hl) (ht.trans hmark) (hgrade ▸ hr)
    refine hread.of_run fun ts hts => ?_
    unfold Trailing.read Trailing.readBinary
    rw [bind_run (run_advance _), bind_run (run_advance _), hts, hop]
  | methodCall =>
    obtain ⟨rfl, rfl⟩ := trailing_methodCall hform
    refine (Viable.advance he hk).take fun d hd => (Viable.expectAs he (by decide) _).take fun t ht => ?_
    have hsend : ViableAll eof (arguments expr >>= fun es => pure (Expr.methodCall left t.value es none t.line))
        fun vs e => Derives (ws ++ d :: t :: vs) (.expr Power.member.rank e) := by
      refine (arguments_viable he h).bind fun ts es hes => .pure ?_
      simpa [Power.rank] using Derives.methodCall (Nat.le_refl 6) hl hd ht hes
    exact .ite (p := (· = .openParen)) hsend.anywhere (.refuse _ hsend.filled)

/--
Where the loop over trailing forms does not go on, what it has read begins an expression with what is in front of it.
-/
theorem extend_begins (hs : ∀ p, SoundAt eof (expr p) p) {p : Power} {d : Diagnostic} {c : Cursor} (hd : d.Unexpected) :
    ∀ (n : Nat) (ws ts : List Token) (left : Expr), Derives ws (.expr (max (grade p) (nextRank eof ts)) left) →
      (Grammar.standard.extend expr p n left).run (.before eof ts) = .error d c →
      ∃ vs us, ts = vs ++ us ∧ c = .before eof us ∧ Begins (fun vs e => Derives (ws ++ vs) (.expr (grade p) e)) vs
  | 0, _, _, _, _, hr => by cases hr
  | n + 1, ws, ts, left, hl, hr => by
    rw [Grammar.extend, bind_run (run_kind _)] at hr
    split at hr
    · rename_i q form hform
      split at hr
      · rename_i hp
        have hleft : Derives ws (.expr q.rank left) := hl.mono (nextRank_of_trailing hform ▸ Nat.le_max_right _ _)
        rcases bind_error hr with hr | ⟨e, c, hread, hr⟩
        · have hgrade : grade p ≤ q.rank := by
            have hp : p.rank < q.rank := hp
            unfold grade
            omega
          obtain ⟨vs, us, hts, hc, more, e, he⟩ := (trailing_viable he h hform hleft).begins rfl hr hd
          exact ⟨vs, us, hts, hc, more, e, he.mono hgrade⟩
        · obtain ⟨t, vs, us, rfl, rfl, he⟩ := trailing_sound he hs hform hp hleft hread
          obtain ⟨vs', us, rfl, rfl, more, e, he⟩ := extend_begins hs hd n _ us e he hr
          exact ⟨t :: vs ++ vs', us, by simp, rfl, more, e, by simpa using he⟩
      · cases hr
    · cases hr

end Expressions

/-- A name is an expression of every grade. -/
theorem derives_name (n : Nat) : Derives [⟨.identifier, "", 0⟩] (.expr n (.id "" none 0)) :=
  Derives.name (t := ⟨.identifier, "", 0⟩) rfl

theorem exprWithin_viable (he : eof.kind = .eof) : ∀ (depth : Nat) (p : Power),
    ViableAll eof (Grammar.standard.exprWithin depth p) fun ws e => Derives ws (.expr (grade p) e)
  | 0, p => .of_error ⟨_, _, derives_name _⟩ fun _ => ⟨_, rfl⟩
  | depth + 1, p => by
    refine ⟨fun _ hr => ?_, fun {ts d c} _ hr hd => ?_, _, _, derives_name _⟩
    · obtain ⟨ws, us, hts, hc, h, -⟩ := exprWithin_sound he (depth + 1) p _ _ _ hr
      exact ⟨ws, us, hts, hc, h⟩
    · have ih := exprWithin_viable he depth
      have hs := exprWithin_sound he depth
      rw [Grammar.exprWithin, bind_run (run_kind _)] at hr
      split at hr
      · rename_i form hform
        rcases bind_error hr with hr | ⟨left, c₁, hread, hr⟩
        · have hgrade : grade p ≤ 5 := Nat.min_le_right _ _
          exact ((leading_viable he ih hs form).mono fun _ _ h => h.mono hgrade).begins hform hr hd
        · obtain ⟨t, ts, rfl⟩ := exists_cons he (ne_eof_of_form Grammar.standard.leading rfl hform)
          obtain ⟨ws, us, rfl, rfl, hl⟩ := leading_sound he hs hform hread
          have hgrade : max (grade p) (nextRank eof us) ≤ max 5 (nextRank eof us) := by
            unfold grade; omega
          rw [bind_run (run_remaining _)] at hr
          obtain ⟨vs, us, rfl, rfl, more, e, he⟩ := extend_begins he ih hs hd _ _ us left (hl.mono hgrade) hr
          exact ⟨t :: ws ++ vs, us, by simp, rfl, more, e, by simpa using he⟩
      · cases hr
        exact ⟨[], ts, rfl, rfl, _, _, derives_name _⟩

theorem expr_viable (he : eof.kind = .eof) : ViableAll eof (Grammar.standard.expr .default) IsExpr :=
  ⟨fun _ hr => (exprWithin_viable he _ .default).sound trivial (bind_run (run_remaining _) ▸ hr),
    fun _ hr => (exprWithin_viable he _ .default).begins trivial (bind_run (run_remaining _) ▸ hr), _, _,
      derives_name _⟩

/-! ## Declarations -/

section Declarations

variable (he : eof.kind = .eof)

include he

theorem typeName_viable : ViableAll eof Grammar.standard.typeName fun ws type => ∃ t, ws = [t] ∧ IsType t type := by
  have hfill : ∃ ws type, ∃ t, ws = [t] ∧ IsType t type := ⟨_, _, ⟨.kwInt, "", 0⟩, rfl, .int rfl⟩
  refine ⟨fun _ hr => typeName_sound he _ _ _ hr, fun {ts d c} _ hr _ => ?_, hfill⟩
  by_cases hform : Grammar.standard.type (Cursor.before eof ts).current.kind = none
  · rw [Grammar.typeName, bind_run (run_kind _), hform] at hr
    cases hr
    exact ⟨[], ts, rfl, rfl, hfill⟩
  · -- A form of type is picked by its only token, so that reading it does not fail.
    obtain ⟨form, hform⟩ := Option.ne_none_iff_exists'.mp hform
    obtain ⟨t, us, rfl⟩ := exists_cons he (ne_eof_of_form Grammar.standard.type rfl hform)
    obtain ⟨type, ht⟩ : ∃ type, IsType t type := by
      rw [Cursor.before_cons_current] at hform
      cases hk : t.kind <;> rw [hk] at hform <;> cases hform
      · exact ⟨_, .ref hk⟩
      · exact ⟨_, .int hk⟩
      · exact ⟨_, .bool hk⟩
    rw [typeName_run eof ht] at hr
    cases hr

theorem formal_viable : ViableAll eof Grammar.standard.formal IsFormal := by
  refine (Viable.expect he (by decide)).take fun x hx => (Viable.expect he (by decide)).take fun c hc =>
    (typeName_viable he).bind fun _ type ht => .pure ?_
  obtain ⟨t, rfl, ht⟩ := ht
  exact .intro hx hc ht

theorem header_viable : ViableAll eof Grammar.standard.header IsHeader := by
  refine (Viable.expect he (by decide)).take fun k hk => (Viable.expectAs he (by decide) _).take fun f hf =>
    (Viable.expect he (by decide)).take fun c hc => (typeName_viable he).bind fun _ result ht =>
      (commaList_viable he (formal_viable he)).bind fun ts params hts => .pure ?_
  obtain ⟨t, rfl, ht⟩ := ht
  simpa using IsHeader.intro hk hf hc ht hts

theorem localDecls_viable {decl : Reading Decl} (h : ViableAll eof decl IsDecl) :
    ViableAll eof (Grammar.localDecls decl) fun ws ds => DeclDerives ws (.locals ds) := by
  refine .ite (p := (· = .kwLet)) ((Viable.advance he (by decide)).take fun l hl => h.bind fun ws d hd =>
    (many_viable h.anywhere).bind fun vs ds hds => (Viable.expect he (by decide)).take fun i hi =>
      .pure ?_) (.pure .noLocals)
  simpa using DeclDerives.locals hl (.cons hd (derives_decls hds)) hi

theorem routine_viable {decl : Reading Decl} (h : ViableAll eof decl IsDecl) :
    ViableAll eof (Grammar.standard.routine decl) IsRoutine :=
  (header_viable he).bind fun hs _ hh => (localDecls_viable he h).bind fun ls _ hl =>
    (expr_viable he).bind fun bs _ hb =>
    (Viable.expect he (by decide)).take fun s hs' => .pure ⟨hs, ls, bs, s, by simp, hh, hl, hb, hs'⟩

theorem varDecl_viable : Viable (· = .kwVar) eof Grammar.standard.varDecl IsDecl := by
  refine (Viable.advance he (by decide)).take fun k hk => (Viable.expectAs he (by decide) _).take fun x hx =>
    (Viable.expect he (by decide)).take fun c hc => (typeName_viable he).bind fun _ type ht =>
      (Viable.expect he (by decide)).take fun a ha => (expr_viable he).bind fun vs value hv =>
        (Viable.expect he (by decide)).take fun s hs => .pure ?_
  obtain ⟨t, rfl, ht⟩ := ht
  simpa [IsDecl] using DeclDerives.var hk hx hc ht ha hv hs

theorem functionDecl_viable {decl : Reading Decl} (h : ViableAll eof decl IsDecl) :
    ViableAll eof (Grammar.standard.functionDecl decl) IsDecl := by
  refine (routine_viable he h).bind fun _ r hr => .pure ?_
  obtain ⟨hs, ls, bs, s, rfl, hh, hl, hb, hsemi⟩ := hr
  simpa [IsDecl] using DeclDerives.function hh hl hb hsemi

theorem declWithin_viable : ∀ depth, ViableAll eof (Grammar.standard.declWithin depth) IsDecl
  | 0 => .of_error (varDecl_viable he).filled fun _ => ⟨_, rfl⟩
  | depth + 1 => by
    have ih := declWithin_viable depth
    refine ⟨fun _ hr => declWithin_sound he _ _ _ _ hr, fun {ts d c} _ hr hd => ?_, (varDecl_viable he).filled⟩
    rw [Grammar.declWithin, bind_run (run_kind _)] at hr
    split at hr
    · rename_i hform
      refine (varDecl_viable he).begins ?_ hr hd
      revert hform
      cases (Cursor.before eof ts).current.kind <;> intro h <;> cases h
      rfl
    · exact (functionDecl_viable he ih).begins trivial hr hd
    · cases hr
      exact ⟨[], ts, rfl, rfl, (varDecl_viable he).filled⟩

theorem declaration_viable : ViableAll eof Grammar.standard.declaration IsDecl :=
  ⟨fun _ hr => declaration_sound he _ _ _ hr,
    fun _ hr => (declWithin_viable he _).begins trivial (bind_run (run_remaining _) ▸ hr), (varDecl_viable he).filled⟩

theorem method_viable : ViableAll eof Grammar.standard.method IsMethod := by
  refine (routine_viable he (declaration_viable he)).bind fun _ r hr => .pure ?_
  obtain ⟨hs, ls, bs, s, rfl, hh, hl, hb, hsemi⟩ := hr
  simpa using IsMethod.intro hh hl hb hsemi

theorem classDecl_viable : ViableAll eof Grammar.standard.classDecl IsClass := by
  refine (Viable.expect he (by decide)).take fun k hk => (Viable.expectAs he (by decide) _).take fun n hn =>
    (commaList_viable he (formal_viable he)).bind fun fs fields hf => (Viable.expect he (by decide)).take fun l hl =>
      (many_viable (method_viable he).anywhere).bind fun ms methods hm =>
        (Viable.expectAs he (by decide) _).take fun r hr => .pure ?_
  simpa using IsClass.intro hk hn hf hl hm hr

end Declarations

/-! ## Programs -/

theorem Sequence.append {α : Type} {R : List Token → α → Prop} {ts us : List Token} {as bs : List α}
    (h : Sequence R ts as) (h' : Sequence R us bs) : Sequence R (ts ++ us) (as ++ bs) := by
  induction h with
  | nil => exact h'
  | cons item _ ih => rw [List.append_assoc]; exact .cons item ih

theorem programBody_viable (he : eof.kind = .eof) : ViableAll eof Grammar.standard.programBody fun ws e =>
    ∃ bs s, ws = bs ++ [s] ∧ IsExpr bs e ∧ s.kind = .semicolon :=
  (expr_viable he).bind fun bs _ hb => (Viable.expect he (by decide)).take fun s hs => .pure ⟨bs, s, rfl, hb, hs⟩

theorem programText_viable (he : eof.kind = .eof) : ViableAll eof Grammar.standard.programText IsProgram := by
  have hbody := programBody_viable he
  have hclass : ViableAll eof (many (· == .kwClass) Grammar.standard.classDecl) (Sequence IsClass) :=
    many_viable (classDecl_viable he).anywhere
  have hdecl : ViableAll eof (many (fun k => k != .kwIn && k != .eof) Grammar.standard.declaration) (Sequence IsDecl) :=
    many_viable (declaration_viable he).anywhere
  refine .ite (p := (· = .kwLet)) ((Viable.advance he (by decide)).take fun l hl => hclass.bind fun cs classes hc =>
    hdecl.bind fun ds decls hd => ?_) (.anywhere (hbody.bind fun _ body hb => .pure ?_))
  · split
    · -- Nothing is declared so far. A declaration could be, and a body come behind it.
      refine .refuse _ ?_
      obtain ⟨ds', d, hd'⟩ := (varDecl_viable he).filled
      obtain ⟨_, body, bs, s, -, hb, hs⟩ := hbody.filled
      refine ⟨ds' ++ ⟨.kwIn, "", 0⟩ :: (bs ++ [s]), .letIn classes (decls ++ [d]) body, ?_⟩
      simpa using IsProgram.letIn hl hc (hd.append (.cons hd' .nil)) (.inr (by simp)) rfl hb hs
    · rename_i hne
      refine (Viable.expect he (by decide)).take fun i hi => hbody.bind fun _ body hb => .pure ?_
      obtain ⟨bs, s, rfl, hb, hs⟩ := hb
      have hsome : classes ≠ [] ∨ decls ≠ [] := by simpa [Decidable.imp_iff_not_or] using hne
      simpa using IsProgram.letIn hl hc hd hsome hi hb hs
  · obtain ⟨bs, s, rfl, hb, hs⟩ := hb
    simpa using IsProgram.expr hb hs

/-- Tokens in front of one that does not fit begin a program. -/
theorem program_viable (he : eof.kind = .eof) : ViableAll eof Grammar.standard.program IsProgram := by
  refine (programText_viable he).bind fun ws p hp => ?_
  rw [← List.append_nil ws] at hp
  refine ⟨fun {ts a c} _ hr => ?_, fun {ts d c} _ hr _ => ?_, [], p, hp⟩
  all_goals
    rw [bind_run (EStateM.run_get _)] at hr
    split at hr
    all_goals
      cases hr
  · exact ⟨[], ts, rfl, rfl, hp⟩
  · exact ⟨[], ts, rfl, rfl, [], p, hp⟩

end FoolLang.Phrases
