/-
What the reader of expressions accepts is derived by the grammar. The loop over trailing forms keeps
this invariant: what has been read so far is of a grade that both the place that asked for it and
the operator that comes next can use.
-/
import FoolLang.Proofs.Grammar.Steps

namespace FoolLang.Phrases

open Reading Sequencing

variable {eof : Token} {ts us ws : List Token} {e : Expr} {es : List Expr}

/-! ## Derivations -/

theorem Derives.mono {m n : Nat} (h : Derives ts (.expr n e)) (hm : m ≤ n) : Derives ts (.expr m e) := by
  cases h with
  | number ht hv => exact .number ht hv
  | negative hd ht hv => exact .negative hd ht hv
  | kwTrue ht => exact .kwTrue ht
  | kwFalse ht => exact .kwFalse ht
  | null ht => exact .null ht
  | name ht => exact .name ht
  | call ht args => exact .call ht args
  | group hl inner hr => exact .group hl inner hr
  | new hk ht args => exact .new hk ht args
  | cond hi c hth hl₁ a hr₁ hel hl₂ b hr₂ => exact .cond hi c hth hl₁ a hr₁ hel hl₂ b hr₂
  | print hk hl value hr => exact .print hk hl value hr
  | methodCall hn r hd ht args => exact .methodCall (Nat.le_trans hm hn) r hd ht args
  | not hn ht operand => exact .not (Nat.le_trans hm hn) ht operand
  | binary hn l ht r => exact .binary (Nat.le_trans hm hn) l ht r

theorem derives_items (h : Items IsExpr ts es) : Derives ts (.items es) := by
  induction h with
  | one item => exact .one item
  | more item hc _ ih => exact .more item hc ih

theorem derives_arguments (h : Listed IsExpr ts es) : Derives ts (.arguments es) := by
  cases h with
  | none hl hr => exact .noArguments hl hr
  | some hl items hr => exact .arguments hl (derives_items items) hr

/-! ## Powers -/

/-- How tightly a kind of token goes on from an expression, 0 where it does not. -/
def trailingRank (k : Kind) : Nat :=
  match Grammar.standard.trailing k with
  | some (q, _) => q.rank
  | none => 0

/-- How tightly the token at a place goes on from an expression. -/
def nextRank (eof : Token) (us : List Token) : Nat := trailingRank (Cursor.before eof us).current.kind

/-- The grade of the expressions that are read at a power. A `!` is read at every power. -/
def grade (p : Power) : Nat := min (p.rank + 1) 5

theorem trailingRank_le (k : Kind) : trailingRank k ≤ 6 := by cases k <;> decide

/-- The kinds of token that a leading form begins with. -/
def opening : Leading → List Kind
  | .literal => [.number, .kwTrue, .kwFalse, .kwNull]
  | .name => [.identifier]
  | .negative => [.dash]
  | .not => [.not]
  | .group => [.openParen]
  | .new => [.kwNew]
  | .cond => [.kwIf]
  | .print => [.kwPrint]

theorem leading_kind {k : Kind} {form : Leading} (h : Grammar.standard.leading k = some form) :
    k ∈ opening form := by
  cases k <;> cases h <;> decide

theorem trailing_binary {k : Kind} {q : Power} {op : BinaryOp}
    (h : Grammar.standard.trailing k = some (q, .binary)) (hop : BinaryOp.ofKind? k = some op) :
    k = op.mark ∧ op.tightness = q.rank := by
  cases k <;> cases h <;> cases hop <;> exact ⟨rfl, rfl⟩

theorem trailing_methodCall {k : Kind} {q : Power}
    (h : Grammar.standard.trailing k = some (q, .methodCall)) : k = .dot ∧ q = .member := by
  cases k <;> cases h
  exact ⟨rfl, rfl⟩

theorem tightness_le (op : BinaryOp) : op.tightness ≤ 4 := by cases op <;> decide

/-! ## Soundness -/

/-- What is read at a power is derived at its grade, and nothing tighter comes next. -/
def SoundAt (eof : Token) (r : Reading Expr) (p : Power) : Prop :=
  ∀ ts e c, r.run (.before eof ts) = .ok e c → ∃ ws us, ts = ws ++ us ∧ c = .before eof us ∧
    Derives ws (.expr (grade p) e) ∧ nextRank eof us ≤ p.rank

variable {expr : ExprReader}

theorem SoundAt.isExpr (h : ∀ p, SoundAt eof (expr p) p) : Sound eof (expr .default) IsExpr := by
  intro ts e c hr
  obtain ⟨ws, us, rfl, rfl, he, -⟩ := h .default ts e c hr
  exact ⟨ws, us, rfl, rfl, he⟩

theorem arguments_sound (he : eof.kind = .eof) (h : ∀ p, SoundAt eof (expr p) p) :
    Sound eof (arguments expr) fun ws es => Derives ws (.arguments es) := by
  intro ts es c hr
  obtain ⟨ws, us, rfl, rfl, hes⟩ := commaList_sound he (SoundAt.isExpr h) ts es c hr
  exact ⟨ws, us, rfl, rfl, derives_arguments hes⟩

theorem numeral_ok {text : String} {line : Nat} {c c' : Cursor}
    (h : (numeral text line).run c = .ok e c') :
    c = c' ∧ ∃ v, Text.int32? text.toList = some v ∧ e = .int v line := by
  unfold numeral at h
  cases hv : Text.int32? text.toList with
  | none => rw [hv] at h; cases h
  | some v =>
    rw [hv] at h
    obtain ⟨rfl, rfl⟩ := pure_ok h
    exact ⟨rfl, v, rfl, rfl⟩

theorem readBraced_sound (he : eof.kind = .eof) (h : ∀ p, SoundAt eof (expr p) p) :
    Sound eof (Leading.readBraced expr) fun ws e => ∃ l us r, ws = l :: us ++ [r] ∧
      l.kind = .openCurly ∧ IsExpr us e ∧ r.kind = .closeCurly := by
  intro ts e c hr
  obtain ⟨l, c₁, h₁, hr⟩ := bind_ok hr
  obtain ⟨us, rfl, hl, rfl⟩ := expect_ok he (by decide) h₁
  obtain ⟨x, c₂, h₂, hr⟩ := bind_ok hr
  obtain ⟨ws, us, rfl, rfl, hx⟩ := SoundAt.isExpr h _ _ _ h₂
  obtain ⟨r, c₃, h₃, hr⟩ := bind_ok hr
  obtain ⟨vs, rfl, hcl, rfl⟩ := expect_ok he (by decide) h₃
  obtain ⟨rfl, rfl⟩ := pure_ok hr
  exact ⟨l :: ws ++ [r], vs, by simp, rfl, l, ws, r, rfl, hl, hx, hcl⟩

/-! ### Leading forms -/

/-- An expression that begins with a token is read up to a place, and derived at every grade that what
comes next there can ask for. -/
def Opens (eof t : Token) (ts : List Token) (e : Expr) (c : Cursor) : Prop :=
  ∃ ws us, ts = ws ++ us ∧ c = .before eof us ∧ Derives (t :: ws) (.expr (max 5 (nextRank eof us)) e)

section Leading

variable {t : Token} {c : Cursor}

theorem readLiteral_sound (hr : Leading.readLiteral.run (.before eof (t :: ts)) = .ok e c) :
    Opens eof t ts e c := by
  unfold Leading.readLiteral at hr
  rw [bind_run (run_advance _)] at hr
  simp only [Cursor.before_cons_current, Cursor.before_cons_next] at hr
  split at hr
  · rename_i hk
    obtain ⟨rfl, v, hv, rfl⟩ := numeral_ok hr
    exact ⟨[], ts, rfl, rfl, .number hk hv⟩
  · rename_i hk; obtain ⟨rfl, rfl⟩ := pure_ok hr; exact ⟨[], ts, rfl, rfl, .kwTrue hk⟩
  · rename_i hk; obtain ⟨rfl, rfl⟩ := pure_ok hr; exact ⟨[], ts, rfl, rfl, .kwFalse hk⟩
  · rename_i hk; obtain ⟨rfl, rfl⟩ := pure_ok hr; exact ⟨[], ts, rfl, rfl, .null hk⟩
  · cases hr

theorem readNegative_sound (he : eof.kind = .eof) (hk : t.kind = .dash)
    (hr : Leading.readNegative.run (.before eof (t :: ts)) = .ok e c) : Opens eof t ts e c := by
  unfold Leading.readNegative at hr
  rw [bind_run (run_advance _), bind_run (run_kind _)] at hr
  simp only [Cursor.before_cons_next] at hr
  split at hr
  · rename_i hn
    obtain ⟨u, us, rfl, hn⟩ := exists_cons_of_kind he hn (by decide)
    rw [bind_run (run_advance _)] at hr
    simp only [Cursor.before_cons_current, Cursor.before_cons_next] at hr
    obtain ⟨rfl, v, hv, rfl⟩ := numeral_ok hr
    exact ⟨[u], us, rfl, rfl, .negative hk hn (by simpa using hv)⟩
  · cases hr

variable (he : eof.kind = .eof) (h : ∀ p, SoundAt eof (expr p) p)

include he h

theorem readName_sound (hk : t.kind = .identifier)
    (hr : (Leading.readName expr).run (.before eof (t :: ts)) = .ok e c) : Opens eof t ts e c := by
  unfold Leading.readName at hr
  rw [bind_run (run_advance _), bind_run (run_kind _)] at hr
  simp only [Cursor.before_cons_current, Cursor.before_cons_next] at hr
  split at hr
  · obtain ⟨es, c₁, h₁, hr⟩ := bind_ok hr
    obtain ⟨ws, us, rfl, rfl, hes⟩ := arguments_sound he h _ _ _ h₁
    obtain ⟨rfl, rfl⟩ := pure_ok hr
    exact ⟨ws, us, rfl, rfl, .call hk hes⟩
  · obtain ⟨rfl, rfl⟩ := pure_ok hr
    exact ⟨[], ts, rfl, rfl, .name hk⟩

-- The one leading form that ends in an operand: what comes next is no tighter than that operand allows.
omit he in
theorem readNot_sound (hk : t.kind = .not)
    (hr : (Leading.readNot expr).run (.before eof (t :: ts)) = .ok e c) : Opens eof t ts e c := by
  unfold Leading.readNot at hr
  rw [bind_run (run_advance _)] at hr
  simp only [Cursor.before_cons_next] at hr
  obtain ⟨x, c₁, h₁, hr⟩ := bind_ok hr
  obtain ⟨ws, us, rfl, rfl, hx, hnext⟩ := h .unary _ _ _ h₁
  obtain ⟨rfl, rfl⟩ := pure_ok hr
  exact ⟨ws, us, rfl, rfl, .not (Nat.max_le.2 ⟨Nat.le_refl 5, hnext⟩) hk hx⟩

theorem readGroup_sound (hk : t.kind = .openParen)
    (hr : (Leading.readGroup expr).run (.before eof (t :: ts)) = .ok e c) : Opens eof t ts e c := by
  unfold Leading.readGroup at hr
  rw [bind_run (run_advance _)] at hr
  simp only [Cursor.before_cons_next] at hr
  obtain ⟨x, c₁, h₁, hr⟩ := bind_ok hr
  obtain ⟨ws, us, rfl, rfl, hx⟩ := SoundAt.isExpr h _ _ _ h₁
  obtain ⟨r, c₂, h₂, hr⟩ := bind_ok hr
  obtain ⟨vs, rfl, hcl, rfl⟩ := expect_ok he (by decide) h₂
  obtain ⟨rfl, rfl⟩ := pure_ok hr
  exact ⟨ws ++ [r], vs, by simp, rfl, .group hk hx hcl⟩

theorem readNew_sound (hk : t.kind = .kwNew)
    (hr : (Leading.readNew expr).run (.before eof (t :: ts)) = .ok e c) : Opens eof t ts e c := by
  unfold Leading.readNew at hr
  rw [bind_run (run_advance _)] at hr
  simp only [Cursor.before_cons_next] at hr
  obtain ⟨n, c₁, h₁, hr⟩ := bind_ok hr
  obtain ⟨us, rfl, hn, rfl⟩ := expectAs_ok he (by decide) h₁
  obtain ⟨es, c₂, h₂, hr⟩ := bind_ok hr
  obtain ⟨ws, us, rfl, rfl, hes⟩ := arguments_sound he h _ _ _ h₂
  obtain ⟨rfl, rfl⟩ := pure_ok hr
  exact ⟨n :: ws, us, rfl, rfl, .new hk hn hes⟩

theorem readCond_sound (hk : t.kind = .kwIf)
    (hr : (Leading.readCond expr).run (.before eof (t :: ts)) = .ok e c) : Opens eof t ts e c := by
  unfold Leading.readCond at hr
  rw [bind_run (run_advance _)] at hr
  simp only [Cursor.before_cons_current, Cursor.before_cons_next] at hr
  obtain ⟨x, c₁, h₁, g₁⟩ := bind_ok hr
  obtain ⟨cs, us, rfl, rfl, hx⟩ := SoundAt.isExpr h _ _ _ h₁
  obtain ⟨th, c₂, h₂, g₂⟩ := bind_ok g₁
  obtain ⟨us, rfl, hth, rfl⟩ := expect_ok he (by decide) h₂
  obtain ⟨a, c₃, h₃, g₃⟩ := bind_ok g₂
  obtain ⟨_, us, rfl, rfl, l₁, as, r₁, rfl, hl₁, ha, hr₁⟩ := readBraced_sound he h _ _ _ h₃
  obtain ⟨el, c₄, h₄, g₄⟩ := bind_ok g₃
  obtain ⟨us, rfl, hel, rfl⟩ := expect_ok he (by decide) h₄
  obtain ⟨b, c₅, h₅, g₅⟩ := bind_ok g₄
  obtain ⟨_, us, rfl, rfl, l₂, bs, r₂, rfl, hl₂, hb, hr₂⟩ := readBraced_sound he h _ _ _ h₅
  obtain ⟨rfl, rfl⟩ := pure_ok g₅
  refine ⟨cs ++ th :: l₁ :: as ++ r₁ :: el :: l₂ :: bs ++ [r₂], us, by simp, rfl, ?_⟩
  simpa using Derives.cond hk hx hth hl₁ ha hr₁ hel hl₂ hb hr₂

theorem readPrint_sound (hk : t.kind = .kwPrint)
    (hr : (Leading.readPrint expr).run (.before eof (t :: ts)) = .ok e c) : Opens eof t ts e c := by
  unfold Leading.readPrint at hr
  rw [bind_run (run_advance _)] at hr
  simp only [Cursor.before_cons_current, Cursor.before_cons_next] at hr
  obtain ⟨l, c₁, h₁, hr⟩ := bind_ok hr
  obtain ⟨us, rfl, hl, rfl⟩ := expect_ok he (by decide) h₁
  obtain ⟨x, c₂, h₂, hr⟩ := bind_ok hr
  obtain ⟨ws, us, rfl, rfl, hx⟩ := SoundAt.isExpr h _ _ _ h₂
  obtain ⟨r, c₃, h₃, hr⟩ := bind_ok hr
  obtain ⟨vs, rfl, hcl, rfl⟩ := expect_ok he (by decide) h₃
  obtain ⟨rfl, rfl⟩ := pure_ok hr
  exact ⟨l :: ws ++ [r], vs, by simp, rfl, .print hk hl hx hcl⟩

/-- A leading form is derived at every grade, a `!` only at those that what comes next can ask for. -/
theorem leading_sound {form : Leading} (hform : Grammar.standard.leading t.kind = some form)
    (hr : (form.read expr).run (.before eof (t :: ts)) = .ok e c) : Opens eof t ts e c := by
  have hk := leading_kind hform
  cases form with
  | literal => exact readLiteral_sound hr
  | name => exact readName_sound he h (by simpa [opening] using hk) hr
  | negative => exact readNegative_sound he (by simpa [opening] using hk) hr
  | not => exact readNot_sound h (by simpa [opening] using hk) hr
  | group => exact readGroup_sound he h (by simpa [opening] using hk) hr
  | new => exact readNew_sound he h (by simpa [opening] using hk) hr
  | cond => exact readCond_sound he h (by simpa [opening] using hk) hr
  | print => exact readPrint_sound he h (by simpa [opening] using hk) hr

end Leading

/-! ### Trailing forms -/

theorem nextRank_of_trailing {q : Power} {f : Trailing} {us : List Token}
    (h : Grammar.standard.trailing (Cursor.before eof us).current.kind = some (q, f)) :
    nextRank eof us = q.rank := by
  unfold nextRank trailingRank; rw [h]

/-- One trailing form more, read after an expression of a grade that it can use. -/
theorem trailing_sound (he : eof.kind = .eof) (h : ∀ p, SoundAt eof (expr p) p) {p q : Power}
    {form : Trailing} {left : Expr} {c : Cursor}
    (hform : Grammar.standard.trailing (Cursor.before eof ts).current.kind = some (q, form))
    (hp : p < q) (hl : Derives ws (.expr q.rank left))
    (hr : (form.read expr left q).run (.before eof ts) = .ok e c) :
    ∃ t vs us, ts = t :: (vs ++ us) ∧ c = .before eof us ∧
      Derives (ws ++ t :: vs) (.expr (max (grade p) (nextRank eof us)) e) := by
  obtain ⟨t, ts, rfl⟩ := exists_cons he (ne_eof_of_form Grammar.standard.trailing rfl hform)
  have hp : p.rank < q.rank := hp
  cases form with
  | binary =>
    unfold Trailing.read Trailing.readBinary at hr
    rw [bind_run (run_advance _)] at hr
    simp only [Cursor.before_cons_current, Cursor.before_cons_next] at hr hform
    split at hr
    · rename_i op hop
      obtain ⟨hk, hq⟩ := trailing_binary hform hop
      obtain ⟨x, c₁, h₁, hr⟩ := bind_ok hr
      obtain ⟨vs, us, rfl, rfl, hx, hnext⟩ := h q _ _ _ h₁
      obtain ⟨rfl, rfl⟩ := pure_ok hr
      have hle := tightness_le op
      have hgrade : grade q = op.tightness + 1 := by unfold grade; omega
      have hmax : max (grade p) (nextRank eof us) ≤ op.tightness :=
        Nat.max_le.2 ⟨by unfold grade; omega, by omega⟩
      exact ⟨t, vs, us, rfl, rfl, .binary hmax (hq ▸ hl) hk (hgrade ▸ hx)⟩
    · cases hr
  | methodCall =>
    obtain ⟨hk, rfl⟩ := trailing_methodCall hform
    unfold Trailing.read Trailing.readMethodCall at hr
    rw [bind_run (run_advance _)] at hr
    simp only [Cursor.before_cons_next] at hr
    obtain ⟨n, c₁, h₁, hr⟩ := bind_ok hr
    obtain ⟨us, rfl, hn, rfl⟩ := expectAs_ok he (by decide) h₁
    rw [bind_run (run_kind _)] at hr
    split at hr
    · obtain ⟨es, c₂, h₂, hr⟩ := bind_ok hr
      obtain ⟨vs, us, rfl, rfl, hes⟩ := arguments_sound he h _ _ _ h₂
      obtain ⟨rfl, rfl⟩ := pure_ok hr
      have hmax : max (grade p) (nextRank eof us) ≤ 6 :=
        Nat.max_le.2 ⟨by unfold grade; omega, trailingRank_le _⟩
      exact ⟨t, n :: vs, us, rfl, rfl, .methodCall hmax hl hk hn hes⟩
    · cases hr

/-- The loop over trailing forms, with more turns left than tokens. -/
theorem extend_sound (he : eof.kind = .eof) (h : ∀ p, SoundAt eof (expr p) p) {p : Power} :
    ∀ (n : Nat) (ws ts : List Token) (left e : Expr) (c : Cursor), ts.length < n →
      Derives ws (.expr (max (grade p) (nextRank eof ts)) left) →
      (Grammar.standard.extend expr p n left).run (.before eof ts) = .ok e c →
      ∃ vs us, ts = vs ++ us ∧ c = .before eof us ∧ Derives (ws ++ vs) (.expr (grade p) e) ∧
        nextRank eof us ≤ p.rank
  | 0, _, _, _, _, _, hn, _, _ => absurd hn (Nat.not_lt_zero _)
  | n + 1, ws, ts, left, e, c, hn, hl, hr => by
    rw [Grammar.extend, bind_run (run_kind _)] at hr
    split at hr
    · rename_i q form hform
      have hq := nextRank_of_trailing hform
      split at hr
      · rename_i hp
        obtain ⟨x, c₁, h₁, hr⟩ := bind_ok hr
        obtain ⟨t, vs, us, rfl, rfl, hx⟩ :=
          trailing_sound he h hform hp (hl.mono (hq ▸ Nat.le_max_right _ _)) h₁
        obtain ⟨vs', us', rfl, rfl, hres, hnext⟩ :=
          extend_sound he h n _ us x e c (by simp at hn; omega) hx hr
        exact ⟨t :: (vs ++ vs'), us', by simp, rfl, by simpa using hres, hnext⟩
      · rename_i hp
        obtain ⟨rfl, rfl⟩ := pure_ok hr
        have hp : ¬ p.rank < q.rank := hp
        exact ⟨[], ts, rfl, rfl, by simpa using hl.mono (Nat.le_max_left _ _), by omega⟩
    · rename_i hform
      obtain ⟨rfl, rfl⟩ := pure_ok hr
      have hq : nextRank eof ts = 0 := by unfold nextRank trailingRank; rw [hform]
      exact ⟨[], ts, rfl, rfl, by simpa using hl.mono (Nat.le_max_left _ _), by omega⟩

theorem exprWithin_sound (he : eof.kind = .eof) :
    ∀ (depth : Nat) (p : Power), SoundAt eof (Grammar.standard.exprWithin depth p) p
  | 0, _ => fun _ _ _ h => by cases h
  | depth + 1, p => by
    intro ts e c hr
    have ih := exprWithin_sound he depth
    rw [Grammar.exprWithin, bind_run (run_kind _)] at hr
    split at hr
    · rename_i form hform
      obtain ⟨t, ts, rfl⟩ := exists_cons he (ne_eof_of_form Grammar.standard.leading rfl hform)
      obtain ⟨left, c₁, h₁, hr⟩ := bind_ok hr
      obtain ⟨ws, us, rfl, rfl, hl⟩ := leading_sound he ih hform h₁
      rw [bind_run (run_remaining _), Cursor.before_rest_length] at hr
      have hgrade : max (grade p) (nextRank eof us) ≤ max 5 (nextRank eof us) := by
        unfold grade; omega
      obtain ⟨vs, us, rfl, rfl, hres, hnext⟩ :=
        extend_sound he ih _ (t :: ws) us left e c (Nat.lt_succ_self _) (hl.mono hgrade) hr
      exact ⟨t :: (ws ++ vs), us, by simp, rfl, by simpa using hres, hnext⟩
    · cases hr

/-- An expression that is read is one of the grammar. -/
theorem expr_sound (he : eof.kind = .eof) : Sound eof (Grammar.standard.expr .default) IsExpr := by
  intro ts e c hr
  unfold Grammar.expr at hr
  rw [bind_run (run_remaining _)] at hr
  obtain ⟨ws, us, rfl, rfl, h, -⟩ := exprWithin_sound he _ _ ts e c hr
  exact ⟨ws, us, rfl, rfl, h⟩

end FoolLang.Phrases
