/-
What the grammar derives as an expression the reader accepts. Reading a derived expression at a
power comes to the loop over trailing forms with just that expression read, whatever comes next, as
long as it does not bind tighter than the expression: a left operand is then continued by its own
operator, and every other part stops at the token behind it.
-/
import FoolLang.Proofs.Grammar.Soundness

namespace FoolLang.Phrases

open Reading Sequencing

variable {eof : Token} {ts us ws : List Token} {e : Expr} {es : List Expr}

theorem Derives.head (h : Derives ts (.expr n e)) :
    ∃ t us, ts = t :: us ∧ (Grammar.standard.leading t.kind).isSome = true := by
  generalize hp : Phrase.expr n e = p at h
  induction h generalizing n e with
  | number ht | kwTrue ht | kwFalse ht | null ht | name ht => exact ⟨_, [], rfl, by rw [ht]; rfl⟩
  | negative hd => exact ⟨_, _, rfl, by rw [hd]; rfl⟩
  | call ht => exact ⟨_, _, rfl, by rw [ht]; rfl⟩
  | group hl => exact ⟨_, _, rfl, by rw [hl]; rfl⟩
  | new hk => exact ⟨_, _, rfl, by rw [hk]; rfl⟩
  | cond hi => exact ⟨_, _, rfl, by rw [hi]; rfl⟩
  | print hk => exact ⟨_, _, rfl, by rw [hk]; rfl⟩
  | not _ ht => exact ⟨_, _, rfl, by rw [ht]; rfl⟩
  | methodCall _ _ _ _ _ ih _ =>
    obtain ⟨t, us, rfl, ht⟩ := ih rfl
    exact ⟨t, _, rfl, ht⟩
  | binary _ _ _ _ ih _ =>
    obtain ⟨t, us, rfl, ht⟩ := ih rfl
    exact ⟨t, _, rfl, ht⟩
  | one | more | noArguments | arguments => cases hp

theorem Derives.ne_nil {n : Nat} (h : Derives ws (.expr n e)) : ws ≠ [] := by
  obtain ⟨t, us, rfl, -⟩ := h.head
  exact List.cons_ne_nil _ _

theorem Derives.ne_closeParen {n : Nat} (h : Derives ws (.expr n e)) :
    ∃ t us, ws = t :: us ∧ t.kind ≠ .closeParen := by
  obtain ⟨t, us, rfl, ht⟩ := h.head
  exact ⟨t, us, rfl, fun hk => by rw [hk] at ht; cases ht⟩

theorem Derives.opens (h : Derives ws (.arguments es)) (us : List Token) :
    (Cursor.before eof (ws ++ us)).current.kind = .openParen := by
  cases h with
  | noArguments hl _ => exact hl
  | arguments hl _ _ => exact hl

/-! ## What may follow -/

/-- An expression of a grade ends here: what comes next binds no tighter, and opens no arguments. -/
def Ends (eof : Token) (n : Nat) (us : List Token) : Prop :=
  nextRank eof us ≤ n ∧ (Cursor.before eof us).current.kind ≠ .openParen

theorem Ends.mono {m n : Nat} (h : Ends eof m us) (hm : m ≤ n) : Ends eof n us :=
  ⟨Nat.le_trans h.1 hm, h.2⟩

theorem ends_of_kind {k : Kind} (n : Nat) {t : Token} (ht : t.kind = k) (hk : trailingRank k ≤ n)
    (hp : k ≠ .openParen) : Ends eof n (t :: us) := by
  subst ht; exact ⟨hk, hp⟩

theorem ends_of_itemEnds (n : Nat) (h : ItemEnds eof us) : Ends eof n us := by
  unfold ItemEnds at h
  unfold Ends nextRank
  rcases h with h | h <;> rw [h] <;> exact ⟨Nat.zero_le n, by decide⟩

theorem trailing_mark (op : BinaryOp) : ∃ q, Grammar.standard.trailing op.mark = some (q, .binary) ∧
    q.rank = op.tightness ∧ q ≠ .member := by
  cases op <;> exact ⟨_, rfl, rfl, by decide⟩

theorem trailingRank_mark (op : BinaryOp) : trailingRank op.mark = op.tightness := by
  cases op <;> rfl

theorem ofKind?_mark (op : BinaryOp) : BinaryOp.ofKind? op.mark = some op := by cases op <;> rfl

theorem mark_ne_openParen (op : BinaryOp) : op.mark ≠ .openParen := by cases op <;> decide

theorem rank_le_of_ne_member {p : Power} (h : p ≠ .member) : p.rank ≤ 5 := by
  cases p <;> first | decide | exact absurd rfl h

/-! ## Completeness -/

/-- The reader of expressions with a limit on nesting. -/
abbrev reader (depth : Nat) : ExprReader := Grammar.standard.exprWithin depth

/-- Reading an expression of a grade comes to the loop over trailing forms behind it. -/
def ReadsTo (eof : Token) (ws : List Token) (n : Nat) (e : Expr) : Prop :=
  ∀ depth p us, ws.length ≤ depth + 1 → grade p ≤ n → p ≠ .member → Ends eof n us →
    ∃ m, us.length < m ∧ (reader (depth + 1) p).run (.before eof (ws ++ us)) =
      (Grammar.standard.extend (reader depth) p m e).run (.before eof us)

/-- What completeness says of each phrase. -/
def Complete (eof : Token) (ws : List Token) : Phrase → Prop
  | .expr n e => ReadsTo eof ws n e
  | .items es => ∀ depth, ws.length ≤ depth →
    Items (fun ws e => Takes eof (reader depth .default) ws e (ItemEnds eof) ∧
      ∃ t us, ws = t :: us ∧ t.kind ≠ .closeParen) ws es
  | .arguments es => ∀ depth, ws.length ≤ depth →
    Takes eof (arguments (reader depth)) ws es fun _ => True

/-- The loop stops where nothing binds tighter. -/
theorem extend_stop {expr : ExprReader} {p : Power} {m : Nat} (hm : 0 < m)
    (h : nextRank eof us ≤ p.rank) :
    (Grammar.standard.extend expr p m e).run (.before eof us) = .ok e (.before eof us) := by
  obtain ⟨m, rfl⟩ := Nat.exists_eq_succ_of_ne_zero (Nat.pos_iff_ne_zero.1 hm)
  rw [Nat.succ_eq_add_one, Grammar.extend, bind_run (run_kind _)]
  split
  · rename_i q form hform
    have hq := nextRank_of_trailing hform
    have hp : ¬ p < q := by
      intro hp
      have hp : p.rank < q.rank := hp
      omega
    rw [if_neg hp]
    rfl
  · rfl

theorem ReadsTo.takes {n : Nat} (depth : Nat) {p : Power} (h : ReadsTo eof ws n e) (hne : ws ≠ [])
    (hd : ws.length ≤ depth) (hp : grade p ≤ n) (hm : p ≠ .member) :
    Takes eof (reader depth p) ws e (Ends eof p.rank) := by
  intro us hu
  obtain ⟨depth, rfl⟩ := Nat.exists_eq_succ_of_ne_zero (n := depth) (by
    intro h0; subst h0; exact hne (List.length_eq_zero_iff.1 (Nat.le_zero.1 hd)))
  have hle := rank_le_of_ne_member hm
  have hn : p.rank ≤ n := by unfold grade at hp; omega
  obtain ⟨m, hm, hr⟩ := h depth p us hd hp hm (hu.mono hn)
  rw [hr, extend_stop (by omega) hu.1]

/-- An expression that fits everywhere, between two tokens. -/
theorem ReadsTo.takes_default (depth : Nat) (h : ReadsTo eof ws 1 e) (hne : ws ≠ [])
    (hd : ws.length ≤ depth) : Takes eof (reader depth .default) ws e (Ends eof 0) :=
  h.takes depth hne hd (by decide) (by decide)

/-- A leading form that is read comes to the loop over trailing forms. -/
theorem reader_of_leading (form : Leading) {t : Token} {depth : Nat} {p : Power}
    (hform : Grammar.standard.leading t.kind = some form)
    (hr : (form.read (reader depth)).run (.before eof (t :: ws)) = .ok e (.before eof us)) :
    ∃ m, us.length < m ∧ (reader (depth + 1) p).run (.before eof (t :: ws)) =
      (Grammar.standard.extend (reader depth) p m e).run (.before eof us) := by
  refine ⟨us.length + 1, Nat.lt_succ_self _, ?_⟩
  rw [reader, Grammar.exprWithin, bind_run (run_kind _), Cursor.before_cons_current, hform]
  simp only
  rw [bind_run hr, bind_run (run_remaining _), Cursor.before_rest_length]

/-- A trailing form that is read is one turn of the loop. -/
theorem extend_of_trailing (form : Trailing) {t : Token} {depth m : Nat} {p q : Power} {left : Expr}
    (hform : Grammar.standard.trailing t.kind = some (q, form)) (hp : p.rank < q.rank)
    (hm : (t :: (ws ++ us)).length < m)
    (hr : (form.read (reader depth) left q).run (.before eof (t :: (ws ++ us))) =
      .ok e (.before eof us)) :
    ∃ k, us.length < k ∧
      (Grammar.standard.extend (reader depth) p m left).run (.before eof (t :: (ws ++ us))) =
        (Grammar.standard.extend (reader depth) p k e).run (.before eof us) := by
  simp only [List.length_cons, List.length_append] at hm
  obtain ⟨k, rfl⟩ : ∃ k, m = k + 1 := ⟨m - 1, by omega⟩
  refine ⟨k, by omega, ?_⟩
  have hp : p < q := hp
  rw [Grammar.extend, bind_run (run_kind _), Cursor.before_cons_current, hform]
  simp only
  rw [if_pos hp, bind_run hr]

theorem numeral_run {text : String} {line : Nat} {v : Int32} (c : Cursor)
    (h : Text.int32? text.toList = some v) : (numeral text line).run c = .ok (.int v line) c := by
  unfold numeral; rw [h]; rfl

/-! ### Leading forms -/

section Leading

variable {expr : ExprReader}

theorem readLiteral_takes_number {t : Token} {v : Int32} (ht : t.kind = .number)
    (hv : Text.int32? t.value.toList = some v) :
    Takes eof Leading.readLiteral [t] (.int v t.line) fun _ => True := by
  intro us _
  unfold Leading.readLiteral
  rw [List.cons_append, List.nil_append, bind_run (run_advance _)]
  simp only [Cursor.before_cons_current, Cursor.before_cons_next, ht]
  exact numeral_run _ hv

/-- A literal that is a keyword is read by its kind alone. -/
theorem readLiteral_takes_keyword {t : Token} (h : t.kind = .kwTrue ∧ e = .bool true t.line ∨
      t.kind = .kwFalse ∧ e = .bool false t.line ∨ t.kind = .kwNull ∧ e = .null t.line) :
    Takes eof Leading.readLiteral [t] e fun _ => True := by
  intro us _
  unfold Leading.readLiteral
  rw [List.cons_append, List.nil_append, bind_run (run_advance _)]
  rcases h with ⟨ht, rfl⟩ | ⟨ht, rfl⟩ | ⟨ht, rfl⟩ <;>
  · simp only [Cursor.before_cons_current, Cursor.before_cons_next, ht]
    rfl

theorem readNegative_takes {d t : Token} {v : Int32} (ht : t.kind = .number)
    (hv : Text.int32? ('-' :: t.value.toList) = some v) :
    Takes eof Leading.readNegative [d, t] (.int v t.line) fun _ => True := by
  intro us _
  unfold Leading.readNegative
  rw [List.cons_append, List.cons_append, List.nil_append, bind_run (run_advance _), bind_run (run_kind _)]
  simp only [Cursor.before_cons_current, Cursor.before_cons_next, ht, if_true]
  rw [bind_run (run_advance _)]
  simp only [Cursor.before_cons_current, Cursor.before_cons_next]
  exact numeral_run _ (by simpa using hv)

/-- A name on its own, where no arguments follow. -/
theorem readName_takes {t : Token} :
    Takes eof (Leading.readName expr) [t] (.id t.value none t.line) fun us =>
      (Cursor.before eof us).current.kind ≠ .openParen := by
  intro us hu
  unfold Leading.readName
  rw [List.cons_append, List.nil_append, bind_run (run_advance _), bind_run (run_kind _),
    Cursor.before_cons_next, if_neg hu]
  rfl

theorem readName_takes_call {t : Token} (hargs : Derives ts (.arguments es))
    (h : Takes eof (arguments expr) ts es fun _ => True) :
    Takes eof (Leading.readName expr) (t :: ts) (.call t.value es none t.line) fun _ => True := by
  intro us _
  unfold Leading.readName
  rw [List.cons_append, bind_run (run_advance _), bind_run (run_kind _), Cursor.before_cons_next,
    if_pos (hargs.opens us), bind_run (h us trivial)]
  rfl

theorem readNot_takes {t : Token} {n : Nat} (h : Takes eof (expr .unary) ts e (Ends eof n)) :
    Takes eof (Leading.readNot expr) (t :: ts) (.not e t.line) (Ends eof n) := by
  intro us hu
  unfold Leading.readNot
  rw [List.cons_append, bind_run (run_advance _), Cursor.before_cons_next, bind_run (h us hu)]
  rfl

theorem readGroup_takes {l r : Token} (h : Takes eof (expr .default) ts e (Ends eof 0))
    (hr : r.kind = .closeParen) :
    Takes eof (Leading.readGroup expr) (l :: ts ++ [r]) e fun _ => True := by
  intro us _
  unfold Leading.readGroup
  rw [show l :: ts ++ [r] ++ us = l :: (ts ++ r :: us) by simp, bind_run (run_advance _),
    Cursor.before_cons_next, bind_run (h _ (ends_of_kind 0 hr (by decide) (by decide))),
    bind_run (expect_run hr)]
  rfl

theorem readNew_takes {k t : Token} (ht : t.kind = .identifier)
    (h : Takes eof (arguments expr) ts es fun _ => True) :
    Takes eof (Leading.readNew expr) (k :: t :: ts) (.new t.value es none t.line) fun _ => True := by
  intro us _
  unfold Leading.readNew
  rw [List.cons_append, List.cons_append, bind_run (run_advance _), Cursor.before_cons_next,
    bind_run (expectAs_run ht), bind_run (h us trivial)]
  rfl

theorem readBraced_takes {l r : Token} (hl : l.kind = .openCurly)
    (h : Takes eof (expr .default) ts e (Ends eof 0)) (hr : r.kind = .closeCurly) :
    Takes eof (Leading.readBraced expr) (l :: ts ++ [r]) e fun _ => True := by
  intro us _
  unfold Leading.readBraced
  rw [show l :: ts ++ [r] ++ us = l :: (ts ++ r :: us) by simp, bind_run (expect_run hl),
    bind_run (h _ (ends_of_kind 0 hr (by decide) (by decide))), bind_run (expect_run hr)]
  rfl

theorem readCond_takes {i th el : Token} {cs as bs : List Token} {c a b : Expr}
    (hc : Takes eof (expr .default) cs c (Ends eof 0)) (hth : th.kind = .kwThen)
    (ha : Takes eof (Leading.readBraced expr) as a fun _ => True) (hel : el.kind = .kwElse)
    (hb : Takes eof (Leading.readBraced expr) bs b fun _ => True) :
    Takes eof (Leading.readCond expr) (i :: cs ++ th :: as ++ el :: bs) (.cond c a b i.line)
      fun _ => True := by
  intro us _
  unfold Leading.readCond
  rw [show i :: cs ++ th :: as ++ el :: bs ++ us = i :: (cs ++ th :: (as ++ el :: (bs ++ us))) by simp,
    bind_run (run_advance _), Cursor.before_cons_next,
    bind_run (hc _ (ends_of_kind 0 hth (by decide) (by decide))), bind_run (expect_run hth),
    bind_run (ha _ trivial), bind_run (expect_run hel), bind_run (hb us trivial)]
  rfl

theorem readPrint_takes {k l r : Token} (hl : l.kind = .openParen)
    (h : Takes eof (expr .default) ts e (Ends eof 0)) (hr : r.kind = .closeParen) :
    Takes eof (Leading.readPrint expr) (k :: l :: ts ++ [r]) (.print e k.line) fun _ => True := by
  intro us _
  unfold Leading.readPrint
  rw [show k :: l :: ts ++ [r] ++ us = k :: l :: (ts ++ r :: us) by simp, bind_run (run_advance _),
    Cursor.before_cons_next, bind_run (expect_run hl),
    bind_run (h _ (ends_of_kind 0 hr (by decide) (by decide))), bind_run (expect_run hr)]
  rfl

end Leading

/-! ### Trailing forms -/

section Trailing

variable {expr : ExprReader} (left : Expr)

theorem readBinary_takes {op : BinaryOp} {t : Token} {q : Power} {n : Nat} (ht : t.kind = op.mark)
    (h : Takes eof (expr q) ts e (Ends eof n)) :
    Takes eof (Trailing.readBinary expr left q) (t :: ts) (.binary op left e t.line) (Ends eof n) := by
  intro us hu
  unfold Trailing.readBinary
  rw [List.cons_append, bind_run (run_advance _), Cursor.before_cons_next, Cursor.before_cons_current, ht,
    ofKind?_mark]
  simp only
  rw [bind_run (h us hu)]
  rfl

theorem readMethodCall_takes {d t : Token} (ht : t.kind = .identifier)
    (hargs : Derives ts (.arguments es)) (h : Takes eof (arguments expr) ts es fun _ => True) :
    Takes eof (Trailing.readMethodCall expr left) (d :: t :: ts) (.methodCall left t.value es none t.line)
      fun _ => True := by
  intro us _
  unfold Trailing.readMethodCall
  rw [List.cons_append, List.cons_append, bind_run (run_advance _), Cursor.before_cons_next,
    bind_run (expectAs_run ht), bind_run (run_kind _), if_pos (hargs.opens us), bind_run (h us trivial)]
  rfl

end Trailing

/-! ### Phrases -/

/-- A leading form that is read in front of what may follow an expression of a grade. -/
theorem readsTo_of_leading (form : Leading) {t : Token} {n : Nat} {follow : List Token → Prop}
    (hform : Grammar.standard.leading t.kind = some form)
    (hfollow : ∀ us, Ends eof n us → follow us)
    (h : ∀ depth, ts.length ≤ depth → Takes eof (form.read (reader depth)) (t :: ts) e follow) :
    ReadsTo eof (t :: ts) n e := by
  intro depth p us hd _ _ hu
  exact reader_of_leading form hform (h depth (Nat.le_of_succ_le_succ hd) us (hfollow us hu))

theorem ReadsTo.methodCall {d t : Token} {rs : List Token} {r : Expr} {n : Nat} (hn : n ≤ 6)
    (hne : rs ≠ []) (hr : ReadsTo eof rs 6 r) (hd : d.kind = .dot) (ht : t.kind = .identifier)
    (hargs : Derives ts (.arguments es))
    (h : ∀ depth, ts.length ≤ depth → Takes eof (arguments (reader depth)) ts es fun _ => True) :
    ReadsTo eof (rs ++ d :: t :: ts) n (.methodCall r t.value es none t.line) := by
  intro depth p us hlen hp hm _
  simp only [List.length_cons, List.length_append] at hlen
  have hpos : 0 < rs.length := List.length_pos_iff.2 hne
  obtain ⟨m, hm', hrecv⟩ := hr depth p (d :: t :: ts ++ us) (by omega) (Nat.le_trans hp hn) hm
    (ends_of_kind 6 hd (by decide) (by decide))
  have hread := readMethodCall_takes r (d := d) ht hargs (h depth (by omega)) us trivial
  rw [List.append_assoc, hrecv]
  exact extend_of_trailing .methodCall (q := .member) (by rw [hd]; rfl)
    (Nat.lt_succ_of_le (rank_le_of_ne_member hm)) hm' hread

/-- A left operand is read at the power of its place, and the loop behind it takes its operator. -/
theorem ReadsTo.binary {op : BinaryOp} {t : Token} {ls rs : List Token} {l r : Expr} {n : Nat}
    (hn : n ≤ op.tightness) (hls : ls ≠ []) (hl : ReadsTo eof ls op.tightness l) (ht : t.kind = op.mark)
    (hrs : rs ≠ []) (hr : ReadsTo eof rs (op.tightness + 1) r) :
    ReadsTo eof (ls ++ t :: rs) n (.binary op l r t.line) := by
  intro depth p us hlen hp hm hu
  simp only [List.length_cons, List.length_append] at hlen
  have hpos : 0 < ls.length := List.length_pos_iff.2 hls
  obtain ⟨q, hq, hrank, hqm⟩ := trailing_mark op
  have hle := tightness_le op
  have hpn : p.rank < q.rank := by unfold grade at hp; omega
  have hgrade : grade q ≤ op.tightness + 1 := by unfold grade; omega
  obtain ⟨m, hm', hleft⟩ := hl depth p (t :: rs ++ us) (by omega) (Nat.le_trans hp hn) hm
    (ends_of_kind _ ht (Nat.le_of_eq (trailingRank_mark op)) (mark_ne_openParen op))
  have hright := hr.takes depth hrs (by omega) hgrade hqm
  have hread := readBinary_takes l ht hright us (hu.mono (by omega))
  rw [List.append_assoc, hleft]
  exact extend_of_trailing .binary (by rw [ht]; exact hq) hpn hm' hread

/-- Every phrase that is derived is read. -/
theorem complete_of_derives {ph : Phrase} (h : Derives ws ph) : Complete eof ws ph := by
  induction h with
  | number ht hv =>
    exact readsTo_of_leading .literal (by rw [ht]; rfl) (fun _ _ => trivial) fun _ _ =>
      readLiteral_takes_number ht hv
  | kwTrue ht =>
    exact readsTo_of_leading .literal (by rw [ht]; rfl) (fun _ _ => trivial) fun _ _ =>
      readLiteral_takes_keyword (.inl ⟨ht, rfl⟩)
  | kwFalse ht =>
    exact readsTo_of_leading .literal (by rw [ht]; rfl) (fun _ _ => trivial) fun _ _ =>
      readLiteral_takes_keyword (.inr (.inl ⟨ht, rfl⟩))
  | null ht =>
    exact readsTo_of_leading .literal (by rw [ht]; rfl) (fun _ _ => trivial) fun _ _ =>
      readLiteral_takes_keyword (.inr (.inr ⟨ht, rfl⟩))
  | negative hd ht hv =>
    exact readsTo_of_leading .negative (by rw [hd]; rfl) (fun _ _ => trivial) fun _ _ =>
      readNegative_takes ht hv
  | name ht =>
    exact readsTo_of_leading .name (by rw [ht]; rfl) (fun _ hu => hu.2) fun _ _ => readName_takes
  | call ht args ih =>
    exact readsTo_of_leading .name (by rw [ht]; rfl) (fun _ _ => trivial) fun depth hd =>
      readName_takes_call args (ih depth hd)
  | group hl inner hr ih =>
    rw [List.cons_append]
    refine readsTo_of_leading .group (by rw [hl]; rfl) (fun _ _ => trivial) fun depth hd => ?_
    simp only [List.length_append, List.length_cons] at hd
    exact readGroup_takes (ih.takes_default depth inner.ne_nil (by omega)) hr
  | new hk ht args ih =>
    refine readsTo_of_leading .new (by rw [hk]; rfl) (fun _ _ => trivial) fun depth hd => ?_
    exact readNew_takes ht (ih depth (Nat.le_of_succ_le hd))
  | @cond i th el l₁ r₁ l₂ r₂ cs as bs c a b n hi hc hth hl₁ ha hr₁ hel hl₂ hb hr₂ ihc iha ihb =>
    rw [show i :: cs ++ th :: l₁ :: as ++ r₁ :: el :: l₂ :: bs ++ [r₂] =
      i :: (cs ++ th :: (l₁ :: as ++ [r₁]) ++ el :: (l₂ :: bs ++ [r₂])) by simp]
    refine readsTo_of_leading .cond (by rw [hi]; rfl) (fun _ _ => trivial) fun depth hd => ?_
    simp only [List.length_cons, List.length_append] at hd
    exact readCond_takes (ihc.takes_default depth hc.ne_nil (by omega)) hth
      (readBraced_takes hl₁ (iha.takes_default depth ha.ne_nil (by omega)) hr₁) hel
      (readBraced_takes hl₂ (ihb.takes_default depth hb.ne_nil (by omega)) hr₂)
  | print hk hl value hr ih =>
    rw [List.cons_append, List.cons_append]
    refine readsTo_of_leading .print (by rw [hk]; rfl) (fun _ _ => trivial) fun depth hd => ?_
    simp only [List.length_cons, List.length_append] at hd
    exact readPrint_takes hl (ih.takes_default depth value.ne_nil (by omega)) hr
  | methodCall hn receiver hd ht args ihr iha =>
    exact ReadsTo.methodCall hn receiver.ne_nil ihr hd ht args iha
  | not hn ht operand ih =>
    refine readsTo_of_leading .not (by rw [ht]; rfl) (fun _ hu => hu.mono hn) fun depth hd => ?_
    exact readNot_takes (ih.takes depth operand.ne_nil hd (by decide) (by decide))
  | binary hn left ht right ihl ihr => exact ReadsTo.binary hn left.ne_nil ihl ht right.ne_nil ihr
  | one item ih =>
    intro depth hd
    exact .one ⟨fun us hu => ih.takes_default depth item.ne_nil hd us (ends_of_itemEnds 0 hu),
      item.ne_closeParen⟩
  | more item hc rest ih ihs =>
    intro depth hd
    simp only [List.length_cons, List.length_append] at hd
    exact .more ⟨fun us hu => ih.takes_default depth item.ne_nil (by omega) us (ends_of_itemEnds 0 hu),
      item.ne_closeParen⟩ hc (ihs depth (by omega))
  | noArguments hl hr =>
    intro depth _
    exact commaList_takes (.none hl hr)
  | arguments hl items hr ih =>
    intro depth hd
    simp only [List.length_cons, List.length_append] at hd
    exact commaList_takes (.some hl (ih depth (by omega)) hr)

/-- An expression of the grammar is read, in front of a token that cannot go on from it. -/
theorem expr_takes (h : IsExpr ws e) : Takes eof (Grammar.standard.expr .default) ws e (Ends eof 0) := by
  intro us hu
  unfold Grammar.expr
  rw [bind_run (run_remaining _), Cursor.before_rest_length]
  exact (complete_of_derives h : ReadsTo eof ws 1 e).takes_default _ h.ne_nil
    (by simp; omega) us hu

end FoolLang.Phrases
