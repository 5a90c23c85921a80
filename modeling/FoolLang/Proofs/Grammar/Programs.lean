/-
The reader of programs accepts exactly what the grammar derives. Each form is treated twice, once
for what it accepts and once for what it is given to accept; a token list is then read as a program
if and only if it derives that program, so it derives one at most.
-/
import FoolLang.Proofs.Grammar.Completeness

namespace FoolLang.Phrases

open Reading Sequencing

variable {eof : Token} {ts us ws : List Token}

/-! ## What is accepted -/

theorem typeName_sound (he : eof.kind = .eof) :
    Sound eof Grammar.standard.typeName fun ws type => ∃ t, ws = [t] ∧ IsType t type := by
  intro ts type c h
  rw [Grammar.typeName, bind_run (run_kind _)] at h
  split at h
  · rename_i form hform
    obtain ⟨t, ts, rfl⟩ := exists_cons he (ne_eof_of_form Grammar.standard.type rfl hform)
    cases form with
    | primitive =>
      unfold TypeForm.read TypeForm.readPrimitive at h
      rw [bind_run (run_advance _)] at h
      simp only [Cursor.before_cons_current, Cursor.before_cons_next] at h
      split at h
      · rename_i hk; obtain ⟨rfl, rfl⟩ := pure_ok h; exact ⟨[t], ts, rfl, rfl, t, rfl, .int hk⟩
      · rename_i hk; obtain ⟨rfl, rfl⟩ := pure_ok h; exact ⟨[t], ts, rfl, rfl, t, rfl, .bool hk⟩
      · cases h
    | className =>
      unfold TypeForm.read TypeForm.readClassName at h
      obtain ⟨u, c₁, h₁, h⟩ := bind_ok h
      obtain ⟨us, hus, hu, rfl⟩ := expect_ok he (by decide) h₁
      cases hus
      obtain ⟨rfl, rfl⟩ := pure_ok h
      exact ⟨[t], ts, rfl, rfl, t, rfl, .ref hu⟩
  · cases h

theorem formal_sound (he : eof.kind = .eof) : Sound eof Grammar.standard.formal IsFormal := by
  intro ts f c h
  unfold Grammar.formal at h
  obtain ⟨x, c₁, h₁, g₁⟩ := bind_ok h
  obtain ⟨us, rfl, hx, rfl⟩ := expect_ok he (by decide) h₁
  obtain ⟨col, c₂, h₂, g₂⟩ := bind_ok g₁
  obtain ⟨us, rfl, hc, rfl⟩ := expect_ok he (by decide) h₂
  obtain ⟨type, c₃, h₃, g₃⟩ := bind_ok g₂
  obtain ⟨_, us, rfl, rfl, t, rfl, ht⟩ := typeName_sound he _ _ _ h₃
  obtain ⟨rfl, rfl⟩ := pure_ok g₃
  exact ⟨[x, col, t], us, rfl, rfl, .intro hx hc ht⟩

theorem header_sound (he : eof.kind = .eof) : Sound eof Grammar.standard.header IsHeader := by
  intro ts f c h
  unfold Grammar.header at h
  obtain ⟨k, c₁, h₁, g₁⟩ := bind_ok h
  obtain ⟨us, rfl, hk, rfl⟩ := expect_ok he (by decide) h₁
  obtain ⟨n, c₂, h₂, g₂⟩ := bind_ok g₁
  obtain ⟨us, rfl, hn, rfl⟩ := expectAs_ok he (by decide) h₂
  obtain ⟨col, c₃, h₃, g₃⟩ := bind_ok g₂
  obtain ⟨us, rfl, hc, rfl⟩ := expect_ok he (by decide) h₃
  obtain ⟨result, c₄, h₄, g₄⟩ := bind_ok g₃
  obtain ⟨_, us, rfl, rfl, t, rfl, ht⟩ := typeName_sound he _ _ _ h₄
  obtain ⟨params, c₅, h₅, g₅⟩ := bind_ok g₄
  obtain ⟨ws, us, rfl, rfl, hps⟩ := commaList_sound he (formal_sound he) _ _ _ h₅
  obtain ⟨rfl, rfl⟩ := pure_ok g₅
  exact ⟨k :: n :: col :: t :: ws, us, rfl, rfl, .intro hk hn hc ht hps⟩

theorem derives_decls {ds : List Decl} (h : Sequence IsDecl ts ds) : DeclDerives ts (.decls ds) := by
  induction h with
  | nil => exact .nil
  | cons first _ ih => exact .cons first ih

theorem sequence_of_decls : ∀ {ts ds}, DeclDerives ts (.decls ds) → Sequence IsDecl ts ds
  | _, _, .nil => .nil
  | _, _, .cons first more => .cons first (sequence_of_decls more)

theorem localDecls_sound (he : eof.kind = .eof) {decl : Reading Decl} (hd : Sound eof decl IsDecl) :
    Sound eof (Grammar.localDecls decl) fun ws ds => DeclDerives ws (.locals ds) := by
  intro ts ds c h
  rw [Grammar.localDecls, bind_run (run_kind _)] at h
  split at h
  · rename_i hl
    obtain ⟨l, us, rfl, hl⟩ := exists_cons_of_kind he hl (by decide)
    rw [bind_run (run_advance _), Cursor.before_cons_next] at h
    obtain ⟨d, c₁, h₁, g₁⟩ := bind_ok h
    obtain ⟨vs, us, rfl, rfl, hfirst⟩ := hd _ _ _ h₁
    obtain ⟨ds, c₂, h₂, g₂⟩ := bind_ok g₁
    obtain ⟨vs', us, rfl, rfl, hmore⟩ := many_sound (fun ts a c _ => hd ts a c) _ _ _ h₂
    obtain ⟨i, c₃, h₃, g₃⟩ := bind_ok g₂
    obtain ⟨us, rfl, hi, rfl⟩ := expect_ok he (by decide) h₃
    obtain ⟨rfl, rfl⟩ := pure_ok g₃
    exact ⟨l :: (vs ++ vs') ++ [i], us, by simp, rfl, .locals hl (.cons hfirst (derives_decls hmore)) hi⟩
  · obtain ⟨rfl, rfl⟩ := pure_ok h
    exact ⟨[], ts, rfl, rfl, .noLocals⟩

/-- A routine: a header, local declarations and a body with a semicolon. -/
def IsRoutine (ws : List Token) (r : Header × List Decl × Expr) : Prop :=
  ∃ hs ls bs s, ws = hs ++ (ls ++ (bs ++ [s])) ∧ IsHeader hs r.1 ∧ DeclDerives ls (.locals r.2.1) ∧
    IsExpr bs r.2.2 ∧ s.kind = .semicolon

theorem routine_sound (he : eof.kind = .eof) {decl : Reading Decl} (hd : Sound eof decl IsDecl) :
    Sound eof (Grammar.standard.routine decl) IsRoutine := by
  intro ts r c h
  unfold Grammar.routine at h
  obtain ⟨header, c₁, h₁, g₁⟩ := bind_ok h
  obtain ⟨hs, us, rfl, rfl, hh⟩ := header_sound he _ _ _ h₁
  obtain ⟨ds, c₂, h₂, g₂⟩ := bind_ok g₁
  obtain ⟨ls, us, rfl, rfl, hl⟩ := localDecls_sound he hd _ _ _ h₂
  obtain ⟨body, c₃, h₃, g₃⟩ := bind_ok g₂
  obtain ⟨bs, us, rfl, rfl, hb⟩ := expr_sound he _ _ _ h₃
  obtain ⟨s, c₄, h₄, g₄⟩ := bind_ok g₃
  obtain ⟨us, rfl, hs, rfl⟩ := expect_ok he (by decide) h₄
  obtain ⟨rfl, rfl⟩ := pure_ok g₄
  exact ⟨_, us, by simp, rfl, _, ls, bs, s, rfl, hh, hl, hb, hs⟩

theorem declWithin_sound (he : eof.kind = .eof) :
    ∀ depth, Sound eof (Grammar.standard.declWithin depth) IsDecl
  | 0 => fun _ _ _ h => by cases h
  | depth + 1 => by
    intro ts d c h
    rw [Grammar.declWithin, bind_run (run_kind _)] at h
    split at h
    · rename_i hform
      obtain ⟨k, us, rfl⟩ := exists_cons he (ne_eof_of_form Grammar.standard.decl rfl hform)
      have hk : k.kind = .kwVar := by
        revert hform; cases hk : (Cursor.before eof (k :: us)).current.kind <;> intro h <;> cases h
        exact hk
      unfold Grammar.varDecl at h
      rw [bind_run (run_advance _), Cursor.before_cons_current, Cursor.before_cons_next] at h
      obtain ⟨x, c₁, h₁, g₁⟩ := bind_ok h
      obtain ⟨us, rfl, hx, rfl⟩ := expectAs_ok he (by decide) h₁
      obtain ⟨col, c₂, h₂, g₂⟩ := bind_ok g₁
      obtain ⟨us, rfl, hc, rfl⟩ := expect_ok he (by decide) h₂
      obtain ⟨type, c₃, h₃, g₃⟩ := bind_ok g₂
      obtain ⟨_, us, rfl, rfl, t, rfl, ht⟩ := typeName_sound he _ _ _ h₃
      obtain ⟨a, c₄, h₄, g₄⟩ := bind_ok g₃
      obtain ⟨us, rfl, ha, rfl⟩ := expect_ok he (by decide) h₄
      obtain ⟨value, c₅, h₅, g₅⟩ := bind_ok g₄
      obtain ⟨vs, us, rfl, rfl, hv⟩ := expr_sound he _ _ _ h₅
      obtain ⟨s, c₆, h₆, g₆⟩ := bind_ok g₅
      obtain ⟨us, rfl, hs, rfl⟩ := expect_ok he (by decide) h₆
      obtain ⟨rfl, rfl⟩ := pure_ok g₆
      exact ⟨k :: x :: col :: t :: a :: vs ++ [s], us, by simp, rfl, .var hk hx hc ht ha hv hs⟩
    · unfold Grammar.functionDecl at h
      obtain ⟨⟨header, ds, body⟩, c₁, h₁, g₁⟩ := bind_ok h
      obtain ⟨_, us, rfl, rfl, hs, ls, bs, s, rfl, hh, hl, hb, hsemi⟩ :=
        routine_sound he (declWithin_sound he depth) _ _ _ h₁
      obtain ⟨rfl, rfl⟩ := pure_ok g₁
      exact ⟨_, us, rfl, rfl, .function hh hl hb hsemi⟩
    · cases h

theorem declaration_sound (he : eof.kind = .eof) : Sound eof Grammar.standard.declaration IsDecl := by
  intro ts d c h
  rw [Grammar.declaration, bind_run (run_remaining _)] at h
  exact declWithin_sound he _ ts d c h

theorem method_sound (he : eof.kind = .eof) : Sound eof Grammar.standard.method IsMethod := by
  intro ts m c h
  unfold Grammar.method at h
  obtain ⟨⟨header, ds, body⟩, c₁, h₁, g₁⟩ := bind_ok h
  obtain ⟨_, us, rfl, rfl, hs, ls, bs, s, rfl, hh, hl, hb, hsemi⟩ :=
    routine_sound he (declaration_sound he) _ _ _ h₁
  obtain ⟨rfl, rfl⟩ := pure_ok g₁
  exact ⟨_, us, rfl, rfl, .intro hh hl hb hsemi⟩

theorem classDecl_sound (he : eof.kind = .eof) : Sound eof Grammar.standard.classDecl IsClass := by
  intro ts cl c h
  unfold Grammar.classDecl at h
  obtain ⟨k, c₁, h₁, g₁⟩ := bind_ok h
  obtain ⟨us, rfl, hk, rfl⟩ := expect_ok he (by decide) h₁
  obtain ⟨n, c₂, h₂, g₂⟩ := bind_ok g₁
  obtain ⟨us, rfl, hn, rfl⟩ := expectAs_ok he (by decide) h₂
  obtain ⟨fields, c₃, h₃, g₃⟩ := bind_ok g₂
  obtain ⟨fs, us, rfl, rfl, hf⟩ := commaList_sound he (formal_sound he) _ _ _ h₃
  obtain ⟨l, c₄, h₄, g₄⟩ := bind_ok g₃
  obtain ⟨us, rfl, hl, rfl⟩ := expect_ok he (by decide) h₄
  obtain ⟨methods, c₅, h₅, g₅⟩ := bind_ok g₄
  obtain ⟨ms, us, rfl, rfl, hm⟩ := many_sound (fun ts a c _ => method_sound he ts a c) _ _ _ h₅
  obtain ⟨r, c₆, h₆, g₆⟩ := bind_ok g₅
  obtain ⟨us, rfl, hr, rfl⟩ := expectAs_ok he (by decide) h₆
  obtain ⟨rfl, rfl⟩ := pure_ok g₆
  exact ⟨_, us, by simp, rfl, .intro hk hn hf hl hm hr⟩

theorem programText_sound (he : eof.kind = .eof) :
    Sound eof Grammar.standard.programText IsProgram := by
  intro ts p c h
  rw [Grammar.programText, bind_run (run_kind _)] at h
  split at h
  · rename_i hl
    obtain ⟨l, us, rfl, hl⟩ := exists_cons_of_kind he hl (by decide)
    rw [bind_run (run_advance _), Cursor.before_cons_next] at h
    obtain ⟨classes, c₁, h₁, g₁⟩ := bind_ok h
    obtain ⟨cs, us, rfl, rfl, hc⟩ := many_sound (fun ts a c _ => classDecl_sound he ts a c) _ _ _ h₁
    obtain ⟨decls, c₂, h₂, g₂⟩ := bind_ok g₁
    obtain ⟨ds, us, rfl, rfl, hd⟩ := many_sound (fun ts a c _ => declaration_sound he ts a c) _ _ _ h₂
    split at g₂
    · cases g₂
    · rename_i hne
      obtain ⟨i, c₃, h₃, g₃⟩ := bind_ok g₂
      obtain ⟨us, rfl, hi, rfl⟩ := expect_ok he (by decide) h₃
      obtain ⟨body, c₄, h₄, g₄⟩ := bind_ok g₃
      obtain ⟨rfl, rfl⟩ := pure_ok g₄
      obtain ⟨x, c₅, h₅, g₅⟩ := bind_ok h₄
      obtain ⟨bs, us, rfl, rfl, hb⟩ := expr_sound he _ _ _ h₅
      obtain ⟨s, c₆, h₆, g₆⟩ := bind_ok g₅
      obtain ⟨us, rfl, hs, rfl⟩ := expect_ok he (by decide) h₆
      obtain ⟨rfl, rfl⟩ := pure_ok g₆
      refine ⟨_, us, by simp, rfl, .letIn hl hc hd ?_ hi hb hs⟩
      simpa [Decidable.imp_iff_not_or] using hne
  · obtain ⟨body, c₄, h₄, g₄⟩ := bind_ok h
    obtain ⟨rfl, rfl⟩ := pure_ok g₄
    obtain ⟨x, c₅, h₅, g₅⟩ := bind_ok h₄
    obtain ⟨bs, us, rfl, rfl, hb⟩ := expr_sound he _ _ _ h₅
    obtain ⟨s, c₆, h₆, g₆⟩ := bind_ok g₅
    obtain ⟨us, rfl, hs, rfl⟩ := expect_ok he (by decide) h₆
    obtain ⟨rfl, rfl⟩ := pure_ok g₆
    exact ⟨_, us, by simp, rfl, .expr hb hs⟩

/-! ## What has to be accepted -/

/-- A reading accepts tokens whatever comes behind them. -/
abbrev TakesAll {α : Type} (eof : Token) (r : Reading α) (ws : List Token) (a : α) : Prop :=
  Takes eof r ws a fun _ => True

theorem Items.imp {α : Type} {R S : List Token → α → Prop} {as : List α} (h : Items R ts as)
    (hi : ∀ ws a, R ws a → S ws a) : Items S ts as := by
  induction h with
  | one item => exact .one (hi _ _ item)
  | more item hc _ ih => exact .more (hi _ _ item) hc ih

theorem Listed.imp {α : Type} {R S : List Token → α → Prop} {as : List α} (h : Listed R ts as)
    (hi : ∀ ws a, R ws a → S ws a) : Listed S ts as := by
  cases h with
  | none hl hr => exact .none hl hr
  | some hl items hr => exact .some hl (items.imp hi) hr

theorem Sequence.imp {α : Type} {R S : List Token → α → Prop} {as : List α} (h : Sequence R ts as)
    (hi : ∀ ws a, R ws a → S ws a) : Sequence S ts as := by
  induction h with
  | nil => exact .nil
  | cons item _ ih => exact .cons (hi _ _ item) ih

/-- Each item is one of some of the tokens. -/
theorem Items.exists_item {α : Type} {R : List Token → α → Prop} {as : List α} (h : Items R ts as) :
    ∀ a ∈ as, ∃ vs, R vs a ∧ vs ⊆ ts := by
  induction h with
  | one item => exact List.forall_mem_singleton.mpr ⟨_, item, List.Subset.refl _⟩
  | more item _ _ ih =>
    refine List.forall_mem_cons.mpr ⟨⟨_, item, List.subset_append_left _ _⟩, fun a ha => ?_⟩
    obtain ⟨vs, hvs, hsub⟩ := ih a ha
    exact ⟨vs, hvs, fun t ht => List.mem_append_right _ (List.mem_cons_of_mem _ (hsub ht))⟩

theorem Listed.exists_item {α : Type} {R : List Token → α → Prop} {as : List α} (h : Listed R ts as) :
    ∀ a ∈ as, ∃ vs, R vs a ∧ vs ⊆ ts := by
  cases h with
  | none => exact fun _ ha => (List.not_mem_nil ha).elim
  | some _ items _ =>
    intro a ha
    obtain ⟨vs, hvs, hsub⟩ := items.exists_item a ha
    exact ⟨vs, hvs, fun t ht => List.mem_cons_of_mem _ (List.mem_append_left _ (hsub ht))⟩

theorem Sequence.exists_item {α : Type} {R : List Token → α → Prop} {as : List α} (h : Sequence R ts as) :
    ∀ a ∈ as, ∃ vs, R vs a ∧ vs ⊆ ts := by
  induction h with
  | nil => exact fun _ ha => (List.not_mem_nil ha).elim
  | cons item _ ih =>
    refine List.forall_mem_cons.mpr ⟨⟨_, item, List.subset_append_left _ _⟩, fun a ha => ?_⟩
    obtain ⟨vs, hvs, hsub⟩ := ih a ha
    exact ⟨vs, hvs, fun t ht => List.mem_append_right _ (hsub ht)⟩

theorem typeName_takes {t : Token} {type : Ty} (h : IsType t type) :
    TakesAll eof Grammar.standard.typeName [t] type := by
  intro us _
  rw [Grammar.typeName, bind_run (run_kind _), List.cons_append, List.nil_append,
    Cursor.before_cons_current]
  cases h with
  | int ht | bool ht =>
    simp only [ht, Grammar.standard]
    unfold TypeForm.read TypeForm.readPrimitive
    rw [bind_run (run_advance _)]
    simp only [Cursor.before_cons_current, Cursor.before_cons_next, ht]
    rfl
  | ref ht =>
    simp only [ht, Grammar.standard]
    unfold TypeForm.read TypeForm.readClassName
    rw [bind_run (expect_run ht)]
    rfl

/-- A type in front of any tokens. -/
theorem typeName_run (eof : Token) {t : Token} {type : Ty} (h : IsType t type) (us : List Token) :
    Grammar.standard.typeName.run (.before eof (t :: us)) = .ok type (.before eof us) :=
  typeName_takes h us trivial

theorem formal_takes {f : Formal} (h : IsFormal ws f) : TakesAll eof Grammar.standard.formal ws f := by
  intro us _
  obtain ⟨hx, hc, ht⟩ := h
  unfold Grammar.formal
  simp only [List.cons_append, List.nil_append]
  rw [bind_run (expect_run hx), bind_run (expect_run hc), bind_run (typeName_run eof ht us)]
  rfl

theorem formals_takes {fs : List Formal} (h : Listed IsFormal ws fs) :
    TakesAll eof Grammar.standard.formals ws fs :=
  commaList_takes (h.imp fun ws f hf => by
    refine ⟨fun us _ => formal_takes hf us trivial, ?_⟩
    obtain ⟨hx, _, _⟩ := hf
    exact ⟨_, _, rfl, by rw [hx]; decide⟩)

theorem header_takes {h : Header} (hh : IsHeader ws h) : TakesAll eof Grammar.standard.header ws h := by
  intro us _
  obtain ⟨hk, hf, hc, ht, list⟩ := hh
  unfold Grammar.header
  simp only [List.cons_append]
  rw [bind_run (expect_run hk), bind_run (expectAs_run hf), bind_run (expect_run hc),
    bind_run (typeName_run eof ht _), bind_run (formals_takes list us trivial)]
  rfl

/-- An expression in front of a semicolon. -/
theorem expr_semicolon {bs : List Token} {s : Token} {body : Expr} (hb : IsExpr bs body)
    (hs : s.kind = .semicolon) (us : List Token) :
    (Grammar.standard.expr .default).run (.before eof (bs ++ s :: us)) = .ok body (.before eof (s :: us)) :=
  expr_takes hb _ (ends_of_kind 0 hs (by decide) (by decide))

/-- The token that a declaration begins with. -/
theorem IsDecl.head {d : Decl} (h : IsDecl ws d) :
    ∃ t us, ws = t :: us ∧ (t.kind = .kwVar ∨ t.kind = .kwFun) := by
  cases h with
  | var hk => exact ⟨_, _, rfl, .inl hk⟩
  | function hh => obtain ⟨hk⟩ := hh; exact ⟨_, _, rfl, .inr hk⟩

/-- The token that the body of a routine begins with is not that of local declarations. -/
theorem IsExpr.ne_let {bs : List Token} {body : Expr} (h : IsExpr bs body) (us : List Token) :
    (Cursor.before eof (bs ++ us)).current.kind ≠ .kwLet := by
  obtain ⟨t, vs, rfl, ht⟩ := Derives.head h
  intro hk
  have hk : t.kind = .kwLet := hk
  rw [hk] at ht; cases ht

theorem localDecls_takes {decl : Reading Decl} {ds : List Decl} {d : Decl} {l i : Token}
    (hl : l.kind = .kwLet) (hi : i.kind = .kwIn)
    (h : Sequence (fun ws d => TakesAll eof decl ws d ∧ IsDecl ws d) ws (d :: ds)) :
    TakesAll eof (Grammar.localDecls decl) (l :: ws ++ [i]) (d :: ds) := by
  intro us _
  obtain ⟨⟩ := h
  rename_i vs vs' hd hds
  have hmore := many_takes (· != .kwIn) (fun _ => True) (hds.imp fun ws d h => by
    obtain ⟨t, us, rfl, ht⟩ := h.2.head
    exact ⟨h.1, t, us, rfl, by rcases ht with ht | ht <;> rw [ht] <;> rfl⟩) (fun _ _ _ => trivial)
    (i :: us) ⟨trivial, by simp [hi]⟩
  rw [Grammar.localDecls, show l :: (vs ++ vs') ++ [i] ++ us = l :: (vs ++ (vs' ++ i :: us)) by simp,
    bind_run (run_kind _), Cursor.before_cons_current, if_pos hl, bind_run (run_advance _),
    Cursor.before_cons_next, bind_run (hd.1 _ trivial), bind_run hmore, bind_run (expect_run hi)]
  rfl

theorem routine_takes {decl : Reading Decl} {r : Header × List Decl × Expr} {hs ls bs : List Token}
    {s : Token} (hh : IsHeader hs r.1)
    (hl : Takes eof (Grammar.localDecls decl) ls r.2.1
      fun us => (Cursor.before eof us).current.kind ≠ .kwLet)
    (hb : IsExpr bs r.2.2) (hsemi : s.kind = .semicolon) :
    TakesAll eof (Grammar.standard.routine decl) (hs ++ (ls ++ (bs ++ [s]))) r := by
  intro us _
  unfold Grammar.routine
  rw [show hs ++ (ls ++ (bs ++ [s])) ++ us = hs ++ (ls ++ (bs ++ s :: us)) by simp,
    bind_run (header_takes hh _ trivial), bind_run (hl _ (IsExpr.ne_let hb _)),
    bind_run (expr_semicolon hb hsemi us), bind_run (expect_run hsemi)]
  rfl

theorem noLocals_takes {decl : Reading Decl} :
    Takes eof (Grammar.localDecls decl) [] [] fun us => (Cursor.before eof us).current.kind ≠ .kwLet := by
  intro us hu
  rw [List.nil_append, Grammar.localDecls, bind_run (run_kind _), if_neg hu]
  rfl

/-- What completeness says of each phrase of the grammar of declarations. -/
def DeclComplete (eof : Token) (ws : List Token) : DeclPhrase → Prop
  | .decl d => ∀ depth, ws.length ≤ depth → TakesAll eof (Grammar.standard.declWithin depth) ws d
  | .decls ds => ∀ depth, ws.length ≤ depth →
    Sequence (fun ws d => TakesAll eof (Grammar.standard.declWithin depth) ws d ∧ IsDecl ws d) ws ds
  | .locals ds => ∀ depth, ws.length ≤ depth →
    Takes eof (Grammar.localDecls (Grammar.standard.declWithin depth)) ws ds
      fun us => (Cursor.before eof us).current.kind ≠ .kwLet

theorem declComplete_of_derives {ph : DeclPhrase} (h : DeclDerives ws ph) : DeclComplete eof ws ph := by
  induction h with
  | @var k x c t a s vs type value hk hx hc ht ha hv hs =>
    rintro (_ | depth) hd us -
    · simp at hd
    rw [Grammar.declWithin, bind_run (run_kind _),
      show k :: x :: c :: t :: a :: vs ++ [s] ++ us = k :: x :: c :: t :: a :: (vs ++ s :: us) by simp,
      Cursor.before_cons_current, hk]
    show Grammar.standard.varDecl.run _ = _
    unfold Grammar.varDecl
    rw [bind_run (run_advance _), Cursor.before_cons_next, bind_run (expectAs_run hx),
      bind_run (expect_run hc), bind_run (typeName_run eof ht _), bind_run (expect_run ha),
      bind_run (expr_semicolon hv hs us), bind_run (expect_run hs)]
    rfl
  | @function hs ls bs s header ds body hh hl hb hsemi ih =>
    rintro (_ | depth) hd us -
    · simp at hd
    have hlen : 0 < hs.length := by obtain ⟨⟩ := hh; simp
    simp only [List.length_append, List.length_cons, List.length_nil] at hd
    have hr := routine_takes (r := (header, ds, body)) hh (ih depth (by omega)) hb hsemi us trivial
    have hk : (Cursor.before eof (hs ++ (ls ++ (bs ++ [s])) ++ us)).current.kind = .kwFun := by
      obtain ⟨hk⟩ := hh; exact hk
    rw [Grammar.declWithin, bind_run (run_kind _), hk]
    show (Grammar.standard.functionDecl _).run _ = _
    unfold Grammar.functionDecl
    rw [bind_run hr]
    rfl
  | nil => exact fun _ _ => .nil
  | cons first _ ih ihs =>
    intro depth hd
    rw [List.length_append] at hd
    exact .cons ⟨ih depth (by omega), first⟩ (ihs depth (by omega))
  | noLocals => exact fun _ _ => noLocals_takes
  | locals hl _ hi ih =>
    intro depth hd us _
    simp only [List.length_cons, List.length_append] at hd
    exact localDecls_takes hl hi (ih depth (by omega)) us trivial

theorem declaration_takes {d : Decl} (h : IsDecl ws d) :
    TakesAll eof Grammar.standard.declaration ws d := by
  intro us _
  rw [Grammar.declaration, bind_run (run_remaining _), Cursor.before_rest_length]
  exact (declComplete_of_derives h : DeclComplete eof ws (.decl d)) _ (by simp; omega) us trivial

theorem method_takes {m : Method} (h : IsMethod ws m) : TakesAll eof Grammar.standard.method ws m := by
  intro us _
  obtain ⟨hh, hl, hb, hsemi⟩ := h
  rename_i hs ls bs s header ds body
  have hlocals : Takes eof (Grammar.localDecls Grammar.standard.declaration) ls ds
      fun us => (Cursor.before eof us).current.kind ≠ .kwLet := by
    cases hl with
    | noLocals => exact noLocals_takes
    | locals hl decls hi =>
      have hds : Sequence (fun ws d => TakesAll eof Grammar.standard.declaration ws d ∧ IsDecl ws d) _ _ :=
        (sequence_of_decls decls).imp fun ws d h => ⟨declaration_takes h, h⟩
      exact fun us _ => localDecls_takes hl hi hds us trivial
  unfold Grammar.method
  rw [bind_run (routine_takes (r := (header, ds, body)) hh hlocals hb hsemi us trivial)]
  rfl

theorem classDecl_takes {cl : ClassDecl} (h : IsClass ws cl) :
    TakesAll eof Grammar.standard.classDecl ws cl := by
  intro us _
  obtain ⟨hk, hn, hf, hl, hm, hr⟩ := h
  rename_i k n l r fs ms fields methods
  have hitems : Sequence (fun ws m => TakesAll eof Grammar.standard.method ws m ∧
      ∃ t us, ws = t :: us ∧ (t.kind == .kwFun) = true) ms methods := hm.imp fun ws m h => by
    refine ⟨method_takes h, ?_⟩
    obtain ⟨⟨hk, _, _, _, _⟩, _, _, _⟩ := h
    exact ⟨_, _, rfl, by rw [hk]; rfl⟩
  have hmethods := many_takes (· == .kwFun) (fun _ => True) hitems (fun _ _ _ => trivial) (r :: us)
    ⟨trivial, by simp [hr]⟩
  unfold Grammar.classDecl
  rw [show k :: n :: (fs ++ l :: (ms ++ [r])) ++ us = k :: n :: (fs ++ l :: (ms ++ r :: us)) by simp,
    bind_run (expect_run hk), bind_run (expectAs_run hn), bind_run (formals_takes hf _ trivial),
    bind_run (expect_run hl), bind_run hmethods, bind_run (expectAs_run hr)]
  rfl

theorem programBody_run {bs : List Token} {s : Token} {body : Expr} (hb : IsExpr bs body)
    (hs : s.kind = .semicolon) (us : List Token) :
    Grammar.standard.programBody.run (.before eof (bs ++ s :: us)) = .ok body (.before eof us) := by
  unfold Grammar.programBody
  rw [bind_run (expr_semicolon hb hs us), bind_run (expect_run hs)]
  rfl

theorem programText_takes {p : Program} (h : IsProgram ws p) :
    TakesAll eof Grammar.standard.programText ws p := by
  intro us _
  rw [Grammar.programText, bind_run (run_kind _)]
  cases h with
  | @expr bs s body hb hs =>
    rw [List.append_assoc, if_neg (IsExpr.ne_let hb _), List.cons_append, List.nil_append,
      bind_run (programBody_run hb hs us)]
    rfl
  | @letIn l i s cs ds bs classes decls body hl hc hd hne hi hb hs =>
    have hitems : Sequence (fun ws d => TakesAll eof Grammar.standard.declaration ws d ∧
        ∃ t us, ws = t :: us ∧ (t.kind != .kwIn && t.kind != .eof) = true) ds decls :=
      hd.imp fun ws d h => by
        obtain ⟨t, us, rfl, ht⟩ := h.head
        exact ⟨declaration_takes h, t, us, rfl, by rcases ht with ht | ht <;> rw [ht] <;> rfl⟩
    have hdecls := many_takes (fun k => k != .kwIn && k != .eof) (fun _ => True) hitems
      (fun _ _ _ => trivial) (i :: (bs ++ s :: us)) ⟨trivial, by simp [hi]⟩
    have hnext : (Cursor.before eof (ds ++ i :: (bs ++ s :: us))).current.kind ≠ .kwClass := by
      cases hd with
      | nil => show i.kind ≠ _; rw [hi]; decide
      | cons first _ =>
        obtain ⟨t, us, rfl, ht⟩ := IsDecl.head first
        show t.kind ≠ _
        rcases ht with ht | ht <;> rw [ht] <;> decide
    have hitems : Sequence (fun ws c => TakesAll eof Grammar.standard.classDecl ws c ∧
        ∃ t us, ws = t :: us ∧ (t.kind == .kwClass) = true) cs classes := hc.imp fun ws c h => by
      refine ⟨classDecl_takes h, ?_⟩
      obtain ⟨hk, _, _, _, _, _⟩ := h
      exact ⟨_, _, rfl, by rw [hk]; rfl⟩
    have hclasses := many_takes (· == .kwClass) (fun _ => True) hitems (fun _ _ _ => trivial)
      (ds ++ i :: (bs ++ s :: us)) ⟨trivial, by simpa using hnext⟩
    have hsome : ¬ (classes.isEmpty && decls.isEmpty) = true := by
      simpa [Decidable.imp_iff_not_or] using hne
    rw [show l :: (cs ++ (ds ++ i :: (bs ++ [s]))) ++ us = l :: (cs ++ (ds ++ i :: (bs ++ s :: us))) by simp,
      Cursor.before_cons_current, if_pos hl, bind_run (run_advance _), Cursor.before_cons_next,
      bind_run hclasses, bind_run hdecls, if_neg hsome, bind_run (expect_run hi),
      bind_run (programBody_run hb hs us)]
    rfl

/-! ## Programs -/

theorem ofTokens_of_isProgram {p : Program} (he : eof.kind = .eof) (h : IsProgram ts p) :
    Program.ofTokens (ts ++ [eof]) = .ok p ⟨eof, []⟩ := by
  have ht : TakesAll eof Grammar.standard.programText ts p := programText_takes h
  have ht := ht [] trivial
  rw [List.append_nil] at ht
  unfold Program.ofTokens Grammar.program
  rw [Cursor.ofTokens_append ts he, bind_run ht, bind_run (EStateM.run_get _)]
  simp only [Cursor.hasTokens, Cursor.before_nil_current, he]
  rfl

theorem isProgram_of_ofTokens {p : Program} {c : Cursor} (hts : ∀ t ∈ ts, t.kind ≠ .eof)
    (he : eof.kind = .eof) (h : Program.ofTokens (ts ++ [eof]) = .ok p c) : IsProgram ts p := by
  unfold Program.ofTokens Grammar.program at h
  rw [Cursor.ofTokens_append ts he] at h
  obtain ⟨q, c₁, h₁, h⟩ := bind_ok h
  obtain ⟨ws, us, rfl, rfl, hp⟩ := programText_sound he _ _ _ h₁
  rw [bind_run (EStateM.run_get _)] at h
  split at h
  · cases h
  · rename_i hno
    obtain ⟨rfl, rfl⟩ := pure_ok h
    cases us with
    | nil => simpa using hp
    | cons t us => exact absurd (hts t (by simp)) (by simpa [Cursor.hasTokens] using hno)

/--
A token list with its only end mark last is read as a program if and only if the tokens before the
mark derive the program, and then the reading stops at the mark. So they derive one program at most.
-/
theorem ofTokens_iff_isProgram {ts : List Token} {eof : Token} (hts : ∀ t ∈ ts, t.kind ≠ .eof)
    (he : eof.kind = .eof) :
    (∀ p, (∃ c, Program.ofTokens (ts ++ [eof]) = .ok p c) ↔ IsProgram ts p) ∧
    (∀ p c, Program.ofTokens (ts ++ [eof]) = .ok p c → c = ⟨eof, []⟩) ∧
    ∀ p q, IsProgram ts p → IsProgram ts q → p = q := by
  refine ⟨fun p => ⟨?_, fun h => ⟨_, ofTokens_of_isProgram he h⟩⟩, fun p c h => ?_, fun p q hp hq => ?_⟩
  · rintro ⟨c, h⟩
    exact isProgram_of_ofTokens hts he h
  · rw [ofTokens_of_isProgram he (isProgram_of_ofTokens hts he h)] at h
    cases h; rfl
  · have h := ofTokens_of_isProgram he hp
    rw [ofTokens_of_isProgram he hq] at h
    cases h; rfl

/-- The tokens of `!a.m(2) && b == -3 * 4;` over two lines. -/
def negatedSend : List Token :=
  [⟨.not, "!", 1⟩, ⟨.identifier, "a", 1⟩, ⟨.dot, ".", 1⟩, ⟨.identifier, "m", 1⟩,
    ⟨.openParen, "(", 1⟩, ⟨.number, "2", 1⟩, ⟨.closeParen, ")", 1⟩, ⟨.and, "&&", 2⟩,
    ⟨.identifier, "b", 2⟩, ⟨.equals, "==", 2⟩, ⟨.dash, "-", 2⟩, ⟨.number, "3", 2⟩,
    ⟨.star, "*", 2⟩, ⟨.number, "4", 2⟩, ⟨.semicolon, ";", 2⟩]

theorem isProgram_negatedSend :
    (∀ t ∈ negatedSend, t.kind ≠ .eof) ∧ IsProgram negatedSend (.expr (.binary .and
      (.not (.methodCall (.id "a" none 1) "m" [.int 2 1] none 1) 1)
      (.binary .equal (.id "b" none 2) (.binary .times (.int (-3) 2) (.int 4 2) 2) 2) 2)) :=
  ⟨by decide, ((@ofTokens_iff_isProgram negatedSend ⟨.eof, "", 2⟩ (by decide) rfl).1 _).1 ⟨_, rfl⟩⟩

end FoolLang.Phrases
