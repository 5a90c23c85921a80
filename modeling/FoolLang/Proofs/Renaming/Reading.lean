/-
Reading of renamed tokens: which form is read is decided by the kinds of tokens, and the text of an identifier
only goes into the tree or into a refusal. So at renamed places every reader does the same in both texts: it gives
renamed results and goes on to renamed places, or refuses for the same reason but for the names.
-/
import FoolLang.Grammar.Declaration
import FoolLang.Proofs.Renaming.Trees
import FoolLang.Proofs.Sequencing

namespace FoolLang

variable {ρ : Renaming}

/-! ## Places -/

theorem Token.Renamed.takes {t t' : Token} (h : t.Renamed ρ t') (hk : t.kind = .identifier) :
    ρ.Takes t.value t'.value := by
  have hvalue := h.value
  rwa [if_pos hk] at hvalue

theorem Token.Renamed.value_eq {t t' : Token} (h : t.Renamed ρ t') (hk : t.kind ≠ .identifier) :
    t.value = t'.value := by
  have hvalue := h.value
  rwa [if_neg hk] at hvalue

/-- Places with renamed tokens ahead. -/
structure Cursor.Renamed (ρ : Renaming) (c c' : Cursor) : Prop where
  current : c.current.Renamed ρ c'.current
  rest : List.Forall₂ (Token.Renamed ρ) c.rest c'.rest

theorem Cursor.Renamed.next {c c' : Cursor} (h : c.Renamed ρ c') : c.next.Renamed ρ c'.next := by
  obtain ⟨t, ts⟩ := c
  obtain ⟨t', ts'⟩ := c'
  cases h.rest with
  | nil => exact h
  | cons ht hts => exact ⟨ht, hts⟩

/-! ## Steps -/

namespace Reading

/-- Both of two readings end at renamed places with related results, or both are refused for renamed reasons. -/
inductive Agrees {α β : Type} (ρ : Renaming) (r : α → β → Prop) :
    EStateM.Result Diagnostic Cursor α → EStateM.Result Diagnostic Cursor β → Prop
  | ok {a : α} {b : β} {c c' : Cursor} (h : r a b) (hc : c.Renamed ρ c') : Agrees ρ r (.ok a c) (.ok b c')
  | error {d d' : Diagnostic} {c c' : Cursor} (h : d.Renamed ρ d') : Agrees ρ r (.error d c) (.error d' c')

/-- At renamed places where a token of some kind is current, two readings agree. -/
def RenamedAt {α β : Type} (ρ : Renaming) (k : Kind) (r : α → β → Prop) (x : Reading α) (y : Reading β) : Prop :=
  ∀ c c' : Cursor, c.Renamed ρ c' → c.current.kind = k → Agrees ρ r (x.run c) (y.run c')

/-- At renamed places two readings agree. -/
def Renamed {α β : Type} (ρ : Renaming) (r : α → β → Prop) (x : Reading α) (y : Reading β) : Prop :=
  ∀ c c' : Cursor, c.Renamed ρ c' → Agrees ρ r (x.run c) (y.run c')

section

variable {α β γ δ : Type} {r : α → β → Prop} {q : γ → δ → Prop} {x : Reading α} {y : Reading β}
  {f : α → Reading γ} {g : β → Reading δ} {k : Kind}

theorem Agrees.bind {c c' : Cursor} (h : Agrees ρ r (x.run c) (y.run c'))
    (hf : ∀ a b, r a b → Renamed ρ q (f a) (g b)) : Agrees ρ q ((x >>= f).run c) ((y >>= g).run c') := by
  rw [EStateM.run_bind, EStateM.run_bind]
  generalize x.run c = o, y.run c' = o' at h
  cases h with
  | ok h hc => exact hf _ _ h _ _ hc
  | error h => exact .error h

theorem RenamedAt.bind (hx : RenamedAt ρ k r x y) (hf : ∀ a b, r a b → Renamed ρ q (f a) (g b)) :
    RenamedAt ρ k q (x >>= f) (y >>= g) := fun c c' hc hk => (hx c c' hc hk).bind hf

/-- The current token is of one kind in both texts. -/
theorem RenamedAt.advance : RenamedAt ρ k (fun t t' => t.Renamed ρ t' ∧ t.kind = k) advance advance :=
  fun _ _ hc hk => .ok ⟨hc.current, hk⟩ hc.next

theorem RenamedAt.anywhere (h : Renamed ρ r x y) : RenamedAt ρ k r x y := fun c c' hc _ => h c c' hc

/-- A choice that both texts make alike. -/
theorem RenamedAt.ite {p : Prop} [Decidable p] {x' : Reading α} {y' : Reading β} (h : p → RenamedAt ρ k r x y)
    (h' : ¬p → RenamedAt ρ k r x' y') : RenamedAt ρ k r (if p then x else x') (if p then y else y') := by
  split
  · exact h ‹_›
  · exact h' ‹_›

namespace Renamed

theorem bind (hx : Renamed ρ r x y) (hf : ∀ a b, r a b → Renamed ρ q (f a) (g b)) : Renamed ρ q (x >>= f) (y >>= g) :=
  fun c c' hc => (hx c c' hc).bind hf

theorem pure {a : α} {b : β} (h : r a b) : Renamed ρ r (Pure.pure a) (Pure.pure b) := fun _ _ hc => .ok h hc

theorem get : Renamed ρ (Cursor.Renamed ρ) get get := fun _ _ hc => .ok hc hc

theorem throw {d d' : Diagnostic} (h : d.Renamed ρ d') : Renamed ρ r (throw d : Reading α) (throw d') :=
  fun _ _ _ => .error h

/-- What is read next may depend on the current kind, which both texts share. -/
theorem kind {f : Kind → Reading α} {g : Kind → Reading β} (h : ∀ k, RenamedAt ρ k r (f k) (g k)) :
    Renamed ρ r (kind >>= f) (kind >>= g) := by
  intro c c' hc
  have hagrees := h c.current.kind c c' hc rfl
  rw [show (g c.current.kind).run c' = (g c'.current.kind).run c' by rw [hc.current.kind]] at hagrees
  exact hagrees

theorem remaining : Renamed ρ (· = ·) remaining remaining := fun _ _ hc => .ok hc.rest.length_eq hc

theorem advance : Renamed ρ (Token.Renamed ρ) advance advance := fun _ _ hc => .ok hc.current hc.next

theorem refuse (expected : String) : Renamed ρ r (refuse expected : Reading α) (refuse expected) :=
  fun _ _ hc => .error (.unexpectedTokenDetailed hc.current expected)

theorem refuseToken {t t' : Token} (h : t.Renamed ρ t') : Renamed ρ r (refuseToken t : Reading α) (refuseToken t') :=
  .throw (.unexpectedToken h)

/-- The current token is taken in both texts or refused in both. -/
theorem take {x y : Cursor → Reading Token}
    (h : ∀ c c', c.Renamed ρ c' → Renamed ρ (fun t t' => t.Renamed ρ t' ∧ t.kind = k) (x c) (y c')) :
    Renamed ρ (fun t t' => t.Renamed ρ t' ∧ t.kind = k)
      (EStateM.get >>= fun c => if c.current.kind = k then Reading.advance else x c)
      (EStateM.get >>= fun c => if c.current.kind = k then Reading.advance else y c) := by
  intro c c' hc
  show Agrees ρ _ ((if c.current.kind = k then Reading.advance else x c).run c)
    ((if c'.current.kind = k then Reading.advance else y c').run c')
  by_cases hk : c.current.kind = k
  · rw [if_pos hk, if_pos (hc.current.kind.symm.trans hk)]
    exact .ok ⟨hc.current, hk⟩ hc.next
  · rw [if_neg hk, if_neg fun hk' => hk (hc.current.kind.trans hk')]
    exact h c c' hc c c' hc

theorem expect (k : Kind) : Renamed ρ (fun t t' => t.Renamed ρ t' ∧ t.kind = k) (expect k) (expect k) :=
  take fun _ _ hc => .refuseToken hc.current

theorem expectAs (k : Kind) (expected : String) :
    Renamed ρ (fun t t' => t.Renamed ρ t' ∧ t.kind = k) (expectAs k expected) (expectAs k expected) :=
  take fun _ _ _ => .refuse expected

theorem manyUpTo (test : Kind → Bool) (h : Renamed ρ r x y) :
    ∀ n, Renamed ρ (List.Forall₂ r) (manyUpTo test x n) (manyUpTo test y n)
  | 0 => .pure .nil
  | n + 1 => .kind fun _ => .ite
      (fun _ => .anywhere (.bind h fun _ _ hab => .bind (manyUpTo test h n) fun _ _ hmore => .pure (.cons hab hmore)))
      fun _ => .anywhere (.pure .nil)

theorem many (test : Kind → Bool) (h : Renamed ρ r x y) : Renamed ρ (List.Forall₂ r) (many test x) (many test y) :=
  .bind .remaining fun n n' hn => by subst hn; exact manyUpTo test h _

theorem commaList (h : Renamed ρ r x y) : Renamed ρ (List.Forall₂ r) (commaList x) (commaList y) := by
  refine .bind (.expect _) fun _ _ _ => .kind fun _ => .ite (fun _ => .anywhere ?_) fun _ => .anywhere ?_
  · exact .bind (.pure .nil) fun _ _ hitems => .bind (.expect _) fun _ _ _ => .pure hitems
  · refine .bind h fun _ _ hab => .bind (.many _ (.bind .advance fun _ _ _ => h)) fun _ _ hmore => ?_
    exact .bind (.pure (.cons hab hmore)) fun _ _ hitems => .bind (.expect _) fun _ _ _ => .pure hitems

end Renamed

end

end Reading

open Reading

/-! ## Expressions -/

theorem numeral_renamed (text : String) (l l' : Nat) :
    Renamed ρ (Expr.Renamed ρ) (numeral text l) (numeral text l') := by
  unfold numeral
  split
  · exact .pure .int
  · exact .throw (.numberParseError text)

/-- A reader of expressions that reads renamed tokens as renamed expressions. -/
def ExprReader.Renames (ρ : Renaming) (expr : ExprReader) : Prop :=
  ∀ power, Reading.Renamed ρ (Expr.Renamed ρ) (expr power) (expr power)

section

variable {expr : ExprReader} (h : expr.Renames ρ)

include h in
theorem arguments_renamed :
    Renamed ρ (List.Forall₂ (Expr.Renamed ρ)) (arguments expr) (arguments expr) := .commaList (h _)

namespace Leading

theorem readLiteral_renamed : Renamed ρ (Expr.Renamed ρ) readLiteral readLiteral := by
  refine .bind .advance fun t t' ht => ?_
  obtain ⟨k, v, l⟩ := t
  obtain ⟨k', v', l'⟩ := t'
  obtain rfl : k = k' := ht.kind
  cases k with
  | number =>
    obtain rfl : v = v' := ht.value_eq (show Kind.number ≠ .identifier by decide)
    exact numeral_renamed v l l'
  | kwTrue | kwFalse => exact .pure .bool
  | kwNull => exact .pure .null
  | _ => exact .refuseToken ht

theorem readNegative_renamed : Renamed ρ (Expr.Renamed ρ) readNegative readNegative := by
  refine .bind .advance fun _ _ _ => .kind fun k => .ite (fun hk => ?_) fun _ => .anywhere (.refuse _)
  refine .bind .advance fun t t' ht => ?_
  rw [ht.1.value_eq (by rw [ht.2, hk]; decide)]
  exact numeral_renamed _ _ _

include h

theorem readName_renamed : RenamedAt ρ .identifier (Expr.Renamed ρ) (readName expr) (readName expr) := by
  -- The token is taken without a test of its kind: that it is an identifier is known from where the form stands.
  refine .bind .advance fun t t' ht => .kind fun _ => .ite (fun _ => .anywhere ?_) fun _ => .anywhere ?_
  · exact .bind (arguments_renamed h) fun _ _ hes => .pure (.call (ht.1.takes ht.2) hes .none)
  · exact .pure (.id (ht.1.takes ht.2) .none)

theorem readNew_renamed : Renamed ρ (Expr.Renamed ρ) (readNew expr) (readNew expr) :=
  .bind .advance fun _ _ _ => .bind (.expectAs _ _) fun _ _ ht => .bind (arguments_renamed h) fun _ _ hes =>
    .pure (.new (ht.1.takes ht.2) hes .none)

theorem readBraced_renamed : Renamed ρ (Expr.Renamed ρ) (readBraced expr) (readBraced expr) :=
  .bind (.expect _) fun _ _ _ => .bind (h _) fun _ _ he => .bind (.expect _) fun _ _ _ => .pure he

theorem readCond_renamed : Renamed ρ (Expr.Renamed ρ) (readCond expr) (readCond expr) := by
  refine .bind .advance fun _ _ _ => .bind (h _) fun _ _ hc => .bind (.expect _) fun _ _ _ => ?_
  exact .bind (readBraced_renamed h) fun _ _ ha => .bind (.expect _) fun _ _ _ =>
    .bind (readBraced_renamed h) fun _ _ hb => .pure (.cond hc ha hb)

/-- Every leading form reads renamed tokens as renamed expressions; that of names stands at identifiers. -/
theorem read_renamed {k : Kind} {form : Leading} (hk : Grammar.standard.leading k = some form) :
    RenamedAt ρ k (Expr.Renamed ρ) (form.read expr) (form.read expr) := by
  cases form with
  | literal => exact .anywhere readLiteral_renamed
  | name =>
    have hname : k = .identifier := by
      revert hk
      cases k <;> simp [Grammar.standard]
    subst hname
    exact readName_renamed h
  | negative => exact .anywhere readNegative_renamed
  | not => exact .anywhere (.bind .advance fun _ _ _ => .bind (h _) fun _ _ he => .pure (.not he))
  | group =>
    exact .anywhere (.bind .advance fun _ _ _ => .bind (h _) fun _ _ he => .bind (.expect _) fun _ _ _ => .pure he)
  | new => exact .anywhere (readNew_renamed h)
  | cond => exact .anywhere (readCond_renamed h)
  | print =>
    exact .anywhere (.bind .advance fun _ _ _ => .bind (.expect _) fun _ _ _ => .bind (h _) fun _ _ he =>
      .bind (.expect _) fun _ _ _ => .pure (.print he))

end Leading

include h in
/-- Every trailing form reads renamed tokens, after renamed expressions, as renamed expressions. -/
theorem Trailing.read_renamed {e e' : Expr} (he : e.Renamed ρ e') (power : Power) (form : Trailing) :
    Renamed ρ (Expr.Renamed ρ) (form.read expr e power) (form.read expr e' power) := by
  cases form with
  | binary =>
    refine .bind .advance fun t t' ht => ?_
    rw [← ht.kind]
    split
    · exact .bind (h _) fun _ _ hb => .pure (.binary he hb)
    · exact .refuseToken ht
  | methodCall =>
    refine .bind .advance fun _ _ _ => .bind (.expectAs _ _) fun _ _ ht => .kind fun _ => .ite (fun _ => .anywhere ?_)
      fun _ => .anywhere (.refuse _)
    exact .bind (arguments_renamed h) fun _ _ hes => .pure (.methodCall he (ht.1.takes ht.2) hes .none)

end

namespace Grammar

theorem extend_renamed {expr : ExprReader} (h : expr.Renames ρ) (power : Power) :
    ∀ (n : Nat) {e e' : Expr}, e.Renamed ρ e' →
      Renamed ρ (Expr.Renamed ρ) (standard.extend expr power n e) (standard.extend expr power n e')
  | 0, _, _, he => .pure he
  | n + 1, _, _, he => by
    refine .kind fun k => ?_
    split
    · refine .ite (fun _ => .anywhere ?_) fun _ => .anywhere (.pure he)
      exact .bind (Trailing.read_renamed h he _ _) fun _ _ he => extend_renamed h power n he
    · exact .anywhere (.pure he)

theorem exprWithin_renamed : ∀ depth, (standard.exprWithin depth).Renames ρ
  | 0 => fun _ => .bind .get fun _ _ hc => .refuseToken hc.current
  | depth + 1 => fun power => by
    refine .kind fun k => ?_
    split
    · rename_i form hform
      refine .bind (Leading.read_renamed (exprWithin_renamed depth) hform) fun _ _ he =>
        .bind .remaining fun n n' hn => ?_
      subst hn
      exact extend_renamed (exprWithin_renamed depth) power _ he
    · exact .anywhere (.bind .get fun _ _ hc => .refuseToken hc.current)

/-- Renamed tokens are read as renamed expressions. -/
theorem expr_renamed : standard.expr.Renames ρ := fun power =>
  .bind .remaining fun n n' hn => by subst hn; exact exprWithin_renamed _ power

/-! ## Declarations and programs -/

theorem typeName_renamed : Renamed ρ (Ty.Renamed ρ) standard.typeName standard.typeName := by
  refine .kind fun k => ?_
  split
  · rename_i form _
    cases form with
    | primitive =>
      refine .anywhere (.bind .advance fun t t' ht => ?_)
      obtain ⟨k, v, l⟩ := t
      obtain ⟨k', v', l'⟩ := t'
      obtain rfl : k = k' := ht.kind
      cases k with
      | kwInt => exact .pure .int
      | kwBool => exact .pure .bool
      | _ => exact .refuseToken ht
    | className => exact .anywhere (.bind (.expect _) fun _ _ ht => .pure (.ref (ht.1.takes ht.2)))
  · exact .anywhere (.refuse _)

theorem formals_renamed : Renamed ρ (List.Forall₂ (Formal.Renamed ρ)) standard.formals standard.formals :=
  .commaList (.bind (.expect _) fun _ _ hname => .bind (.expect _) fun _ _ _ => .bind typeName_renamed fun _ _ ht =>
    .pure ⟨hname.1.takes hname.2, ht⟩)

theorem varDecl_renamed : Renamed ρ (Decl.Renamed ρ) standard.varDecl standard.varDecl := by
  refine .bind .advance fun _ _ _ => .bind (.expectAs _ _) fun _ _ hname => .bind (.expect _) fun _ _ _ => ?_
  exact .bind typeName_renamed fun _ _ ht => .bind (.expect _) fun _ _ _ => .bind (expr_renamed _) fun _ _ he =>
    .bind (.expect _) fun _ _ _ => .pure (.var (hname.1.takes hname.2) ht he)

theorem header_renamed : Renamed ρ (Header.Renamed ρ) standard.header standard.header := by
  refine .bind (.expect _) fun _ _ _ => .bind (.expectAs _ _) fun _ _ hname => .bind (.expect _) fun _ _ _ => ?_
  exact .bind typeName_renamed fun _ _ ht => .bind formals_renamed fun _ _ hps => .pure ⟨hname.1.takes hname.2, ht, hps⟩

/-- Headers, local declarations and bodies that differ in names and lines. -/
abbrev RoutineRenamed (ρ : Renaming) (r r' : Header × List Decl × Expr) : Prop :=
  r.1.Renamed ρ r'.1 ∧ List.Forall₂ (Decl.Renamed ρ) r.2.1 r'.2.1 ∧ r.2.2.Renamed ρ r'.2.2

theorem routine_renamed {decl : Reading Decl} (h : Renamed ρ (Decl.Renamed ρ) decl decl) :
    Renamed ρ (RoutineRenamed ρ) (standard.routine decl) (standard.routine decl) := by
  have hlocals : Renamed ρ (List.Forall₂ (Decl.Renamed ρ)) (localDecls decl) (localDecls decl) := by
    refine .kind fun _ => .ite (fun _ => .anywhere ?_) fun _ => .anywhere (.pure .nil)
    exact .bind .advance fun _ _ _ => .bind h fun _ _ hd => .bind (.many _ h) fun _ _ hds =>
      .bind (.expect _) fun _ _ _ => .pure (.cons hd hds)
  exact .bind header_renamed fun _ _ hh => .bind hlocals fun _ _ hds => .bind (expr_renamed _) fun _ _ he =>
    .bind (.expect _) fun _ _ _ => .pure ⟨hh, hds, he⟩

theorem declWithin_renamed : ∀ depth, Renamed ρ (Decl.Renamed ρ) (standard.declWithin depth) (standard.declWithin depth)
  | 0 => .bind .get fun _ _ hc => .refuseToken hc.current
  | depth + 1 => by
    refine .kind fun k => .anywhere ?_
    split
    · exact varDecl_renamed
    · exact .bind (routine_renamed (declWithin_renamed depth)) fun _ _ h => .pure (.function h.1 h.2.1 h.2.2)
    · exact .refuse _

theorem declaration_renamed : Renamed ρ (Decl.Renamed ρ) standard.declaration standard.declaration :=
  .bind .remaining fun n n' hn => by subst hn; exact declWithin_renamed _

theorem method_renamed : Renamed ρ (Method.Renamed ρ) standard.method standard.method :=
  .bind (routine_renamed declaration_renamed) fun _ _ h => .pure ⟨h.1, h.2.1, h.2.2, rfl⟩

theorem classDecl_renamed : Renamed ρ (ClassDecl.Renamed ρ) standard.classDecl standard.classDecl := by
  refine .bind (.expect _) fun _ _ _ => .bind (.expectAs _ _) fun _ _ hname => .bind formals_renamed fun _ _ hfs => ?_
  exact .bind (.expect _) fun _ _ _ => .bind (.many _ method_renamed) fun _ _ hms => .bind (.expectAs _ _) fun _ _ _ =>
    .pure ⟨hname.1.takes hname.2, hfs, hms⟩

theorem isEmpty_eq {α β : Type} {r : α → β → Prop} {as : List α} {bs : List β} (h : List.Forall₂ r as bs) :
    as.isEmpty = bs.isEmpty := by
  cases h <;> rfl

/-- Renamed tokens are read as renamed programs, or refused for the same reason. -/
theorem program_renamed : Renamed ρ (Program.Renamed ρ) standard.program standard.program := by
  have hbody : Renamed ρ (Expr.Renamed ρ) standard.programBody standard.programBody :=
    .bind (expr_renamed _) fun _ _ he => .bind (.expect _) fun _ _ _ => .pure he
  have htext : Renamed ρ (Program.Renamed ρ) standard.programText standard.programText := by
    refine .kind fun _ => .ite (fun _ => .anywhere ?_) fun _ => .anywhere (.bind hbody fun _ _ he => .pure (.expr he))
    refine .bind .advance fun _ _ _ => .bind (.many _ classDecl_renamed) fun _ _ hcs => ?_
    refine .bind (.many _ declaration_renamed) fun _ _ hds => ?_
    rw [isEmpty_eq hcs, isEmpty_eq hds]
    split
    · exact .refuse _
    · exact .bind (.expect _) fun _ _ _ => .bind hbody fun _ _ he => .pure (.letIn hcs hds he)
  refine .bind htext fun _ _ hp => .bind .get fun _ _ hc => ?_
  rw [Cursor.hasTokens, Cursor.hasTokens, hc.current.kind]
  split
  · exact .refuse _
  · exact .pure hp

end Grammar

end FoolLang
