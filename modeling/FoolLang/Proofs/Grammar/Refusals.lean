/-
What a reading refuses is a problem of reading: no step reports any other, and neither does a form that
is made of such steps.
-/
import FoolLang.Grammar.Declaration
import FoolLang.Proofs.Sequencing
import FoolLang.Token.Scan

namespace FoolLang

namespace Reading

variable {α β : Type} {x : Reading α} {f : α → Reading β}

/-- Every failure of a reading is a problem of reading. -/
def Refuses (x : Reading α) : Prop := ∀ c d c', x.run c = .error d c' → d.phase = .reading

namespace Refuses

theorem bind (hx : Refuses x) (hf : ∀ a, Refuses (f a)) : Refuses (x >>= f) := by
  intro c d c' h
  rcases Sequencing.bind_error h with h | ⟨a, c₁, -, h⟩
  · exact hx c d c' h
  · exact hf a c₁ d c' h

theorem pure (a : α) : Refuses (Pure.pure a) := fun _ _ _ h => by cases h

theorem get : Refuses get := fun _ _ _ h => by cases h

theorem kind : Refuses kind := fun _ _ _ h => by cases h

theorem remaining : Refuses remaining := fun _ _ _ h => by cases h

theorem advance : Refuses advance := fun _ _ _ h => by cases h

theorem throw (d : Diagnostic) (hd : d.phase = .reading) : Refuses (throw d : Reading α) := by
  intro c d' c' h
  cases h
  exact hd

theorem refuse (expected : String) : Refuses (refuse expected : Reading α) := by
  intro c d c' h
  cases h
  rfl

theorem refuseToken (t : Token) : Refuses (refuseToken t : Reading α) := .throw _ rfl

/-- A choice between two readings. -/
theorem ite {p : Prop} [Decidable p] {y : Reading α} (hx : Refuses x) (hy : Refuses y) :
    Refuses (if p then x else y) := by
  split
  · exact hx
  · exact hy

theorem expect (k : Kind) : Refuses (expect k) :=
  .bind .get fun _ => .ite .advance (.refuseToken _)

theorem expectAs (k : Kind) (expected : String) : Refuses (expectAs k expected) :=
  .bind .get fun _ => .ite .advance (.refuse expected)

theorem manyUpTo (test : Kind → Bool) {item : Reading α} (h : Refuses item) :
    ∀ n, Refuses (manyUpTo test item n)
  | 0 => .pure _
  | n + 1 => .bind .kind fun _ => .ite (.bind h fun _ => .bind (manyUpTo test h n) fun _ => .pure _) (.pure _)

theorem many (test : Kind → Bool) {item : Reading α} (h : Refuses item) : Refuses (many test item) :=
  .bind .remaining fun _ => manyUpTo test h _

theorem commaList {item : Reading α} (h : Refuses item) : Refuses (commaList item) := by
  refine .bind (.expect _) fun _ => .bind .kind fun _ => .ite ?_ ?_
  · exact .bind (.pure _) fun _ => .bind (.expect _) fun _ => .pure _
  · refine .bind h fun _ => .bind (.many _ (.bind .advance fun _ => h)) fun _ => ?_
    exact .bind (.pure _) fun _ => .bind (.expect _) fun _ => .pure _

end Refuses

end Reading

open Reading

/-! ## Expressions -/

theorem numeral_refuses (text : String) (line : Nat) : Refuses (numeral text line) := by
  unfold numeral
  split
  · exact .pure _
  · exact .throw _ rfl

/-- A reader of expressions refuses only as reading does. -/
def ExprReader.Refuses (expr : ExprReader) : Prop := ∀ power, Reading.Refuses (expr power)

variable {expr : ExprReader} (h : expr.Refuses)

include h in
theorem arguments_refuses : Refuses (arguments expr) := .commaList (h _)

namespace Leading

theorem readLiteral_refuses : Refuses readLiteral := by
  refine .bind .advance fun t => ?_
  split
  · exact numeral_refuses _ _
  · exact .pure _
  · exact .pure _
  · exact .pure _
  · exact .refuseToken t

theorem readNegative_refuses : Refuses readNegative :=
  .bind .advance fun _ => .bind .kind fun _ => .ite (.bind .advance fun _ => numeral_refuses _ _) (.refuse _)

include h

theorem readBraced_refuses : Refuses (readBraced expr) :=
  .bind (.expect _) fun _ => .bind (h _) fun _ => .bind (.expect _) fun _ => .pure _

/-- Every leading form refuses only as reading does. -/
theorem read_refuses (form : Leading) : Refuses (form.read expr) := by
  cases form with
  | literal => exact readLiteral_refuses
  | name =>
    exact .bind .advance fun _ => .bind .kind fun _ => .ite (.bind (arguments_refuses h) fun _ => .pure _) (.pure _)
  | negative => exact readNegative_refuses
  | not => exact .bind .advance fun _ => .bind (h _) fun _ => .pure _
  | group => exact .bind .advance fun _ => .bind (h _) fun _ => .bind (.expect _) fun _ => .pure _
  | new =>
    exact .bind .advance fun _ => .bind (.expectAs _ _) fun _ => .bind (arguments_refuses h) fun _ => .pure _
  | cond =>
    refine .bind .advance fun _ => .bind (h _) fun _ => .bind (.expect _) fun _ => ?_
    exact .bind (readBraced_refuses h) fun _ => .bind (.expect _) fun _ =>
      .bind (readBraced_refuses h) fun _ => .pure _
  | print =>
    exact .bind .advance fun _ => .bind (.expect _) fun _ => .bind (h _) fun _ =>
      .bind (.expect _) fun _ => .pure _

end Leading

namespace Trailing

include h in
/-- Every trailing form refuses only as reading does. -/
theorem read_refuses (left : Expr) (power : Power) (form : Trailing) : Refuses (form.read expr left power) := by
  cases form with
  | binary =>
    refine .bind .advance fun t => ?_
    split
    · exact .bind (h _) fun _ => .pure _
    · exact .refuseToken t
  | methodCall =>
    exact .bind .advance fun _ => .bind (.expectAs _ _) fun _ => .bind .kind fun _ =>
      .ite (.bind (arguments_refuses h) fun _ => .pure _) (.refuse _)

end Trailing

namespace Grammar

variable (g : Grammar)

include h in
theorem extend_refuses (power : Power) : ∀ (n : Nat) (left : Expr), Refuses (g.extend expr power n left)
  | 0, left => .pure left
  | n + 1, left => by
    refine .bind .kind fun k => ?_
    split
    · exact .ite (.bind (Trailing.read_refuses h _ _ _) fun e => extend_refuses power n e) (.pure left)
    · exact .pure left

theorem exprWithin_refuses : ∀ depth, ExprReader.Refuses (g.exprWithin depth)
  | 0 => fun _ => .bind .get fun _ => .refuseToken _
  | depth + 1 => fun power => by
    refine .bind .kind fun k => ?_
    split
    · refine .bind (Leading.read_refuses (exprWithin_refuses depth) _) fun left => .bind .remaining fun _ => ?_
      exact extend_refuses (exprWithin_refuses depth) g power _ left
    · exact .bind .get fun _ => .refuseToken _

theorem expr_refuses : ExprReader.Refuses g.expr := fun power =>
  .bind .remaining fun _ => g.exprWithin_refuses _ power

/-! ## Declarations -/

theorem typeName_refuses : Refuses g.typeName := by
  refine .bind .kind fun k => ?_
  split
  · rename_i form _
    cases form with
    | primitive =>
      refine .bind .advance fun t => ?_
      split
      · exact .pure _
      · exact .pure _
      · exact .refuseToken t
    | className => exact .bind (.expect _) fun _ => .pure _
  · exact .refuse _

theorem formals_refuses : Refuses g.formals :=
  .commaList (.bind (.expect _) fun _ => .bind (.expect _) fun _ => .bind g.typeName_refuses fun _ => .pure _)

theorem varDecl_refuses : Refuses g.varDecl := by
  refine .bind .advance fun _ => .bind (.expectAs _ _) fun _ => .bind (.expect _) fun _ => ?_
  exact .bind g.typeName_refuses fun _ => .bind (.expect _) fun _ => .bind (g.expr_refuses _) fun _ =>
    .bind (.expect _) fun _ => .pure _

theorem header_refuses : Refuses g.header := by
  refine .bind (.expect _) fun _ => .bind (.expectAs _ _) fun _ => .bind (.expect _) fun _ => ?_
  exact .bind g.typeName_refuses fun _ => .bind g.formals_refuses fun _ => .pure _

theorem routine_refuses {decl : Reading Decl} (hd : Refuses decl) : Refuses (g.routine decl) := by
  have hlocals : Refuses (localDecls decl) := .bind .kind fun _ => .ite
    (.bind .advance fun _ => .bind hd fun _ => .bind (.many _ hd) fun _ => .bind (.expect _) fun _ => .pure _)
    (.pure _)
  exact .bind g.header_refuses fun _ => .bind hlocals fun _ => .bind (g.expr_refuses _) fun _ =>
    .bind (.expect _) fun _ => .pure _

theorem declWithin_refuses : ∀ depth, Refuses (g.declWithin depth)
  | 0 => .bind .get fun _ => .refuseToken _
  | depth + 1 => by
    refine .bind .kind fun k => ?_
    split
    · exact g.varDecl_refuses
    · exact .bind (g.routine_refuses (declWithin_refuses depth)) fun _ => .pure _
    · exact .refuse _

theorem declaration_refuses : Refuses g.declaration := .bind .remaining fun _ => g.declWithin_refuses _

theorem classDecl_refuses : Refuses g.classDecl := by
  have hmethod : Refuses g.method := .bind (g.routine_refuses g.declaration_refuses) fun _ => .pure _
  refine .bind (.expect _) fun _ => .bind (.expectAs _ _) fun _ => .bind g.formals_refuses fun _ => ?_
  exact .bind (.expect _) fun _ => .bind (.many _ hmethod) fun _ => .bind (.expectAs _ _) fun _ => .pure _

/-- A program is refused only as reading does. -/
theorem program_refuses : Refuses g.program := by
  have hbody : Refuses g.programBody := .bind (g.expr_refuses _) fun _ => .bind (.expect _) fun _ => .pure _
  have htext : Refuses g.programText := by
    refine .bind .kind fun _ => .ite ?_ (.bind hbody fun _ => .pure _)
    refine .bind .advance fun _ => .bind (.many _ g.classDecl_refuses) fun _ => ?_
    refine .bind (.many _ g.declaration_refuses) fun _ => .ite (.refuse _) ?_
    exact .bind (.expect _) fun _ => .bind hbody fun _ => .pure _
  exact .bind htext fun _ => .bind .get fun _ => .ite (.refuse _) (.pure _)

end Grammar

/-! ## Texts -/

theorem Token.scan_refuses (s : List Char) (line : UInt32) : ∀ d, scan s line = .error d → d.phase = .reading := by
  induction s, line using scan.induct with
  | case1 line =>
    intro d h
    rw [scan] at h
    cases h
  | case2 line c s hp =>
    intro d h
    rw [scan, hp] at h
    cases h
    rfl
  | case3 line c s p hp k hk ih =>
    intro d h
    rw [scan, hp] at h
    simp only [hk] at h
    cases hrest : scan (s.drop p.more.length) (lineBehind line p.chars) with
    | error d' => rw [hrest] at h; cases h; exact ih _ hrest
    | ok us => rw [hrest] at h; cases h
  | case4 line c s p hp hk ih =>
    intro d h
    rw [scan, hp] at h
    simp only [hk] at h
    exact ih d h

end FoolLang
