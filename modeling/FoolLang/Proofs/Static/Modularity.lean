/-
Checking is modular. Around the content of one declaration, resolution and typing say the same whatever the content is:
what is wrong with the content stands as one piece between what is wrong before it and after it.
-/
import FoolLang.Proofs.Scoping.Contents
import FoolLang.Typing

namespace FoolLang

variable {k : Content.Kind}

/-! ## The declaration around a gap -/

/-- What is wrong with the types of a routine of some kind that has a content. -/
def Header.contentProblems (h : Header) (kind : String) (x : Content .routine) : List Diagnostic :=
  Decl.typeProblemsAll x.locals ++ Typed.problems (h.checkBody kind x.body)

mutual

/-- What is wrong with the types of the one declaration that a gap is the content of. -/
def Decl.Gap.own {k : Content.Kind} : Decl.Gap k → Content k → List Diagnostic
  | .var name type line, .value e => (Decl.var name type e line).typeProblems
  | .function header inside, x => inside.own header "function" x

/-- The same for a gap in the content of a routine of some kind. -/
def Content.Gap.own {k : Content.Kind} (header : Header) (kind : String) : Content.Gap k → Content k → List Diagnostic
  | .whole, x => header.contentProblems kind x
  | .within _ gap _ _, x => gap.own x

end

/-- The same for a gap in a method. -/
def Method.Gap.own (m : Method.Gap k) : Content k → List Diagnostic := m.inside.own m.header "method"

/-- The same for a gap in a program. -/
def Program.Gap.own : Program.Gap k → Content k → List Diagnostic
  | .ofClass classes _ _ => classes.gap.methods.gap.own
  | .ofDecl _ decls _ => decls.gap.own

/-! ## Typing around a gap -/

/-- Lists that have a piece of their own each, and are the same before it and after it. -/
def Surrounds {α β : Type} (own all : α → List β) : Prop := ∃ before after, ∀ x, all x = before ++ own x ++ after

theorem Surrounds.between {α β : Type} {own all : α → List β} (h : Surrounds own all) (bs bs' : List β) :
    Surrounds own fun x => bs ++ all x ++ bs' := by
  obtain ⟨before, after, h⟩ := h
  refine ⟨bs ++ before, after ++ bs', fun x => ?_⟩
  simp only [h, List.append_assoc]

/-- Elements that say one after the other what is wrong with them surround what the one with the gap says. -/
theorem Among.flatMap_surround {α γ : Type} {fill : γ → Content k → α} {own : Content k → List Diagnostic}
    {problems : α → List Diagnostic} (as : Among α γ) (h : Surrounds own fun x => problems (fill as.gap x)) :
    Surrounds own fun x => (as.fill fill x).flatMap problems := by
  obtain ⟨before, after, h⟩ := h.between (as.before.flatMap problems) (as.after.flatMap problems)
  refine ⟨before, after, fun x => ?_⟩
  beta_reduce at h ⊢
  rw [← h, Among.fill, List.flatMap_append, List.flatMap_cons, List.append_assoc]

theorem Decl.typeProblemsAll_eq (ds : List Decl) : Decl.typeProblemsAll ds = ds.flatMap Decl.typeProblems := by
  induction ds with
  | nil => rfl
  | cons d ds ih => rw [Decl.typeProblemsAll, List.flatMap_cons, ih]

mutual

theorem Decl.Gap.typeProblems_surround {k : Content.Kind} : ∀ gap : Decl.Gap k,
    Surrounds gap.own fun x => (gap.fill x).typeProblems
  | .var _ _ _ => ⟨[], [], fun | .value _ => (List.append_nil _).symm⟩
  | .function header inside => inside.contentProblems_surround header "function"

theorem Content.Gap.contentProblems_surround {k : Content.Kind} (header : Header) (kind : String) :
    ∀ gap : Content.Gap k, Surrounds (gap.own header kind) fun x => header.contentProblems kind (gap.fill x)
  | .whole => ⟨[], [], fun _ => (List.append_nil _).symm⟩
  | .within before gap after body => by
    have hlocals := Among.flatMap_surround ⟨before, gap, after⟩ gap.typeProblems_surround
    have hbody := hlocals.between [] (Typed.problems (header.checkBody kind body))
    simp only [← Decl.typeProblemsAll_eq] at hbody
    exact hbody

end

theorem Method.Gap.typeProblems_surround (m : Method.Gap k) : Surrounds m.own fun x => (m.fill x).typeProblems :=
  m.inside.contentProblems_surround m.header "method"

theorem Program.Gap.typeProblems_surround : ∀ gap : Program.Gap k, Surrounds gap.own fun x => (gap.fill x).typeProblems
  | .ofClass classes decls body => by
    have hclass : Surrounds classes.gap.methods.gap.own fun x => (classes.gap.fill x).typeProblems :=
      classes.gap.methods.flatMap_surround classes.gap.methods.gap.typeProblems_surround
    exact ((classes.flatMap_surround hclass).between [] (Decl.typeProblemsAll decls)).between []
      (Typed.problems body.type)
  | .ofDecl classes decls body => by
    have hdecls := decls.flatMap_surround decls.gap.typeProblems_surround
    have hall := hdecls.between (classes.flatMap ClassDecl.typeProblems) (Typed.problems body.type)
    simp only [← Decl.typeProblemsAll_eq] at hall
    exact hall

/--
Programs that differ in the content of one declaration are resolved to programs that differ in the content of that
declaration, with the same tables. In the reports of resolution and of typing, what is wrong with the content, and with
the types of the declaration that it is the content of, stands between the same problems.
-/
theorem Program.resolve_modular (gap : Program.Gap k) : ∃ (gap' : Program.Gap k) (visit : Option Scope) (last : Scope)
    (before after before' after' : List Diagnostic), ∀ x : Content k,
      (gap.fill x).resolve.1 = gap'.fill (x.visit visit).1 ∧
      (gap.fill x).resolve.2 = { last with problems := before ++ (x.visit visit).2 ++ after } ∧
      (gap.fill x).resolve.1.typeProblems = before' ++ gap'.own (x.visit visit).1 ++ after' := by
  obtain ⟨gap', visit, before, last, hresolve⟩ := gap.resolve_encloses
  obtain ⟨before', after', htypes⟩ := gap'.typeProblems_surround
  refine ⟨gap', visit, last, before, last.problems, before', after', fun x => ?_⟩
  have htree := congrArg Prod.fst (hresolve x)
  have hscope := congrArg Prod.snd (hresolve x)
  refine ⟨htree, hscope, ?_⟩
  rw [← htypes]
  exact congrArg Program.typeProblems htree

end FoolLang
