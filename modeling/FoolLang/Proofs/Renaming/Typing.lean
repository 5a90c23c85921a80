/-
Typing of renamed programs: types are compared, never looked at by name, so renamed expressions have renamed
types or none at all, and then for the same reason but for the names.
-/
import FoolLang.Proofs.Renaming.Trees
import FoolLang.Typing

namespace FoolLang

variable {ρ : Renaming}

/-! ## Outcomes of typing -/

/-- Both expressions are incomplete, or both have a problem, and these differ in names. -/
inductive Untyped.Renamed (ρ : Renaming) : Untyped → Untyped → Prop
  | incomplete : Renamed ρ .incomplete .incomplete
  | problem {d d' : Diagnostic} (h : d.Renamed ρ d') : Renamed ρ (.problem d) (.problem d')

/-- Both typings succeed, with related results, or neither does, for reasons that differ in names. -/
abbrev Typed.Renamed {α β : Type} (ρ : Renaming) (r : α → β → Prop) (x : Typed α) (y : Typed β) : Prop :=
  SameOutcome (Untyped.Renamed ρ) r x y

namespace Typed.Renamed

variable {α β γ δ : Type} {r : α → β → Prop} {q : γ → δ → Prop} {x : Typed α} {y : Typed β} {f : α → Typed γ}
  {g : β → Typed δ} {a : α} {b : β} {c c' : Cause} {l l' : Nat}

theorem bind (hx : x.Renamed ρ r y) (hf : ∀ a b, r a b → (f a).Renamed ρ q (g b)) :
    (x >>= f).Renamed ρ q (y >>= g) := by
  cases hx with
  | ok h => exact hf _ _ h
  | error h => exact .error h

theorem pure (h : r a b) : Typed.Renamed ρ r (pure a) (pure b) := .ok h

theorem fail (h : c.Renamed ρ c') : Typed.Renamed ρ r (Typed.fail c l : Typed α) (Typed.fail c' l') :=
  .error (.problem h)

/-- A condition that holds in both programs or in neither. -/
theorem ensure {holds holds' : Bool} (heq : holds = holds') (h : c.Renamed ρ c') :
    Typed.Renamed ρ (fun _ _ => True) (Typed.ensure holds c l) (Typed.ensure holds' c' l') := by
  subst heq
  cases holds
  · exact .fail h
  · exact .ok trivial

theorem decoration {o : Option α} {o' : Option β} (h : Option.Rel r o o') :
    Typed.Renamed ρ r (Typed.decoration o) (Typed.decoration o') := by
  cases h with
  | some h => exact .ok h
  | none => exact .error .incomplete

theorem problems (h : x.Renamed ρ r y) : List.Forall₂ (Diagnostic.Renamed ρ) x.problems y.problems := by
  cases h with
  | ok _ => exact .nil
  | error h =>
    cases h with
    | incomplete => exact .nil
    | problem h => exact .cons h .nil

end Typed.Renamed

/-! ## Expressions -/

section

variable {t t' u u' : Ty} {x x' : String} {l l' : Nat}

theorem BinaryOp.resultType_renamed (op : BinaryOp) (ht : t.Renamed ρ t') (hu : u.Renamed ρ u') :
    (op.resultType t u l).Renamed ρ (Ty.Renamed ρ) (op.resultType t' u' l') := by
  have hint := congrArg₂ (· && ·) (ht.subtype .int) (hu.subtype .int)
  have hbool := congrArg₂ (· && ·) (ht.subtype .bool) (hu.subtype .bool)
  have heither := congrArg₂ (· || ·) (ht.subtype hu) (hu.subtype ht)
  cases op with
  | plus | minus | times | div => exact .bind (.ensure hint (.nonIntegerOperands _)) fun _ _ _ => .pure .int
  | equal | lessEqual | greaterEqual =>
    exact .bind (.ensure heither (.incompatibleComparison _)) fun _ _ _ => .pure .bool
  | and | or => exact .bind (.ensure hbool (.nonBooleanOperands _)) fun _ _ _ => .pure .bool

namespace Ty.Renamed

theorem join (ht : t.Renamed ρ t') (hu : u.Renamed ρ u') : (t.join u l).Renamed ρ (Ty.Renamed ρ) (t'.join u' l') := by
  unfold Ty.join
  rw [ht.subtype hu, hu.subtype ht]
  split
  · exact .pure hu
  · split
    · exact .pure ht
    · exact .fail (.incompatibleBranches ht hu)

theorem asValue (hx : ρ.Takes x x') (ht : t.Renamed ρ t') :
    (t.asValue x l).Renamed ρ (Ty.Renamed ρ) (t'.asValue x' l') := by
  have htype := ht
  cases ht with
  | arrow _ => exact .fail (.functionAsValue hx)
  | cls _ _ => exact .fail (.classAsValue hx)
  | _ => exact .pure htype

theorem asFunction (hx : ρ.Takes x x') (ht : t.Renamed ρ t') :
    (t.asFunction x l).Renamed ρ (Signature.Renamed ρ) (t'.asFunction x' l') := by
  cases ht with
  | arrow hs => exact .pure hs
  | _ => exact .fail (.notAFunction hx)

theorem asClass (hx : ρ.Takes x x') (ht : t.Renamed ρ t') :
    (t.asClass x l).Renamed ρ (List.Forall₂ (Ty.Renamed ρ)) (t'.asClass x' l') := by
  cases ht with
  | cls hf _ => exact .pure hf
  | _ => exact .fail (.notAClass hx)

theorem ensureObject (hx : ρ.Takes x x') (ht : t.Renamed ρ t') :
    (t.ensureObject x l).Renamed ρ (fun _ _ => True) (t'.ensureObject x' l') := by
  cases ht with
  | ref _ => exact .pure trivial
  | _ => exact .fail (.notAnObject hx)

end Ty.Renamed

end

/-- As many arguments are expected, and as many received, in renamed calls. -/
theorem ensureCount_renamed {f f' : String} {ts ts' : List Ty} {es es' : List Expr} {l l' : Nat} (hf : ρ.Takes f f')
    (hts : List.Forall₂ (Ty.Renamed ρ) ts ts') (hes : List.Forall₂ (Expr.Renamed ρ) es es') :
    Typed.Renamed ρ (fun _ _ => True)
      (Typed.ensure (ts.length == es.length) (.wrongArgumentCount f ts.length es.length) l)
      (Typed.ensure (ts'.length == es'.length) (.wrongArgumentCount f' ts'.length es'.length) l') := by
  rw [hts.length_eq, hes.length_eq]
  exact .ensure rfl (.wrongArgumentCount hf _ _)

mutual

/-- Renamed expressions have renamed types, or none for the same reason. -/
theorem Expr.Renamed.type : ∀ {e e' : Expr}, e.Renamed ρ e' → e.type.Renamed ρ (Ty.Renamed ρ) e'.type
  | _, _, .int => .pure .int
  | _, _, .bool => .pure .bool
  | _, _, .null => .pure .null
  | _, _, .binary ha hb => .bind ha.type fun _ _ ht => .bind hb.type fun _ _ hu => BinaryOp.resultType_renamed _ ht hu
  | _, _, .not he => .bind he.type fun _ _ ht =>
    .bind (.ensure (ht.subtype .bool) (.nonBooleanOperands "not")) fun _ _ _ => .pure .bool
  | _, _, .cond hc ha hb => .bind hc.type fun _ _ ht =>
    .bind (.ensure (ht.subtype .bool) .nonBooleanCondition) fun _ _ _ =>
      .bind ha.type fun _ _ ht => .bind hb.type fun _ _ hu => ht.join hu
  | _, _, .print he => he.type
  | _, _, .id hx hr => .bind (.decoration hr) fun _ _ hr => hr.entry.type.asValue hx
  | _, _, .call hf hes hr => .bind (.decoration hr) fun _ _ hr => .bind (hr.entry.type.asFunction hf) fun _ _ hs => by
    obtain ⟨hts, ht⟩ := hs
    exact .bind (ensureCount_renamed hf hts hes) fun _ _ _ =>
      .bind (Expr.Renamed.checkArgs hf 1 hts hes) fun _ _ _ => .pure ht
  | _, _, .new hc hes hr => .bind (.decoration hr) fun _ _ hr => .bind (hr.entry.type.asClass hc) fun _ _ hts =>
    .bind (ensureCount_renamed hc hts hes) fun _ _ _ =>
      .bind (Expr.Renamed.checkArgs hc 1 hts hes) fun _ _ _ => .pure (.ref hc)
  | _, _, .methodCall he hm hes hb => .bind he.type fun _ _ ht => .bind (ht.ensureObject hm) fun _ _ _ =>
    .bind (.decoration hb) fun _ _ hb => .bind (hb.type.asFunction hm) fun _ _ hs => by
      obtain ⟨hts, ht⟩ := hs
      exact .bind (ensureCount_renamed hm hts hes) fun _ _ _ =>
        .bind (Expr.Renamed.checkArgs hm 1 hts hes) fun _ _ _ => .pure ht

theorem Expr.Renamed.checkArgs {f f' : String} {l l' : Nat} (hf : ρ.Takes f f') :
    ∀ (position : Nat) {ts ts' : List Ty} {es es' : List Expr}, List.Forall₂ (Ty.Renamed ρ) ts ts' →
      List.Forall₂ (Expr.Renamed ρ) es es' →
        (Expr.checkArgs f l position ts es).Renamed ρ (fun _ _ => True) (Expr.checkArgs f' l' position ts' es')
  | _, _, _, [], _, .nil, .nil | _, _, _, _ :: _, _, .nil, .cons _ _ | _, _, _, [], _, .cons _ _, .nil => by
    unfold Expr.checkArgs
    exact .pure trivial
  | position, _, _, _ :: _, _, .cons ht hts, .cons he hes => by
    unfold Expr.checkArgs
    refine .bind he.type fun _ _ hu =>
      .bind (.ensure (hu.subtype ht) (.argumentTypeMatchError _ hf ht hu)) fun _ _ _ => ?_
    exact Expr.Renamed.checkArgs hf (position + 1) hts hes

end

/-! ## Declarations and programs -/

theorem Header.Renamed.checkBody {h h' : Header} {e e' : Expr} (kind : String) (hh : h.Renamed ρ h')
    (he : e.Renamed ρ e') :
    (h.checkBody kind e).Renamed ρ (fun _ _ => True) (h'.checkBody kind e') :=
  .bind he.type fun _ _ ht => .ensure (ht.subtype hh.result) (.wrongReturnType kind hh.name hh.result ht)

mutual

theorem Decl.Renamed.typeProblems : ∀ {d d' : Decl}, d.Renamed ρ d' →
    List.Forall₂ (Diagnostic.Renamed ρ) d.typeProblems d'.typeProblems
  | _, _, .var hx ht he => Typed.Renamed.problems
    (.bind he.type fun _ _ hu => .ensure (hu.subtype ht) (.incompatibleValue hx ht hu))
  | _, _, .function hh hds he =>
    List.rel_append (Decl.Renamed.typeProblemsAll hds) (hh.checkBody "function" he).problems

theorem Decl.Renamed.typeProblemsAll : ∀ {ds ds' : List Decl}, List.Forall₂ (Decl.Renamed ρ) ds ds' →
    List.Forall₂ (Diagnostic.Renamed ρ) (Decl.typeProblemsAll ds) (Decl.typeProblemsAll ds')
  | _, _, .nil => .nil
  | _, _, .cons hd hds => List.rel_append hd.typeProblems (Decl.Renamed.typeProblemsAll hds)

end

theorem Method.Renamed.typeProblems {m m' : Method} (h : m.Renamed ρ m') :
    List.Forall₂ (Diagnostic.Renamed ρ) m.typeProblems m'.typeProblems :=
  List.rel_append (Decl.Renamed.typeProblemsAll h.locals) (h.header.checkBody "method" h.body).problems

theorem ClassDecl.Renamed.typeProblems {c c' : ClassDecl} (h : c.Renamed ρ c') :
    List.Forall₂ (Diagnostic.Renamed ρ) c.typeProblems c'.typeProblems :=
  List.rel_flatMap h.methods fun _ _ hm => hm.typeProblems

/-- In renamed programs the same is wrong with the types, but for the names. -/
theorem Program.Renamed.typeProblems {p p' : Program} (h : p.Renamed ρ p') :
    List.Forall₂ (Diagnostic.Renamed ρ) p.typeProblems p'.typeProblems := by
  cases h with
  | letIn hcs hds he =>
    have hclasses := List.rel_flatMap hcs fun _ _ hc => ClassDecl.Renamed.typeProblems hc
    exact List.rel_append (List.rel_append hclasses (Decl.Renamed.typeProblemsAll hds)) he.type.problems
  | expr he => exact he.type.problems

end FoolLang
