/-
Resolution does not look at names beyond comparing them: in renamed scopes a renamed name has the renamed
binding, so a program and its renamed form are decorated alike, and what is wrong with their names is the
same but for the names. Every step of a resolution keeps two scopes renamed; the rest is taking steps in turn.
-/
import FoolLang.Proofs.Renaming.Trees

namespace FoolLang

variable {ρ : Renaming}

/-! ## Related lists and options -/

section

variable {α β γ δ : Type} {r : α → β → Prop} {q : γ → δ → Prop} {o p : Option α} {o' p' : Option β}

theorem rel_isSome (h : Option.Rel r o o') : o.isSome = o'.isSome := by
  cases h <;> rfl

theorem rel_orElse (h : Option.Rel r o o') (hp : Option.Rel r p p') : Option.Rel r (o <|> p) (o' <|> p') := by
  cases h with
  | some h => exact .some h
  | none => exact hp

theorem rel_map {f : α → γ} {g : β → δ} (h : Option.Rel r o o') (hf : ∀ a b, r a b → q (f a) (g b)) :
    Option.Rel q (o.map f) (o'.map g) := by
  cases h with
  | some h => exact .some (hf _ _ h)
  | none => exact .none

theorem rel_bind {f : α → Option γ} {g : β → Option δ} (h : Option.Rel r o o')
    (hf : ∀ a b, r a b → Option.Rel q (f a) (g b)) : Option.Rel q (o.bind f) (o'.bind g) := by
  cases h with
  | some h => exact hf _ _ h
  | none => exact .none

variable {as : List α} {bs : List β}

theorem rel_getLast? (h : List.Forall₂ r as bs) : Option.Rel r as.getLast? bs.getLast? := by
  rw [List.getLast?_eq_head?_reverse, List.getLast?_eq_head?_reverse]
  have h := List.rel_reverse h
  generalize as.reverse = as, bs.reverse = bs at h
  cases h with
  | nil => exact .none
  | cons h _ => exact .some h

theorem rel_findSome? {f : α → Option γ} {g : β → Option δ} (h : List.Forall₂ r as bs)
    (hf : ∀ a b, r a b → Option.Rel q (f a) (g b)) : Option.Rel q (as.findSome? f) (bs.findSome? g) := by
  induction h with
  | nil => exact .none
  | @cons a b _ _ hab _ ih =>
    rw [List.findSome?_cons, List.findSome?_cons]
    have hab := hf a b hab
    generalize f a = o, g b = o' at hab
    cases hab with
    | some h => exact .some h
    | none => exact ih

end

/-! ## Tables -/

/-- Tables with related entries under renamed names, in the same order. -/
def Table.Renamed {α β : Type} (ρ : Renaming) (r : α → β → Prop) (t : Table String α) (t' : Table String β) : Prop :=
  List.Forall₂ (fun e e' => ρ.Takes e.1 e'.1 ∧ r e.2 e'.2) t.entries t'.entries

namespace Table.Renamed

variable {α β : Type} {r : α → β → Prop} {t : Table String α} {t' : Table String β} {k k' : String} {a : α} {b : β}

theorem empty : Table.Renamed ρ r .empty .empty := .nil

theorem get? (h : t.Renamed ρ r t') (hk : ρ.Takes k k') : Option.Rel r (t.get? k) (t'.get? k') := by
  unfold Table.Renamed at h
  unfold Table.get?
  -- Entry by entry: the keys of both tables fit the names asked for alike.
  generalize t.entries = es, t'.entries = es' at h
  induction h with
  | nil => exact .none
  | cons he _ ih =>
    rw [List.lookup_cons, List.lookup_cons, hk.beq_eq he.1]
    split
    · exact .some he.2
    · exact ih

theorem contains (h : t.Renamed ρ r t') (hk : ρ.Takes k k') : t.contains k = t'.contains k' := rel_isSome (h.get? hk)

theorem put (h : t.Renamed ρ r t') (hk : ρ.Takes k k') (hab : r a b) : (t.put k a).Renamed ρ r (t'.put k' b) := by
  refine .cons ⟨hk, hab⟩ (List.rel_filter ?_ h)
  rintro e e' ⟨he, -⟩
  simp only [he.beq_eq hk]

end Table.Renamed

/-! ## Scopes -/

/-- Frames that bind renamed names to renamed bindings. -/
abbrev Frame.Renamed (ρ : Renaming) : Frame → Frame → Prop := Table.Renamed ρ (Binding.Renamed ρ)

/-- Scopes that differ in names, and in the lines of their problems. -/
structure Scope.Renamed (ρ : Renaming) (s s' : Scope) : Prop where
  frames : List.Forall₂ (Frame.Renamed ρ) s.frames s'.frames
  level : s.level = s'.level
  nextOffset : s.nextOffset = s'.nextOffset
  classes : s.classes.Renamed ρ (Frame.Renamed ρ) s'.classes
  problems : List.Forall₂ (Diagnostic.Renamed ρ) s.problems s'.problems

namespace Scope.Renamed

variable {s s' : Scope} {x x' : String} {c c' : Cause} {b b' : Binding} {t t' : Ty} {l l' : Nat}

theorem outermost : Scope.Renamed ρ .outermost .outermost := ⟨.cons .empty .nil, rfl, rfl, .empty, .nil⟩

theorem lookup (h : s.Renamed ρ s') (hx : ρ.Takes x x') : Option.Rel (Binding.Renamed ρ) (s.lookup x) (s'.lookup x') :=
  rel_findSome? h.frames fun _ _ hf => hf.get? hx

theorem lookupOutermost (h : s.Renamed ρ s') (hx : ρ.Takes x x') :
    Option.Rel (Binding.Renamed ρ) (s.lookupOutermost x) (s'.lookupOutermost x') :=
  rel_bind (rel_getLast? h.frames) fun _ _ hf => hf.get? hx

theorem resolution? (h : s.Renamed ρ s') (hx : ρ.Takes x x') :
    Option.Rel (Resolution.Renamed ρ) (s.resolution? x) (s'.resolution? x') :=
  rel_map (h.lookup hx) fun _ _ hb => ⟨hb, h.level⟩

theorem report (h : s.Renamed ρ s') (hc : c.Renamed ρ c') : (s.report c l).Renamed ρ (s'.report c' l') :=
  { h with problems := List.rel_append h.problems (.cons hc .nil) }

/-- A problem that both scopes report or neither does. -/
theorem reportIf {found found' : Bool} (h : s.Renamed ρ s') (hfound : found = found') (hc : c.Renamed ρ c') :
    Scope.Renamed ρ (if found then s.report c l else s) (if found' then s'.report c' l' else s') := by
  subst hfound
  split
  · exact h.report hc
  · exact h

theorem declare (kind : String) (h : s.Renamed ρ s') (hx : ρ.Takes x x') (hb : b.Renamed ρ b') :
    (s.declare kind x b l).Renamed ρ (s'.declare kind x' b' l') := by
  have hframes := h.frames
  unfold Scope.declare
  -- Both scopes have an innermost frame or neither has.
  cases hf : s.frames <;> cases hf' : s'.frames <;> rw [hf, hf'] at hframes <;> cases hframes
  · exact h
  · rename_i frame outer frame' outer' hframe houter
    have hput : Scope.Renamed ρ { s with frames := frame.put x b :: outer }
        { s' with frames := frame'.put x' b' :: outer' } :=
      { h with frames := .cons (hframe.put hx hb) houter }
    exact hput.reportIf (hframe.contains hx) (.alreadyDeclared kind hx)

theorem declareNext (kind : String) (h : s.Renamed ρ s') (hx : ρ.Takes x x') (ht : t.Renamed ρ t') :
    (s.declareNext kind x t l).Renamed ρ (s'.declareNext kind x' t' l') :=
  Scope.Renamed.declare kind { h with nextOffset := congrArg (· - 1) h.nextOffset } hx ⟨h.level, ht, h.nextOffset, rfl⟩

theorem enter (h : s.Renamed ρ s') : s.enter.Renamed ρ s'.enter :=
  { h with frames := .cons .empty h.frames, level := congrArg (· + 1) h.level, nextOffset := rfl }

theorem leave (h : s.Renamed ρ s') (offset : Int32) : (s.leave offset).Renamed ρ (s'.leave offset) := by
  refine { h with frames := ?_, level := congrArg (· - 1) h.level, nextOffset := rfl }
  rw [Scope.leave, Scope.leave, ← List.drop_one, ← List.drop_one]
  exact List.forall₂_drop 1 h.frames

theorem declareParams {ps ps' : List Formal} (hps : List.Forall₂ (Formal.Renamed ρ) ps ps') :
    ∀ {s s' : Scope} (offset : Int32), s.Renamed ρ s' →
      (s.declareParams ps offset).Renamed ρ (s'.declareParams ps' offset) := by
  induction hps with
  | nil => exact fun _ h => h
  | cons hp _ ih => exact fun offset h => ih _ (h.declare "Par" hp.name ⟨h.level, hp.type, rfl, rfl⟩)

theorem declareClass (h : s.Renamed ρ s') (hx : ρ.Takes x x') (hb : b.Renamed ρ b') :
    (s.declareClass x b l).Renamed ρ (s'.declareClass x' b' l') := by
  have hlast := rel_getLast? h.frames
  unfold Scope.declareClass
  -- Both scopes have an outermost frame or neither has.
  cases hf : s.frames.getLast? <;> cases hf' : s'.frames.getLast? <;> rw [hf, hf'] at hlast <;> cases hlast
  · exact h
  · rename_i frame frame' hframe
    have hframes : List.Forall₂ (Frame.Renamed ρ) (s.frames.dropLast ++ [frame.put x b])
        (s'.frames.dropLast ++ [frame'.put x' b']) := by
      rw [List.dropLast_eq_take, List.dropLast_eq_take, h.frames.length_eq]
      exact List.rel_append (List.forall₂_take _ h.frames) (.cons (hframe.put hx hb) .nil)
    have hput : Scope.Renamed ρ { s with frames := s.frames.dropLast ++ [frame.put x b] }
        { s' with frames := s'.frames.dropLast ++ [frame'.put x' b'] } := { h with frames := hframes }
    exact hput.reportIf (hframe.contains hx) (.alreadyDeclared "Class" hx)

/-- The class declared last is that of the innermost frame. -/
theorem putClass (h : s.Renamed ρ s') (hx : ρ.Takes x x') :
    Scope.Renamed ρ { s with classes := s.classes.put x (s.frames.headD .empty) }
      { s' with classes := s'.classes.put x' (s'.frames.headD .empty) } := by
  refine { h with classes := h.classes.put hx ?_ }
  have hframes := h.frames
  generalize s.frames = fs, s'.frames = fs' at hframes
  cases hframes with
  | nil => exact .empty
  | cons hf _ => exact hf

/-! ## Uses of names -/

theorem methodEntry? (h : s.Renamed ρ s') (hx : ρ.Takes x x') {m m' : String} (hm : ρ.Takes m m') :
    Option.Rel (Binding.Renamed ρ) (s.methodEntry? x m) (s'.methodEntry? x' m') := by
  refine rel_bind (h.classes.get? hx) fun _ _ hf => rel_bind (hf.get? hm) fun b b' hb => ?_
  rw [hb.isMethod]
  split
  · exact .some hb
  · exact .none

variable {e e' : Expr}

/-- Receivers have a class in both programs or in neither, and then for the same reason. -/
theorem receiverClass? (h : s.Renamed ρ s') (he : e.Renamed ρ e') :
    SameOutcome (Cause.Renamed ρ) (Option.Rel ρ.Takes) (e.receiverClass? s) (e'.receiverClass? s') := by
  have hwhy := Cause.Renamed.notAClassVariable he
  cases he with
  | id _ hr =>
    cases hr with
    | none => exact .ok .none
    | @some r r' hr =>
      have ht := hr.entry.type
      simp only [Expr.receiverClass?]
      generalize r.entry.type = t, r'.entry.type = t' at ht
      cases ht with
      | ref hc => exact .ok (.some hc)
      | _ => exact .error hwhy
  | new hc _ _ =>
    simp only [Expr.receiverClass?, h.classes.contains hc]
    split
    · exact .ok (.some hc)
    · exact .ok .none
  | call _ _ hr =>
    cases hr with
    | none => exact .ok .none
    | @some r r' hr =>
      have hc := hr.entry.type.returnedClass?
      simp only [Expr.receiverClass?]
      generalize r.entry.type.returnedClass? = o, r'.entry.type.returnedClass? = o' at hc
      cases hc with
      | some hc => exact .ok (.some hc)
      | none => exact .error hwhy
  | methodCall _ _ _ hb =>
    cases hb with
    | none => exact .ok .none
    | @some b b' hb =>
      have hc := hb.type.returnedClass?
      simp only [Expr.receiverClass?]
      generalize b.type.returnedClass? = o, b'.type.returnedClass? = o' at hc
      cases hc with
      | some hc => exact .ok (.some hc)
      | none => exact .error hwhy
  | _ => exact .error hwhy

variable {m m' : String}

theorem callEntry? (h : s.Renamed ρ s') (he : e.Renamed ρ e') (hm : ρ.Takes m m') :
    Option.Rel (Binding.Renamed ρ) (s.callEntry? e m) (s'.callEntry? e' m') := by
  have hc := h.receiverClass? he
  unfold Scope.callEntry?
  generalize e.receiverClass? s = o, e'.receiverClass? s' = o' at hc
  cases hc with
  | error _ => exact .none
  | ok hc =>
    cases hc with
    | none => exact .none
    | some hc => exact h.methodEntry? hc hm

theorem callProblem? (h : s.Renamed ρ s') (he : e.Renamed ρ e') (hm : ρ.Takes m m') :
    Option.Rel (Cause.Renamed ρ) (s.callProblem? e m) (s'.callProblem? e' m') := by
  have hc := h.receiverClass? he
  unfold Scope.callProblem?
  generalize e.receiverClass? s = o, e'.receiverClass? s' = o' at hc
  cases hc with
  | error hwhy => exact .some hwhy
  | ok hc =>
    cases hc with
    | none => exact .none
    | @some c c' hc =>
      simp only [h.classes.contains hc]
      split
      · have hb := h.methodEntry? hc hm
        generalize s.methodEntry? c m = o, s'.methodEntry? c' m' = o' at hb
        cases hb with
        | some _ => exact .none
        | none => exact .some (.methodNotDeclared hc hm)
      · exact .some (.classNotDeclared hc)

end Scope.Renamed

variable {s s' : Scope}

mutual

/-- In renamed scopes renamed expressions are decorated alike. -/
theorem Expr.Renamed.decorate (h : s.Renamed ρ s') :
    ∀ {e e' : Expr}, e.Renamed ρ e' → (e.decorate s).Renamed ρ (e'.decorate s')
  | _, _, .int => .int
  | _, _, .bool => .bool
  | _, _, .null => .null
  | _, _, .binary ha hb => .binary (ha.decorate h) (hb.decorate h)
  | _, _, .not he => .not (he.decorate h)
  | _, _, .cond hc ha hb => .cond (hc.decorate h) (ha.decorate h) (hb.decorate h)
  | _, _, .print he => .print (he.decorate h)
  | _, _, .id hx hr => .id hx (rel_orElse (h.resolution? hx) hr)
  | _, _, .call hf hes hr => .call hf (Expr.Renamed.decorateAll h hes) (rel_orElse (h.resolution? hf) hr)
  | _, _, .new hc hes hr => by
    refine .new hc (Expr.Renamed.decorateAll h hes) ?_
    rw [h.classes.contains hc]
    split
    · exact rel_map (h.lookupOutermost hc) fun _ _ hb => ⟨hb, h.level⟩
    · exact hr
  | _, _, .methodCall he hm hes hb =>
    .methodCall (he.decorate h) hm (Expr.Renamed.decorateAll h hes) (rel_orElse (h.callEntry? (he.decorate h) hm) hb)

theorem Expr.Renamed.decorateAll (h : s.Renamed ρ s') : ∀ {es es' : List Expr}, List.Forall₂ (Expr.Renamed ρ) es es' →
    List.Forall₂ (Expr.Renamed ρ) (Expr.decorateAll s es) (Expr.decorateAll s' es')
  | _, _, .nil => .nil
  | _, _, .cons he hes => .cons (he.decorate h) (Expr.Renamed.decorateAll h hes)

end

/-- A name without a meaning is reported in both programs or in neither. -/
theorem missing_renamed {o o' : Option Binding} {c c' : Cause} {l l' : Nat} (hc : c.Renamed ρ c') :
    Option.Rel (Binding.Renamed ρ) o o' → List.Forall₂ (Diagnostic.Renamed ρ)
      (match o with | some _ => [] | none => [⟨c, l⟩]) (match o' with | some _ => [] | none => [⟨c', l'⟩])
  | .some _ => .nil
  | .none => .cons hc .nil

theorem wrong_renamed {o o' : Option Cause} {l l' : Nat} : Option.Rel (Cause.Renamed ρ) o o' →
    List.Forall₂ (Diagnostic.Renamed ρ) (match o with | some c => [⟨c, l⟩] | none => [])
      (match o' with | some c => [⟨c, l'⟩] | none => [])
  | .some hc => .cons hc .nil
  | .none => .nil

mutual

/-- In renamed scopes the same is wrong with the uses in renamed expressions. -/
theorem Expr.Renamed.problems (h : s.Renamed ρ s') : ∀ {e e' : Expr}, e.Renamed ρ e' →
    List.Forall₂ (Diagnostic.Renamed ρ) (e.problems s) (e'.problems s')
  | _, _, .int | _, _, .bool | _, _, .null => .nil
  | _, _, .binary ha hb => List.rel_append (ha.problems h) (hb.problems h)
  | _, _, .not he | _, _, .print he => he.problems h
  | _, _, .cond hc ha hb => List.rel_append (List.rel_append (hc.problems h) (ha.problems h)) (hb.problems h)
  | _, _, .id hx _ => missing_renamed (.notDeclared "Var or Par" hx) (h.lookup hx)
  | _, _, .call hf hes _ =>
    List.rel_append (missing_renamed (.notDeclared "Fun" hf) (h.lookup hf)) (Expr.Renamed.problemsAll h hes)
  | _, _, .new hc hes _ => by
    refine List.rel_append ?_ (Expr.Renamed.problemsAll h hes)
    rw [h.classes.contains hc]
    split
    · exact .nil
    · exact .cons (.classNotDeclared hc) .nil
  | _, _, .methodCall he hm hes _ =>
    List.rel_append (List.rel_append (he.problems h) (wrong_renamed (h.callProblem? (he.decorate h) hm)))
      (Expr.Renamed.problemsAll h hes)

theorem Expr.Renamed.problemsAll (h : s.Renamed ρ s') : ∀ {es es' : List Expr}, List.Forall₂ (Expr.Renamed ρ) es es' →
    List.Forall₂ (Diagnostic.Renamed ρ) (Expr.problemsAll s es) (Expr.problemsAll s' es')
  | _, _, .nil => .nil
  | _, _, .cons he hes => List.rel_append (he.problems h) (Expr.Renamed.problemsAll h hes)

end

end FoolLang
