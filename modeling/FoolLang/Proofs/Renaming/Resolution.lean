/-
Resolution of renamed programs: two resolutions that take the same steps in renamed scopes end in renamed
scopes, with renamed trees. By the recursion of resolution, a program and its renamed form are such a pair,
and report the same problems but for the names.
-/
import FoolLang.Proofs.Renaming.Scoping

namespace FoolLang

variable {ρ : Renaming}

/-! ## Steps -/

/-- From renamed scopes two resolutions go on to renamed scopes, and give related results. -/
def Resolving.Renamed {α β : Type} (ρ : Renaming) (r : α → β → Prop) (x : Resolving α) (y : Resolving β) : Prop :=
  ∀ s s' : Scope, s.Renamed ρ s' → r (x.run s).1 (y.run s').1 ∧ (x.run s).2.Renamed ρ (y.run s').2

namespace Resolving.Renamed

variable {α β γ δ : Type} {r : α → β → Prop} {q : γ → δ → Prop} {x : Resolving α} {y : Resolving β}
  {f : α → Resolving γ} {g : β → Resolving δ}

theorem bind (hx : x.Renamed ρ r y) (hf : ∀ a b, r a b → (f a).Renamed ρ q (g b)) :
    (x >>= f).Renamed ρ q (y >>= g) := by
  intro s s' h
  obtain ⟨hr, hs⟩ := hx s s' h
  exact hf _ _ hr _ _ hs

theorem pure {a : α} {b : β} (h : r a b) : Resolving.Renamed ρ r (Pure.pure a) (Pure.pure b) := fun _ _ hs => ⟨h, hs⟩

theorem get : Resolving.Renamed ρ (Scope.Renamed ρ) get get := fun _ _ hs => ⟨hs, hs⟩

theorem modify {f g : Scope → Scope} (h : ∀ s s', s.Renamed ρ s' → (f s).Renamed ρ (g s')) :
    Resolving.Renamed ρ (fun _ _ => True) (modify f : Resolving PUnit) (modify g : Resolving PUnit) :=
  fun s s' hs => ⟨trivial, h s s' hs⟩

end Resolving.Renamed

open Resolving

theorem any_eq {α β : Type} {r : α → β → Prop} {as : List α} {bs : List β} {p : α → Bool} {q : β → Bool}
    (h : List.Forall₂ r as bs) (hpq : ∀ a b, r a b → p a = q b) : as.any p = bs.any q := by
  induction h with
  | nil => rfl
  | cons hab _ ih => rw [List.any_cons, List.any_cons, hpq _ _ hab, ih]

/-! ## Declarations -/

theorem Expr.Renamed.resolve {e e' : Expr} (he : e.Renamed ρ e') : e.resolve.Renamed ρ (Expr.Renamed ρ) e'.resolve :=
  fun _ _ h => ⟨he.decorate h, { h with problems := List.rel_append h.problems (he.problems h) }⟩

mutual

theorem Decl.Renamed.resolve : ∀ {d d' : Decl}, d.Renamed ρ d' → d.resolve.Renamed ρ (Decl.Renamed ρ) d'.resolve
  | _, _, .var hx ht he =>
    .bind he.resolve fun _ _ he => .bind (.modify fun _ _ h => h.declareNext "Var" hx ht) fun _ _ _ =>
      .pure (.var hx ht he)
  | _, _, .function hh hds he => by
    refine .bind (.modify fun _ _ h => h.declareNext "Fun" hh.name (.arrow hh.signature)) fun _ _ _ => ?_
    -- The frame around the function goes on at the offset that is read here, before the inside is entered.
    refine .bind .get fun _ _ h => ?_
    rw [h.nextOffset]
    refine .bind (.modify fun _ _ h => .declareParams hh.params 1 h.enter) fun _ _ _ => ?_
    exact .bind (Decl.Renamed.resolveAll hds) fun _ _ hds => .bind he.resolve fun _ _ he =>
      .bind (.modify fun _ _ h => h.leave _) fun _ _ _ => .pure (.function hh hds he)

theorem Decl.Renamed.resolveAll : ∀ {ds ds' : List Decl}, List.Forall₂ (Decl.Renamed ρ) ds ds' →
    (Decl.resolveAll ds).Renamed ρ (List.Forall₂ (Decl.Renamed ρ)) (Decl.resolveAll ds')
  | _, _, .nil => .pure .nil
  | _, _, .cons hd hds =>
    .bind hd.resolve fun _ _ hd => .bind (Decl.Renamed.resolveAll hds) fun _ _ hds => .pure (.cons hd hds)

end

namespace Method.Renamed

variable {m m' n n' : Method}

theorem sameAs (hm : m.Renamed ρ m') (hn : n.Renamed ρ n') : m.sameAs n = m'.sameAs n' := by
  rw [Method.sameAs, Method.sameAs, hm.header.name.beq_eq hn.header.name,
    hm.header.signature.beq_eq hn.header.signature]

theorem resolve (hm : m.Renamed ρ m') : m.resolve.Renamed ρ (Method.Renamed ρ) m'.resolve := by
  refine .bind .get fun _ _ h => ?_
  rw [h.nextOffset]
  refine .bind (.modify fun _ _ h => .declareParams hm.header.params 1 h.enter) fun _ _ _ => ?_
  exact .bind (Decl.Renamed.resolveAll hm.locals) fun _ _ hds => .bind hm.body.resolve fun _ _ he =>
    .bind (.modify fun _ _ h => h.leave _) fun _ _ _ => .pure { hm with locals := hds, body := he }

theorem resolveAll {ms ms' : List Method} (h : List.Forall₂ (Method.Renamed ρ) ms ms') :
    (Method.resolveAll ms).Renamed ρ (List.Forall₂ (Method.Renamed ρ)) (Method.resolveAll ms') := by
  induction h with
  | nil => exact .pure .nil
  | @cons m m' _ _ hm _ ih =>
    rw [Method.resolveAll, Method.resolveAll, hm.slot]
    split
    · exact .bind hm.resolve fun _ _ hm => .bind ih fun _ _ hms => .pure (.cons hm hms)
    · exact .bind (.pure hm) fun _ _ hm => .bind ih fun _ _ hms => .pure (.cons hm hms)

end Method.Renamed

/-! ## Classes -/

namespace ClassDecl.Renamed

variable {x x' : String}

theorem declareFields (hx : ρ.Takes x x') {fs fs' : List Formal} (h : List.Forall₂ (Formal.Renamed ρ) fs fs') :
    ∀ {earlier earlier' : List Formal} (offset : Int32), List.Forall₂ (Formal.Renamed ρ) earlier earlier' →
      (ClassDecl.declareFields x earlier fs offset).Renamed ρ (List.Forall₂ (Ty.Renamed ρ))
        (ClassDecl.declareFields x' earlier' fs' offset) := by
  induction h with
  | nil => exact fun _ _ => .pure .nil
  | @cons f f' _ _ hf _ ih =>
    intro earlier earlier' offset hearlier
    have hany : (earlier.any fun g => g.name == f.name && g.type == f.type) =
        earlier'.any fun g => g.name == f'.name && g.type == f'.type :=
      any_eq hearlier fun _ _ hg => by rw [hg.name.beq_eq hf.name, hg.type.beq_eq hf.type]
    unfold ClassDecl.declareFields
    rw [hany]
    split
    · exact .bind (.modify fun _ _ h => h.report (.duplicateField hx hf.name)) fun _ _ _ => ih _ (.cons hf hearlier)
    · refine .bind (.modify fun _ _ h => h.declare "Field" hf.name ⟨h.level, hf.type, rfl, rfl⟩) fun _ _ _ => ?_
      exact .bind (ih _ (.cons hf hearlier)) fun _ _ hts => .pure (.cons hf.type hts)

theorem declareMethods (hx : ρ.Takes x x') {ms ms' : List Method} (h : List.Forall₂ (Method.Renamed ρ) ms ms') :
    ∀ {earlier earlier' : List Method} (slot : Int32), List.Forall₂ (Method.Renamed ρ) earlier earlier' →
      (ClassDecl.declareMethods x earlier ms slot).Renamed ρ
        (fun p p' => List.Forall₂ (Method.Renamed ρ) p.1 p'.1 ∧ List.Forall₂ (Signature.Renamed ρ) p.2 p'.2)
        (ClassDecl.declareMethods x' earlier' ms' slot) := by
  induction h with
  | nil => exact fun _ _ => .pure ⟨.nil, .nil⟩
  | @cons m m' _ _ hm _ ih =>
    intro earlier earlier' slot hearlier
    have hany : earlier.any m.sameAs = earlier'.any m'.sameAs := any_eq hearlier fun _ _ hn => hm.sameAs hn
    have hrest := fun slot => ih slot (.cons hm hearlier)
    unfold ClassDecl.declareMethods
    rw [hany]
    split
    · refine .bind (.modify fun _ _ h => h.report (.duplicateMethod hx hm.header.name)) fun _ _ _ => ?_
      exact .bind (hrest _) fun _ _ h => .pure ⟨.cons hm h.1, h.2⟩
    · refine .bind (.modify fun _ _ h =>
        h.declare "Method" hm.header.name ⟨h.level, .arrow hm.header.signature, rfl, rfl⟩) fun _ _ _ => ?_
      exact .bind (hrest _) fun _ _ h => .pure ⟨.cons { hm with slot := rfl } h.1, .cons hm.header.signature h.2⟩

theorem resolve {c c' : ClassDecl} (hc : c.Renamed ρ c') : c.resolve.Renamed ρ (ClassDecl.Renamed ρ) c'.resolve := by
  refine .bind .get fun _ _ h => ?_
  rw [h.nextOffset]
  refine .bind (.modify fun _ _ h => h.enter) fun _ _ _ => ?_
  refine .bind (declareFields hc.name hc.fields _ .nil) fun _ _ hfields => ?_
  refine .bind (declareMethods hc.name hc.methods _ .nil) fun _ _ hmethods => ?_
  refine .bind (.modify fun _ _ h => h.putClass hc.name) fun _ _ _ => ?_
  refine .bind (.modify fun _ _ h => h.declareClass hc.name ⟨rfl, .cls hfields hmethods.2, rfl, rfl⟩) fun _ _ _ => ?_
  refine .bind (Method.Renamed.resolveAll hmethods.1) fun _ _ hmethods => ?_
  exact .bind (.modify fun _ _ h => h.leave _) fun _ _ _ => .pure { hc with methods := hmethods }

theorem resolveAll {cs cs' : List ClassDecl} (h : List.Forall₂ (ClassDecl.Renamed ρ) cs cs') :
    (ClassDecl.resolveAll cs).Renamed ρ (List.Forall₂ (ClassDecl.Renamed ρ)) (ClassDecl.resolveAll cs') := by
  induction h with
  | nil => exact .pure .nil
  | cons hc _ ih => exact .bind hc.resolve fun _ _ hc => .bind ih fun _ _ hcs => .pure (.cons hc hcs)

end ClassDecl.Renamed

/-- Renamed programs are resolved to renamed trees, with the same problems but for the names. -/
theorem Program.Renamed.resolve {p p' : Program} (h : p.Renamed ρ p') :
    p.resolve.1.Renamed ρ p'.resolve.1 ∧ p.resolve.2.Renamed ρ p'.resolve.2 := by
  suffices hparts : p.resolveParts.Renamed ρ (Program.Renamed ρ) p'.resolveParts from hparts _ _ .outermost
  cases h with
  | letIn hcs hds he =>
    exact .bind (ClassDecl.Renamed.resolveAll hcs) fun _ _ hcs => .bind (Decl.Renamed.resolveAll hds) fun _ _ hds =>
      .bind he.resolve fun _ _ he => .pure (.letIn hcs hds he)
  | expr he => exact .bind he.resolve fun _ _ he => .pure (.expr he)

end FoolLang
