/-
Laws of views and occurrences: declarations leave the scopes around them alone, the levels of bindings
count scopes, so what is found tells how far out it was declared, and the occurrences in a program are
those of its uses.
-/
import FoolLang.Proofs.Scoping.View

namespace FoolLang

variable {v w : View}

theorem View.behind_around (v : View) (d : Decl) : (v.behind d).around = v.around := by
  cases d <;> rfl

theorem View.behindAll_around (v : View) (ds : List Decl) : (v.behindAll ds).around = v.around := by
  induction ds generalizing v with
  | nil => rfl
  | cons d ds ih => exact (ih _).trans (v.behind_around d)

/-! ## Levels -/

namespace View

/-- The levels of the bindings in some scopes count the scopes around. -/
def Leveled : List Names → Prop
  | [] => True
  | names :: outer => (∀ x ∈ names, x.2.level = outer.length) ∧ Leveled outer

theorem Leveled.find {scopes : List Names} (h : Leveled scopes) {name : String} {b : Binding}
    (hf : scopes.findSome? (·.lookup name) = some b) :
    ∃ inner own outer, scopes = inner ++ own :: outer ∧ (∀ names ∈ inner, names.lookup name = none) ∧
      own.lookup name = some b ∧ b.level = outer.length := by
  induction scopes with
  | nil => cases hf
  | cons names outer ih =>
    rw [List.findSome?_cons] at hf
    cases hn : names.lookup name with
    | some a =>
      rw [hn] at hf
      cases hf
      obtain ⟨before, behind, rfl, -⟩ := List.lookup_eq_some_iff.mp hn
      exact ⟨[], _, outer, rfl, by simp, hn, h.1 (name, b) (by simp)⟩
    | none =>
      rw [hn] at hf
      obtain ⟨inner, own, outer, rfl, hinner, hown, hlevel⟩ := ih h.2 hf
      refine ⟨names :: inner, own, outer, rfl, ?_, hown, hlevel⟩
      rintro ns hns
      rcases List.mem_cons.mp hns with rfl | hns
      · exact hn
      · exact hinner ns hns

theorem Leveled.means {p : Occurrence} {r : Resolution} (h : Leveled p.view.scopes)
    (hr : p.view.resolution? p.use.name = some r) : p.Means r := by
  unfold View.resolution? at hr
  obtain ⟨b, hb, rfl⟩ := Option.map_eq_some_iff.mp hr
  obtain ⟨inner, own, outer, hscopes, hinner, hown, hlevel⟩ := h.find hb
  have hdepth : p.view.depth = inner.length + outer.length := by
    have hlen := congrArg List.length hscopes
    simp only [View.scopes, List.length_cons, List.length_append] at hlen
    rw [View.depth]; omega
  refine ⟨inner, own, outer, hscopes, hinner, hown, hlevel, rfl, ?_⟩
  show p.view.depth - b.level = _
  omega

theorem Leveled.declare (h : Leveled v.scopes) (name : String) (type : Ty) :
    Leveled (v.declare name type).scopes := by
  refine ⟨?_, h.2⟩
  rintro x hx
  rcases List.mem_cons.mp hx with rfl | hx
  · rfl
  · exact h.1 x hx

theorem Leveled.behind (h : Leveled v.scopes) (d : Decl) : Leveled (v.behind d).scopes := by
  cases d <;> exact h.declare _ _

theorem Leveled.behindAll (h : Leveled v.scopes) (ds : List Decl) : Leveled (v.behindAll ds).scopes := by
  induction ds generalizing v with
  | nil => exact h
  | cons d ds ih => exact ih (h.behind d)

theorem Leveled.inside (h : Leveled v.scopes) (params : List Formal) :
    Leveled (v.inside params).scopes := by
  refine ⟨?_, h⟩
  intro x hx
  obtain ⟨i, -, rfl⟩ := by simpa [View.inside, View.parameters, List.mem_mapIdx] using hx
  rfl

theorem leveled_behindClasses (cs : List ClassDecl) : Leveled (behindClasses cs).scopes := by
  refine ⟨?_, trivial⟩
  intro x hx
  obtain ⟨i, -, rfl⟩ := by simpa [behindClasses, ClassDecl.names, List.mem_mapIdx] using hx
  rfl

theorem leveled_view (earlier : List ClassDecl) (c : ClassDecl) : Leveled (c.view earlier).scopes := by
  refine ⟨?_, leveled_behindClasses (earlier ++ [c])⟩
  intro x hx
  have hx : x ∈ c.fieldNames ∨ x ∈ c.methodNames := by
    simpa [ClassDecl.view, ClassDecl.memberNames, or_comm] using hx
  rcases hx with hx | hx
  · obtain ⟨i, -, rfl⟩ := by simpa [ClassDecl.fieldNames, List.mem_mapIdx] using hx
    rfl
  · obtain ⟨i, -, rfl⟩ := by simpa [ClassDecl.methodNames, List.mem_mapIdx] using hx
    rfl

end View

open View

theorem Expr.occurrences_leveled (h : Leveled v.scopes) (e : Expr) :
    ∀ p ∈ e.occurrences v, Leveled p.view.scopes := by
  intro p hp
  obtain ⟨u, -, rfl⟩ := List.mem_map.mp hp
  exact h

mutual

theorem Decl.occurrences_leveled : ∀ (d : Decl) {v : View}, Leveled v.scopes →
    ∀ p ∈ d.occurrences v, Leveled p.view.scopes
  | .var _ _ value _, _, h => value.occurrences_leveled h
  | .function header locals body, _, h => by
    have hin := (h.declare header.name (.arrow header.signature)).inside header.params
    intro p hp
    rcases List.mem_append.mp hp with hp | hp
    · exact Decl.occurrencesAll_leveled locals hin p hp
    · exact body.occurrences_leveled (hin.behindAll locals) p hp

theorem Decl.occurrencesAll_leveled : ∀ (ds : List Decl) {v : View}, Leveled v.scopes →
    ∀ p ∈ Decl.occurrencesAll v ds, Leveled p.view.scopes
  | [], _, _ => fun _ hp => by cases hp
  | d :: ds, _, h => by
    intro p hp
    rcases List.mem_append.mp hp with hp | hp
    · exact Decl.occurrences_leveled d h p hp
    · exact Decl.occurrencesAll_leveled ds (h.behind d) p hp

end

theorem Method.occurrences_leveled (h : Leveled v.scopes) (m : Method) :
    ∀ p ∈ m.occurrences v, Leveled p.view.scopes := by
  have hin := h.inside m.header.params
  intro p hp
  rcases List.mem_append.mp hp with hp | hp
  · exact Decl.occurrencesAll_leveled m.locals hin p hp
  · exact m.body.occurrences_leveled (hin.behindAll m.locals) p hp

theorem ClassDecl.occurrencesAll_leveled (cs : List ClassDecl) :
    ∀ earlier, ∀ p ∈ occurrencesAll earlier cs, Leveled p.view.scopes := by
  induction cs with
  | nil => exact fun _ p hp => by cases hp
  | cons c cs ih =>
    intro earlier p hp
    rcases List.mem_append.mp hp with hp | hp
    · obtain ⟨m, -, hp⟩ := List.mem_flatMap.mp hp
      exact m.occurrences_leveled (leveled_view earlier c) p hp
    · exact ih _ p hp

theorem Program.occurrences_leveled (p : Program) : ∀ q ∈ p.occurrences, Leveled q.view.scopes := by
  cases p with
  | letIn classes decls body =>
    have h := leveled_behindClasses classes
    intro q hq
    rcases List.mem_append.mp hq with hq | hq
    · rcases List.mem_append.mp hq with hq | hq
      · exact ClassDecl.occurrencesAll_leveled classes [] q hq
      · exact Decl.occurrencesAll_leveled decls h q hq
    · exact body.occurrences_leveled (h.behindAll decls) q hq
  | expr body => exact body.occurrences_leveled (leveled_behindClasses [])

/-! ## The occurrences in a program are those of its uses -/

theorem Expr.occurrences_use (v : View) (e : Expr) : (e.occurrences v).map (·.use) = e.uses := by
  simp [Expr.occurrences, Function.comp_def]

mutual

theorem Decl.occurrences_use : ∀ (d : Decl) (v : View), (d.occurrences v).map (·.use) = d.uses
  | .var _ _ value _, v => value.occurrences_use v
  | .function _ locals body, v => by
    simp only [Decl.occurrences, Decl.uses, List.map_append, Decl.occurrencesAll_use locals, body.occurrences_use]

theorem Decl.occurrencesAll_use : ∀ (ds : List Decl) (v : View),
    (Decl.occurrencesAll v ds).map (·.use) = Decl.usesAll ds
  | [], _ => rfl
  | d :: ds, v => by
    rw [Decl.occurrencesAll, Decl.usesAll, List.map_append, Decl.occurrences_use d, Decl.occurrencesAll_use ds]

end

theorem Method.occurrences_use (v : View) (m : Method) : (m.occurrences v).map (·.use) = m.uses := by
  simp only [Method.occurrences, Method.uses, List.map_append, Decl.occurrencesAll_use, Expr.occurrences_use]

theorem ClassDecl.occurrencesAll_use (cs : List ClassDecl) :
    ∀ earlier, (occurrencesAll earlier cs).map (·.use) = cs.flatMap (·.uses) := by
  induction cs with
  | nil => exact fun _ => rfl
  | cons c cs ih =>
    intro earlier
    rw [occurrencesAll, List.map_append, ih, List.flatMap_cons, List.map_flatMap]
    simp only [Method.occurrences_use]
    rfl

theorem Program.occurrences_use (p : Program) : p.occurrences.map (·.use) = p.uses := by
  cases p with
  | letIn classes decls body =>
    simp only [occurrences, uses, List.map_append, ClassDecl.occurrencesAll_use, Decl.occurrencesAll_use,
      Expr.occurrences_use]
  | expr body => exact body.occurrences_use _

end FoolLang
