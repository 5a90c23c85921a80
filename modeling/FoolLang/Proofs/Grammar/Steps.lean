/-
The steps of reading at a place in a token list that ends the program: what an accepted step has
taken, and which steps are accepted. Lists between parentheses and items one after the other are
treated once, for any reading of an item.
-/
import FoolLang.Proofs.Grammar.Phrases
import FoolLang.Proofs.Sequencing

namespace FoolLang

open Reading Sequencing Phrases

/-- The place before some tokens and the end of the program. -/
def Cursor.before (eof : Token) : List Token → Cursor
  | [] => ⟨eof, []⟩
  | t :: ts => ⟨t, ts ++ [eof]⟩

namespace Cursor

variable {eof : Token}

theorem closed_append (t : Token) (ts : List Token) (h : eof.kind = .eof) :
    closed t (ts ++ [eof]) = ts ++ [eof] := by
  induction ts generalizing t with
  | nil => simp [closed, h]
  | cons u us ih => simp [closed, ih u]

theorem ofTokens_append (ts : List Token) (h : eof.kind = .eof) :
    ofTokens (ts ++ [eof]) = before eof ts := by
  cases ts with
  | nil => simp [ofTokens, before, closed, h]
  | cons t ts => simp [ofTokens, before, closed_append t ts h]

@[simp] theorem before_nil_current : (before eof []).current = eof := rfl

@[simp] theorem before_cons_current (t : Token) (ts : List Token) :
    (before eof (t :: ts)).current = t := rfl

@[simp] theorem before_cons_next (t : Token) (ts : List Token) :
    (before eof (t :: ts)).next = before eof ts := by
  cases ts <;> rfl

@[simp] theorem before_rest_length (ts : List Token) :
    (before eof ts).rest.length = ts.length := by
  cases ts <;> simp [before]

end Cursor

namespace Reading

variable {eof t : Token} {ts us : List Token} {k : Kind} {msg : String} {c : Cursor}

/-! ## Single tokens -/

theorem run_kind (c : Cursor) : kind.run c = .ok c.current.kind c := rfl

theorem run_remaining (c : Cursor) : remaining.run c = .ok c.rest.length c := rfl

theorem run_advance (c : Cursor) : advance.run c = .ok c.current c.next := rfl

@[simp] theorem refuseToken_run {α : Type} (t : Token) (c : Cursor) :
    (refuseToken t : Reading α).run c = .error ⟨.unexpectedToken t.value, t.line⟩ c := rfl

@[simp] theorem refuse_run {α : Type} (msg : String) (c : Cursor) :
    (refuse msg : Reading α).run c =
      .error ⟨.unexpectedTokenDetailed c.current.value msg, c.current.line⟩ c := rfl

theorem expect_run (h : t.kind = k) :
    (expect k).run (.before eof (t :: ts)) = .ok t (.before eof ts) := by
  simp [expect, run_advance, h]

theorem expectAs_run (h : t.kind = k) :
    (expectAs k msg).run (.before eof (t :: ts)) = .ok t (.before eof ts) := by
  simp [expectAs, run_advance, h]

theorem expect_ok (he : eof.kind = .eof) (hk : k ≠ .eof)
    (h : (expect k).run (.before eof ts) = .ok t c) :
    ∃ us, ts = t :: us ∧ t.kind = k ∧ c = .before eof us := by
  cases ts with
  | nil => simp [expect, he, hk.symm] at h
  | cons u us =>
    by_cases hu : u.kind = k
    · rw [expect_run hu] at h; cases h; exact ⟨us, rfl, hu, rfl⟩
    · simp [expect, hu] at h

theorem expectAs_ok (he : eof.kind = .eof) (hk : k ≠ .eof)
    (h : (expectAs k msg).run (.before eof ts) = .ok t c) :
    ∃ us, ts = t :: us ∧ t.kind = k ∧ c = .before eof us := by
  cases ts with
  | nil => simp [expectAs, he, hk.symm] at h
  | cons u us =>
    by_cases hu : u.kind = k
    · rw [expectAs_run hu] at h; cases h; exact ⟨us, rfl, hu, rfl⟩
    · simp [expectAs, hu] at h

/-- A place whose token is not the end has a token to take. -/
theorem exists_cons (he : eof.kind = .eof) (h : (Cursor.before eof ts).current.kind ≠ .eof) :
    ∃ t us, ts = t :: us := by
  cases ts with
  | nil => exact absurd he h
  | cons t us => exact ⟨t, us, rfl⟩

theorem ne_eof_of_form {α : Type} (form : Kind → Option α) {a : α} (hf : form .eof = none)
    (h : form k = some a) : k ≠ .eof := by
  rintro rfl; rw [hf] at h; cases h

theorem exists_cons_of_kind (he : eof.kind = .eof) (h : (Cursor.before eof ts).current.kind = k)
    (hk : k ≠ .eof) : ∃ t us, ts = t :: us ∧ t.kind = k := by
  obtain ⟨t, us, rfl⟩ := exists_cons he (h ▸ hk)
  exact ⟨t, us, rfl, h⟩

/-! ## Accepted readings -/

/-- Whatever a reading accepts, the tokens it has taken stand in a relation to the result. -/
def Sound {α : Type} (eof : Token) (r : Reading α) (R : List Token → α → Prop) : Prop :=
  ∀ ts a c, r.run (.before eof ts) = .ok a c → ∃ ws us, ts = ws ++ us ∧ c = .before eof us ∧ R ws a

/-- A reading accepts tokens in front of a rest that meets a condition, and takes just them. -/
def Takes {α : Type} (eof : Token) (r : Reading α) (ws : List Token) (a : α)
    (follow : List Token → Prop) : Prop :=
  ∀ us, follow us → r.run (.before eof (ws ++ us)) = .ok a (.before eof us)

section Lists

variable {α : Type} {item : Reading α} {test : Kind → Bool} {R : List Token → α → Prop}

theorem manyUpTo_sound (hi : ∀ ts a c, test (Cursor.before eof ts).current.kind = true →
      item.run (.before eof ts) = .ok a c → ∃ ws us, ts = ws ++ us ∧ c = .before eof us ∧ R ws a) :
    ∀ n, Sound eof (manyUpTo test item n) (Sequence R)
  | 0 => by
    intro ts as c h
    obtain ⟨rfl, rfl⟩ := pure_ok h
    exact ⟨[], ts, rfl, rfl, .nil⟩
  | n + 1 => by
    intro ts as c h
    rw [manyUpTo, bind_run (run_kind _)] at h
    split at h
    · rename_i ht
      obtain ⟨a, c₁, h₁, h⟩ := bind_ok h
      obtain ⟨ws, us, rfl, rfl, ha⟩ := hi ts a c₁ ht h₁
      obtain ⟨as', c₂, h₂, h⟩ := bind_ok h
      obtain ⟨ws', us', rfl, rfl, has⟩ := manyUpTo_sound hi n us as' c₂ h₂
      obtain ⟨rfl, rfl⟩ := pure_ok h
      exact ⟨ws ++ ws', us', by simp, rfl, .cons ha has⟩
    · obtain ⟨rfl, rfl⟩ := pure_ok h
      exact ⟨[], ts, rfl, rfl, .nil⟩

theorem many_sound (hi : ∀ ts a c, test (Cursor.before eof ts).current.kind = true →
      item.run (.before eof ts) = .ok a c → ∃ ws us, ts = ws ++ us ∧ c = .before eof us ∧ R ws a) :
    Sound eof (many test item) (Sequence R) := by
  intro ts as c h
  rw [many, bind_run (run_remaining _)] at h
  exact manyUpTo_sound hi _ ts as c h

/-- Items that begin with a token of a kind the test passes are all read, up to one that it does not pass. -/
theorem manyUpTo_takes {follow : List Token → Prop} (as : List α) (ws : List Token)
    (h : Sequence (fun ws a => Takes eof item ws a follow ∧ ∃ t us, ws = t :: us ∧ test t.kind = true) ws as)
    (hf : ∀ t us, test t.kind = true → follow (t :: us)) :
    ∀ n, ws.length < n → Takes eof (manyUpTo test item n) ws as
      (fun us => follow us ∧ test (Cursor.before eof us).current.kind = false) := by
  induction h with
  | nil =>
    rintro (_ | n) hn us ⟨-, ht⟩
    · omega
    · rw [manyUpTo, bind_run (run_kind _)]; simp [ht]
  | @cons ws ws' a as ha hrest ih =>
    obtain ⟨ha, t, vs, rfl, ht⟩ := ha
    rintro (_ | n) hn us ⟨hu, hu'⟩
    · omega
    · have hfollow : follow (ws' ++ us) := by
        cases hrest with
        | nil => exact hu
        | cons hb _ => obtain ⟨-, t', us', rfl, ht'⟩ := hb; exact hf _ _ ht'
      have hk : test (Cursor.before eof (t :: vs ++ ws' ++ us)).current.kind = true := ht
      rw [manyUpTo, bind_run (run_kind _), if_pos hk, List.append_assoc, bind_run (ha _ hfollow),
        bind_run (ih n (by simp at hn; omega) us ⟨hu, hu'⟩)]
      rfl

theorem many_takes (test : Kind → Bool) (follow : List Token → Prop) {as : List α} {ws : List Token}
    (h : Sequence (fun ws a => Takes eof item ws a follow ∧ ∃ t us, ws = t :: us ∧ test t.kind = true) ws as)
    (hf : ∀ t us, test t.kind = true → follow (t :: us)) :
    Takes eof (many test item) ws as
      (fun us => follow us ∧ test (Cursor.before eof us).current.kind = false) := by
  intro us hu
  rw [many, bind_run (run_remaining _)]
  refine manyUpTo_takes as ws h hf _ ?_ us hu
  rw [Cursor.before_rest_length, List.length_append]
  omega

/-! ## Lists in parentheses -/

/-- An item with the comma in front of it. -/
def AfterComma (R : List Token → α → Prop) (ts : List Token) (a : α) : Prop :=
  ∃ comma us, ts = comma :: us ∧ comma.kind = .comma ∧ R us a

theorem items_of_sequence {us : List Token} {as : List α} (h : Sequence (AfterComma R) us as) :
    ∀ {ts a}, R ts a → Items R (ts ++ us) (a :: as) := by
  induction h with
  | nil => intro ts a ha; rw [List.append_nil]; exact .one ha
  | cons hb _ ih =>
    intro ts a ha
    obtain ⟨comma, vs, rfl, hc, hb⟩ := hb
    exact .more ha hc (ih hb)

theorem sequence_of_items {ts : List Token} {as : List α} (h : Items R ts as) :
    ∃ ws us a bs, ts = ws ++ us ∧ as = a :: bs ∧ R ws a ∧ Sequence (AfterComma R) us bs := by
  induction h with
  | one ha => exact ⟨_, [], _, [], by simp, rfl, ha, .nil⟩
  | more ha hc _ ih =>
    obtain ⟨ws, us, b, bs, rfl, rfl, hb, hbs⟩ := ih
    exact ⟨_, _, _, _, rfl, rfl, ha, .cons ⟨_, _, rfl, hc, hb⟩ hbs⟩

theorem commaList_sound (he : eof.kind = .eof) (hi : Sound eof item R) :
    Sound eof (commaList item) (Listed R) := by
  intro ts as c h
  unfold commaList at h
  obtain ⟨l, c₁, h₁, h⟩ := bind_ok h
  obtain ⟨us, rfl, hl, rfl⟩ := expect_ok he (by decide) h₁
  rw [bind_run (run_kind _)] at h
  split at h
  · obtain ⟨_, _, h₀, h⟩ := bind_ok h
    obtain ⟨rfl, rfl⟩ := pure_ok h₀
    obtain ⟨r, c₂, h₂, h⟩ := bind_ok h
    obtain ⟨vs, rfl, hr, rfl⟩ := expect_ok he (by decide) h₂
    obtain ⟨rfl, rfl⟩ := pure_ok h
    exact ⟨[l, r], vs, rfl, rfl, .none hl hr⟩
  · obtain ⟨a, c₂, h₂, h⟩ := bind_ok h
    obtain ⟨ws, us, rfl, rfl, ha⟩ := hi _ _ _ h₂
    obtain ⟨bs, c₃, h₃, h⟩ := bind_ok h
    obtain ⟨ws', us', rfl, rfl, hbs⟩ := many_sound (R := AfterComma R) (fun ts b c ht h => by
      rw [beq_iff_eq] at ht
      obtain ⟨t, us, rfl, ht⟩ := exists_cons_of_kind he ht (by decide)
      rw [bind_run (run_advance _)] at h
      obtain ⟨vs, us', rfl, rfl, hb⟩ := hi us b c (by simpa using h)
      exact ⟨t :: vs, us', rfl, rfl, t, vs, rfl, ht, hb⟩) _ _ _ h₃
    obtain ⟨_, _, h₀, h⟩ := bind_ok h
    obtain ⟨rfl, rfl⟩ := pure_ok h₀
    obtain ⟨r, c₄, h₄, h⟩ := bind_ok h
    obtain ⟨vs, rfl, hr, rfl⟩ := expect_ok he (by decide) h₄
    obtain ⟨rfl, rfl⟩ := pure_ok h
    exact ⟨l :: (ws ++ ws') ++ [r], vs, by simp, rfl, .some hl (items_of_sequence hbs ha) hr⟩

/-- What may follow an item of a list. -/
def ItemEnds (eof : Token) (us : List Token) : Prop :=
  (Cursor.before eof us).current.kind = .comma ∨ (Cursor.before eof us).current.kind = .closeParen

/-- Items that do not begin with a closing parenthesis are all read. -/
theorem commaList_takes {ts : List Token} {as : List α}
    (h : Listed (fun ws a => Takes eof item ws a (ItemEnds eof) ∧
      ∃ t us, ws = t :: us ∧ t.kind ≠ .closeParen) ts as) :
    Takes eof (commaList item) ts as (fun _ => True) := by
  intro us _
  unfold commaList
  cases h with
  | none hl hr =>
    rw [List.cons_append, bind_run (expect_run hl), bind_run (run_kind _)]
    simp only [List.cons_append, List.nil_append, Cursor.before_cons_current, hr, if_true]
    rw [bind_run (EStateM.run_pure _ _), bind_run (expect_run hr)]
    rfl
  | @some l r ws as hl items hr =>
    obtain ⟨ws, vs, a, bs, rfl, rfl, ⟨ha, t, ws, rfl, ht⟩, hbs⟩ := sequence_of_items items
    have hends : ItemEnds eof (vs ++ ([r] ++ us)) := by
      cases hbs with
      | nil => exact .inr hr
      | cons hb _ => obtain ⟨comma, _, rfl, hc, -⟩ := hb; exact .inl hc
    have hmore : Takes eof (many (· == .comma) do let _ ← advance; item) vs bs _ :=
      many_takes (· == .comma) (ItemEnds eof) (by
        clear items hends
        induction hbs with
        | nil => exact .nil
        | cons hb _ ih =>
          obtain ⟨comma, ws', rfl, hc, hb, -⟩ := hb
          refine .cons ⟨fun us hu => ?_, comma, ws', rfl, by simp [hc]⟩ ih
          rw [List.cons_append, bind_run (run_advance _)]
          simpa using hb us hu)
        (fun t us ht => .inl (by simpa using ht))
    have hlast : ItemEnds eof ([r] ++ us) ∧ ((Cursor.before eof ([r] ++ us)).current.kind == .comma) = false :=
      ⟨.inr hr, by simp [hr]⟩
    have hk : ¬ (Cursor.before eof (t :: ws ++ (vs ++ ([r] ++ us)))).current.kind = .closeParen := ht
    rw [show l :: (t :: ws ++ vs) ++ [r] ++ us = l :: (t :: ws ++ (vs ++ ([r] ++ us))) by simp,
      bind_run (expect_run hl), bind_run (run_kind _), if_neg hk, bind_run (ha _ hends),
      bind_run (hmore _ hlast), bind_run (EStateM.run_pure _ _)]
    exact bind_run (expect_run hr)

end Lists

end Reading

end FoolLang
