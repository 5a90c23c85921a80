/-
Reading goes no further than the tokens allow. Where a form finds a token that it does not expect, the tokens that it
has taken begin a phrase of the grammar: some other tokens behind them would have completed it. Of what is read one
after the other each part takes its own phrase and leaves the rest of the whole to the parts behind it.
-/
import FoolLang.Proofs.Grammar.Programs

namespace FoolLang

open Reading Sequencing

/-- A problem with a token that does not fit. -/
def Diagnostic.Unexpected (d : Diagnostic) : Prop :=
  ∃ token, d.cause = .unexpectedToken token ∨ ∃ expected, d.cause = .unexpectedTokenDetailed token expected

namespace Phrases

variable {α β : Type}

/-- Tokens that begin a phrase: some more tokens complete it. -/
def Begins (R : List Token → α → Prop) (ws : List Token) : Prop := ∃ vs a, R (ws ++ vs) a

/-- A token of a kind. -/
def OfKind (k : Kind) (ts : List Token) (t : Token) : Prop := ts = [t] ∧ t.kind = k

/--
A reading is viable where the current kind passes a test: what it accepts is a phrase, and where it finds a token that
it does not expect, the tokens that it has taken begin one.
-/
structure Viable (p : Kind → Prop) (eof : Token) (x : Reading α) (R : List Token → α → Prop) : Prop where
  sound : ∀ {ts a c}, p (Cursor.before eof ts).current.kind → x.run (.before eof ts) = .ok a c →
    ∃ ws us, ts = ws ++ us ∧ c = .before eof us ∧ R ws a
  begins : ∀ {ts d c}, p (Cursor.before eof ts).current.kind → x.run (.before eof ts) = .error d c → d.Unexpected →
    ∃ ws us, ts = ws ++ us ∧ c = .before eof us ∧ Begins R ws
  filled : ∃ ws a, R ws a

/-- A reading is viable everywhere. -/
abbrev ViableAll (eof : Token) (x : Reading α) (R : List Token → α → Prop) : Prop := Viable (fun _ => True) eof x R

section Readings

variable {p q : Kind → Prop} {eof : Token} {x : Reading α} {f : α → Reading β} {R S : List Token → α → Prop}
  {T : List Token → β → Prop} {k : Kind}

namespace Viable

theorem mono (h : Viable p eof x R) (hR : ∀ ws a, R ws a → S ws a) : Viable p eof x S where
  sound hp hr := by
    obtain ⟨ws, us, hts, hc, ha⟩ := h.sound hp hr
    exact ⟨ws, us, hts, hc, hR ws _ ha⟩
  begins hp hr hd := by
    obtain ⟨ws, us, hts, hc, vs, a, ha⟩ := h.begins hp hr hd
    exact ⟨ws, us, hts, hc, vs, a, hR _ _ ha⟩
  filled := by
    obtain ⟨ws, a, ha⟩ := h.filled
    exact ⟨ws, a, hR ws a ha⟩

theorem guard (h : Viable p eof x R) (hq : ∀ k, q k → p k) : Viable q eof x R :=
  ⟨fun hp => h.sound (hq _ hp), fun hp => h.begins (hq _ hp), h.filled⟩

theorem anywhere (h : ViableAll eof x R) : Viable q eof x R := h.guard fun _ _ => trivial

theorem of_run {y : Reading α} (h : Viable p eof y R) (hx : ∀ ts, p (Cursor.before eof ts).current.kind →
    x.run (.before eof ts) = y.run (.before eof ts)) : Viable p eof x R :=
  ⟨fun hp hr => h.sound hp (hx _ hp ▸ hr), fun hp hr => h.begins hp (hx _ hp ▸ hr), h.filled⟩

theorem pure {a : α} (h : R [] a) : Viable p eof (Pure.pure a) R where
  sound _ hr := by
    obtain ⟨rfl, rfl⟩ := pure_ok hr
    exact ⟨[], _, rfl, rfl, h⟩
  begins _ hr := by cases hr
  filled := ⟨[], a, h⟩

/-- What is refused at once begins any phrase that there is. -/
theorem of_error (hfill : ∃ ws a, R ws a) (hx : ∀ ts, ∃ d, x.run (.before eof ts) = .error d (.before eof ts)) :
    Viable p eof x R where
  sound _ hr := by
    obtain ⟨d, h⟩ := hx _
    rw [h] at hr
    cases hr
  begins _ hr _ := by
    obtain ⟨d, h⟩ := hx _
    rw [h] at hr
    cases hr
    obtain ⟨ws, a, ha⟩ := hfill
    exact ⟨[], _, rfl, rfl, ws, a, ha⟩
  filled := hfill

theorem refuse (expected : String) (hfill : ∃ ws a, R ws a) : Viable p eof (Reading.refuse expected) R :=
  of_error hfill fun _ => ⟨_, rfl⟩

theorem expect (he : eof.kind = .eof) (hk : k ≠ .eof) : Viable p eof (Reading.expect k) (OfKind k) where
  sound _ hr := by
    obtain ⟨us, rfl, ht, rfl⟩ := expect_ok he hk hr
    exact ⟨[_], us, rfl, rfl, rfl, ht⟩
  begins {ts _ _} _ hr _ := by
    by_cases ht : (Cursor.before eof ts).current.kind = k
    · obtain ⟨t, us, rfl, htk⟩ := exists_cons_of_kind he ht hk
      rw [expect_run htk] at hr
      cases hr
    · simp only [Reading.expect, EStateM.run_bind, EStateM.run_get, if_neg ht, refuseToken_run] at hr
      cases hr
      exact ⟨[], ts, rfl, rfl, [⟨k, "", 0⟩], ⟨k, "", 0⟩, rfl, rfl⟩
  filled := ⟨[⟨k, "", 0⟩], ⟨k, "", 0⟩, rfl, rfl⟩

theorem expectAs (he : eof.kind = .eof) (hk : k ≠ .eof) (expected : String) :
    Viable p eof (Reading.expectAs k expected) (OfKind k) where
  sound _ hr := by
    obtain ⟨us, rfl, ht, rfl⟩ := expectAs_ok he hk hr
    exact ⟨[_], us, rfl, rfl, rfl, ht⟩
  begins {ts _ _} _ hr _ := by
    by_cases ht : (Cursor.before eof ts).current.kind = k
    · obtain ⟨t, us, rfl, htk⟩ := exists_cons_of_kind he ht hk
      rw [expectAs_run htk] at hr
      cases hr
    · simp only [Reading.expectAs, EStateM.run_bind, EStateM.run_get, if_neg ht, refuse_run] at hr
      cases hr
      exact ⟨[], ts, rfl, rfl, [⟨k, "", 0⟩], ⟨k, "", 0⟩, rfl, rfl⟩
  filled := ⟨[⟨k, "", 0⟩], ⟨k, "", 0⟩, rfl, rfl⟩

theorem advance (he : eof.kind = .eof) (hk : k ≠ .eof) :
    Viable (· = k) eof Reading.advance (OfKind k) where
  sound hp hr := by
    obtain ⟨t, us, rfl, ht⟩ := exists_cons_of_kind he hp hk
    rw [run_advance, Cursor.before_cons_current, Cursor.before_cons_next] at hr
    cases hr
    exact ⟨[_], us, rfl, rfl, rfl, ht⟩
  begins _ hr := by cases hr
  filled := ⟨[⟨k, "", 0⟩], ⟨k, "", 0⟩, rfl, rfl⟩

/-- What is read first is a phrase of its own, and what is read behind it completes the whole. -/
theorem bind (hx : Viable p eof x R) (hf : ∀ ws a, R ws a → ViableAll eof (f a) fun vs => T (ws ++ vs)) :
    Viable p eof (x >>= f) T where
  sound hp hr := by
    obtain ⟨a, c, hxr, hr⟩ := bind_ok hr
    obtain ⟨ws, us, rfl, rfl, ha⟩ := hx.sound hp hxr
    obtain ⟨vs, us, rfl, rfl, hb⟩ := (hf ws a ha).sound trivial hr
    exact ⟨ws ++ vs, us, (List.append_assoc ..).symm, rfl, hb⟩
  begins hp hr hd := by
    rcases bind_error hr with hr | ⟨a, c, hxr, hr⟩
    · -- It stops in the first part, which some tokens complete; any that are read behind it do for the rest.
      obtain ⟨ws, us, hts, hc, vs, a, ha⟩ := hx.begins hp hr hd
      obtain ⟨vs', b, hb⟩ := (hf _ a ha).filled
      exact ⟨ws, us, hts, hc, vs ++ vs', b, List.append_assoc ws vs vs' ▸ hb⟩
    · obtain ⟨ws, us, rfl, rfl, ha⟩ := hx.sound hp hxr
      obtain ⟨ws', us, rfl, rfl, vs, b, hb⟩ := (hf ws a ha).begins trivial hr hd
      exact ⟨ws ++ ws', us, (List.append_assoc ..).symm, rfl, vs, b, List.append_assoc ws ws' vs ▸ hb⟩
  filled := by
    obtain ⟨ws, a, ha⟩ := hx.filled
    obtain ⟨vs, b, hb⟩ := (hf ws a ha).filled
    exact ⟨ws ++ vs, b, hb⟩

/-- A token is taken in front of the rest. -/
theorem take {x : Reading Token} {f : Token → Reading β} (hx : Viable p eof x (OfKind k))
    (hf : ∀ t, t.kind = k → ViableAll eof (f t) fun vs => T (t :: vs)) : Viable p eof (x >>= f) T :=
  hx.bind fun _ t h => h.1 ▸ hf t h.2

/-- Where a test of the current kind decides between two readings, what either reads is a phrase. -/
theorem ite [DecidablePred p] {y : Reading α} (hx : Viable p eof x R) (hy : Viable (fun k => ¬ p k) eof y R) :
    Viable q eof (Reading.kind >>= fun k => if p k then x else y) R where
  sound _ hr := by
    rw [bind_run (run_kind _)] at hr
    split at hr
    · exact hx.sound ‹_› hr
    · exact hy.sound ‹_› hr
  begins _ hr hd := by
    rw [bind_run (run_kind _)] at hr
    split at hr
    · exact hx.begins ‹_› hr hd
    · exact hy.begins ‹_› hr hd
  filled := hx.filled

end Viable

/-! ## Lists -/

variable {test : Kind → Bool}

theorem many_viable (h : Viable (test · = true) eof x R) : Viable p eof (many test x) (Sequence R) where
  sound _ hr := many_sound (fun _ _ _ ht hr => h.sound ht hr) _ _ _ hr
  begins {ts d c} hp hr hd := by
    rw [many, bind_run (run_remaining _)] at hr
    generalize (Cursor.before eof ts).rest.length + 1 = n at hr
    clear hp
    induction n generalizing ts with
    | zero => cases hr
    | succ n ih =>
      rw [manyUpTo, bind_run (run_kind _)] at hr
      split at hr
      · rename_i ht
        rcases bind_error hr with hr | ⟨a, c, hxr, hr⟩
        · obtain ⟨ws, us, hts, hc, vs, a, ha⟩ := h.begins ht hr hd
          exact ⟨ws, us, hts, hc, vs, [a], by simpa using Sequence.cons ha .nil⟩
        · obtain ⟨ws, us, rfl, rfl, ha⟩ := h.sound ht hxr
          rcases bind_error hr with hr | ⟨_, _, _, hr⟩
          · obtain ⟨ws', us, rfl, rfl, vs, as, has⟩ := ih hr
            exact ⟨ws ++ ws', us, (List.append_assoc ..).symm, rfl, vs, a :: as, by simpa using Sequence.cons ha has⟩
          · cases hr
      · cases hr
  filled := ⟨[], [], .nil⟩

theorem commaList_viable (he : eof.kind = .eof) (h : ViableAll eof x R) : Viable p eof (commaList x) (Listed R) := by
  have hmore : ViableAll eof (many (· == .comma) (Reading.advance >>= fun _ => x)) (Sequence (AfterComma R)) :=
    many_viable (((Viable.advance he (by decide)).take fun comma hc =>
      h.mono fun vs _ ha => ⟨comma, vs, rfl, hc, ha⟩).guard fun k hk => beq_iff_eq.mp hk)
  refine (Viable.expect he (by decide)).take fun l hl => .ite (p := (· = .closeParen)) (.anywhere ?_)
    (.anywhere (h.bind fun ws a ha => hmore.bind fun vs more hmore => ?_))
  · rw [pure_bind]
    exact (Viable.expect he (by decide)).take fun r hr => .pure (.none hl hr)
  · rw [pure_bind]
    refine (Viable.expect he (by decide)).take fun r hr => .pure ?_
    simpa using Listed.some hl (items_of_sequence hmore ha) hr

end Readings

end Phrases

end FoolLang
