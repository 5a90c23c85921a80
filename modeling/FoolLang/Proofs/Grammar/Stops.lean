/-
Where a reading stops, and what that depends on. A reading that stops at a place has taken the tokens in front of it,
with no end of the program among them, and a reading of the same tokens in front of the same token ends the same and
stops there too, whatever comes behind. This is said of a family of readings at once, each with limits that it needs
not know of: readings whose limits leave room for all tokens that are left are the same reading.
-/
import FoolLang.Proofs.Grammar.Steps

namespace FoolLang

open Reading Sequencing

namespace Cursor

/-- The tokens at a place: the current one and those after it. -/
def tokens (c : Cursor) : List Token := c.current :: c.rest

@[simp] theorem before_tokens (eof : Token) (ts : List Token) : (before eof ts).tokens = ts ++ [eof] := by
  cases ts <;> rfl

theorem before_inj {eof : Token} {ts us : List Token} (h : before eof ts = before eof us) : ts = us := by
  have h := congrArg tokens h
  rw [before_tokens, before_tokens] at h
  exact List.append_cancel_right h

/-- The same tokens in front of the same token begin the same. -/
theorem current_append {eof eof' : Token} {us us' : List Token} (ws : List Token)
    (h : (before eof' us').current = (before eof us).current) :
    (before eof' (ws ++ us')).current = (before eof (ws ++ us)).current := by
  cases ws with
  | nil => exact h
  | cons t ws => rfl

end Cursor

namespace Reading

/-- What a problem of reading is about: the token that reading stops at, or a number that it has taken. -/
inductive Blames (ws : List Token) (t : Token) : Diagnostic → Prop
  | token : Blames ws t ⟨.unexpectedToken t.value, t.line⟩
  | detailed (expected : String) : Blames ws t ⟨.unexpectedTokenDetailed t.value expected, t.line⟩
  | number {u : Token} (text : String) (hu : u ∈ ws) (hk : u.kind = .number) :
    Blames ws t ⟨.numberParseError text, u.line⟩

theorem Blames.append {ws : List Token} {t : Token} {d : Diagnostic} (vs : List Token) (h : Blames ws t d) :
    Blames (vs ++ ws) t d := by
  cases h with
  | token => exact .token
  | detailed expected => exact .detailed expected
  | number text hu hk => exact .number text (List.mem_append_right vs hu) hk

variable {ι κ α β : Type}

/-- A reading that ends at a place with a result or with a problem. -/
def ended : Except Diagnostic α → Cursor → EStateM.Result Diagnostic Cursor α
  | .ok a, c => .ok a c
  | .error d, c => .error d c

theorem ended_inj {o o' : Except Diagnostic α} {c c' : Cursor} (h : ended o c = ended o' c') : o = o' ∧ c = c' := by
  cases o <;> cases o' <;> cases h <;> exact ⟨rfl, rfl⟩

/-! ## Limits -/

/-- How many tokens may be left for each of some limits; where they leave room for some, they do for fewer. -/
structure Limits (ι : Type) where
  fits : ι → Nat → Prop
  anti : ∀ {i m n}, m ≤ n → fits i n → fits i m

namespace Limits

/-- Limits when some tokens have been taken. -/
def after (L : Limits ι) (k : Nat) : Limits ι where
  fits i n := L.fits i (k + n)
  anti h := L.anti (Nat.add_le_add_left h k)

/-- A limit on nesting, or none; it leaves room for fewer tokens than it and some more are together. -/
def depth (more : Nat) : Limits (Option Nat) where
  fits i n := ∀ m ∈ i, n < m + more
  anti h hn m hm := Nat.lt_of_le_of_lt h (hn m hm)

/-- Limits with one on the number of turns of a loop. -/
def turns (L : Limits ι) (more : Nat) : Limits (ι × Nat) where
  fits j n := L.fits j.1 n ∧ n < j.2 + more
  anti h hn := ⟨L.anti h hn.1, Nat.lt_of_le_of_lt h hn.2⟩

end Limits

/-! ## Stops -/

/--
A family of readings stops behind some tokens with an outcome, and with a result it has taken some number of them at
least. Every member whose limit leaves room does so in front of whatever goes on with the same token.
-/
structure Stop (L : Limits ι) (eof : Token) (ts : List Token) (least : Nat) (x : ι → Reading α)
    (o : Except Diagnostic α) (ws us : List Token) : Prop where
  split : ts = ws ++ us
  not_end : ∀ t ∈ ws, t.kind ≠ .eof
  least_le : ∀ a, o = .ok a → least ≤ ws.length
  blames : ∀ d, o = .error d → Blames ws (Cursor.before eof us).current d
  run : ∀ {eof' us' i}, eof'.kind = .eof → (Cursor.before eof' us').current = (Cursor.before eof us).current →
    L.fits i (ws ++ us').length → (x i).run (.before eof' (ws ++ us')) = ended o (.before eof' us')

/-- A family of readings stops somewhere when it begins at a place. -/
def Stops (L : Limits ι) (eof : Token) (ts : List Token) (least : Nat) (x : ι → Reading α) : Prop :=
  ∃ o ws us, Stop L eof ts least x o ws us

/-- A family of readings stops wherever it begins with less than some number of tokens left. -/
def StopsWithin (L : Limits ι) (eof : Token) (k least : Nat) (x : ι → Reading α) : Prop :=
  ∀ ts, ts.length < k → Stops L eof ts least x

variable {L : Limits ι} {eof t : Token} {ts us ws : List Token} {least k : Nat} {x : ι → Reading α}
  {f : ι → α → Reading β}

/-- Members of a family whose limits leave room read the same. -/
theorem Stops.agree {i j : ι} (he : eof.kind = .eof) (h : Stops L eof ts least x) (hi : L.fits i ts.length)
    (hj : L.fits j ts.length) : (x i).run (.before eof ts) = (x j).run (.before eof ts) := by
  obtain ⟨o, ws, us, hsplit, -, -, -, hrun⟩ := h
  subst hsplit
  rw [hrun he rfl hi, hrun he rfl hj]

/--
A family stops where another one does, if each of its members that leaves room reads as one of the other family that
does, wherever the current token is the same.
-/
theorem Stops.of_run {M : Limits κ} {y : κ → Reading α} (h : Stops M eof ts least y)
    (hx : ∀ i eof' vs, eof'.kind = .eof → (Cursor.before eof' vs).current = (Cursor.before eof ts).current →
      L.fits i vs.length → ∃ j, M.fits j vs.length ∧ (x i).run (.before eof' vs) = (y j).run (.before eof' vs)) :
    Stops L eof ts least x := by
  obtain ⟨o, ws, us, hsplit, hnot, hleast, hblames, hrun⟩ := h
  subst hsplit
  refine ⟨o, ws, us, rfl, hnot, hleast, hblames, fun {eof' us' i} he' hc hfits => ?_⟩
  obtain ⟨j, hj, heq⟩ := hx i eof' (ws ++ us') he' (Cursor.current_append ws hc) hfits
  rw [heq, hrun he' hc hj]

theorem Stops.mono {M : Limits ι} {more : Nat} (h : Stops M eof ts more x) (hl : least ≤ more)
    (hfits : ∀ i n, L.fits i n → M.fits i n) : Stops L eof ts least x := by
  obtain ⟨o, ws, us, hsplit, hnot, hleast, hblames, hrun⟩ := h
  exact ⟨o, ws, us, hsplit, hnot, fun a ha => Nat.le_trans hl (hleast a ha), hblames,
    fun he hc hi => hrun he hc (hfits _ _ hi)⟩

theorem Stops.pure (a : α) : Stops L eof ts 0 fun _ => Pure.pure a :=
  ⟨.ok a, [], ts, rfl, fun _ h => (List.not_mem_nil h).elim, fun _ _ => Nat.zero_le _, fun _ h => (by cases h),
    fun _ _ _ => rfl⟩

/-- What reports a problem with the current token stops at it. -/
theorem Stops.fail (o : Token → Diagnostic) (ho : ∀ t, Blames [] t (o t))
    (hx : ∀ i eof' vs, (Cursor.before eof' vs).current = (Cursor.before eof ts).current →
      (x i).run (.before eof' vs) = .error (o (Cursor.before eof' vs).current) (.before eof' vs)) :
    Stops L eof ts least x :=
  ⟨.error (o (Cursor.before eof ts).current), [], ts, rfl, fun _ h => (List.not_mem_nil h).elim,
    fun _ h => (by cases h), fun d hd => (by cases hd; exact ho _),
    fun _ hc _ => by rw [List.nil_append, hx _ _ _ hc, hc]; rfl⟩

theorem Stops.refuse (expected : String) : Stops L eof ts least fun _ => (Reading.refuse expected : Reading α) :=
  .fail (fun t => ⟨.unexpectedTokenDetailed t.value expected, t.line⟩) (fun _ => .detailed expected)
    fun _ _ _ _ => rfl

theorem Stops.refuseCurrent : Stops L eof ts least fun _ => (do refuseToken (← get).current : Reading α) :=
  .fail (fun t => ⟨.unexpectedToken t.value, t.line⟩) (fun _ => .token) fun _ _ _ _ => rfl

/-! ## One after the other -/

theorem Stop.bind_error {d : Diagnostic} (h : Stop L eof ts least x (.error d) ws us) :
    Stop L eof ts least (fun i => x i >>= f i) (.error d) ws us where
  split := h.split
  not_end := h.not_end
  least_le _ ha := by cases ha
  blames d' hd := by cases hd; exact h.blames d rfl
  run he hc hi := bind_run_error (h.run he hc hi)

theorem Stop.bind_ok {a : α} {o : Except Diagnostic β} {ws' us' : List Token} (h : Stop L eof ts least x (.ok a) ws us)
    (hf : Stop (L.after ws.length) eof us 0 (fun i => f i a) o ws' us') :
    Stop L eof ts least (fun i => x i >>= f i) o (ws ++ ws') us' where
  split := by rw [h.split, hf.split, List.append_assoc]
  not_end := List.forall_mem_append.mpr ⟨h.not_end, hf.not_end⟩
  least_le _ _ := by
    rw [List.length_append]
    exact Nat.le_trans (h.least_le a rfl) (Nat.le_add_right _ _)
  blames d hd := (hf.blames d hd).append ws
  run := fun {eof' vs i} he hc hi => by
    have hcurrent : (Cursor.before eof' (ws' ++ vs)).current = (Cursor.before eof us).current := by
      rw [hf.split]
      exact Cursor.current_append ws' hc
    rw [List.append_assoc] at hi ⊢
    rw [bind_run (h.run he hcurrent hi)]
    exact hf.run he hc (by rwa [List.length_append] at hi)

/-- A reading that goes on from another one stops where either of them does. -/
theorem Stops.bind (h : Stops L eof ts least x)
    (hf : ∀ a ws us, ts = ws ++ us → least ≤ ws.length → Stops (L.after ws.length) eof us 0 fun i => f i a) :
    Stops L eof ts least fun i => x i >>= f i := by
  obtain ⟨o, ws, us, h⟩ := h
  cases o with
  | error d => exact ⟨.error d, ws, us, h.bind_error⟩
  | ok a =>
    obtain ⟨o, ws', us', hf⟩ := hf a ws us h.split (h.least_le a rfl)
    exact ⟨o, ws ++ ws', us', h.bind_ok hf⟩

/-- What goes on behind a reading that takes a token at least may count on one token less. -/
theorem Stops.bind_after (h : Stops L eof ts 1 x)
    (hf : ∀ a us, us.length < ts.length → Stops (L.after 1) eof us 0 fun i => f i a) :
    Stops L eof ts 1 fun i => x i >>= f i := by
  refine h.bind fun a ws us hsplit hws => ?_
  have hus : us.length < ts.length := by rw [hsplit, List.length_append]; omega
  exact (hf a us hus).mono (Nat.le_refl 0) fun _ _ hi => L.anti (Nat.add_le_add_right hws _) hi

/-- What goes on from a token that is no end of the program. -/
theorem Stops.advance {f : ι → Token → Reading β} (ht : t.kind ≠ .eof)
    (h : Stops (L.after 1) eof ts 0 fun i => f i t) : Stops L eof (t :: ts) 1 fun i => advance >>= f i := by
  have htake : Stop L eof (t :: ts) 1 (fun _ => Reading.advance) (.ok t) [t] ts := {
    split := rfl
    not_end := List.forall_mem_singleton.mpr ht
    least_le := fun _ _ => Nat.le_refl 1
    blames := fun _ hd => by cases hd
    run := fun {eof' us' i} _ _ _ => by
      rw [List.singleton_append, run_advance, Cursor.before_cons_current, Cursor.before_cons_next]
      rfl }
  obtain ⟨o, ws, us, h⟩ := h
  exact ⟨o, [t] ++ ws, us, htake.bind_ok h⟩

/-- A reading that looks at the current kind first. -/
theorem Stops.kind {f : ι → Kind → Reading β}
    (h : Stops L eof ts least fun i => f i (Cursor.before eof ts).current.kind) :
    Stops L eof ts least fun i => kind >>= f i :=
  h.of_run fun i eof' vs _ hc hi => ⟨i, hi, by rw [bind_run (run_kind _), hc]⟩

/-- A reading that takes a token of a kind or reports a problem of its own with the current one. -/
theorem Stops.take (he : eof.kind = .eof) {k : Kind} (hk : k ≠ .eof) {r : Reading Token} {o : Token → Diagnostic}
    (ho : ∀ t, Blames [] t (o t))
    (hr : ∀ c : Cursor, r.run c = if c.current.kind = k then .ok c.current c.next else .error (o c.current) c) :
    Stops L eof ts 1 fun _ => r := by
  by_cases hc : (Cursor.before eof ts).current.kind = k
  · obtain ⟨t, us, rfl, ht⟩ := exists_cons_of_kind he hc hk
    refine Stops.of_run (M := L) (y := fun _ => Reading.advance >>= Pure.pure) (.advance (ht ▸ hk) (.pure t))
      fun i eof' vs _ hvs hi => ⟨i, hi, ?_⟩
    rw [hr, if_pos (by rw [hvs]; exact hc)]
    rfl
  · refine .fail o ho fun _ eof' vs hvs => ?_
    rw [hr, if_neg (by rw [hvs]; exact hc)]

theorem Stops.expect (he : eof.kind = .eof) {k : Kind} (hk : k ≠ .eof) : Stops L eof ts 1 fun _ => expect k :=
  .take he hk (fun _ => .token) fun c => by
    rw [Reading.expect, bind_run (EStateM.run_get c)]
    change (if c.current.kind = k then Reading.advance else refuseToken c.current).run c = _
    split <;> rfl

theorem Stops.expectAs (he : eof.kind = .eof) {k : Kind} (hk : k ≠ .eof) (expected : String) :
    Stops L eof ts 1 fun _ => expectAs k expected :=
  .take he hk (fun _ => .detailed expected) fun c => by
    rw [Reading.expectAs, bind_run (EStateM.run_get c)]
    split <;> rfl

/-! ## Wherever it begins -/

theorem Stops.of_within (h : StopsWithin L eof k least x) (hts : ts.length < k) : Stops L eof ts least x := h ts hts

theorem StopsWithin.weaken (h : StopsWithin L eof k least x) : StopsWithin L eof k 0 x :=
  fun ts hts => (h ts hts).mono (Nat.zero_le _) fun _ _ hi => hi

theorem StopsWithin.bind {m : Nat} (hx : StopsWithin L eof k least x)
    (hf : ∀ a, StopsWithin L eof k m fun i => f i a) : StopsWithin L eof k least fun i => x i >>= f i := by
  intro ts hts
  refine (hx ts hts).bind fun a ws us hsplit _ => ?_
  have hus : us.length ≤ ts.length := by rw [hsplit, List.length_append]; exact Nat.le_add_left _ _
  exact (hf a us (Nat.lt_of_le_of_lt hus hts)).mono (Nat.zero_le m) fun i n hi => L.anti (Nat.le_add_left n _) hi

theorem StopsWithin.pure (a : α) : StopsWithin L eof k 0 fun _ => Pure.pure a := fun _ _ => .pure a

theorem StopsWithin.refuse (expected : String) :
    StopsWithin L eof k least fun _ => (Reading.refuse expected : Reading α) :=
  fun _ _ => .refuse expected

theorem StopsWithin.expect (he : eof.kind = .eof) {kd : Kind} (hk : kd ≠ .eof) :
    StopsWithin L eof k 1 fun _ => Reading.expect kd :=
  fun _ _ => .expect he hk

theorem StopsWithin.expectAs (he : eof.kind = .eof) {kd : Kind} (hk : kd ≠ .eof) (expected : String) :
    StopsWithin L eof k 1 fun _ => Reading.expectAs kd expected :=
  fun _ _ => .expectAs he hk expected

theorem StopsWithin.ite {p : Kind → Prop} [DecidablePred p] {y : ι → Reading α} (hx : StopsWithin L eof k least x)
    (hy : StopsWithin L eof k least y) :
    StopsWithin L eof k least fun i => Reading.kind >>= fun kd => if p kd then x i else y i := by
  intro ts hts
  refine .kind ?_
  by_cases h : p (Cursor.before eof ts).current.kind
  · simpa only [if_pos h] using hx ts hts
  · simpa only [if_neg h] using hy ts hts

/-! ## Loops and lists -/

section Loops

variable {test : Kind → Bool} {item : ι → Reading α}

/-- A loop stops within as many turns as tokens are left, if each of its turns takes a token. -/
theorem manyUpTo_stops (hi : ∀ ts, ts.length < k →
      test (Cursor.before eof ts).current.kind = true → Stops L eof ts 1 item) :
    ∀ n ≤ k, StopsWithin (L.turns 0) eof n 0 fun j => manyUpTo test (item j.1) j.2 := by
  intro n
  induction n with
  | zero => exact fun _ ts hts => absurd hts (Nat.not_lt_zero _)
  | succ n ih =>
    intro hn ts hts
    -- Within the limits a turn is left, and its number is that of the turns behind it and one more.
    have hturn : Stops (L.turns 1) eof ts 0 fun j => Reading.kind >>= fun kd =>
        if test kd then item j.1 >>= fun a => manyUpTo test (item j.1) j.2 >>= fun as => Pure.pure (a :: as)
        else Pure.pure [] := by
      refine .kind ?_
      by_cases ht : test (Cursor.before eof ts).current.kind = true
      · simp only [if_pos ht]
        have hitem : Stops (L.turns 1) eof ts 1 fun j => item j.1 :=
          (hi ts (Nat.lt_of_lt_of_le hts hn) ht).of_run fun j _ _ _ _ hj => ⟨j.1, hj.1, rfl⟩
        refine (hitem.bind fun a ws us hsplit hws => ?_).mono (Nat.zero_le 1) fun _ _ h => h
        have hus : us.length < n := by
          rw [hsplit, List.length_append] at hts
          omega
        have hrest := (ih (Nat.le_of_succ_le hn) us hus).mono (L := (L.turns 1).after ws.length) (Nat.le_refl 0)
          fun j m hj => ⟨L.anti (Nat.le_add_left m _) hj.1, by have := hj.2; omega⟩
        exact hrest.bind fun as _ _ _ _ => .pure (a :: as)
      · simpa only [if_neg ht] using .pure []
    refine hturn.of_run fun j eof' vs _ _ hj => ?_
    obtain ⟨i, m⟩ := j
    obtain ⟨m, rfl⟩ : ∃ m', m = m' + 1 := ⟨m - 1, by have := hj.2; omega⟩
    exact ⟨(i, m), hj, rfl⟩

theorem many_stops (hi : ∀ ts, ts.length < k →
      test (Cursor.before eof ts).current.kind = true → Stops L eof ts 1 item) :
    StopsWithin L eof k 0 fun i => many test (item i) := by
  intro ts hts
  refine (manyUpTo_stops hi k (Nat.le_refl k) ts hts).of_run fun i eof' vs _ _ hj =>
    ⟨(i, vs.length + 1), ⟨hj, Nat.lt_succ_self _⟩, ?_⟩
  rw [many, bind_run (run_remaining _), Cursor.before_rest_length]

/-- An item with the comma in front of it. -/
theorem afterComma_stops (he : eof.kind = .eof) (hi : StopsWithin L eof k 0 item) (hts : ts.length ≤ k)
    (ht : ((Cursor.before eof ts).current.kind == .comma) = true) :
    Stops L eof ts 1 fun i => Reading.advance >>= fun _ => item i := by
  obtain ⟨t, us, rfl, hk⟩ := exists_cons_of_kind he (beq_iff_eq.mp ht) (by decide)
  refine .advance (by rw [hk]; decide) ((hi us (Nat.lt_of_succ_le hts)).mono (Nat.le_refl 0) fun i n h => ?_)
  exact L.anti (Nat.le_add_left n 1) h

theorem commaList_stops (he : eof.kind = .eof) (hi : StopsWithin L eof k 0 item) :
    StopsWithin L eof k 1 fun i => commaList (item i) := by
  have hclose : ∀ items : List α, StopsWithin L eof k 0 fun _ => Pure.pure items >>= fun items =>
      Reading.expect .closeParen >>= fun _ => Pure.pure items := fun items =>
    (StopsWithin.pure items).bind fun items => (StopsWithin.expect he (by decide)).bind fun _ => .pure items
  have hmore : StopsWithin L eof k 0 fun i => many (· == .comma) (Reading.advance >>= fun _ => item i) :=
    many_stops fun _ hts => afterComma_stops he hi (Nat.le_of_lt hts)
  refine .bind (.expect he (by decide)) fun _ => .ite (hclose []) ?_
  exact hi.bind fun a => hmore.bind fun more => hclose (a :: more)

end Loops

end Reading

end FoolLang
