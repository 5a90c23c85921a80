/-
Actions that may fail, with a state or without, one after the other: a sequence succeeds where its first
action does and the rest does from there.
-/

namespace FoolLang.Sequencing

variable {ε σ α β : Type} {x : EStateM ε σ α} {f : α → EStateM ε σ β} {s s' : σ} {a : α} {e : ε}

theorem bind_run (h : x.run s = .ok a s') : (x >>= f).run s = (f a).run s' := by
  rw [EStateM.run_bind, h]

theorem bind_run_error (h : x.run s = .error e s') : (x >>= f).run s = .error e s' := by
  rw [EStateM.run_bind, h]

theorem bind_ok {b : β} {t : σ} (h : (x >>= f).run s = .ok b t) :
    ∃ a s', x.run s = .ok a s' ∧ (f a).run s' = .ok b t := by
  rw [EStateM.run_bind] at h
  cases hx : x.run s with
  | ok a s' => rw [hx] at h; exact ⟨a, s', rfl, h⟩
  | error e s' => rw [hx] at h; cases h

theorem bind_error {t : σ} (h : (x >>= f).run s = .error e t) :
    x.run s = .error e t ∨ ∃ a s', x.run s = .ok a s' ∧ (f a).run s' = .error e t := by
  rw [EStateM.run_bind] at h
  cases hx : x.run s with
  | ok a s' => rw [hx] at h; exact .inr ⟨a, s', rfl, h⟩
  | error e' s' => rw [hx] at h; cases h; exact .inl rfl

theorem pure_ok {b : α} {t : σ} (h : (pure a : EStateM ε σ α).run s = .ok b t) : a = b ∧ s = t := by
  rw [EStateM.run_pure] at h; cases h; exact ⟨rfl, rfl⟩

theorem except_bind_ok {x : Except ε α} {f : α → Except ε β} {b : β} (h : (x >>= f) = .ok b) :
    ∃ a, x = .ok a ∧ f a = .ok b := by
  cases x with
  | ok a => exact ⟨a, rfl, h⟩
  | error e => cases h

theorem except_bind_iff {x : Except ε α} {f : α → Except ε β} {b : β} :
    (x >>= f) = .ok b ↔ ∃ a, x = .ok a ∧ f a = .ok b :=
  ⟨except_bind_ok, fun ⟨_, hx, hf⟩ => by rw [hx]; exact hf⟩

end FoolLang.Sequencing
