/-
Tables: finite maps with at most one entry per key, the latest entry first. Main statements: what
is found after an entry has been put in.
-/

namespace FoolLang

/-- A finite map. -/
structure Table (κ : Type) (α : Type) where
  entries : List (κ × α)
deriving DecidableEq

namespace Table

variable {κ α : Type} [BEq κ]

/-- The table without entries. -/
def empty : Table κ α := ⟨[]⟩

/-- The entry of a key. -/
def get? (t : Table κ α) (k : κ) : Option α := t.entries.lookup k

/-- Whether a key has an entry. -/
def contains (t : Table κ α) (k : κ) : Bool := (t.get? k).isSome

/-- Enters a value under a key, in place of any earlier one. -/
def put (t : Table κ α) (k : κ) (a : α) : Table κ α :=
  ⟨(k, a) :: t.entries.filter fun e => !(e.1 == k)⟩

theorem get?_empty (k : κ) : (empty : Table κ α).get? k = none := rfl

theorem get?_put_self [ReflBEq κ] (t : Table κ α) (k : κ) (a : α) :
    (t.put k a).get? k = some a := by
  simp [get?, put]

theorem lookup_filter_ne [LawfulBEq κ] (es : List (κ × α)) {k l : κ} (h : l ≠ k) :
    (es.filter fun e => !(e.1 == k)).lookup l = es.lookup l := by
  induction es with
  | nil => rfl
  | cons e es ih =>
    obtain ⟨m, b⟩ := e
    by_cases hm : m = k
    · subst hm
      have hl : (l == m) = false := by simpa using h
      simp [List.lookup_cons, hl, ih]
    · simp [List.lookup_cons, hm, ih]

theorem get?_put_ne [LawfulBEq κ] (t : Table κ α) {k l : κ} (a : α) (h : l ≠ k) :
    (t.put k a).get? l = t.get? l := by
  have hl : (l == k) = false := by simpa using h
  simp [get?, put, List.lookup_cons, hl, lookup_filter_ne t.entries h]

end Table

end FoolLang
