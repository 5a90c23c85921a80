/-
Static types. A class name used as a type denotes references to its instances; the type of a class
itself, with its fields and methods in order, is only that of its own declaration. Main statements:
comparison decides equality, and every type is a subtype of itself.
-/

namespace FoolLang

mutual

/-- The types of the language. -/
inductive Ty where
  | int
  | bool
  /-- The type of the null reference. -/
  | null
  /-- References to the instances of a class. -/
  | ref (className : String)
  | arrow (s : Signature)
  /-- A class: the types of its fields by offset, the signatures of its methods by slot. -/
  | cls (fields : List Ty) (methods : List Signature)

/-- What a function or method takes and gives back. -/
structure Signature where
  params : List Ty
  result : Ty

end

instance : Inhabited Ty := ⟨.int⟩

instance : Inhabited Signature := ⟨⟨[], .int⟩⟩

mutual

/-- Whether two types are the same. -/
def Ty.same : Ty → Ty → Bool
  | .int, .int | .bool, .bool | .null, .null => true
  | .ref c, .ref d => c == d
  | .arrow s, .arrow t => s.same t
  | .cls fs ms, .cls gs ns => Ty.sameAll fs gs && Signature.sameAll ms ns
  | _, _ => false

/-- Whether two signatures are the same. -/
def Signature.same : Signature → Signature → Bool
  | ⟨ps, r⟩, ⟨qs, t⟩ => Ty.sameAll ps qs && r.same t

/-- Whether two lists of types are the same. -/
def Ty.sameAll : List Ty → List Ty → Bool
  | [], [] => true
  | a :: as, b :: bs => a.same b && Ty.sameAll as bs
  | _, _ => false

/-- Whether two lists of signatures are the same. -/
def Signature.sameAll : List Signature → List Signature → Bool
  | [], [] => true
  | a :: as, b :: bs => a.same b && Signature.sameAll as bs
  | _, _ => false

end

mutual

theorem Ty.same_iff : ∀ a b : Ty, a.same b = true ↔ a = b
  | .int, b => by cases b <;> simp [Ty.same]
  | .bool, b => by cases b <;> simp [Ty.same]
  | .null, b => by cases b <;> simp [Ty.same]
  | .ref c, b => by cases b <;> simp [Ty.same]
  | .arrow s, .arrow t => by simp [Ty.same, Signature.same_iff s t]
  | .arrow s, .int | .arrow s, .bool | .arrow s, .null | .arrow s, .ref _
  | .arrow s, .cls _ _ => by simp [Ty.same]
  | .cls fs ms, .cls gs ns => by
    simp [Ty.same, Ty.sameAll_iff fs gs, Signature.sameAll_iff ms ns]
  | .cls _ _, .int | .cls _ _, .bool | .cls _ _, .null | .cls _ _, .ref _
  | .cls _ _, .arrow _ => by simp [Ty.same]

theorem Signature.same_iff : ∀ a b : Signature, a.same b = true ↔ a = b
  | ⟨ps, r⟩, ⟨qs, t⟩ => by simp [Signature.same, Ty.sameAll_iff ps qs, Ty.same_iff r t]

theorem Ty.sameAll_iff : ∀ as bs : List Ty, Ty.sameAll as bs = true ↔ as = bs
  | [], [] => by simp [Ty.sameAll]
  | [], _ :: _ => by simp [Ty.sameAll]
  | _ :: _, [] => by simp [Ty.sameAll]
  | a :: as, b :: bs => by simp [Ty.sameAll, Ty.same_iff a b, Ty.sameAll_iff as bs]

theorem Signature.sameAll_iff : ∀ as bs : List Signature, Signature.sameAll as bs = true ↔ as = bs
  | [], [] => by simp [Signature.sameAll]
  | [], _ :: _ => by simp [Signature.sameAll]
  | _ :: _, [] => by simp [Signature.sameAll]
  | a :: as, b :: bs => by
    simp [Signature.sameAll, Signature.same_iff a b, Signature.sameAll_iff as bs]

end

instance : DecidableEq Ty := fun a b => decidable_of_iff _ (Ty.same_iff a b)

instance : DecidableEq Signature := fun a b => decidable_of_iff _ (Signature.same_iff a b)

mutual

/-- The text of a type. -/
def Ty.text : Ty → String
  | .int => "int"
  | .bool => "bool"
  | .null => "null"
  | .ref c => c
  | .arrow s => s.text
  | .cls fs ms =>
    let fields := String.intercalate ", " (Ty.texts fs)
    let methods := String.intercalate ", " (Signature.texts ms)
    s!"class({fields}) \x7b{methods}\x7d"

/-- The text of a signature. -/
def Signature.text : Signature → String
  | ⟨ps, r⟩ =>
    let params := String.intercalate ", " (Ty.texts ps)
    s!"({params}) -> {r.text}"

/-- The texts of some types. -/
def Ty.texts : List Ty → List String
  | [] => []
  | t :: ts => t.text :: Ty.texts ts

/-- The texts of some signatures. -/
def Signature.texts : List Signature → List String
  | [] => []
  | s :: ss => s.text :: Signature.texts ss

end

namespace Ty

/--
Whether a value of the first type may stand where the second is expected: truth values count as
integers, the null reference belongs to every class, and every type goes for itself.
-/
def subtype : Ty → Ty → Bool
  | .bool, .int => true
  | .null, .ref _ => true
  | a, b => decide (a = b)

theorem subtype_refl (a : Ty) : a.subtype a = true := by cases a <;> simp [subtype]

end Ty

end FoolLang
