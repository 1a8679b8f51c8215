import Mathlib

/-! Two computations that can fail, and that do the same on two levels. -/

namespace TyLsm

section

variable {ε α α' β β' : Type} {R : α → β → Prop} {S : α' → β' → Prop}

/-- Both fail with one error, or what they return is related. -/
inductive Alike (R : α → β → Prop) : Except ε α → Except ε β → Prop where
  | ok {a : α} {b : β} : R a b → Alike R (.ok a) (.ok b)
  | error (err : ε) : Alike R (.error err) (.error err)

namespace Alike

variable {x : Except ε α} {y : Except ε β}

theorem bind {f : α → Except ε α'} {g : β → Except ε β'} (h : Alike R x y)
    (hf : ∀ a b, R a b → Alike S (f a) (g b)) : Alike S (x >>= f) (y >>= g) := by
  cases h with
  | ok hab => exact hf _ _ hab
  | error err => exact .error err

theorem of_ok {b : β} (h : Alike R x y) (hy : y = .ok b) : ∃ a, x = .ok a ∧ R a b := by
  subst hy
  cases h with
  | ok hab => exact ⟨_, rfl, hab⟩

theorem weaken {R' : α → β → Prop} (h : Alike R x y) (hr : ∀ a b, R a b → R' a b) :
    Alike R' x y := by
  cases h with
  | ok hab => exact .ok (hr _ _ hab)
  | error err => exact .error err

end Alike

end

end TyLsm
