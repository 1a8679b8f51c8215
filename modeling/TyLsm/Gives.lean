import Mathlib

/-! Stateful programs that answer as a pure computation does, wherever an invariant
holds. The rules follow the structure of the program. -/

namespace TyLsm

section

variable {ε σ α β : Type} {I : σ → Prop}

theorem bind_of_ok {x : EStateM ε σ α} {f : α → EStateM ε σ β} {s s' : σ} {a : α}
    (h : x s = .ok a s') : (x >>= f) s = f a s' := by
  change EStateM.bind x f s = _
  rw [EStateM.bind, h]

theorem bind_of_error {x : EStateM ε σ α} {f : α → EStateM ε σ β} {s s' : σ} {err : ε}
    (h : x s = .error err s') : (x >>= f) s = .error err s' := by
  change EStateM.bind x f s = _
  rw [EStateM.bind, h]

theorem get_of_bind (f : σ → EStateM ε σ α) (s : σ) : (MonadState.get >>= f) s = f s s := rfl

/-- The result of a program that ends in `s` with the outcome of a pure computation. -/
def outcome (r : Except ε α) (s : σ) : EStateM.Result ε σ α :=
  match r with
  | .ok a => .ok a s
  | .error err => .error err s

/-- From every state with `I` the program has the outcome `r` and keeps `I`. -/
def Gives (I : σ → Prop) (x : EStateM ε σ α) (r : Except ε α) : Prop :=
  ∀ s, I s → ∃ s', I s' ∧ x s = outcome r s'

namespace Gives

theorem pure (a : α) : Gives I (pure a : EStateM ε σ α) (.ok a) := fun s hs => ⟨s, hs, rfl⟩

theorem throw (err : ε) : Gives I (throw err : EStateM ε σ α) (.error err) :=
  fun s hs => ⟨s, hs, rfl⟩

theorem bind_ok {x : EStateM ε σ α} {f : α → EStateM ε σ β} {a : α} {r : Except ε β}
    (hx : Gives I x (.ok a)) (hf : Gives I (f a) r) : Gives I (x >>= f) r := by
  intro s hs
  obtain ⟨t, ht, hxt⟩ := hx s hs
  obtain ⟨u, hu, hfu⟩ := hf t ht
  exact ⟨u, hu, (bind_of_ok hxt).trans hfu⟩

theorem bind_error {x : EStateM ε σ α} {f : α → EStateM ε σ β} {err : ε}
    (hx : Gives I x (.error err)) : Gives I (x >>= f) (.error err) := by
  intro s hs
  obtain ⟨t, ht, hxt⟩ := hx s hs
  exact ⟨t, ht, bind_of_error hxt⟩

theorem bind {x : EStateM ε σ α} {f : α → EStateM ε σ β} {r : Except ε α} {g : α → Except ε β}
    (hx : Gives I x r) (hf : ∀ a, Gives I (f a) (g a)) : Gives I (x >>= f) (r >>= g) := by
  cases r with
  | ok a => exact hx.bind_ok (hf a)
  | error err => exact hx.bind_error

theorem get_bind {f : σ → EStateM ε σ α} {r : Except ε α} (h : ∀ s, I s → Gives I (f s) r) :
    Gives I (MonadState.get >>= f) r := fun s hs => h s hs s hs

end Gives

end

end TyLsm
