import Mathlib

/-! Frames of stateful programs: how far a program may move the state, and with which
errors it may fail. The rules follow the structure of the program. -/

namespace TyLsm

section

variable {ε σ α β : Type} {R : σ → σ → Prop} {E : ε → Prop} {s s' : σ}

/-- From `s` the program moves the state along `R` only, and fails with errors in `E` only. -/
structure Within (R : σ → σ → Prop) (E : ε → Prop) (x : EStateM ε σ α) (s : σ) : Prop where
  ok : ∀ a s', x s = .ok a s' → R s s'
  error : ∀ err s', x s = .error err s' → R s s' ∧ E err

theorem bind_eq_ok {x : EStateM ε σ α} {f : α → EStateM ε σ β} {b : β}
    (h : (x >>= f) s = .ok b s') : ∃ a t, x s = .ok a t ∧ f a t = .ok b s' := by
  change EStateM.bind x f s = _ at h
  unfold EStateM.bind at h
  split at h
  · exact ⟨_, _, by assumption, h⟩
  · cases h

theorem bind_eq_error {x : EStateM ε σ α} {f : α → EStateM ε σ β} {err : ε}
    (h : (x >>= f) s = .error err s') :
    x s = .error err s' ∨ ∃ a t, x s = .ok a t ∧ f a t = .error err s' := by
  change EStateM.bind x f s = _ at h
  unfold EStateM.bind at h
  split at h
  · exact .inr ⟨_, _, by assumption, h⟩
  · left
    cases h
    assumption

theorem except_bind_ne_error {x : Except ε α} {f : α → Except ε β} {err : ε} (hx : x ≠ .error err)
    (hf : ∀ a, f a ≠ .error err) : (x >>= f) ≠ .error err := by
  cases x with
  | error err' => exact fun h => hx (by rw [Except.error.inj h])
  | ok a => exact hf a

namespace Within

theorem of_ok {x : EStateM ε σ α} {a : α} (h : x s = .ok a s') (hR : R s s') : Within R E x s := by
  refine ⟨fun _ _ hx => ?_, fun _ _ hx => ?_⟩
  · rw [h] at hx
    cases hx
    exact hR
  · rw [h] at hx
    cases hx

theorem of_error {x : EStateM ε σ α} {err : ε} (h : x s = .error err s') (hR : R s s')
    (hE : E err) : Within R E x s := by
  refine ⟨fun _ _ hx => ?_, fun _ _ hx => ?_⟩
  · rw [h] at hx
    cases hx
  · rw [h] at hx
    cases hx
    exact ⟨hR, hE⟩

theorem pure [Std.Refl R] (a : α) : Within R E (pure a : EStateM ε σ α) s := of_ok rfl (refl s)

theorem bind [IsTrans σ R] {x : EStateM ε σ α} {f : α → EStateM ε σ β} (hx : Within R E x s)
    (hf : ∀ a t, x s = .ok a t → Within R E (f a) t) : Within R E (x >>= f) s := by
  constructor
  · intro b s' h
    obtain ⟨a, t, hxa, hfa⟩ := bind_eq_ok h
    exact IsTrans.trans _ _ _ (hx.ok a t hxa) ((hf a t hxa).ok b s' hfa)
  · intro err s' h
    rcases bind_eq_error h with hxe | ⟨a, t, hxa, hfa⟩
    · exact hx.error err s' hxe
    · obtain ⟨hR, hE⟩ := (hf a t hxa).error err s' hfa
      exact ⟨IsTrans.trans _ _ _ (hx.ok a t hxa) hR, hE⟩

theorem get_bind {f : σ → EStateM ε σ α} (h : Within R E (f s) s) :
    Within R E (MonadState.get >>= f) s := ⟨h.ok, h.error⟩

end Within

end

end TyLsm
