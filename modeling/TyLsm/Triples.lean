import Mathlib

/-! Stateful programs that move along a relation of states, whether they fail or not. The
rules follow the structure of the program. -/

namespace TyLsm

section

variable {ε σ α β : Type} {R : σ → σ → Prop}

/-- From `s` the program ends in a state that `R` reaches, and what it returns has `P`. -/
structure Triple (R : σ → σ → Prop) (x : EStateM ε σ α) (s : σ) (P : α → Prop) : Prop where
  ok : ∀ a s', x s = .ok a s' → R s s' ∧ P a
  error : ∀ err s', x s = .error err s' → R s s'

namespace Triple

variable {x : EStateM ε σ α} {s : σ} {P : α → Prop} {Q : β → Prop}

theorem pure (hrefl : R s s) {a : α} (ha : P a) : Triple R (pure a : EStateM ε σ α) s P := by
  constructor
  · intro b s' h
    obtain ⟨rfl, rfl⟩ := EStateM.Result.ok.inj h
    exact ⟨hrefl, ha⟩
  · intro err s' h
    cases h

theorem throw (hrefl : R s s) (err : ε) : Triple R (throw err : EStateM ε σ α) s P := by
  constructor
  · intro a s' h
    cases h
  · intro err' s' h
    obtain ⟨rfl, rfl⟩ := EStateM.Result.error.inj h
    exact hrefl

theorem bind (htrans : ∀ {s s' s''}, R s s' → R s' s'' → R s s'') {f : α → EStateM ε σ β}
    (hx : Triple R x s P) (hf : ∀ a s', R s s' → P a → Triple R (f a) s' Q) :
    Triple R (x >>= f) s Q := by
  have hrun : (x >>= f) s = EStateM.bind x f s := rfl
  constructor
  · intro b s' h
    rw [hrun, EStateM.bind] at h
    cases hxs : x s with
    | ok a t =>
      obtain ⟨hst, ha⟩ := hx.ok a t hxs
      rw [hxs] at h
      obtain ⟨hts, hb⟩ := (hf a t hst ha).ok b s' h
      exact ⟨htrans hst hts, hb⟩
    | error err t =>
      rw [hxs] at h
      cases h
  · intro err s' h
    rw [hrun, EStateM.bind] at h
    cases hxs : x s with
    | ok a t =>
      obtain ⟨hst, ha⟩ := hx.ok a t hxs
      rw [hxs] at h
      exact htrans hst ((hf a t hst ha).error err s' h)
    | error err' t =>
      rw [hxs] at h
      obtain ⟨rfl, rfl⟩ := EStateM.Result.error.inj h
      exact hx.error err' t hxs

theorem get_bind {f : σ → EStateM ε σ α} (h : Triple R (f s) s P) :
    Triple R (MonadState.get >>= f) s P :=
  ⟨fun a s' hs => h.ok a s' hs, fun err s' hs => h.error err s' hs⟩

theorem set {s' : σ} (h : R s s') : Triple R (set s' : EStateM ε σ PUnit) s fun _ => True := by
  constructor
  · intro a t ht
    obtain ⟨-, rfl⟩ := EStateM.Result.ok.inj ht
    exact ⟨h, trivial⟩
  · intro err t ht
    cases ht

theorem modify {f : σ → σ} (h : R s (f s)) :
    Triple R (modify f : EStateM ε σ PUnit) s fun _ => True := by
  constructor
  · intro a t ht
    obtain ⟨-, rfl⟩ := EStateM.Result.ok.inj ht
    exact ⟨h, trivial⟩
  · intro err t ht
    cases ht

theorem tryCatch (htrans : ∀ {s s' s''}, R s s' → R s' s'' → R s s'')
    {handle : ε → EStateM ε σ α} (hx : Triple R x s P)
    (hf : ∀ err s', R s s' → Triple R (handle err) s' P) : Triple R (tryCatch x handle) s P := by
  have hrun : (MonadExcept.tryCatch x handle) s = EStateM.tryCatch x handle s := rfl
  constructor
  · intro a s' h
    rw [hrun, EStateM.tryCatch] at h
    cases hxs : x s with
    | ok b t =>
      rw [hxs] at h
      obtain ⟨rfl, rfl⟩ := EStateM.Result.ok.inj h
      exact hx.ok b t hxs
    | error err t =>
      rw [hxs] at h
      obtain ⟨hts, ha⟩ := (hf err t (hx.error err t hxs)).ok a s' h
      exact ⟨htrans (hx.error err t hxs) hts, ha⟩
  · intro err s' h
    rw [hrun, EStateM.tryCatch] at h
    cases hxs : x s with
    | ok b t =>
      rw [hxs] at h
      cases h
    | error err' t =>
      rw [hxs] at h
      exact htrans (hx.error err' t hxs) ((hf err' t (hx.error err' t hxs)).error err s' h)

end Triple

end

end TyLsm
