import Mathlib

/-! Runs of a stateful program: a list of calls made one after the other, and the
rules by which an invariant of single calls becomes one of whole runs. A ghost
value follows the run next to the state. -/

namespace TyLsm

section

variable {ε σ ι γ : Type} {f : ι → EStateM ε σ Unit}

/-- Make the calls in order; the run stops at the first that fails. -/
def runAll (f : ι → EStateM ε σ Unit) : List ι → EStateM ε σ Unit
  | [] => pure ()
  | i :: is => do
    f i
    runAll f is

/-- The state in which a call leaves the system, whether it fails or not. -/
def after (f : ι → EStateM ε σ Unit) (s : σ) (i : ι) : σ :=
  match f i s with
  | .ok _ s' => s'
  | .error _ s' => s'

theorem after_ok {i : ι} {s s' : σ} (h : f i s = .ok () s') : after f s i = s' := by
  rw [after, h]

theorem after_error {i : ι} {s s' : σ} {err : ε} (h : f i s = .error err s') :
    after f s i = s' := by
  rw [after, h]

/-- `C` holds of every call of the run in the state in which it is made. -/
def Along (f : ι → EStateM ε σ Unit) (C : ι → σ → Prop) : List ι → σ → Prop
  | [], _ => True
  | i :: is, s => C i s ∧ Along f C is (after f s i)

instance Along.decidable (f : ι → EStateM ε σ Unit) (C : ι → σ → Prop)
    [∀ i s, Decidable (C i s)] : (is : List ι) → (s : σ) → Decidable (Along f C is s)
  | [], _ => isTrue trivial
  | i :: is, s => @instDecidableAnd _ _ inferInstance (Along.decidable f C is (after f s i))

theorem Along.and {C C' : ι → σ → Prop} {is : List ι} {s : σ} (h : Along f C is s)
    (h' : Along f C' is s) : Along f (fun i s => C i s ∧ C' i s) is s := by
  induction is generalizing s with
  | nil => trivial
  | cons i is ih => exact ⟨⟨h.1, h'.1⟩, ih h.2 h'.2⟩

theorem Along.mono {C C' : ι → σ → Prop} {is : List ι} {s : σ} (h : Along f C is s)
    (himp : ∀ i s, C i s → C' i s) : Along f C' is s := by
  induction is generalizing s with
  | nil => trivial
  | cons i is ih => exact ⟨himp i s h.1, ih h.2⟩

theorem along_of_forall {C : ι → σ → Prop} {is : List ι} (h : ∀ i ∈ is, ∀ s, C i s) (s : σ) :
    Along f C is s := by
  induction is generalizing s with
  | nil => trivial
  | cons i is ih => exact ⟨h i (by simp) s, ih (fun j hj => h j (by simp [hj])) _⟩

/-- The run succeeds and ends in a state with the given property. -/
def EndsIn (p : σ → Prop) : EStateM.Result ε σ Unit → Prop
  | .ok _ s => p s
  | .error _ _ => False

instance (p : σ → Prop) [DecidablePred p] (r : EStateM.Result ε σ Unit) : Decidable (EndsIn p r) :=
  match r with
  | .ok _ s => inferInstanceAs (Decidable (p s))
  | .error _ _ => isFalse id

theorem EndsIn.exists_ok {p : σ → Prop} {r : EStateM.Result ε σ Unit} (h : EndsIn p r) :
    ∃ s, r = .ok () s ∧ p s := by
  cases r with
  | ok a s => exact ⟨s, rfl, h⟩
  | error err s => exact absurd h id

theorem runAll_cons_ok {i : ι} {is : List ι} {s s' : σ} (h : f i s = .ok () s') :
    runAll f (i :: is) s = runAll f is s' := by
  change EStateM.bind (f i) (fun _ => runAll f is) s = _
  rw [EStateM.bind, h]

theorem runAll_append_ok {is js : List ι} {s s' : σ} (h : runAll f is s = .ok () s') :
    runAll f (is ++ js) s = runAll f js s' := by
  induction is generalizing s with
  | nil =>
    obtain rfl : s = s' := by injection h
    rfl
  | cons i is ih =>
    cases hf : f i s with
    | ok a t =>
      rw [runAll_cons_ok hf] at h
      rw [List.cons_append, runAll_cons_ok hf, ih h]
    | error err t =>
      change EStateM.bind (f i) (fun _ => runAll f is) s = _ at h
      rw [EStateM.bind, hf] at h
      cases h

/-- If every call that meets the condition succeeds and keeps the invariant, so does
every run whose calls all meet it. -/
theorem runAll_invariant {n : ι → γ → γ} {I : γ → σ → Prop} {C : ι → σ → Prop}
    (step : ∀ i g s, I g s → C i s → ∃ s', f i s = .ok () s' ∧ I (n i g) s')
    {is : List ι} {g : γ} {s : σ} (h : I g s) (ha : Along f C is s) :
    ∃ s', runAll f is s = .ok () s' ∧ I (is.foldl (fun g i => n i g) g) s' := by
  induction is generalizing g s with
  | nil => exact ⟨s, rfl, h⟩
  | cons i is ih =>
    obtain ⟨hi, hrest⟩ := ha
    obtain ⟨s', hf, hs'⟩ := step i g s h hi
    rw [after_ok hf] at hrest
    obtain ⟨s'', hrun, hinv⟩ := ih hs' hrest
    exact ⟨s'', by rw [runAll_cons_ok hf, hrun], hinv⟩

/-- A run that goes on after a call has failed, and the ghost value next to it. -/
def follow (f : ι → EStateM ε σ Unit) (ghost : ι → σ → γ → γ) : List ι → γ → σ → γ × σ
  | [], g, s => (g, s)
  | i :: is, g, s => follow f ghost is (ghost i s g) (after f s i)

theorem follow_append {ghost : ι → σ → γ → γ} (l r : List ι) (g : γ) (s : σ) :
    follow f ghost (l ++ r) g s =
      follow f ghost r (follow f ghost l g s).1 (follow f ghost l g s).2 := by
  induction l generalizing g s with
  | nil => rfl
  | cons i l ih => exact ih _ _

/-- The run does not depend on what is noted of it. -/
theorem follow_snd {δ : Type} (ghost : ι → σ → γ → γ) (ghost' : ι → σ → δ → δ) (is : List ι)
    (g : γ) (g' : δ) (s : σ) : (follow f ghost is g s).2 = (follow f ghost' is g' s).2 := by
  induction is generalizing g g' s with
  | nil => rfl
  | cons i is ih => exact ih _ _ _

theorem follow_invariant {ghost : ι → σ → γ → γ} {I : γ → σ → Prop} {C : ι → σ → Prop}
    (step : ∀ i g s, I g s → C i s → I (ghost i s g) (after f s i)) {is : List ι} {g : γ} {s : σ}
    (h : I g s) (ha : Along f C is s) :
    I (follow f ghost is g s).1 (follow f ghost is g s).2 := by
  induction is generalizing g s with
  | nil => exact h
  | cons i is ih => exact ih (step i g s h ha.1) ha.2

/-- An invariant of a run may be used at each of its calls. -/
theorem along_of_invariant {ghost : ι → σ → γ → γ} {I : γ → σ → Prop} {C : ι → σ → Prop}
    (step : ∀ i g s, I g s → C i s → I (ghost i s g) (after f s i)) {is : List ι} {g : γ} {s : σ}
    (h : I g s) (ha : Along f C is s) : Along f (fun i s => C i s ∧ ∃ g, I g s) is s := by
  induction is generalizing g s with
  | nil => trivial
  | cons i is ih => exact ⟨⟨ha.1, g, h⟩, ih (step i g s h ha.1) ha.2⟩

/-- `C` holds before every step of a run whose steps cannot fail. -/
def Throughout (step : σ → ι → σ) (C : ι → σ → Prop) : List ι → σ → Prop
  | [], _ => True
  | i :: is, s => C i s ∧ Throughout step C is (step s i)

instance Throughout.decidable (step : σ → ι → σ) (C : ι → σ → Prop) [∀ i s, Decidable (C i s)] :
    (is : List ι) → (s : σ) → Decidable (Throughout step C is s)
  | [], _ => isTrue trivial
  | i :: is, s => @instDecidableAnd _ _ inferInstance (Throughout.decidable step C is (step s i))

theorem foldl_invariant {step : σ → ι → σ} {I : σ → Prop} {C : ι → σ → Prop}
    (hstep : ∀ i s, I s → C i s → I (step s i)) {is : List ι} {s : σ} (h : I s)
    (hc : Throughout step C is s) : I (is.foldl step s) := by
  induction is generalizing s with
  | nil => exact h
  | cons i is ih => exact ih (hstep i s h hc.1) hc.2

end

end TyLsm
