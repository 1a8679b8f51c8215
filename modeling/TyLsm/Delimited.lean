import Mathlib

/-! Decoders of self-delimiting code words. A decoder returns the rest of its input; it reads
a word whatever follows it, and it fails on every part of the word. -/

namespace TyLsm

section

variable {α β γ ε : Type} {Fault : ε → Prop}

/-- The decoder takes the word for `a`, and has a fault from `Fault` on its proper prefixes. -/
structure Delimits (Fault : ε → Prop) (decode : List β → Except ε (α × List β)) (word : List β)
    (a : α) : Prop where
  whole : ∀ rest, decode (word ++ rest) = .ok (a, rest)
  cut : ∀ n < word.length, ∃ err, decode (word.take n) = .error err ∧ Fault err

namespace Delimits

theorem pure (a : α) :
    Delimits Fault (fun src : List β => (.ok (a, src) : Except ε (α × List β))) [] a := by
  refine ⟨fun rest => rfl, fun n hn => ?_⟩
  exact absurd hn (Nat.not_lt_zero n)

theorem andThen {first : List β → Except ε (α × List β)}
    {next : α × List β → Except ε (γ × List β)} {u v : List β} {a : α} {c : γ}
    (h₁ : Delimits Fault first u a) (h₂ : Delimits Fault (fun src => next (a, src)) v c) :
    Delimits Fault (fun src => first src >>= next) (u ++ v) c := by
  constructor
  · intro rest
    rw [List.append_assoc, h₁.whole]
    exact h₂.whole rest
  · intro n hn
    rw [List.length_append] at hn
    by_cases hcut : n < u.length
    · obtain ⟨err, herr, hfault⟩ := h₁.cut n hcut
      rw [List.take_append_of_le_length hcut.le, herr]
      exact ⟨err, rfl, hfault⟩
    · obtain ⟨m, rfl⟩ := Nat.exists_eq_add_of_le (not_lt.mp hcut)
      obtain ⟨err, herr, hfault⟩ := h₂.cut m (by omega)
      rw [List.take_length_add_append, h₁.whole]
      exact ⟨err, herr, hfault⟩

theorem thenReturn {first : List β → Except ε (α × List β)}
    {next : α × List β → Except ε (γ × List β)} {u : List β} {a : α} {c : γ}
    (h : Delimits Fault first u a) (hnext : ∀ src, next (a, src) = .ok (c, src)) :
    Delimits Fault (fun src => first src >>= next) u c := by
  have hpure : Delimits Fault (fun src => next (a, src)) [] c := by
    rw [funext hnext]
    exact pure c
  simpa using h.andThen hpure

end Delimits

end

end TyLsm
