import Mathlib

/-! Computations that may panic. Slicing, splitting, unwrapping and subtraction check their
arguments; a computation surfaces as another one if it never panics and has the same
outcome, with errors of a given kind only. -/

namespace TyLsm

/-- The outer `none` is a panic. -/
abbrev Panicking (ε : Type) := ExceptT ε Option

namespace Panicking

section

variable {α β ε : Type}

def panics : Panicking ε α := (none : Option (Except ε α))

def expect : Option α → Panicking ε α
  | some a => pure a
  | none => panics

def index (l : List α) (i : Nat) : Panicking ε α := expect l[i]?

def slice (l : List α) (start stop : Nat) : Panicking ε (List α) :=
  if start ≤ stop ∧ stop ≤ l.length then pure ((l.take stop).drop start) else panics

def splitAt (l : List α) (mid : Nat) : Panicking ε (List α × List α) :=
  if mid ≤ l.length then pure (l.take mid, l.drop mid) else panics

def sub (a b : Nat) : Panicking ε Nat := if b ≤ a then pure (a - b) else panics

/-- A fixed-size array made of a slice. -/
def toArray (l : List α) (size : Nat) : Panicking ε (List α) :=
  if l.length = size then pure l else panics

/-- `Vec::with_capacity`, where `grants` tells the numbers of elements there is memory for. A
refused allocation ends the process, and none is made for no elements. -/
def withCapacity (grants : Nat → Bool) (capacity : Nat) : Panicking ε Unit :=
  if capacity = 0 ∨ grants capacity = true then pure () else panics

/-- The computation `p` does not panic, ends as `x`, and its errors are from `Fault`. -/
structure Surfaces (Fault : ε → Prop) (p : Panicking ε α) (x : Except ε α) : Prop where
  outcome : p = (some x : Option (Except ε α))
  fault : ∀ err, x = .error err → Fault err

/-- `Result::ok`. -/
def ok (p : Panicking ε α) : Panicking ε (Option α) :=
  show Option (Except ε (Option α)) from Option.map (fun x : Except ε α => .ok x.toOption) p

namespace Surfaces

variable {Fault : ε → Prop} {p q : Panicking ε α} {x y : Except ε α}

theorem pure (a : α) : Surfaces Fault (pure a) (.ok a) := ⟨rfl, fun _ h => by cases h⟩

theorem throw {err : ε} (h : Fault err) : Surfaces Fault (throw err : Panicking ε α) (.error err) :=
  ⟨rfl, fun _ he => by cases he; exact h⟩

theorem bind {f : α → Panicking ε β} {g : α → Except ε β} (h : Surfaces Fault p x)
    (hf : ∀ a, x = .ok a → Surfaces Fault (f a) (g a)) :
    Surfaces Fault (p >>= f) (x >>= g) := by
  obtain ⟨rfl, hfault⟩ := h
  cases x with
  | error err => exact ⟨rfl, fun _ he => hfault _ (by cases he; rfl)⟩
  | ok a => exact ⟨(hf a rfl).outcome, (hf a rfl).fault⟩

theorem step {f : α → Panicking ε β} {a : α} {y : Except ε β} (h : Surfaces Fault p (.ok a))
    (hf : Surfaces Fault (f a) y) : Surfaces Fault (p >>= f) y := by
  obtain ⟨rfl, -⟩ := h
  exact ⟨hf.outcome, hf.fault⟩

theorem ite {c : Prop} [Decidable c] (hp : c → Surfaces Fault p x)
    (hq : ¬ c → Surfaces Fault q y) :
    Surfaces Fault (if c then p else q) (if c then x else y) := by
  by_cases h : c
  · rw [if_pos h, if_pos h]
    exact hp h
  · rw [if_neg h, if_neg h]
    exact hq h

theorem ok (h : Surfaces Fault p x) : Surfaces Fault (Panicking.ok p) (.ok x.toOption) := by
  obtain ⟨rfl, -⟩ := h
  exact pure _

theorem slice {l : List α} {start stop : Nat} (h : start ≤ stop) (h' : stop ≤ l.length) :
    Surfaces Fault (Panicking.slice l start stop) (.ok ((l.take stop).drop start)) := by
  rw [Panicking.slice, if_pos ⟨h, h'⟩]
  exact pure _

theorem splitAt {l : List α} {mid : Nat} (h : mid ≤ l.length) :
    Surfaces Fault (Panicking.splitAt l mid) (.ok (l.take mid, l.drop mid)) := by
  rw [Panicking.splitAt, if_pos h]
  exact pure _

theorem sub {a b : Nat} (h : b ≤ a) : Surfaces Fault (Panicking.sub a b) (.ok (a - b)) := by
  rw [Panicking.sub, if_pos h]
  exact pure _

theorem toArray {l : List α} {size : Nat} (h : l.length = size) :
    Surfaces Fault (Panicking.toArray l size) (.ok l) := by
  rw [Panicking.toArray, if_pos h]
  exact pure _

theorem withCapacity {grants : Nat → Bool} {capacity : Nat}
    (h : capacity = 0 ∨ grants capacity = true) :
    Surfaces Fault (Panicking.withCapacity grants capacity) (.ok ()) := by
  rw [Panicking.withCapacity, if_pos h]
  exact pure _

/-- A computation that surfaces went through its allocation. -/
theorem granted {grants : Nat → Bool} {capacity : Nat} {f : Unit → Panicking ε β}
    {y : Except ε β} (h : Surfaces Fault (Panicking.withCapacity grants capacity >>= f) y) :
    capacity = 0 ∨ grants capacity = true := by
  by_contra hrefused
  have houtcome := h.outcome
  rw [Panicking.withCapacity, if_neg hrefused] at houtcome
  cases houtcome

end Surfaces

end

end Panicking

end TyLsm
