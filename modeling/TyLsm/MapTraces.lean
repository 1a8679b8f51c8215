import TyLsm.OrderedMap

/-! Traces of operations on an ordered map, each with what it returned. A trace replays on
a map when its operations, run alone from that map, would return the same. -/

namespace TyLsm

namespace OrderedMap

section

variable {κ ν : Type*} [LinearOrder κ]

/-- Set the value of a key, or remove the key. -/
def update (m : OrderedMap κ ν) (key : κ) : Option ν → OrderedMap κ ν
  | some value => m.insert key value
  | none => m.erase key

@[simp] theorem get?_update (m : OrderedMap κ ν) (key k : κ) (value : Option ν) :
    (m.update key value).get? k = if key = k then value else m.get? k := by
  cases value with
  | some value => exact get?_insert m key k value
  | none => exact get?_erase m key k

theorem filter_congr {m m' : OrderedMap κ ν} {within : κ → Bool}
    (h : ∀ k, within k = true → m'.get? k = m.get? k) :
    m'.entries.filter (fun e => within e.1) = m.entries.filter (fun e => within e.1) := by
  apply entries_eq_of_mem_iff (m'.sorted.sublist List.filter_sublist)
    (m.sorted.sublist List.filter_sublist)
  intro p
  rw [List.mem_filter, List.mem_filter]
  apply and_congr_left
  intro hp
  rw [← get?_eq_some_iff, ← get?_eq_some_iff, h p.1 hp]

end

end OrderedMap

inductive TraceOp (κ ν ε : Type*) where
  | get (key : κ) (answer : Except ε (Option ν))
  | scan (within : κ → Bool) (answer : Except ε (List (κ × ν)))
  | update (key : κ) (value : Option ν)

section

variable {κ ν ε : Type*} [LinearOrder κ]

namespace TraceOp

/-- What the operation returned is what it returns on the map. -/
def AnswersAs (m : OrderedMap κ ν) : TraceOp κ ν ε → Prop
  | get key answer => answer = .ok (m.get? key)
  | scan within answer => answer = .ok (m.entries.filter (fun e => within e.1))
  | update _ _ => True

instance [DecidableEq ν] [DecidableEq ε] (m : OrderedMap κ ν) :
    DecidablePred (AnswersAs (ε := ε) m)
  | get key answer => inferInstanceAs (Decidable (answer = .ok (m.get? key)))
  | scan within answer =>
    inferInstanceAs (Decidable (answer = .ok (m.entries.filter (fun e => within e.1))))
  | update _ _ => isTrue trivial

def apply (m : OrderedMap κ ν) : TraceOp κ ν ε → OrderedMap κ ν
  | update key value => m.update key value
  | _ => m

/-- The keys whose values decide what the operation returns. -/
def Reads (k : κ) : TraceOp κ ν ε → Prop
  | get key _ => key = k
  | scan within _ => within k = true
  | update _ _ => False

def updated : TraceOp κ ν ε → List κ
  | update key _ => [key]
  | _ => []

theorem AnswersAs.congr {op : TraceOp κ ν ε} {m m' : OrderedMap κ ν} (h : op.AnswersAs m)
    (hm : ∀ k, op.Reads k → m'.get? k = m.get? k) : op.AnswersAs m' := by
  cases op with
  | get key answer => exact h.trans (by rw [hm key rfl])
  | scan within answer => exact h.trans (by rw [OrderedMap.filter_congr hm])
  | update key value => trivial

theorem get?_apply (op : TraceOp κ ν ε) {m m' : OrderedMap κ ν} {k : κ}
    (h : k ∉ op.updated → m'.get? k = m.get? k) :
    (op.apply m').get? k = (op.apply m).get? k := by
  cases op with
  | get key answer => exact h List.not_mem_nil
  | scan within answer => exact h List.not_mem_nil
  | update key value =>
    rw [apply, apply, OrderedMap.get?_update, OrderedMap.get?_update]
    by_cases hk : key = k
    · rw [if_pos hk, if_pos hk]
    · rw [if_neg hk, if_neg hk]
      exact h (by simpa [updated] using Ne.symm hk)

end TraceOp

/-- The map after a trace. -/
def effect (ops : List (TraceOp κ ν ε)) (m : OrderedMap κ ν) : OrderedMap κ ν :=
  ops.foldl TraceOp.apply m

/-- Run alone from the map, every operation would return what it did. -/
def Replays : List (TraceOp κ ν ε) → OrderedMap κ ν → Prop
  | [], _ => True
  | op :: ops, m => op.AnswersAs m ∧ Replays ops (op.apply m)

instance Replays.decidable [DecidableEq ν] [DecidableEq ε] :
    (ops : List (TraceOp κ ν ε)) → (m : OrderedMap κ ν) → Decidable (Replays ops m)
  | [], _ => isTrue trivial
  | op :: ops, m => @instDecidableAnd _ _ inferInstance (Replays.decidable ops (op.apply m))

def updatedKeys (ops : List (TraceOp κ ν ε)) : List κ := ops.flatMap TraceOp.updated

/-- The keys that a trace reads before it updates them. -/
def ReadsFirst (k : κ) : List (TraceOp κ ν ε) → Prop
  | [] => False
  | op :: ops => op.Reads k ∨ k ∉ op.updated ∧ ReadsFirst k ops

@[simp] theorem effect_nil (m : OrderedMap κ ν) : effect ([] : List (TraceOp κ ν ε)) m = m := rfl

theorem effect_append (l r : List (TraceOp κ ν ε)) (m : OrderedMap κ ν) :
    effect (l ++ r) m = effect r (effect l m) := List.foldl_append

theorem replays_append {l r : List (TraceOp κ ν ε)} {m : OrderedMap κ ν} :
    Replays (l ++ r) m ↔ Replays l m ∧ Replays r (effect l m) := by
  induction l generalizing m with
  | nil => simp [Replays]
  | cons op l ih => rw [List.cons_append, Replays, Replays, ih, and_assoc]; rfl

theorem readsFirst_append_singleton {ops : List (TraceOp κ ν ε)} {op : TraceOp κ ν ε} {k : κ} :
    ReadsFirst k (ops ++ [op]) ↔
      ReadsFirst k ops ∨ k ∉ updatedKeys ops ∧ op.Reads k := by
  induction ops with
  | nil => simp [ReadsFirst, updatedKeys]
  | cons o ops ih =>
    have hmem : k ∈ updatedKeys (o :: ops) ↔ k ∈ o.updated ∨ k ∈ updatedKeys ops := by
      simp [updatedKeys]
    rw [List.cons_append, ReadsFirst, ReadsFirst, ih, hmem]
    tauto

/-- A trace replays on every map with the same values at the keys that it reads first. -/
theorem Replays.frame {ops : List (TraceOp κ ν ε)} {m m' : OrderedMap κ ν} (h : Replays ops m)
    (hm : ∀ k, ReadsFirst k ops → m'.get? k = m.get? k) : Replays ops m' := by
  induction ops generalizing m m' with
  | nil => trivial
  | cons op ops ih =>
    refine ⟨h.1.congr fun k hk => hm k (.inl hk), ih h.2 fun k hk => ?_⟩
    exact op.get?_apply fun hno => hm k (.inr ⟨hno, hk⟩)

end

end TyLsm
