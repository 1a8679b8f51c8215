import TyLsm.Ranked
import TyLsm.OrderedMap

/-! Byte strings, internal keys and the records they carry. Machine integers
that only count (sequence numbers, sizes, file numbers) are natural numbers. -/

namespace TyLsm

abbrev Bytes := List UInt8

instance : LawfulBEq Bytes := inferInstance

instance instLinearOrderUInt8 : LinearOrder UInt8 where
  le_refl := UInt8.le_refl
  le_trans := @UInt8.le_trans
  lt_iff_le_not_ge a b := by simp only [UInt8.lt_iff_toNat_lt, UInt8.le_iff_toNat_le]; omega
  le_antisymm a b := UInt8.le_antisymm
  le_total := UInt8.le_total
  toDecidableLE := inferInstance
  toDecidableLT := inferInstance
  toDecidableEq := inferInstance

inductive ValueType where
  | put
  | delete
  deriving DecidableEq, Repr

def ValueType.toNat : ValueType → Nat
  | put => 1
  | delete => 2

structure InternalKey where
  userKey : Bytes
  sequence : Nat
  valueType : ValueType
  deriving DecidableEq, Repr

inductive ValueRecord where
  | put (value : Bytes)
  | delete
  deriving DecidableEq, Repr

def ValueRecord.intoVisibleValue : ValueRecord → Option Bytes
  | put value => some value
  | delete => none

def ValueRecord.valueType : ValueRecord → ValueType
  | put _ => .put
  | delete => .delete

abbrev Entry := InternalKey × ValueRecord

instance : LawfulBEq Entry := inferInstance

instance : Ranked Entry Bytes where
  key e := e.1.userKey
  rank e := e.1.sequence

@[simp] theorem entry_key (e : Entry) : Ranked.key e = e.1.userKey := rfl

@[simp] theorem entry_rank (e : Entry) : Ranked.rank e = e.1.sequence := rfl

namespace InternalKey

/-- The components in the order in which `Ord for InternalKey` compares them:
user key ascending, sequence descending, `Put` before `Delete`. -/
def position (k : InternalKey) : Bytes ×ₗ (ℕᵒᵈ ×ₗ ℕ) :=
  toLex (k.userKey, toLex (OrderDual.toDual k.sequence, k.valueType.toNat))

theorem position_injective : Function.Injective position := by
  rintro ⟨u, s, t⟩ ⟨u', s', t'⟩ h
  simp only [position, EmbeddingLike.apply_eq_iff_eq, Prod.mk.injEq] at h
  obtain ⟨rfl, rfl, ht⟩ := h
  cases t <;> cases t' <;> simp_all [ValueType.toNat]

instance : LinearOrder InternalKey := LinearOrder.lift' position position_injective

theorem lt_iff (a b : InternalKey) : a < b ↔ a.userKey < b.userKey ∨ a.userKey = b.userKey ∧
    (b.sequence < a.sequence ∨
      b.sequence = a.sequence ∧ a.valueType.toNat < b.valueType.toNat) := by
  change a.position < b.position ↔ _
  simp [position, Prod.Lex.lt_iff, eq_comm]

theorem userKey_le_of_lt {a b : InternalKey} (h : a < b) : a.userKey ≤ b.userKey := by
  rcases (lt_iff a b).mp h with h | ⟨h, _⟩
  · exact h.le
  · exact h.le

theorem userKey_le_of_le {a b : InternalKey} (h : a ≤ b) : a.userKey ≤ b.userKey := by
  rcases h.eq_or_lt with rfl | h
  · exact le_rfl
  · exact userKey_le_of_lt h

theorem sequence_le_of_lt {a b : InternalKey} (h : a < b) (hk : a.userKey = b.userKey) :
    b.sequence ≤ a.sequence := by
  rcases (lt_iff a b).mp h with h | ⟨_, h | ⟨h, _⟩⟩
  · exact absurd hk h.ne
  · exact h.le
  · exact h.le

/-- The key `(u, s, Put)` from which point lookups start precedes exactly the
keys of larger user keys and the keys of `u` visible at `s`. -/
theorem seek_le_iff (u : Bytes) (s : Nat) (k : InternalKey) :
    (⟨u, s, .put⟩ : InternalKey) ≤ k ↔ u < k.userKey ∨ u = k.userKey ∧ k.sequence ≤ s := by
  rw [← not_lt, lt_iff]
  have ht : ¬ k.valueType.toNat < ValueType.put.toNat := by cases k.valueType <;> decide
  simp only [ht, and_false, or_false, not_or, not_and, not_lt]
  constructor
  · rintro ⟨h, hs⟩
    rcases h.eq_or_lt with he | hlt
    · exact .inr ⟨he, hs he.symm⟩
    · exact .inl hlt
  · rintro (h | ⟨rfl, hs⟩)
    · exact ⟨h.le, fun he => absurd he h.ne'⟩
    · exact ⟨le_rfl, fun _ => hs⟩

end InternalKey

/-- Entries in strictly rising order of their internal keys. -/
def SortedEntries (l : List Entry) : Prop := l.Pairwise (fun a b => a.1 < b.1)

/-- The stable `sort_by` on internal keys used before merging and iterating. -/
def sortEntries (l : List Entry) : List Entry := l.insertionSort (fun a b => a.1 ≤ b.1)

theorem SortedEntries.newestFirst {l : List Entry} (h : SortedEntries l)
    (hu : ∀ a ∈ l, ∀ b ∈ l, a.1.userKey = b.1.userKey → a.1.sequence = b.1.sequence → a = b) :
    NewestFirst l := by
  refine List.Pairwise.imp_of_mem (fun {a b} ha hb hab hk => ?_) h
  rcases Nat.lt_or_eq_of_le (InternalKey.sequence_le_of_lt hab hk) with hlt | he
  · exact hlt
  · have := hu a ha b hb hk he.symm
    subst this
    exact absurd hab (lt_irrefl _)

/-- Range bounds on user keys. -/
inductive Bound where
  | included (key : Bytes)
  | excluded (key : Bytes)
  | unbounded
  deriving DecidableEq, Repr

def Bound.lowerOk : Bound → Bytes → Bool
  | included bound, key => decide (bound ≤ key)
  | excluded bound, key => decide (bound < key)
  | unbounded, _ => true

def Bound.upperOk : Bound → Bytes → Bool
  | included bound, key => decide (key ≤ bound)
  | excluded bound, key => decide (key < bound)
  | unbounded, _ => true

def withinBounds (key : Bytes) (lower upper : Bound) : Bool :=
  lower.lowerOk key && upper.upperOk key

end TyLsm
