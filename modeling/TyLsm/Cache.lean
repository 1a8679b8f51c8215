import Mathlib

/-! Maps of bounded size that drop an arbitrary entry to make room for another one. -/

namespace TyLsm

/-- A map that holds at most `maxEntries` entries. -/
structure Cache (κ β : Type) [BEq κ] [Hashable κ] where
  map : Std.HashMap κ β
  maxEntries : Nat

namespace Cache

variable {κ β : Type} [BEq κ] [LawfulBEq κ] [Hashable κ] [LawfulHashable κ]

def new (maxEntries : Nat) : Cache κ β := ⟨∅, maxEntries⟩

def get? (c : Cache κ β) (k : κ) : Option β := c.map[k]?

/-- `victim` chooses the entry that makes room, whatever is inserted. -/
def insert (c : Cache κ β) (victim : Nat) (k : κ) (v : β) : Cache κ β :=
  let map :=
    if c.maxEntries ≤ c.map.size then
      match c.map.keys[victim % c.map.size]? with
      | some key => c.map.erase key
      | none => c.map
    else c.map
  { c with map := map.insert k v }

@[simp] theorem get?_new (maxEntries : Nat) (k : κ) :
    (new maxEntries : Cache κ β).get? k = none := by
  simp [new, get?]

omit [LawfulBEq κ] [LawfulHashable κ] in
@[simp] theorem maxEntries_insert (c : Cache κ β) (victim : Nat) (k : κ) (v : β) :
    (c.insert victim k v).maxEntries = c.maxEntries := rfl

theorem get?_insert {c : Cache κ β} {victim : Nat} {k k' : κ} {v v' : β}
    (h : (c.insert victim k v).get? k' = some v') :
    k = k' ∧ v = v' ∨ c.get? k' = some v' := by
  simp only [insert, get?, Std.HashMap.getElem?_insert] at h
  by_cases hk : (k == k') = true
  · rw [if_pos hk] at h
    exact .inl ⟨eq_of_beq hk, Option.some.inj h⟩
  · right
    rw [if_neg hk] at h
    split at h
    · split at h
      · rw [Std.HashMap.getElem?_erase] at h
        split at h
        · cases h
        · exact h
      · exact h
    · exact h

theorem size_insert_le {c : Cache κ β} (h : c.map.size ≤ c.maxEntries) (hpos : 0 < c.maxEntries)
    (victim : Nat) (k : κ) (v : β) :
    (c.insert victim k v).map.size ≤ (c.insert victim k v).maxEntries := by
  have hroom : (if c.maxEntries ≤ c.map.size then
      match c.map.keys[victim % c.map.size]? with
      | some key => c.map.erase key
      | none => c.map
      else c.map).size < c.maxEntries := by
    by_cases hfull : c.maxEntries ≤ c.map.size
    · have hlt : victim % c.map.size < c.map.keys.length := by
        rw [Std.HashMap.length_keys]
        exact Nat.mod_lt _ (by omega)
      rw [if_pos hfull, List.getElem?_eq_getElem hlt]
      have hmem : c.map.keys[victim % c.map.size] ∈ c.map :=
        Std.HashMap.mem_keys.mp (List.getElem_mem hlt)
      dsimp only
      rw [Std.HashMap.size_erase, if_pos hmem]
      omega
    · rw [if_neg hfull]
      omega
  rw [maxEntries_insert]
  refine (Std.HashMap.size_insert_le).trans ?_
  omega

end Cache

end TyLsm
