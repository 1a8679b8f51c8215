import TyLsm.Key

/-! The two memtable kinds. Both keep an ordered map from internal keys to
records; they differ in how they account for their size. -/

namespace TyLsm

inductive MemTableKind where
  | bTree
  | skipList
  deriving DecidableEq, Repr

/-- `size_of::<InternalKey>()` on a 64-bit target. -/
def sizeOfInternalKey : Nat := 40

structure BTreeMemTable where
  map : OrderedMap InternalKey ValueRecord
  approximateSize : Nat

/-- The skip list copies keys and values into an arena that counts their bytes. -/
structure SkipListMemTable where
  map : OrderedMap InternalKey ValueRecord
  arenaBytes : Nat

inductive MemTable where
  | bTree (table : BTreeMemTable)
  | skipList (table : SkipListMemTable)

def BTreeMemTable.put (t : BTreeMemTable) (seq : Nat) (key value : Bytes) : BTreeMemTable where
  map := t.map.insert ⟨key, seq, .put⟩ (.put value)
  approximateSize := t.approximateSize + (key.length + value.length + sizeOfInternalKey)

def BTreeMemTable.delete (t : BTreeMemTable) (seq : Nat) (key : Bytes) : BTreeMemTable where
  map := t.map.insert ⟨key, seq, .delete⟩ .delete
  approximateSize := t.approximateSize + (key.length + sizeOfInternalKey)

def SkipListMemTable.put (t : SkipListMemTable) (seq : Nat) (key value : Bytes) :
    SkipListMemTable where
  map := t.map.insert ⟨key, seq, .put⟩ (.put value)
  arenaBytes := t.arenaBytes + key.length + value.length

def SkipListMemTable.delete (t : SkipListMemTable) (seq : Nat) (key : Bytes) :
    SkipListMemTable where
  map := t.map.insert ⟨key, seq, .delete⟩ .delete
  arenaBytes := t.arenaBytes + key.length

def SkipListMemTable.approximateSize (t : SkipListMemTable) : Nat :=
  t.arenaBytes + t.map.entries.length * sizeOfInternalKey

/-- The loop over `range(seek_key..)`: stop at the first larger user key. -/
def seekLoop (key : Bytes) : List Entry → Option ValueRecord
  | [] => none
  | (internalKey, value) :: rest =>
    if internalKey.userKey = key then some value
    else if key < internalKey.userKey then none
    else seekLoop key rest

def getFromMap (map : OrderedMap InternalKey ValueRecord) (key : Bytes) (readSeq : Nat) :
    Option ValueRecord :=
  seekLoop key (map.entries.filter (fun e => (⟨key, readSeq, .put⟩ : InternalKey) ≤ e.1))

namespace MemTable

def new : MemTableKind → MemTable
  | .bTree => .bTree ⟨.empty, 0⟩
  | .skipList => .skipList ⟨.empty, 0⟩

def map : MemTable → OrderedMap InternalKey ValueRecord
  | .bTree table => table.map
  | .skipList table => table.map

def put (m : MemTable) (seq : Nat) (key value : Bytes) : MemTable :=
  match m with
  | .bTree table => .bTree (table.put seq key value)
  | .skipList table => .skipList (table.put seq key value)

def delete (m : MemTable) (seq : Nat) (key : Bytes) : MemTable :=
  match m with
  | .bTree table => .bTree (table.delete seq key)
  | .skipList table => .skipList (table.delete seq key)

def get (m : MemTable) (key : Bytes) (readSeq : Nat) : Option ValueRecord :=
  getFromMap m.map key readSeq

def approximateSize : MemTable → Nat
  | .bTree table => table.approximateSize
  | .skipList table => table.approximateSize

def isEmpty (m : MemTable) : Bool := m.map.isEmpty

def entries (m : MemTable) : List Entry := m.map.entries

theorem map_put (m : MemTable) (seq : Nat) (key value : Bytes) :
    (m.put seq key value).map = m.map.insert ⟨key, seq, .put⟩ (.put value) := by
  cases m <;> rfl

theorem map_delete (m : MemTable) (seq : Nat) (key : Bytes) :
    (m.delete seq key).map = m.map.insert ⟨key, seq, .delete⟩ .delete := by
  cases m <;> rfl

theorem entries_sorted (m : MemTable) : SortedEntries m.entries := m.map.sorted

@[simp] theorem entries_new (kind : MemTableKind) : (new kind).entries = [] := by
  cases kind <;> rfl

theorem isEmpty_iff (m : MemTable) : m.isEmpty = true ↔ m.entries = [] := by
  simp [isEmpty, entries, OrderedMap.isEmpty]

theorem seekLoop_filter {l : List Entry} (h : SortedEntries l) (key : Bytes) (readSeq : Nat) :
    seekLoop key (l.filter (fun e => (⟨key, readSeq, .put⟩ : InternalKey) ≤ e.1)) =
      (newest key readSeq l).map Prod.snd := by
  induction l with
  | nil => rfl
  | cons e l ih =>
    obtain ⟨he, hl⟩ := List.pairwise_cons.mp h
    rcases lt_trichotomy e.1.userKey key with hlt | heq | hgt
    · have hno : ¬ (⟨key, readSeq, .put⟩ : InternalKey) ≤ e.1 := by
        rw [InternalKey.seek_le_iff]
        rintro (hh | ⟨hh, _⟩)
        · exact absurd hh hlt.asymm
        · exact hlt.ne hh.symm
      simpa [newest, hno, hlt.ne] using ih hl
    · by_cases hs : e.1.sequence ≤ readSeq
      · have hyes : (⟨key, readSeq, .put⟩ : InternalKey) ≤ e.1 :=
          (InternalKey.seek_le_iff _ _ _).mpr (.inr ⟨heq.symm, hs⟩)
        simp [newest, hyes, seekLoop, heq, hs]
      · have hno : ¬ (⟨key, readSeq, .put⟩ : InternalKey) ≤ e.1 := by
          rw [InternalKey.seek_le_iff]
          rintro (hh | ⟨_, hh⟩)
          · exact absurd heq hh.ne'
          · exact hs hh
        simpa [newest, hno, hs] using ih hl
    · -- the remaining keys are larger still, so nothing after this entry matches
      have hyes : (⟨key, readSeq, .put⟩ : InternalKey) ≤ e.1 :=
        (InternalKey.seek_le_iff _ _ _).mpr (.inl hgt)
      have hnone : newest key readSeq (e :: l) = none := by
        refine newest_eq_none_iff.mpr fun a ha hk => ?_
        rcases List.mem_cons.mp ha with rfl | ha
        · exact absurd hk hgt.ne'
        · exact absurd hk (hgt.trans_le (InternalKey.userKey_le_of_lt (he a ha))).ne'
      simp [hyes, seekLoop, hgt.ne', hgt, hnone]

theorem get_eq_newest (m : MemTable) (key : Bytes) (readSeq : Nat) :
    m.get key readSeq = (newest key readSeq m.entries).map Prod.snd :=
  seekLoop_filter m.entries_sorted key readSeq

end MemTable

end TyLsm
