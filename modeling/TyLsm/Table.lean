import TyLsm.Bloom

/-! SSTables: how the builder cuts entries into blocks and what the reader finds
in them. A table file is modelled by its decoded contents: an index entry holds
the block that reading at its handle yields. -/

namespace TyLsm

structure BlockBuilder where
  data : Bytes
  restarts : List Nat
  lastUserKey : Bytes
  entryCount : Nat
  restartInterval : Nat

def ValueRecord.bytes : ValueRecord → Bytes
  | put value => value
  | delete => []

def sharedPrefixLen (left right : Bytes) : Nat :=
  ((left.zip right).takeWhile (fun p => p.1 == p.2)).length

namespace BlockBuilder

def new (restartInterval : Nat) : BlockBuilder := ⟨[], [], [], 0, max restartInterval 1⟩

def add (b : BlockBuilder) (key : InternalKey) (value : ValueRecord) : BlockBuilder :=
  let restart : Bool := b.entryCount % b.restartInterval == 0
  let sharedLen := if restart then 0 else sharedPrefixLen b.lastUserKey key.userKey
  let unshared := key.userKey.drop sharedLen
  { b with
    data := b.data ++ putVarU32 (asU32 sharedLen) ++ putVarU32 (asU32 unshared.length) ++
      putVarU32 (asU32 value.bytes.length) ++ [UInt8.ofNat value.valueType.toNat] ++
      putVarU64 key.sequence ++ unshared ++ value.bytes
    restarts := if restart then b.restarts ++ [asU32 b.data.length] else b.restarts
    lastUserKey := key.userKey
    entryCount := b.entryCount + 1 }

def isEmpty (b : BlockBuilder) : Bool := b.entryCount == 0

def approximateSize (b : BlockBuilder) : Nat := b.data.length + b.restarts.length * 4 + 4

@[simp] theorem isEmpty_new (n : Nat) : (new n).isEmpty = true := rfl

@[simp] theorem isEmpty_add (b : BlockBuilder) (key : InternalKey) (value : ValueRecord) :
    (b.add key value).isEmpty = false := rfl

end BlockBuilder

structure IndexEntry where
  firstKey : InternalKey
  lastKey : InternalKey
  block : List Entry
  deriving DecidableEq, Repr

structure TableProperties where
  numEntries : Nat
  smallestKey : Option InternalKey
  largestKey : Option InternalKey
  filter : Option BloomFilter
  deriving DecidableEq, Repr

structure Table where
  index : List IndexEntry
  properties : TableProperties
  deriving DecidableEq, Repr

structure SSTableBuilder where
  blockSize : Nat
  currentBlock : BlockBuilder
  /-- What the bytes of `currentBlock` decode to. -/
  currentEntries : List Entry
  currentBlockFirstKey : Option InternalKey
  indexEntries : List IndexEntry
  smallestKey : Option InternalKey
  largestKey : Option InternalKey
  filterKeys : List Bytes
  numEntries : Nat

namespace SSTableBuilder

def create (blockSize : Nat) : SSTableBuilder where
  blockSize := max blockSize 1
  currentBlock := .new 16
  currentEntries := []
  currentBlockFirstKey := none
  indexEntries := []
  smallestKey := none
  largestKey := none
  filterKeys := []
  numEntries := 0

/-- An entry as a block stores it: the type byte is that of the record. -/
def blockEntry (key : InternalKey) (value : ValueRecord) : Entry :=
  (⟨key.userKey, key.sequence, value.valueType⟩, value)

def flushCurrentBlock (b : SSTableBuilder) : SSTableBuilder :=
  if b.currentBlock.isEmpty then b
  else
    match b.currentBlockFirstKey, b.largestKey with
    | some firstKey, some lastKey =>
      { b with
        indexEntries := b.indexEntries ++ [⟨firstKey, lastKey, b.currentEntries⟩]
        currentBlock := .new 16
        currentEntries := []
        currentBlockFirstKey := none }
    | _, _ => b

def add (b : SSTableBuilder) (key : InternalKey) (value : ValueRecord) : SSTableBuilder :=
  let b :=
    { b with
      currentBlockFirstKey := b.currentBlockFirstKey.or (some key)
      smallestKey := b.smallestKey.or (some key)
      largestKey := some key
      filterKeys := b.filterKeys ++ [key.userKey]
      currentBlock := b.currentBlock.add key value
      currentEntries := b.currentEntries ++ [blockEntry key value]
      numEntries := b.numEntries + 1 }
  if b.blockSize ≤ b.currentBlock.approximateSize then b.flushCurrentBlock else b

def finish (b : SSTableBuilder) : Table :=
  let b := b.flushCurrentBlock
  ⟨b.indexEntries, ⟨b.numEntries, b.smallestKey, b.largestKey, buildBloomFilter b.filterKeys⟩⟩

end SSTableBuilder

/-- Create a builder, add the entries in order and finish. -/
def buildTable (blockSize : Nat) (entries : List Entry) : Table :=
  (entries.foldl (fun b e => b.add e.1 e.2) (SSTableBuilder.create blockSize)).finish

def indexMayContainUserKey (index : IndexEntry) (userKey : Bytes) : Bool :=
  decide (index.firstKey.userKey ≤ userKey) && decide (userKey ≤ index.lastKey.userKey)

namespace Table

def entries (t : Table) : List Entry := t.index.flatMap IndexEntry.block

def mightContain (t : Table) (userKey : Bytes) : Bool := mayContain t.properties.filter userKey

/-- `get_with_cache` on an open file: scan every block whose range admits the key. -/
def get (t : Table) (userKey : Bytes) (readSeq : Nat) : Option ValueRecord :=
  if t.mightContain userKey then
    (t.index.findSome? (fun index =>
      if indexMayContainUserKey index userKey then newest userKey readSeq index.block
      else none)).map Prod.snd
  else none

end Table

/-- An entry whose key carries the type of its record. -/
def Matched (e : Entry) : Prop := e.1.valueType = e.2.valueType

/-- A block is not empty and its index entry records its first and last key. -/
structure IndexEntry.Ok (i : IndexEntry) : Prop where
  head : ∃ e, i.block.head? = some e ∧ e.1 = i.firstKey
  last : ∃ e, i.block.getLast? = some e ∧ e.1 = i.lastKey

/-- What holds of every table written from a non-empty sorted list of entries. -/
structure Table.WellFormed (t : Table) : Prop where
  sorted : SortedEntries t.entries
  matched : ∀ e ∈ t.entries, Matched e
  indexOk : ∀ i ∈ t.index, i.Ok
  smallest : ∃ e, t.entries.head? = some e ∧ t.properties.smallestKey = some e.1
  largest : ∃ e, t.entries.getLast? = some e ∧ t.properties.largestKey = some e.1
  filter : ∀ e ∈ t.entries, t.mightContain e.1.userKey = true

/-- The state of a builder after the entries `es`. -/
structure SSTableBuilder.Holds (b : SSTableBuilder) (es : List Entry) : Prop where
  entries : b.indexEntries.flatMap IndexEntry.block ++ b.currentEntries = es
  indexOk : ∀ i ∈ b.indexEntries, i.Ok
  empty : b.currentBlock.isEmpty = true ↔ b.currentEntries = []
  firstKey : b.currentBlockFirstKey = b.currentEntries.head?.map Prod.fst
  smallest : b.smallestKey = es.head?.map Prod.fst
  largest : b.largestKey = es.getLast?.map Prod.fst
  filterKeys : b.filterKeys = es.map (fun e => e.1.userKey)

namespace SSTableBuilder

theorem holds_create (blockSize : Nat) : (create blockSize).Holds [] := by
  constructor <;> simp [create]

theorem Holds.flushCurrentBlock {b : SSTableBuilder} {es : List Entry} (h : b.Holds es) :
    b.flushCurrentBlock.Holds es ∧ b.flushCurrentBlock.currentEntries = [] := by
  by_cases hb : b.currentBlock.isEmpty = true
  · have hf : b.flushCurrentBlock = b := by simp [SSTableBuilder.flushCurrentBlock, hb]
    rw [hf]
    exact ⟨h, h.empty.mp hb⟩
  · have hne : b.currentEntries ≠ [] := fun he => hb (h.empty.mpr he)
    obtain ⟨first, rest, hcur⟩ := List.exists_cons_of_ne_nil hne
    obtain ⟨last, hlast⟩ : ∃ e, b.currentEntries.getLast? = some e :=
      ⟨_, List.getLast?_eq_some_getLast hne⟩
    have hfirstKey : b.currentBlockFirstKey = some first.1 := by simp [h.firstKey, hcur]
    have hlargest : b.largestKey = some last.1 := by
      rw [h.largest, ← h.entries, List.getLast?_append, hlast]
      rfl
    have hf : b.flushCurrentBlock =
        { b with
          indexEntries := b.indexEntries ++ [⟨first.1, last.1, b.currentEntries⟩]
          currentBlock := .new 16
          currentEntries := []
          currentBlockFirstKey := none } := by
      simp [SSTableBuilder.flushCurrentBlock, hb, hfirstKey, hlargest]
    rw [hf]
    refine ⟨?_, rfl⟩
    constructor
    · simpa using h.entries
    · intro i hi
      rcases List.mem_append.mp hi with hi | hi
      · exact h.indexOk i hi
      · rw [List.mem_singleton.mp hi]
        exact ⟨⟨first, by simp [hcur], rfl⟩, ⟨last, hlast, rfl⟩⟩
    · simp
    · simp
    · exact h.smallest
    · exact h.largest
    · exact h.filterKeys

theorem Holds.add {b : SSTableBuilder} {es : List Entry} (h : b.Holds es) {e : Entry}
    (he : Matched e) : (b.add e.1 e.2).Holds (es ++ [e]) := by
  have hentry : blockEntry e.1 e.2 = e := by
    obtain ⟨⟨u, s, t⟩, v⟩ := e
    simp only [blockEntry, ← show t = v.valueType from he]
  have hadded : ({ b with
      currentBlockFirstKey := b.currentBlockFirstKey.or (some e.1)
      smallestKey := b.smallestKey.or (some e.1)
      largestKey := some e.1
      filterKeys := b.filterKeys ++ [e.1.userKey]
      currentBlock := b.currentBlock.add e.1 e.2
      currentEntries := b.currentEntries ++ [blockEntry e.1 e.2]
      numEntries := b.numEntries + 1 } : SSTableBuilder).Holds (es ++ [e]) := by
    rw [hentry]
    constructor
    · simp [← h.entries]
    · exact h.indexOk
    · simp
    · rw [h.firstKey]
      cases b.currentEntries <;> rfl
    · rw [h.smallest]
      cases es <;> rfl
    · simp
    · simp [h.filterKeys]
  simp only [SSTableBuilder.add]
  split
  · exact hadded.flushCurrentBlock.1
  · exact hadded

theorem holds_foldl {es : List Entry} {b : SSTableBuilder} {before : List Entry}
    (h : b.Holds before) (hes : ∀ e ∈ es, Matched e) :
    (es.foldl (fun b e => b.add e.1 e.2) b).Holds (before ++ es) := by
  induction es generalizing b before with
  | nil => simpa using h
  | cons e es ih =>
    simpa using ih (h.add (hes e (by simp))) (fun x hx => hes x (by simp [hx]))

end SSTableBuilder

theorem entries_buildTable {blockSize : Nat} {es : List Entry} (hes : ∀ e ∈ es, Matched e) :
    (buildTable blockSize es).entries = es := by
  have h := (SSTableBuilder.holds_foldl (SSTableBuilder.holds_create blockSize) hes).flushCurrentBlock
  simpa [h.2, buildTable, SSTableBuilder.finish, Table.entries] using h.1.entries

theorem wellFormed_buildTable (blockSize : Nat) {es : List Entry} (hne : es ≠ [])
    (hs : SortedEntries es) (hes : ∀ e ∈ es, Matched e) :
    (buildTable blockSize es).WellFormed := by
  have hent : (buildTable blockSize es).entries = es := entries_buildTable hes
  have h := (SSTableBuilder.holds_foldl (SSTableBuilder.holds_create blockSize) hes).flushCurrentBlock.1
  simp only [List.nil_append] at h
  obtain ⟨first, rest, rfl⟩ := List.exists_cons_of_ne_nil hne
  refine ⟨by rw [hent]; exact hs, by rw [hent]; exact hes, h.indexOk, ⟨first, by rw [hent]; rfl, ?_⟩,
    ⟨_, by rw [hent]; exact List.getLast?_eq_some_getLast hne, ?_⟩, ?_⟩
  · exact h.smallest
  · exact h.largest.trans (by rw [List.getLast?_eq_some_getLast hne]; rfl)
  · intro e he
    rw [hent] at he
    refine mayContain_build ?_
    rw [h.filterKeys]
    exact List.mem_map.mpr ⟨e, he, rfl⟩

namespace Table.WellFormed

variable {t : Table}

theorem entries_ne_nil (h : t.WellFormed) : t.entries ≠ [] := by
  obtain ⟨e, he, _⟩ := h.smallest
  rintro hnil
  simp [hnil] at he

theorem get_eq_newest (h : t.WellFormed) (userKey : Bytes) (readSeq : Nat) :
    t.get userKey readSeq = (newest userKey readSeq t.entries).map Prod.snd := by
  have hblocks : ∀ i ∈ t.index, (if indexMayContainUserKey i userKey then
      newest userKey readSeq i.block else none) = newest userKey readSeq i.block := by
    intro i hi
    split
    · rfl
    · rename_i hno
      refine (newest_eq_none_iff.mpr fun e he hk => absurd ?_ hno).symm
      have hsorted : SortedEntries i.block :=
        (List.pairwise_flatMap.mp h.sorted).1 i hi
      obtain ⟨⟨first, hfirst, hf⟩, ⟨last, hlast, hl⟩⟩ := h.indexOk i hi
      obtain ⟨tail, htail⟩ : ∃ tail, i.block = first :: tail := by
        cases hb : i.block with
        | nil => simp [hb] at hfirst
        | cons a tail =>
          have : a = first := by simpa [hb] using hfirst
          exact ⟨tail, by rw [this]⟩
      obtain ⟨init, hinit⟩ := List.getLast?_eq_some_iff.mp hlast
      have hge : first.1.userKey ≤ e.1.userKey := by
        rw [htail] at he hsorted
        rcases List.mem_cons.mp he with rfl | he
        · exact le_rfl
        · exact InternalKey.userKey_le_of_lt ((List.pairwise_cons.mp hsorted).1 e he)
      have hle : e.1.userKey ≤ last.1.userKey := by
        rw [hinit] at he hsorted
        rcases List.mem_append.mp he with he | he
        · exact InternalKey.userKey_le_of_lt
            ((List.pairwise_append.mp hsorted).2.2 e he last (by simp))
        · rw [List.mem_singleton.mp he]
      simp only [indexMayContainUserKey, Bool.and_eq_true, decide_eq_true_eq, ← hf, ← hl, ← hk]
      exact ⟨hge, hle⟩
  have hindex : t.index.findSome? (fun i => if indexMayContainUserKey i userKey then
      newest userKey readSeq i.block else none) = newest userKey readSeq t.entries := by
    rw [show newest userKey readSeq t.entries = t.index.findSome? (fun i =>
      newest userKey readSeq i.block) from List.find?_flatMap]
    exact findSome?_congr hblocks
  rw [get, hindex]
  split
  · rfl
  · rename_i hno
    cases hn : newest userKey readSeq t.entries with
    | none => rfl
    | some e => exact absurd ((newest_key hn).1 ▸ h.filter e (newest_mem hn)) hno

theorem smallest_le (h : t.WellFormed) {k : InternalKey} (hk : t.properties.smallestKey = some k)
    {e : Entry} (he : e ∈ t.entries) : k ≤ e.1 := by
  obtain ⟨first, hfirst, hs⟩ := h.smallest
  have hkey : first.1 = k := Option.some.inj (hs.symm.trans hk)
  cases hent : t.entries with
  | nil => exact absurd hent h.entries_ne_nil
  | cons a tail =>
    have ha : a = first := by simpa [hent] using hfirst
    have hsorted := h.sorted
    rw [hent] at he hsorted
    subst ha hkey
    rcases List.mem_cons.mp he with rfl | he
    · exact le_rfl
    · exact ((List.pairwise_cons.mp hsorted).1 e he).le

theorem le_largest (h : t.WellFormed) {k : InternalKey} (hk : t.properties.largestKey = some k)
    {e : Entry} (he : e ∈ t.entries) : e.1 ≤ k := by
  obtain ⟨last, hlast, hl⟩ := h.largest
  have hkey : last.1 = k := Option.some.inj (hl.symm.trans hk)
  obtain ⟨init, hinit⟩ := List.getLast?_eq_some_iff.mp hlast
  have hsorted := h.sorted
  rw [hinit] at he hsorted
  subst hkey
  rcases List.mem_append.mp he with he | he
  · exact ((List.pairwise_append.mp hsorted).2.2 e he last (by simp)).le
  · rw [List.mem_singleton.mp he]

end Table.WellFormed

end TyLsm
