import TyLsm.Cached

/-! Reading through the caches. As long as every cached block and table is the one in the
file of its number, a read answers as one that reads every block from its file. -/

namespace TyLsm

theorem handleOffset_succ (storedLen : List Entry → Nat) {index : List IndexEntry} {i : Nat}
    {entry : IndexEntry} (h : index[i]? = some entry) :
    handleOffset storedLen index (i + 1) =
      handleOffset storedLen index i + (storedLen entry.block + blockTrailerSize) := by
  rw [handleOffset, handleOffset, List.take_add_one, h]
  simp

theorem handleOffset_lt (storedLen : List Entry → Nat) {index : List IndexEntry} {i j : Nat}
    (hij : i < j) (hj : j ≤ index.length) :
    handleOffset storedLen index i < handleOffset storedLen index j := by
  induction j with
  | zero => omega
  | succ j ih =>
    have hstep := handleOffset_succ storedLen (List.getElem?_eq_getElem (by omega : j < index.length))
    have htrailer : 0 < blockTrailerSize := by decide
    by_cases h : i = j
    · subst h
      omega
    · have := ih (by omega) (by omega)
      omega

theorem Table.blockAt_handleOffset (storedLen : List Entry → Nat) {file : Table} {i : Nat}
    {entry : IndexEntry} (h : file.index[i]? = some entry) :
    file.blockAt storedLen (handleOffset storedLen file.index i) = some entry.block := by
  obtain ⟨hlt, -⟩ := List.getElem?_eq_some_iff.mp h
  have hfind : (List.range file.index.length).find? (fun j =>
      handleOffset storedLen file.index j == handleOffset storedLen file.index i) = some i := by
    cases hf : (List.range file.index.length).find? (fun j =>
        handleOffset storedLen file.index j == handleOffset storedLen file.index i) with
    | none =>
      have := List.find?_eq_none.mp hf i (List.mem_range.mpr hlt)
      simp at this
    | some j =>
      have hj := List.mem_range.mp (List.mem_of_find?_eq_some hf)
      have heq : handleOffset storedLen file.index j = handleOffset storedLen file.index i :=
        eq_of_beq (List.find?_some (p := fun j =>
          handleOffset storedLen file.index j == handleOffset storedLen file.index i) hf)
      by_cases hji : j < i
      · have := handleOffset_lt storedLen hji hlt.le
        omega
      · by_cases hij : i < j
        · have := handleOffset_lt storedLen hij hj.le
          omega
        · exact congrArg some (by omega)
  rw [blockAt, hfind]
  simp [h]

namespace CachedDB

/-- Every cached block and table has a number in `K` and, while the file of this number is
there, is what is in the file. There are at most `m` blocks. -/
structure Coherent (m : Nat) (K : Nat → Prop) (s : CachedDB) : Prop where
  tables : ∀ n table, s.caches.tables.get? n = some table →
    K n ∧ ∀ file, s.db.disk.tables n = some file → file = table
  blocks : ∀ n offset block, s.caches.blocks.get? (n, offset) = some block →
    K n ∧ ∀ file, s.db.disk.tables n = some file →
      file.blockAt s.caches.storedLen offset = some block
  tableCount : s.caches.tables.map.size ≤ s.caches.tables.maxEntries
  tableRoom : 0 < s.caches.tables.maxEntries
  blockLimit : s.caches.blocks.maxEntries = m
  blockCount : s.caches.blocks.map.size ≤ m
  blockRoom : 0 < m

namespace Coherent

variable {m : Nat} {K K' : Nat → Prop} {s : CachedDB}

theorem mono (h : Coherent m K s) (hK : ∀ n, K n → K' n) : Coherent m K' s :=
  { h with
    tables := fun n table hn => ⟨hK n (h.tables n table hn).1, (h.tables n table hn).2⟩
    blocks := fun n offset block hn =>
      ⟨hK n (h.blocks n offset block hn).1, (h.blocks n offset block hn).2⟩ }

theorem withDB (h : Coherent m K s) {db : DB} (hdisk : ∀ n, K n →
    db.disk.tables n = s.db.disk.tables n ∨ db.disk.tables n = none) :
    Coherent m K { s with db := db } := by
  have hfile : ∀ n, K n → ∀ file, db.disk.tables n = some file →
      s.db.disk.tables n = some file := by
    intro n hn file hfile
    rcases hdisk n hn with hsame | hnone
    · rwa [← hsame]
    · rw [hnone] at hfile
      cases hfile
  exact { h with
    tables := fun n table hn => ⟨(h.tables n table hn).1, fun file hf =>
      (h.tables n table hn).2 file (hfile n (h.tables n table hn).1 file hf)⟩
    blocks := fun n offset block hn => ⟨(h.blocks n offset block hn).1, fun file hf =>
      (h.blocks n offset block hn).2 file (hfile n (h.blocks n offset block hn).1 file hf)⟩ }

theorem withBlock (h : Coherent m K s) {n offset : Nat} {block : List Entry} (hn : K n)
    (hfile : ∀ file, s.db.disk.tables n = some file →
      file.blockAt s.caches.storedLen offset = some block) :
    Coherent m K { s with caches := s.caches.withBlock n offset block } := by
  have hcount := Cache.size_insert_le (h.blockLimit ▸ h.blockCount) (h.blockLimit ▸ h.blockRoom)
    (s.caches.victims 0) (n, offset) block
  rw [Cache.maxEntries_insert, h.blockLimit] at hcount
  refine ⟨h.tables, ?_, h.tableCount, h.tableRoom, h.blockLimit, hcount, h.blockRoom⟩
  intro n' offset' block' hget
  rcases Cache.get?_insert hget with ⟨hkey, rfl⟩ | hold
  · obtain ⟨rfl, rfl⟩ := Prod.mk.injEq .. ▸ hkey
    exact ⟨hn, hfile⟩
  · exact h.blocks n' offset' block' hold

theorem withTable (h : Coherent m K s) {n : Nat} {table : Table} (hn : K n)
    (hfile : ∀ file, s.db.disk.tables n = some file → file = table) :
    Coherent m K { s with caches := s.caches.withTable n table } := by
  refine ⟨?_, h.blocks, Cache.size_insert_le h.tableCount h.tableRoom _ _ _, h.tableRoom,
    h.blockLimit, h.blockCount, h.blockRoom⟩
  intro n' table' hget
  rcases Cache.get?_insert hget with ⟨rfl, rfl⟩ | hold
  · exact ⟨hn, hfile⟩
  · exact h.tables n' table' hold

end Coherent

/-- The caches may be anything coherent with the database `db`. -/
def At (m : Nat) (K : Nat → Prop) (db : DB) (s : CachedDB) : Prop := s.db = db ∧ Coherent m K s

/-- The readers are those of files on disk with numbers in `K`. -/
def Held (K : Nat → Prop) (db : DB) (refs : List TableRef) : Prop :=
  ∀ ref ∈ refs, db.disk.tables ref.1.number = some ref.2 ∧ K ref.1.number

variable {m : Nat} {K : Nat → Prop} {db : DB}

theorem Held.tail {ref : TableRef} {refs : List TableRef} (h : Held K db (ref :: refs)) :
    Held K db refs := fun r hr => h r (List.mem_cons_of_mem _ hr)

theorem gives_ofExcept {α : Type} (r : Except Error α) :
    Gives (At m K db) (direct (ofExcept r)) r := by
  intro s hs
  refine ⟨s, hs, ?_⟩
  cases r <;> rfl

theorem gives_openReadable (n : Nat) :
    Gives (At m K db) (openReadable n) (db.disk.openTable n) :=
  Gives.get_bind fun s hs => by
    rw [hs.1]
    exact gives_ofExcept _

theorem run_direct_ok {α : Type} {x : DBM α} {s : CachedDB} {a : α} {db' : DB}
    (h : x s.db = .ok a db') : direct x s = .ok a { s with db := db' } := by
  rw [direct, h]

theorem run_readDecodedBlock_miss {s : CachedDB} {n offset : Nat} {file : Table} {fillCache : Bool}
    {block : List Entry} (hread : file.readBlock s.caches.storedLen offset = .ok block)
    (hmiss : (if fillCache then s.caches.blocks.get? (n, offset) else none) = none) :
    readDecodedBlock n file fillCache offset s = .ok block
      (if fillCache then { s with caches := s.caches.withBlock n offset block } else s) := by
  rw [readDecodedBlock, get_of_bind]
  simp only [hmiss, hread]
  rw [bind_of_ok (run_direct_ok (run_ofExcept_ok s.db block))]
  cases fillCache <;> rfl

theorem run_readDecodedBlock_hit {s : CachedDB} {n offset : Nat} {file : Table} {fillCache : Bool}
    {block : List Entry}
    (hhit : (if fillCache then s.caches.blocks.get? (n, offset) else none) = some block) :
    readDecodedBlock n file fillCache offset s = .ok block s := by
  rw [readDecodedBlock, get_of_bind]
  simp only [hhit]
  rfl

theorem loads_loadBlock {ref : TableRef} (hfile : db.disk.tables ref.1.number = some ref.2)
    (hn : K ref.1.number) (fillCache : Bool) :
    Loads (At m K db) (loadBlock ref ref.2 fillCache) ref.2.index := by
  intro i entry hi s hs
  obtain ⟨hdb, hc⟩ := hs
  have hat := Table.blockAt_handleOffset s.caches.storedLen hi
  have hread : ref.2.readBlock s.caches.storedLen (handleOffset s.caches.storedLen ref.2.index i) =
      .ok entry.block := by
    rw [Table.readBlock, hat]
  rw [loadBlock, get_of_bind]
  cases hget : (if fillCache then s.caches.blocks.get? (ref.1.number,
      handleOffset s.caches.storedLen ref.2.index i) else none) with
  | none =>
    refine ⟨_, ?_, run_readDecodedBlock_miss hread hget⟩
    by_cases hfill : fillCache = true
    · rw [if_pos hfill]
      refine ⟨hdb, hc.withBlock hn fun file hf => ?_⟩
      rw [hdb, hfile] at hf
      rw [← Option.some.inj hf]
      exact hat
    · rw [if_neg hfill]
      exact ⟨hdb, hc⟩
  | some block =>
    refine ⟨s, ⟨hdb, hc⟩, ?_⟩
    rw [run_readDecodedBlock_hit hget]
    have hfill : fillCache = true := by
      by_contra hno
      rw [if_neg hno] at hget
      cases hget
    rw [if_pos hfill] at hget
    have hsame := (hc.blocks _ _ block hget).2 ref.2 (by rw [hdb]; exact hfile)
    rw [hat] at hsame
    rw [Option.some.inj hsame]
    rfl

theorem openTable_eq {ref : TableRef} (hfile : db.disk.tables ref.1.number = some ref.2) :
    db.disk.openTable ref.1.number = .ok ref.2 := by
  rw [Disk.openTable, hfile]

theorem gives_open {ref : TableRef} (hfile : db.disk.tables ref.1.number = some ref.2) :
    Gives (At m K db) (openReadable ref.1.number) (.ok ref.2) := by
  rw [← openTable_eq hfile]
  exact gives_openReadable _

theorem gives_entriesWithCache {ref : TableRef}
    (hfile : db.disk.tables ref.1.number = some ref.2) (hn : K ref.1.number) (fillCache : Bool) :
    Gives (At m K db) (entriesWithCache ref fillCache) (.ok ref.2.entries) := by
  exact (gives_open hfile).bind_ok (gives_entriesLoop (loads_loadBlock hfile hn fillCache) 0 rfl)

theorem gives_searchTable {ref : TableRef} (hfile : db.disk.tables ref.1.number = some ref.2)
    (hn : K ref.1.number) (key : Bytes) (readSeq : Nat) (fillCache : Bool) :
    Gives (At m K db) (searchTable key readSeq fillCache ref)
      (TyLsm.searchTable db.disk key readSeq ref) := by
  rw [searchTable, TyLsm.searchTable]
  by_cases hmight : ref.2.mightContain key = true
  · rw [if_pos hmight, if_pos hmight, openTable_eq hfile]
    refine (gives_open hfile).bind_ok ?_
    change Gives _ _ (.ok (ref.2.get key readSeq))
    rw [Table.get, if_pos hmight]
    exact gives_getLoop (loads_loadBlock hfile hn fillCache) key readSeq 0 rfl
  · rw [if_neg hmight, if_neg hmight]
    exact Gives.pure none

theorem gives_searchL0 {refs : List TableRef} (h : Held K db refs) (key : Bytes) (readSeq : Nat)
    (fillCache : Bool) :
    Gives (At m K db) (searchL0 key readSeq fillCache refs)
      (TyLsm.searchL0 db.disk key readSeq refs) := by
  induction refs with
  | nil => exact Gives.pure none
  | cons ref refs ih =>
    obtain ⟨hfile, hn⟩ := h ref List.mem_cons_self
    rw [searchL0, TyLsm.searchL0]
    split
    · exact ih h.tail
    · refine (gives_searchTable hfile hn key readSeq fillCache).bind fun found => ?_
      cases found with
      | none => exact ih h.tail
      | some record => exact Gives.pure (some record)

theorem gives_searchLevels {levels : List (List TableRef)}
    (h : Held K db levels.flatten) (key : Bytes) (readSeq : Nat) (fillCache : Bool) :
    Gives (At m K db) (searchLevels key readSeq fillCache levels)
      (TyLsm.searchLevels db.disk key readSeq levels) := by
  induction levels with
  | nil => exact Gives.pure none
  | cons level levels ih =>
    have hrest : Held K db levels.flatten := fun ref href =>
      h ref (by rw [List.flatten_cons]; exact List.mem_append.mpr (.inr href))
    rw [searchLevels, TyLsm.searchLevels]
    cases hfind : level.find? (fun ref => fileOverlapsUserKey ref.1 key) with
    | none => exact ih hrest
    | some ref =>
      obtain ⟨hfile, hn⟩ := h ref (by
        rw [List.flatten_cons]
        exact List.mem_append.mpr (.inl (List.mem_of_find?_eq_some hfind)))
      refine (gives_searchTable hfile hn key readSeq fillCache).bind fun found => ?_
      cases found with
      | none => exact ih hrest
      | some record => exact Gives.pure (some record)

/-- The readers of the state are those of files on disk. -/
def TablesHeld (K : Nat → Prop) (db : DB) : Prop :=
  Held K db (db.state.l0Tables ++ db.state.levelTables.flatten)

theorem TablesHeld.l0 (h : TablesHeld K db) : Held K db db.state.l0Tables :=
  fun ref href => h ref (List.mem_append.mpr (.inl href))

theorem TablesHeld.levels (h : TablesHeld K db) : Held K db (db.state.levelTables.drop 1).flatten := by
  intro ref href
  obtain ⟨level, hlevel, hmem⟩ := List.mem_flatten.mp href
  exact h ref (List.mem_append.mpr (.inr
    (List.mem_flatten.mpr ⟨level, List.mem_of_mem_drop hlevel, hmem⟩)))

theorem gives_getOpt (h : TablesHeld K db) (key : Bytes) (snapshot : Option Nat)
    (fillCache : Bool) :
    Gives (At m K db) (getOpt key snapshot fillCache) (db.getOpt key snapshot) := by
  refine Gives.get_bind fun s hs => ?_
  rw [hs.1, DB.getOpt]
  by_cases hclosed : db.state.closed = true
  · rw [if_pos hclosed, if_pos hclosed]
    exact (Gives.throw Error.closed).bind_error
  · rw [if_neg hclosed, if_neg hclosed]
    dsimp only
    cases db.state.memtables.findSome?
        (fun memtable => memtable.get key (snapshot.getD db.state.lastSequence)) with
    | some record => exact Gives.pure record.intoVisibleValue
    | none =>
      refine (gives_searchL0 h.l0 key _ fillCache).bind fun found => ?_
      cases found with
      | some record => exact Gives.pure record.intoVisibleValue
      | none =>
        refine (gives_searchLevels h.levels key _ fillCache).bind fun found => ?_
        cases found with
        | some record => exact Gives.pure record.intoVisibleValue
        | none => exact Gives.pure none

theorem gives_storageIters {refs : List TableRef} (h : Held K db refs) (fillCache : Bool) :
    Gives (At m K db) (storageIters fillCache refs) (.ok (refs.map (fun ref =>
      (SSTableStorageIterator.new ref.2.index, loadBlock ref ref.2 fillCache)))) := by
  induction refs with
  | nil => exact Gives.pure []
  | cons ref refs ih =>
    obtain ⟨hfile, hn⟩ := h ref List.mem_cons_self
    rw [storageIters]
    exact (gives_open hfile).bind_ok ((SSTableStorageIterator.gives_newM
      (loads_loadBlock hfile hn fillCache)).bind_ok ((ih h.tail).bind_ok (Gives.pure _)))

theorem storageIters_eq_map {refs : List TableRef} (h : Held K db refs) :
    TyLsm.storageIters db.disk refs =
      .ok (refs.map (fun ref => SSTableStorageIterator.new ref.2.index)) := by
  induction refs with
  | nil => rfl
  | cons ref refs ih =>
    rw [TyLsm.storageIters, openTable_eq (h ref List.mem_cons_self).1, ih h.tail]
    rfl

/-- The children of a scan with the programs that load their blocks. -/
def children (db : DB) (fillCache : Bool) (refs : List TableRef) :
    List (ScanChild × (Nat → CachedM (List Entry))) :=
  (if db.state.memEntries.isEmpty then []
    else [(.inl (.new db.state.memEntries), fun _ => pure [])]) ++
  refs.map (fun ref => (.inr (SSTableStorageIterator.new ref.2.index), loadBlock ref ref.2 fillCache))

theorem children_fst (db : DB) (fillCache : Bool) (refs : List TableRef) :
    (children db fillCache refs).map Prod.fst =
      (if db.state.memEntries.isEmpty then [] else [Sum.inl (EntryIterator.new db.state.memEntries)]) ++
        (refs.map (fun ref => SSTableStorageIterator.new ref.2.index)).map Sum.inr := by
  rw [children, List.map_append, List.map_map, List.map_map]
  split <;> rfl

theorem loadsAll_children {refs : List TableRef} (h : Held K db refs) (fillCache : Bool) :
    LoadsAll (At m K db) (childLoads (children db fillCache refs))
      ((children db fillCache refs).map Prod.fst) := by
  intro i child hi
  rw [List.getElem?_map] at hi
  obtain ⟨pair, hpair, rfl⟩ := Option.map_eq_some_iff.mp hi
  rw [childLoads, List.getElem?_map, hpair]
  change Loads (At m K db) pair.2 pair.1.index
  rcases List.mem_append.mp (List.mem_of_getElem? hpair) with hc | hc
  · split at hc
    · cases hc
    · rw [List.mem_singleton.mp hc]
      intro i entry hi
      cases hi
  · obtain ⟨ref, href, rfl⟩ := List.mem_map.mp hc
    obtain ⟨hfile, hn⟩ := h ref href
    exact loads_loadBlock hfile hn fillCache

theorem gives_scanOpt (h : TablesHeld K db) (lower upper : Bound) (snapshot : Option Nat)
    (fillCache : Bool) :
    Gives (At m K db) (scanOpt lower upper snapshot fillCache) (db.scanOpt lower upper snapshot) := by
  refine Gives.get_bind fun s hs => ?_
  rw [hs.1, DB.scanOpt]
  by_cases hclosed : db.state.closed = true
  · rw [if_pos hclosed, if_pos hclosed]
    exact (Gives.throw Error.closed).bind_error
  · rw [if_neg hclosed, if_neg hclosed]
    dsimp only
    rw [storageIters_eq_map h]
    refine (gives_storageIters h fillCache).bind_ok ?_
    have hloads : LoadsAll (At m K db) (childLoads (children db fillCache
        (db.state.l0Tables ++ db.state.levelTables.flatten)))
        (MergeIterator.new ((children db fillCache
          (db.state.l0Tables ++ db.state.levelTables.flatten)).map Prod.fst)).children :=
      loadsAll_children h fillCache
    have hscan := DBIterator.gives_scan (db.state.memEntries.length +
      ((db.state.l0Tables ++ db.state.levelTables.flatten).flatMap
        (fun ref => ref.2.entries)).length + 1) hloads lower upper
      (snapshot.getD db.state.lastSequence)
    rw [List.map_map]
    change Gives _ _ (.ok _)
    rw [← children_fst db fillCache]
    exact hscan

theorem gives_anyTableEntryAfter {refs : List TableRef} (h : Held K db refs) (readSeq : Nat)
    (predicate : InternalKey → Bool) :
    Gives (At m K db) (anyTableEntryAfter readSeq predicate refs)
      (DB.anyTableEntryAfter db.disk readSeq predicate refs) := by
  induction refs with
  | nil => exact Gives.pure false
  | cons ref refs ih =>
    obtain ⟨hfile, hn⟩ := h ref List.mem_cons_self
    rw [anyTableEntryAfter, DB.anyTableEntryAfter]
    split
    · exact ih h.tail
    · rw [openTable_eq hfile]
      refine (gives_entriesWithCache hfile hn true).bind_ok ?_
      change Gives _ _ (if _ then _ else _)
      split
      · exact Gives.pure true
      · exact ih h.tail

theorem gives_anyEntryAfter (h : TablesHeld K db) (readSeq : Nat)
    (predicate : InternalKey → Bool) :
    Gives (At m K db) (anyEntryAfter readSeq predicate) (db.anyEntryAfter readSeq predicate) := by
  refine Gives.get_bind fun s hs => ?_
  rw [hs.1, DB.anyEntryAfter]
  dsimp only
  split
  · exact Gives.pure true
  · exact gives_anyTableEntryAfter h readSeq predicate

theorem gives_ensureKeysUnchanged (h : TablesHeld K db) (readSeq : Nat) (describe : String)
    (keys : List Bytes) :
    Gives (At m K db) (ensureKeysUnchanged readSeq describe keys)
      (db.ensureKeysUnchanged readSeq describe keys) := by
  induction keys with
  | nil => exact Gives.pure ()
  | cons key keys ih =>
    refine (gives_anyEntryAfter h readSeq _).bind fun changed => ?_
    cases changed with
    | true => exact (Gives.throw _).bind_error
    | false => exact ih

theorem gives_ensureRangesUnchanged (h : TablesHeld K db) (readSeq : Nat)
    (ranges : List ReadRange) :
    Gives (At m K db) (ensureRangesUnchanged readSeq ranges)
      (db.ensureRangesUnchanged readSeq ranges) := by
  induction ranges with
  | nil => exact Gives.pure ()
  | cons range ranges ih =>
    refine (gives_anyEntryAfter h readSeq _).bind fun changed => ?_
    cases changed with
    | true => exact (Gives.throw _).bind_error
    | false => exact ih

theorem gives_ensureNoTransactionConflicts (h : TablesHeld K db) (readSeq : Nat)
    (readKeys : List Bytes) (readRanges : List ReadRange) (writeKeys : List Bytes) :
    Gives (At m K db) (ensureNoTransactionConflicts readSeq readKeys readRanges writeKeys)
      (db.ensureNoTransactionConflicts readSeq readKeys readRanges writeKeys) :=
  (gives_ensureKeysUnchanged h readSeq "read" readKeys).bind fun _ =>
    (gives_ensureKeysUnchanged h readSeq "write" writeKeys).bind fun _ =>
      gives_ensureRangesUnchanged h readSeq readRanges

end CachedDB

end TyLsm
