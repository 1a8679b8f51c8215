import TyLsm.BlockLoads
import TyLsm.Cache
import TyLsm.Phases
import TyLsm.Transaction

/-! The block cache and the table cache, and the calls as they go through them. Which entry
a full cache drops is left open. -/

namespace TyLsm

/-- The bytes after a block: its compression and its checksum. -/
def blockTrailerSize : Nat := 5

/-- The offset of block `i`, when a block takes `storedLen` bytes in the file. -/
def handleOffset (storedLen : List Entry → Nat) (index : List IndexEntry) (i : Nat) : Nat :=
  ((index.take i).map (fun entry => storedLen entry.block + blockTrailerSize)).sum

namespace Table

/-- The block that begins at an offset of the file. -/
def blockAt (storedLen : List Entry → Nat) (file : Table) (offset : Nat) : Option (List Entry) :=
  ((List.range file.index.length).find?
    (fun i => handleOffset storedLen file.index i == offset)).bind
      (fun i => file.index[i]?.map IndexEntry.block)

/-- Where no block begins, the checksum is wrong. -/
def readBlock (storedLen : List Entry → Nat) (file : Table) (offset : Nat) :
    Except Error (List Entry) :=
  match file.blockAt storedLen offset with
  | some block => .ok block
  | none => .error (.corruption "SSTable block checksum mismatch")

end Table

structure Caches where
  blocks : Cache (Nat × Nat) (List Entry)
  tables : Cache Nat Table
  /-- The entries that the insertions to come will drop. -/
  victims : Nat → Nat
  storedLen : List Entry → Nat

def Caches.new (blockCacheCapacity : Nat) (victims : Nat → Nat) (storedLen : List Entry → Nat) :
    Caches :=
  ⟨.new (max (blockCacheCapacity / 4096) 1), .new (max 512 1), victims, storedLen⟩

namespace Caches

def withBlock (c : Caches) (tableNumber blockOffset : Nat) (block : List Entry) : Caches :=
  { c with
    blocks := c.blocks.insert (c.victims 0) (tableNumber, blockOffset) block
    victims := fun n => c.victims (n + 1) }

def withTable (c : Caches) (number : Nat) (table : Table) : Caches :=
  { c with
    tables := c.tables.insert (c.victims 0) number table
    victims := fun n => c.victims (n + 1) }

end Caches

structure CachedDB where
  db : DB
  caches : Caches

abbrev CachedM := EStateM Error CachedDB

/-- A program that does not go through the caches. -/
def direct {α : Type} (x : DBM α) : CachedM α := fun s =>
  match x s.db with
  | .ok a db => .ok a { s with db := db }
  | .error err db => .error err { s with db := db }

namespace CachedDB

def getOrOpen (number : Nat) : CachedM Table := do
  let s ← MonadState.get
  match s.caches.tables.get? number with
  | some table => return table
  | none =>
    let table ← direct (ofExcept (s.db.disk.openTable number))
    modify fun s => { s with caches := s.caches.withTable number table }
    return table

/-- `file` is open; without `fillCache` the cache is neither asked nor filled. -/
def readDecodedBlock (tableNumber : Nat) (file : Table) (fillCache : Bool) (blockOffset : Nat) :
    CachedM (List Entry) := do
  let s ← MonadState.get
  match if fillCache then s.caches.blocks.get? (tableNumber, blockOffset) else none with
  | some block => return block
  | none =>
    let block ← direct (ofExcept (file.readBlock s.caches.storedLen blockOffset))
    if fillCache then
      modify fun s => { s with caches := s.caches.withBlock tableNumber blockOffset block }
    return block

/-- Block `i` of a reader. -/
def loadBlock (ref : TableRef) (file : Table) (fillCache : Bool) (i : Nat) :
    CachedM (List Entry) := do
  let s ← MonadState.get
  readDecodedBlock ref.1.number file fillCache (handleOffset s.caches.storedLen ref.2.index i)

def openReadable (number : Nat) : CachedM Table := do
  let s ← MonadState.get
  direct (ofExcept (s.db.disk.openTable number))

def entriesWithCache (ref : TableRef) (fillCache : Bool) : CachedM (List Entry) := do
  let file ← openReadable ref.1.number
  entriesLoop (loadBlock ref file fillCache) 0 ref.2.index

/-- `might_contain` and `get_with_cache`. -/
def searchTable (key : Bytes) (readSeq : Nat) (fillCache : Bool) (ref : TableRef) :
    CachedM (Option ValueRecord) := do
  if ref.2.mightContain key then
    let file ← openReadable ref.1.number
    getLoop (loadBlock ref file fillCache) key readSeq 0 ref.2.index
  else return none

def searchL0 (key : Bytes) (readSeq : Nat) (fillCache : Bool) :
    List TableRef → CachedM (Option ValueRecord)
  | [] => pure none
  | ref :: refs => do
    if !fileOverlapsUserKey ref.1 key then searchL0 key readSeq fillCache refs
    else
      match ← searchTable key readSeq fillCache ref with
      | some record => return some record
      | none => searchL0 key readSeq fillCache refs

def searchLevels (key : Bytes) (readSeq : Nat) (fillCache : Bool) :
    List (List TableRef) → CachedM (Option ValueRecord)
  | [] => pure none
  | level :: levels => do
    match level.find? (fun ref => fileOverlapsUserKey ref.1 key) with
    | none => searchLevels key readSeq fillCache levels
    | some ref =>
      match ← searchTable key readSeq fillCache ref with
      | some record => return some record
      | none => searchLevels key readSeq fillCache levels

def getOpt (key : Bytes) (snapshot : Option Nat) (fillCache : Bool) : CachedM (Option Bytes) := do
  let s ← MonadState.get
  if s.db.state.closed then throw .closed
  let readSeq := snapshot.getD s.db.state.lastSequence
  match s.db.state.memtables.findSome? (fun memtable => memtable.get key readSeq) with
  | some record => return record.intoVisibleValue
  | none =>
    match ← searchL0 key readSeq fillCache s.db.state.l0Tables with
    | some record => return record.intoVisibleValue
    | none =>
      match ← searchLevels key readSeq fillCache (s.db.state.levelTables.drop 1) with
      | some record => return record.intoVisibleValue
      | none => return none

/-- The storage iterators of the tables, each with the program that loads its blocks. -/
def storageIters (fillCache : Bool) :
    List TableRef → CachedM (List (SSTableStorageIterator × (Nat → CachedM (List Entry))))
  | [] => pure []
  | ref :: refs => do
    let file ← openReadable ref.1.number
    let it ← SSTableStorageIterator.newM (loadBlock ref file fillCache) ref.2.index
    let rest ← storageIters fillCache refs
    return (it, loadBlock ref file fillCache) :: rest

/-- The program that loads the blocks of child `i`. -/
def childLoads (children : List (ScanChild × (Nat → CachedM (List Entry)))) (i : Nat) :
    Nat → CachedM (List Entry) :=
  ((children.map Prod.snd)[i]?).getD (fun _ => pure [])

def scanOpt (lower upper : Bound) (snapshot : Option Nat) (fillCache : Bool) :
    CachedM (List (Bytes × Bytes)) := do
  let s ← MonadState.get
  if s.db.state.closed then throw .closed
  let readSeq := snapshot.getD s.db.state.lastSequence
  let refs := s.db.state.l0Tables ++ s.db.state.levelTables.flatten
  let tables ← storageIters fillCache refs
  let memEntries := s.db.state.memEntries
  let memChildren : List (ScanChild × (Nat → CachedM (List Entry))) :=
    if memEntries.isEmpty then [] else [(.inl (.new memEntries), fun _ => pure [])]
  let children := memChildren ++ tables.map (fun table => (.inr table.1, table.2))
  let fuel := memEntries.length + (refs.flatMap (fun ref => ref.2.entries)).length + 1
  let it ← DBIterator.tryNewM (childLoads children) fuel
    (MergeIterator.new (children.map Prod.fst)) lower upper readSeq
  it.collectM (childLoads children) fuel fuel

def anyTableEntryAfter (readSeq : Nat) (predicate : InternalKey → Bool) :
    List TableRef → CachedM Bool
  | [] => pure false
  | ref :: refs =>
    if ref.1.largestSeq ≤ readSeq then anyTableEntryAfter readSeq predicate refs
    else do
      let entries ← entriesWithCache ref true
      if entries.any (fun e => decide (readSeq < e.1.sequence) && predicate e.1) then
        return true
      else anyTableEntryAfter readSeq predicate refs

def anyEntryAfter (readSeq : Nat) (predicate : InternalKey → Bool) : CachedM Bool := do
  let s ← MonadState.get
  let memtables := s.db.state.mutable :: s.db.state.immutables
  if (memtables.flatMap MemTable.entries).any
      (fun e => decide (readSeq < e.1.sequence) && predicate e.1) then
    return true
  anyTableEntryAfter readSeq predicate (s.db.state.l0Tables ++ s.db.state.levelTables.flatten)

def ensureKeysUnchanged (readSeq : Nat) (describe : String) : List Bytes → CachedM Unit
  | [] => pure ()
  | key :: keys => do
    if ← anyEntryAfter readSeq (fun k => k.userKey == key) then
      throw (.transactionConflict
        (describe ++ " key changed after snapshot: " ++ fromUtf8Lossy key))
    ensureKeysUnchanged readSeq describe keys

def ensureRangesUnchanged (readSeq : Nat) : List ReadRange → CachedM Unit
  | [] => pure ()
  | range :: ranges => do
    if ← anyEntryAfter readSeq (fun k => withinBounds k.userKey range.1 range.2) then
      throw (.transactionConflict "scanned range changed after snapshot")
    ensureRangesUnchanged readSeq ranges

def ensureNoTransactionConflicts (readSeq : Nat) (readKeys : List Bytes)
    (readRanges : List ReadRange) (writeKeys : List Bytes) : CachedM Unit := do
  ensureKeysUnchanged readSeq "read" readKeys
  ensureKeysUnchanged readSeq "write" writeKeys
  ensureRangesUnchanged readSeq readRanges

def openFiles : List FileMeta → CachedM (List TableRef)
  | [] => pure []
  | file :: files => do
    let table ← getOrOpen file.number
    let rest ← openFiles files
    return (file, table) :: rest

def openLevels : List (List FileMeta) → CachedM (List (List TableRef))
  | [] => pure []
  | level :: levels => do
    let tables ← openFiles level
    let rest ← openLevels levels
    return tables :: rest

def openVersionTables (version : Version) : CachedM (List TableRef × List (List TableRef)) := do
  let l0Tables ← openFiles version.l0Files
  let levelTables ← openLevels version.levels
  return (l0Tables, levelTables)

/-- The new table is read back through the table cache. -/
def writeTable (entries : List Entry) (number : Nat) : CachedM TableRef := do
  let s ← MonadState.get
  let table := buildTable s.db.options.blockSize entries
  direct (act (.renameTable number table))
  let reader ← getOrOpen number
  let file ← direct (ofExcept (fileMetaFromTable number (s.db.env.metadataLen table) reader))
  return (file, reader)

def writeL0Table (memtable : MemTable) (fileNumber : Nat) : CachedM TableRef := do
  let s ← MonadState.get
  if (s.db.disk.tables fileNumber).isSome then
    throw (.corruption
      ("table file already exists: " ++ s.db.disk.path ++ "/" ++ tableFileName fileNumber))
  writeTable memtable.entries fileNumber

def flush : CachedM Unit := do
  let s ← MonadState.get
  if s.db.state.closed then throw .closed
  match s.db.state.takeOldestFlushableMemtable s.db.options.memtableKind with
  | none => return ()
  | some (memtable, source, state) =>
    direct (set { s.db with state := state })
    let fileNumber ← direct DB.allocateFileNumber
    let ref ←
      tryCatch (do
        let ref ← writeL0Table memtable fileNumber
        direct (DB.publishL0Table ref.1 state.lastSequence)
        return ref)
      (fun err => do
        direct (modify fun db => { db with state := db.state.restoreFlushMemtable memtable source })
        throw err)
    direct (modify fun db =>
      { db with state := { db.state with l0Tables := ref :: db.state.l0Tables } })

def readEntries : List FileMeta → CachedM (List Entry)
  | [] => return []
  | file :: files => do
    let table ← getOrOpen file.number
    let entries ← entriesWithCache (file, table) true
    let rest ← readEntries files
    return entries ++ rest

def trivialMoveNeedsRewrite (file : FileMeta) (gcWatermark : Nat) (dropTombstones : Bool) :
    CachedM Bool := do
  let entries ← readEntries [file]
  return (compactEntries entries gcWatermark dropTombstones).length != entries.length

def writeOutputs : List (List Entry × Nat) → CachedM (List TableRef)
  | [] => return []
  | (chunk, number) :: rest => do
    let ref ← writeTable chunk number
    let refs ← writeOutputs rest
    return ref :: refs

def writeCompactionOutputs (entries : List Entry) : CachedM (List TableRef) := do
  if entries.isEmpty then return []
  let s ← MonadState.get
  let chunks := splitCompactionEntries entries s.db.options.targetFileSizeBase
    s.db.options.maxSubcompactions
  let next := s.db.versions.nextFileNumber
  direct (set { s.db with
    versions := { s.db.versions with nextFileNumber := next + chunks.length } })
  writeOutputs (chunks.zip ((s.db.env.workerOrder next chunks.length).map (next + ·)))

def refreshTablesFromVersion : CachedM Unit := do
  let s ← MonadState.get
  let (l0Tables, levelTables) ← openVersionTables s.db.versions.current
  direct (set { s.db with
    state := { s.db.state with l0Tables := l0Tables, levelTables := levelTables } })

/-- `execute_compaction` up to its first edit. -/
def prepareTask (task : CompactionTask) : CachedM (Option Publication) := do
  match task.inputFiles with
  | [] => return none
  | file :: _ =>
    let s ← MonadState.get
    let gcWatermark := s.db.gcWatermark
    let dropTombstones := canDropTombstones s.db.versions.current task
    let needsRewrite ←
      if task.isTrivialMove then trivialMoveNeedsRewrite file gcWatermark dropTombstones
      else pure true
    if needsRewrite then
      let entries ← readEntries task.allInputFiles
      let outputs ← writeCompactionOutputs (compactEntries entries gcWatermark dropTombstones)
      return some ⟨DB.deleteEdits task ++ DB.addEdits task outputs,
        task.allInputFiles.map FileMeta.number⟩
    else
      return some ⟨[.deleteFile task.inputLevel file.number, .addFile task.outputLevel file], []⟩

/-- The rest of `execute_compaction`. -/
def finishCompaction : Option Publication → CachedM Unit
  | none => pure ()
  | some publication => do
    direct (DB.publish publication)
    refreshTablesFromVersion
    direct (DB.deleteObsoleteFiles publication.removed)

def prepare (lower upper : Bound) : CachedM (Option Publication) := do
  let s ← MonadState.get
  match CompactionPicker.pickManual s.db.versions.current lower upper with
  | some task => prepareTask task
  | none => return none

def compactRange (lower upper : Bound) : CachedM Unit := prepare lower upper >>= finishCompaction

def applyWritePressure : CachedM Unit := do
  let s ← MonadState.get
  if s.db.options.level0StopWritesTrigger ≤ s.db.state.l0Tables.length then
    compactRange .unbounded .unbounded

def applyWriteGroup (sync : Except Error Unit) (requests : List DB.Request) : CachedM Unit :=
  tryCatch (do
    applyWritePressure
    let shouldFlush ← direct (DB.applyWriteGroupToMemtable sync requests)
    if shouldFlush then flush)
  (fun err => throw (DB.repeatGroupError err))

def write (sync : Except Error Unit) (batch : WriteBatch) (opts : WriteOptions) : CachedM Unit :=
  if batch.isEmpty then pure () else applyWriteGroup sync [⟨batch, opts⟩]

def commitToMemtable (sync : Except Error Unit) (readSeq : Nat) (batch : WriteBatch)
    (readKeys : List Bytes) (readRanges : List ReadRange) : CachedM Bool := do
  let s ← MonadState.get
  if s.db.state.closed then throw .closed
  ensureNoTransactionConflicts readSeq readKeys readRanges (batchWriteKeys batch)
  if batch.isEmpty then return false
  let startSequence := s.db.state.lastSequence + 1
  if s.db.options.walEnabled then
    direct (act (.appendWal s.db.wal startSequence batch))
    if s.db.options.walSync == .perWrite then direct (ofExcept sync)
  let (state, shouldFlush) := (s.db.state.applyBatch startSequence batch).freezeMutableIfNeeded
    s.db.options.memtableSize s.db.options.memtableKind
  direct (modify fun db => { db with state := state })
  return shouldFlush

def commitTransaction (sync : Except Error Unit) (readSeq : Nat) (batch : WriteBatch)
    (readKeys : List Bytes) (readRanges : List ReadRange) : CachedM Unit := do
  applyWritePressure
  let shouldFlush ← commitToMemtable sync readSeq batch readKeys readRanges
  if shouldFlush then flush

end CachedDB

end TyLsm
