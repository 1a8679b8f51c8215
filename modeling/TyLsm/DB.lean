import TyLsm.Disk

/-! The database: its state, and every public call as a program over it. A call
that fails keeps the effects it had before the failure. Caches, metrics and
delays do not change results and are left out. -/

namespace TyLsm

abbrev TableRef := FileMeta × Table

structure DBState where
  mutable : MemTable
  immutables : List MemTable
  l0Tables : List TableRef
  levelTables : List (List TableRef)
  lastSequence : Nat
  closed : Bool

/-- The sequence numbers of the live snapshots, with reference counts. -/
structure Watermark where
  active : OrderedMap Nat Nat

namespace Watermark

def new : Watermark := ⟨.empty⟩

def add (w : Watermark) (sequence : Nat) : Watermark :=
  ⟨w.active.insert sequence ((w.active.get? sequence).getD 0 + 1)⟩

def remove (w : Watermark) (sequence : Nat) : Watermark :=
  match w.active.get? sequence with
  | none => w
  | some count =>
    if count - 1 = 0 then ⟨w.active.erase sequence⟩ else ⟨w.active.insert sequence (count - 1)⟩

def oldest (w : Watermark) : Option Nat := w.active.entries.head?.map Prod.fst

end Watermark

structure DB where
  env : Env
  options : Options
  disk : Disk
  /-- The disk operations performed so far. -/
  journal : List DiskOp
  state : DBState
  versions : VersionSet
  watermark : Watermark
  /-- The number of the log that the writer appends to. -/
  wal : Nat

abbrev DBM := EStateM Error DB

/-- Perform a disk operation. -/
def act (op : DiskOp) : DBM Unit :=
  modify fun db => { db with disk := db.disk.apply op, journal := db.journal ++ [op] }

def ofExcept {α : Type} : Except Error α → DBM α
  | .ok a => pure a
  | .error err => throw err

def notFound : Error := .io .notFound "No such file or directory (os error 2)"

/-- A number padded to six digits, as in the names of the files. -/
def sixDigits (number : Nat) : String :=
  let digits := toString number
  String.ofList (List.replicate (6 - digits.length) '0') ++ digits

def tableFileName (number : Nat) : String := sixDigits number ++ ".sst"

def Disk.openTable (d : Disk) (number : Nat) : Except Error Table :=
  match d.tables number with
  | some table => .ok table
  | none => .error notFound

def openFiles (d : Disk) : List FileMeta → Except Error (List TableRef)
  | [] => .ok []
  | file :: files => do
    let table ← d.openTable file.number
    let rest ← openFiles d files
    return (file, table) :: rest

def openLevels (d : Disk) : List (List FileMeta) → Except Error (List (List TableRef))
  | [] => .ok []
  | level :: levels => do
    let tables ← openFiles d level
    let rest ← openLevels d levels
    return tables :: rest

def openVersionTables (d : Disk) (version : Version) :
    Except Error (List TableRef × List (List TableRef)) := do
  let l0Tables ← openFiles d version.l0Files
  let levelTables ← openLevels d version.levels
  return (l0Tables, levelTables)

namespace DBState

def putRecord (state : DBState) (sequence : Nat) (record : BatchRecord) : DBState :=
  let mutable :=
    match record with
    | .put key value => state.mutable.put sequence key value
    | .delete key => state.mutable.delete sequence key
  { state with mutable := mutable, lastSequence := max state.lastSequence sequence }

def applyRecords : DBState → Nat → List BatchRecord → DBState
  | state, _, [] => state
  | state, sequence, record :: records =>
    (state.putRecord sequence record).applyRecords (sequence + 1) records

def applyBatch (state : DBState) (startSequence : Nat) (batch : WriteBatch) : DBState :=
  state.applyRecords startSequence batch.records

def recoverWal (state : DBState) (records : List (Nat × WriteBatch)) : DBState :=
  records.foldl (fun state record => state.applyBatch record.1 record.2) state

/-- The flag tells whether the mutable memtable was frozen. -/
def freezeMutableIfNeeded (state : DBState) (memtableSize : Nat) (kind : MemTableKind) :
    DBState × Bool :=
  if state.mutable.isEmpty || decide (state.mutable.approximateSize < memtableSize) then
    (state, false)
  else
    ({ state with mutable := .new kind, immutables := state.immutables ++ [state.mutable] }, true)

inductive FlushSource where
  | mutable
  | immutableOldest

def takeOldestFlushableMemtable (state : DBState) (kind : MemTableKind) :
    Option (MemTable × FlushSource × DBState) :=
  match state.immutables with
  | memtable :: immutables =>
    some (memtable, .immutableOldest, { state with immutables := immutables })
  | [] =>
    if state.mutable.isEmpty then none
    else some (state.mutable, .mutable, { state with mutable := .new kind })

def restoreFlushMemtable (state : DBState) (memtable : MemTable) : FlushSource → DBState
  | .mutable =>
    if state.mutable.isEmpty then { state with mutable := memtable }
    else { state with immutables := state.immutables ++ [memtable] }
  | .immutableOldest => { state with immutables := memtable :: state.immutables }

/-- The memtables in the order in which reads visit them. -/
def memtables (state : DBState) : List MemTable := state.mutable :: state.immutables.reverse

def memEntries (state : DBState) : List Entry := state.memtables.flatMap MemTable.entries

end DBState

namespace DB

/-- The disk operations of `VersionSet::create`. -/
def createOps : List DiskOp :=
  .createManifest :: VersionSet.createEdits.map .appendManifest ++ [.setCurrent]

def «open» (env : Env) (disk : Disk) (options : Options) : Except Error DB := do
  if disk.dirExists && options.errorIfExists then
    throw (.invalidArgument ("database already exists: " ++ disk.path))
  if !disk.dirExists && !options.createIfMissing then
    throw (.invalidArgument ("database does not exist: " ++ disk.path))
  let createDir := [DiskOp.createDir]
  let disk := disk.applyAll createDir
  let created := if disk.current then [] else createOps
  let versions ←
    if disk.current then (VersionSet.newEmpty options.maxLevels).replay disk.manifest
    else .ok (VersionSet.newEmpty options.maxLevels)
  let disk := disk.applyAll created
  let (l0Tables, levelTables) ← openVersionTables disk versions.current
  let state : DBState :=
    { mutable := .new options.memtableKind
      immutables := []
      l0Tables := l0Tables
      levelTables := levelTables
      lastSequence := versions.lastSequence
      closed := false }
  let state :=
    match disk.wals versions.logNumber with
    | some records => state.recoverWal records
    | none => state
  let openWal := [DiskOp.openWal versions.logNumber]
  return {
    env := env
    options := options
    disk := disk.applyAll openWal
    journal := createDir ++ created ++ openWal
    state := state
    versions := versions
    watermark := .new
    wal := versions.logNumber }

def close : DBM Unit := modify fun db => { db with state := { db.state with closed := true } }

end DB

def fileOverlapsUserKey (file : FileMeta) (userKey : Bytes) : Bool :=
  decide (file.smallest.userKey ≤ userKey) && decide (userKey ≤ file.largest.userKey)

/-- Look a key up in one table. The file is only opened when the filter admits the key. -/
def searchTable (d : Disk) (key : Bytes) (readSeq : Nat) (ref : TableRef) :
    Except Error (Option ValueRecord) := do
  if ref.2.mightContain key then
    let _ ← d.openTable ref.1.number
    return ref.2.get key readSeq
  else return none

def searchL0 (d : Disk) (key : Bytes) (readSeq : Nat) :
    List TableRef → Except Error (Option ValueRecord)
  | [] => .ok none
  | ref :: refs => do
    if !fileOverlapsUserKey ref.1 key then searchL0 d key readSeq refs
    else
      match ← searchTable d key readSeq ref with
      | some record => return some record
      | none => searchL0 d key readSeq refs

/-- In a level below L0 only the first file that covers the key is searched. -/
def searchLevels (d : Disk) (key : Bytes) (readSeq : Nat) :
    List (List TableRef) → Except Error (Option ValueRecord)
  | [] => .ok none
  | level :: levels => do
    match level.find? (fun ref => fileOverlapsUserKey ref.1 key) with
    | none => searchLevels d key readSeq levels
    | some ref =>
      match ← searchTable d key readSeq ref with
      | some record => return some record
      | none => searchLevels d key readSeq levels

def storageIters (d : Disk) : List TableRef → Except Error (List SSTableStorageIterator)
  | [] => .ok []
  | ref :: refs => do
    let _ ← d.openTable ref.1.number
    let rest ← storageIters d refs
    return SSTableStorageIterator.new ref.2.index :: rest

def fileMetaFromTable (number fileSize : Nat) (table : Table) : Except Error FileMeta :=
  match table.entries.map (fun e => e.1.sequence) with
  | [] => .error (.corruption "empty SSTable has no sequence range")
  | sequence :: sequences =>
    match table.properties.smallestKey with
    | none => .error (.corruption "empty SSTable has no smallest key")
    | some smallest =>
      match table.properties.largestKey with
      | none => .error (.corruption "empty SSTable has no largest key")
      | some largest =>
        .ok ⟨number, fileSize, smallest, largest, sequences.foldl min sequence,
          sequences.foldl max sequence⟩

namespace DB

/-- `snapshot` is the read sequence of the snapshot in the read options, if any. -/
def getOpt (db : DB) (key : Bytes) (snapshot : Option Nat) : Except Error (Option Bytes) := do
  if db.state.closed then throw .closed
  let readSeq := snapshot.getD db.state.lastSequence
  match db.state.memtables.findSome? (fun memtable => memtable.get key readSeq) with
  | some record => return record.intoVisibleValue
  | none =>
    match ← searchL0 db.disk key readSeq db.state.l0Tables with
    | some record => return record.intoVisibleValue
    | none =>
      match ← searchLevels db.disk key readSeq (db.state.levelTables.drop 1) with
      | some record => return record.intoVisibleValue
      | none => return none

def get (db : DB) (key : Bytes) : Except Error (Option Bytes) := db.getOpt key none

def scanOpt (db : DB) (lower upper : Bound) (snapshot : Option Nat) :
    Except Error (List (Bytes × Bytes)) := do
  if db.state.closed then throw .closed
  let readSeq := snapshot.getD db.state.lastSequence
  let refs := db.state.l0Tables ++ db.state.levelTables.flatten
  let tables ← storageIters db.disk refs
  let memEntries := db.state.memEntries
  let memChildren : List (EntryIterator ⊕ SSTableStorageIterator) :=
    if memEntries.isEmpty then [] else [.inl (.new memEntries)]
  let fuel := memEntries.length + (refs.flatMap (fun ref => ref.2.entries)).length + 1
  let inner := MergeIterator.new (memChildren ++ tables.map .inr)
  return (DBIterator.tryNew fuel inner lower upper readSeq).collect fuel fuel

def scan (db : DB) (lower upper : Bound) : Except Error (List (Bytes × Bytes)) :=
  db.scanOpt lower upper none

/-- Returns the read sequence of the new snapshot. -/
def snapshot : DBM Nat := do
  let db ← MonadState.get
  set { db with watermark := db.watermark.add db.state.lastSequence }
  return db.state.lastSequence

/-- A clone of a snapshot registers the same read sequence once more. -/
def cloneSnapshot (readSeq : Nat) : DBM Unit :=
  modify fun db => { db with watermark := db.watermark.add readSeq }

def dropSnapshot (readSeq : Nat) : DBM Unit :=
  modify fun db => { db with watermark := db.watermark.remove readSeq }

def logAndApply (edit : VersionEdit) : DBM Unit := do
  act (.appendManifest edit)
  let db ← MonadState.get
  let (versions, result) := db.versions.applyEdit edit
  set { db with versions := versions }
  ofExcept result

def logAndApplyAll : List VersionEdit → DBM Unit
  | [] => pure ()
  | edit :: edits => do
    logAndApply edit
    logAndApplyAll edits

def allocateFileNumber : DBM Nat := do
  let db ← MonadState.get
  let number := db.versions.nextFileNumber
  set { db with versions := { db.versions with nextFileNumber := number + 1 } }
  return number

/-- Build a table from entries and give it its final name. A table is the list of its entries:
lengths and counts from `2 ^ 32` on, which the file format narrows and with which the real file
cannot be read back, stay what they are here. -/
def writeTable (entries : List Entry) (number : Nat) : DBM TableRef := do
  let db ← MonadState.get
  let table := buildTable db.options.blockSize entries
  act (.renameTable number table)
  let file ← ofExcept (fileMetaFromTable number (db.env.metadataLen table) table)
  return (file, table)

def writeL0Table (memtable : MemTable) (fileNumber : Nat) : DBM TableRef := do
  let db ← MonadState.get
  if (db.disk.tables fileNumber).isSome then
    throw (.corruption
      ("table file already exists: " ++ db.disk.path ++ "/" ++ tableFileName fileNumber))
  writeTable memtable.entries fileNumber

def publishL0Table (file : FileMeta) (lastSequence : Nat) : DBM Unit := do
  logAndApply (.addFile 0 file)
  logAndApply (.lastSequence lastSequence)
  let newLogNumber ← allocateFileNumber
  act (.openWal newLogNumber)
  logAndApply (.logNumber newLogNumber)
  modify fun db => { db with wal := newLogNumber }

def flush : DBM Unit := do
  let db ← MonadState.get
  if db.state.closed then throw .closed
  match db.state.takeOldestFlushableMemtable db.options.memtableKind with
  | none => return ()
  | some (memtable, source, state) =>
    set { db with state := state }
    let fileNumber ← allocateFileNumber
    let ref ←
      tryCatch (do
        let ref ← writeL0Table memtable fileNumber
        publishL0Table ref.1 state.lastSequence
        return ref)
      (fun err => do
        modify fun db => { db with state := db.state.restoreFlushMemtable memtable source }
        throw err)
    modify fun db => { db with state := { db.state with l0Tables := ref :: db.state.l0Tables } }

def readEntries : List FileMeta → DBM (List Entry)
  | [] => return []
  | file :: files => do
    let db ← MonadState.get
    let table ← ofExcept (db.disk.openTable file.number)
    let rest ← readEntries files
    return table.entries ++ rest

def trivialMoveNeedsRewrite (file : FileMeta) (gcWatermark : Nat) (dropTombstones : Bool) :
    DBM Bool := do
  let entries ← readEntries [file]
  return (compactEntries entries gcWatermark dropTombstones).length != entries.length

def writeOutputs : List (List Entry × Nat) → DBM (List TableRef)
  | [] => return []
  | (chunk, number) :: rest => do
    let ref ← writeTable chunk number
    let refs ← writeOutputs rest
    return ref :: refs

/-- Each chunk goes to a file of its own. The workers draw their numbers in some
order; a single chunk takes the next one. -/
def writeCompactionOutputs (entries : List Entry) : DBM (List TableRef) := do
  if entries.isEmpty then return []
  let db ← MonadState.get
  let chunks :=
    splitCompactionEntries entries db.options.targetFileSizeBase db.options.maxSubcompactions
  let next := db.versions.nextFileNumber
  set { db with versions := { db.versions with nextFileNumber := next + chunks.length } }
  writeOutputs (chunks.zip ((db.env.workerOrder next chunks.length).map (next + ·)))

def deleteEdits (task : CompactionTask) : List VersionEdit :=
  task.allInputFiles.map (fun file =>
    .deleteFile (if task.inputFiles.any (fun input => input.number == file.number)
      then task.inputLevel else task.outputLevel) file.number)

def addEdits (task : CompactionTask) (outputs : List TableRef) : List VersionEdit :=
  outputs.map (fun ref => .addFile task.outputLevel ref.1)

def refreshTablesFromVersion : DBM Unit := do
  let db ← MonadState.get
  let (l0Tables, levelTables) ← ofExcept (openVersionTables db.disk db.versions.current)
  set { db with state := { db.state with l0Tables := l0Tables, levelTables := levelTables } }

/-- A file that is already missing does not count as an error. -/
def deleteObsoleteFiles : List Nat → DBM Unit
  | [] => pure ()
  | number :: numbers => do
    act (.removeTable number)
    deleteObsoleteFiles numbers

def gcWatermark (db : DB) : Nat := db.watermark.oldest.getD db.state.lastSequence

def moveTrivially (task : CompactionTask) (file : FileMeta) : DBM Unit := do
  logAndApplyAll [.deleteFile task.inputLevel file.number, .addFile task.outputLevel file]
  refreshTablesFromVersion

def rewrite (task : CompactionTask) (gcWatermark : Nat) (dropTombstones : Bool) : DBM Unit := do
  let entries ← readEntries task.allInputFiles
  let outputs ← writeCompactionOutputs (compactEntries entries gcWatermark dropTombstones)
  logAndApplyAll (deleteEdits task ++ addEdits task outputs)
  refreshTablesFromVersion
  deleteObsoleteFiles (task.allInputFiles.map FileMeta.number)

def executeCompaction (task : CompactionTask) : DBM Bool := do
  match task.inputFiles with
  | [] => return false
  | file :: _ =>
    let db ← MonadState.get
    let gcWatermark := db.gcWatermark
    let dropTombstones := canDropTombstones db.versions.current task
    let needsRewrite ←
      if task.isTrivialMove then trivialMoveNeedsRewrite file gcWatermark dropTombstones
      else pure true
    if needsRewrite then rewrite task gcWatermark dropTombstones else moveTrivially task file
    return true

def compactRange (lower upper : Bound) : DBM Unit := do
  let db ← MonadState.get
  match CompactionPicker.pickManual db.versions.current lower upper with
  | some task => discard (executeCompaction task)
  | none => return ()

def applyWritePressure : DBM Unit := do
  let db ← MonadState.get
  if db.options.level0StopWritesTrigger ≤ db.state.l0Tables.length then
    compactRange .unbounded .unbounded

structure Request where
  batch : WriteBatch
  opts : WriteOptions

structure GroupWriteItem where
  batch : WriteBatch
  opts : WriteOptions
  startSequence : Nat

def groupItems : Nat → List Request → List GroupWriteItem
  | _, [] => []
  | nextSequence, request :: requests =>
    ⟨request.batch, request.opts, nextSequence⟩ ::
      groupItems (nextSequence + request.batch.records.length) requests

def appendItems : List GroupWriteItem → DBM Unit
  | [] => pure ()
  | item :: items => do
    let db ← MonadState.get
    if !item.opts.disableWal then act (.appendWal db.wal item.startSequence item.batch)
    appendItems items

def shouldSync (options : Options) (items : List GroupWriteItem) : Bool :=
  items.any (fun item => !item.opts.disableWal &&
    (item.opts.sync || options.walSync == .perWrite))

/-- The flag tells whether a memtable was frozen. -/
def applyItems (options : Options) : DBState → List GroupWriteItem → DBState × Bool
  | state, [] => (state, false)
  | state, item :: items =>
    let (state, frozen) := (state.applyBatch item.startSequence item.batch).freezeMutableIfNeeded
      options.memtableSize options.memtableKind
    let (state, shouldFlush) := applyItems options state items
    (state, frozen || shouldFlush)

/-- `sync` is what syncing the log returns. -/
def applyWriteGroupToMemtable (sync : Except Error Unit) (requests : List Request) :
    DBM Bool := do
  let db ← MonadState.get
  if db.state.closed then throw .closed
  let items := groupItems (db.state.lastSequence + 1) requests
  if db.options.walEnabled then
    appendItems items
    if shouldSync db.options items then ofExcept sync
  let (state, shouldFlush) := applyItems db.options db.state items
  modify fun db => { db with state := state }
  return shouldFlush

/-- The error that every request of a group receives. -/
def repeatGroupError : Error → Error
  | .io _ message => .corruption message
  | err => err

def applyWriteGroup (sync : Except Error Unit) (requests : List Request) : DBM Unit :=
  tryCatch (do
    applyWritePressure
    let shouldFlush ← applyWriteGroupToMemtable sync requests
    if shouldFlush then flush)
  (fun err => throw (repeatGroupError err))

/-- A write that is alone in its group. -/
def write (sync : Except Error Unit) (batch : WriteBatch) (opts : WriteOptions) : DBM Unit :=
  if batch.isEmpty then pure () else applyWriteGroup sync [⟨batch, opts⟩]

def put (key value : Bytes) : DBM Unit := write (.ok ()) ⟨[.put key value]⟩ {}

def delete (key : Bytes) : DBM Unit := write (.ok ()) ⟨[.delete key]⟩ {}

end DB

end TyLsm
