import TyLsm.DB

/-! Transactions: a snapshot with buffered writes and the keys and ranges it has
read. A commit fails when any of these changed after the snapshot. -/

namespace TyLsm

/-- A continuation byte of UTF-8 within the given range. -/
def isContinuation (lo hi : UInt8) (byte : Option UInt8) : Bool :=
  match byte with
  | some byte => decide (lo ≤ byte) && decide (byte ≤ hi)
  | none => false

/-- The second byte that may follow a first byte of a longer sequence. -/
def secondByteRange (first : UInt8) : UInt8 × UInt8 :=
  if first = 0xE0 then (0xA0, 0xBF)
  else if first = 0xED then (0x80, 0x9F)
  else if first = 0xF0 then (0x90, 0xBF)
  else if first = 0xF4 then (0x80, 0x8F)
  else (0x80, 0xBF)

/-- The length of the sequence that a first byte announces. -/
def utf8CharWidth (first : UInt8) : Nat :=
  if first < 0x80 then 1
  else if first < 0xC2 then 0
  else if first < 0xE0 then 2
  else if first < 0xF0 then 3
  else if first < 0xF5 then 4
  else 0

/-- The first character and the number of bytes it takes. An invalid sequence
becomes one replacement character up to the byte that breaks it. -/
def decodeFirst (first : UInt8) (rest : Bytes) : Char × Nat :=
  let replacement := Char.ofNat 0xFFFD
  let bits (i : Nat) : Nat := (rest.getD i 0).toNat % 64
  let second := isContinuation (secondByteRange first).1 (secondByteRange first).2 rest[0]?
  let third := isContinuation 0x80 0xBF rest[1]?
  let fourth := isContinuation 0x80 0xBF rest[2]?
  match utf8CharWidth first with
  | 1 => (Char.ofNat first.toNat, 1)
  | 2 => if second then (Char.ofNat (first.toNat % 32 * 64 + bits 0), 2) else (replacement, 1)
  | 3 =>
    if !second then (replacement, 1)
    else if !third then (replacement, 2)
    else (Char.ofNat ((first.toNat % 16 * 64 + bits 0) * 64 + bits 1), 3)
  | 4 =>
    if !second then (replacement, 1)
    else if !third then (replacement, 2)
    else if !fourth then (replacement, 3)
    else (Char.ofNat (((first.toNat % 8 * 64 + bits 0) * 64 + bits 1) * 64 + bits 2), 4)
  | _ => (replacement, 1)

def lossyLoop : Nat → Bytes → List Char
  | _, [] => []
  | 0, _ => []
  | fuel + 1, first :: rest =>
    let (char, width) := decodeFirst first rest
    char :: lossyLoop fuel (rest.drop (width - 1))

/-- `String::from_utf8_lossy`. -/
def fromUtf8Lossy (bytes : Bytes) : String := String.ofList (lossyLoop bytes.length bytes)

abbrev ReadRange := Bound × Bound

/-- The keys of a batch in rising order, each one once. -/
def batchWriteKeys (batch : WriteBatch) : List Bytes :=
  (batch.records.map BatchRecord.key).dedup.insertionSort (· ≤ ·)

namespace DB

/-- A table without a sequence after `readSeq` is not read. -/
def anyTableEntryAfter (d : Disk) (readSeq : Nat) (predicate : InternalKey → Bool) :
    List TableRef → Except Error Bool
  | [] => .ok false
  | ref :: refs =>
    if ref.1.largestSeq ≤ readSeq then anyTableEntryAfter d readSeq predicate refs
    else do
      let _ ← d.openTable ref.1.number
      if ref.2.entries.any (fun e => decide (readSeq < e.1.sequence) && predicate e.1) then
        return true
      else anyTableEntryAfter d readSeq predicate refs

def anyEntryAfter (db : DB) (readSeq : Nat) (predicate : InternalKey → Bool) :
    Except Error Bool :=
  let memtables := db.state.mutable :: db.state.immutables
  if (memtables.flatMap MemTable.entries).any
      (fun e => decide (readSeq < e.1.sequence) && predicate e.1) then .ok true
  else anyTableEntryAfter db.disk readSeq predicate
    (db.state.l0Tables ++ db.state.levelTables.flatten)

def keyChangedAfter (db : DB) (userKey : Bytes) (readSeq : Nat) : Except Error Bool :=
  db.anyEntryAfter readSeq (fun key => key.userKey == userKey)

def rangeChangedAfter (db : DB) (range : ReadRange) (readSeq : Nat) : Except Error Bool :=
  db.anyEntryAfter readSeq (fun key => withinBounds key.userKey range.1 range.2)

/-- `describe` names the key that changed. -/
def ensureKeysUnchanged (db : DB) (readSeq : Nat) (describe : String) :
    List Bytes → Except Error Unit
  | [] => .ok ()
  | key :: keys => do
    if ← db.keyChangedAfter key readSeq then
      throw (.transactionConflict
        (describe ++ " key changed after snapshot: " ++ fromUtf8Lossy key))
    db.ensureKeysUnchanged readSeq describe keys

def ensureRangesUnchanged (db : DB) (readSeq : Nat) : List ReadRange → Except Error Unit
  | [] => .ok ()
  | range :: ranges => do
    if ← db.rangeChangedAfter range readSeq then
      throw (.transactionConflict "scanned range changed after snapshot")
    db.ensureRangesUnchanged readSeq ranges

def ensureNoTransactionConflicts (db : DB) (readSeq : Nat) (readKeys : List Bytes)
    (readRanges : List ReadRange) (writeKeys : List Bytes) : Except Error Unit := do
  db.ensureKeysUnchanged readSeq "read" readKeys
  db.ensureKeysUnchanged readSeq "write" writeKeys
  db.ensureRangesUnchanged readSeq readRanges

/-- The part of a commit under the state lock. The flag tells whether a memtable was
frozen; a batch without records ends after the conflict check. -/
def commitToMemtable (sync : Except Error Unit) (readSeq : Nat) (batch : WriteBatch)
    (readKeys : List Bytes) (readRanges : List ReadRange) : DBM Bool := do
  let db ← MonadState.get
  if db.state.closed then throw .closed
  ofExcept (db.ensureNoTransactionConflicts readSeq readKeys readRanges (batchWriteKeys batch))
  if batch.isEmpty then return false
  let startSequence := db.state.lastSequence + 1
  if db.options.walEnabled then
    act (.appendWal db.wal startSequence batch)
    if db.options.walSync == .perWrite then ofExcept sync
  let (state, shouldFlush) := (db.state.applyBatch startSequence batch).freezeMutableIfNeeded
    db.options.memtableSize db.options.memtableKind
  modify fun db => { db with state := state }
  return shouldFlush

def commitTransaction (sync : Except Error Unit) (readSeq : Nat) (batch : WriteBatch)
    (readKeys : List Bytes) (readRanges : List ReadRange) : DBM Unit := do
  applyWritePressure
  let shouldFlush ← commitToMemtable sync readSeq batch readKeys readRanges
  if shouldFlush then flush

end DB

structure Transaction where
  readSeq : Nat
  readOnly : Bool
  writes : WriteBatch
  readKeys : OrderedMap Bytes Unit
  readRanges : List ReadRange

namespace Transaction

/-- The latest buffered write of a key. -/
def localValue (txn : Transaction) (key : Bytes) : Option ValueRecord :=
  (txn.writes.records.reverse.find? (fun record => record.key == key)).map BatchRecord.value

/-- Reads go to the buffered writes first; only others count as reads of the snapshot. -/
def get (txn : Transaction) (db : DB) (key : Bytes) :
    Transaction × Except Error (Option Bytes) :=
  match txn.localValue key with
  | some value => (txn, .ok value.intoVisibleValue)
  | none =>
    ({ txn with readKeys := txn.readKeys.insert key () }, db.getOpt key (some txn.readSeq))

def applyToRows (lower upper : Bound) (rows : OrderedMap Bytes Bytes) (record : BatchRecord) :
    OrderedMap Bytes Bytes :=
  if withinBounds record.key lower upper then
    match record with
    | .put key value => rows.insert key value
    | .delete key => rows.erase key
  else rows

def scan (txn : Transaction) (db : DB) (lower upper : Bound) :
    Transaction × Except Error (List (Bytes × Bytes)) :=
  ({ txn with readRanges := txn.readRanges ++ [(lower, upper)] }, do
    let rows ← db.scanOpt lower upper (some txn.readSeq)
    let base := rows.foldl (fun map row => map.insert row.1 row.2) OrderedMap.empty
    return (txn.writes.records.foldl (applyToRows lower upper) base).entries)

def ensureWritable (txn : Transaction) : Except Error Unit :=
  if txn.readOnly then .error (.invalidArgument "read-only transaction cannot write") else .ok ()

def write (txn : Transaction) (record : BatchRecord) : Except Error Transaction := do
  txn.ensureWritable
  return { txn with writes := ⟨txn.writes.records ++ [record]⟩ }

def put (txn : Transaction) (key value : Bytes) : Except Error Transaction :=
  txn.write (.put key value)

def delete (txn : Transaction) (key : Bytes) : Except Error Transaction := txn.write (.delete key)

/-- Dropping the transaction releases its snapshot, whatever the commit returned. -/
def commit (sync : Except Error Unit) (txn : Transaction) : DBM Unit := do
  tryCatch (DB.commitTransaction sync txn.readSeq txn.writes
    (txn.readKeys.entries.map Prod.fst) txn.readRanges)
    (fun err => do
      DB.dropSnapshot txn.readSeq
      throw err)
  DB.dropSnapshot txn.readSeq

def rollback (txn : Transaction) : DBM Unit := DB.dropSnapshot txn.readSeq

end Transaction

/-- Begin a transaction on a snapshot of the current state. -/
def DB.transaction (readOnly : Bool) : DBM Transaction := do
  let db ← MonadState.get
  if db.state.closed then throw .closed
  let readSeq ← DB.snapshot
  return ⟨readSeq, readOnly, ⟨[]⟩, .empty, []⟩

end TyLsm
