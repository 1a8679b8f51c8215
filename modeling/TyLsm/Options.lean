import TyLsm.MemTable

/-! Errors, options and write batches: the data of the public interface. -/

namespace TyLsm

inductive IoErrorKind where
  | notFound
  | other
  deriving DecidableEq, Repr

inductive Error where
  | invalidArgument (message : String)
  | corruption (message : String)
  | io (kind : IoErrorKind) (message : String)
  | closed
  | unsupported (feature : String)
  | transactionConflict (message : String)
  deriving DecidableEq, Repr

inductive WalSyncMode where
  | never
  | perWrite
  deriving DecidableEq, Repr

structure Options where
  createIfMissing : Bool := true
  errorIfExists : Bool := false
  memtableSize : Nat := 4 * 1024 * 1024
  blockSize : Nat := 4 * 1024
  targetFileSizeBase : Nat := 64 * 1024 * 1024
  maxLevels : Nat := 7
  level0StopWritesTrigger : Nat := 20
  walEnabled : Bool := true
  walSync : WalSyncMode := .never
  maxSubcompactions : Nat := 1
  memtableKind : MemTableKind := .bTree
  deriving DecidableEq, Repr

structure WriteOptions where
  sync : Bool := false
  disableWal : Bool := false
  deriving DecidableEq, Repr

inductive BatchRecord where
  | put (key value : Bytes)
  | delete (key : Bytes)
  deriving DecidableEq, Repr

structure WriteBatch where
  records : List BatchRecord
  deriving DecidableEq, Repr

namespace BatchRecord

def key : BatchRecord → Bytes
  | put key _ => key
  | delete key => key

def value : BatchRecord → ValueRecord
  | put _ value => .put value
  | delete _ => .delete

/-- The memtable entry a record becomes under a sequence number. -/
def toEntry (r : BatchRecord) (sequence : Nat) : Entry :=
  (⟨r.key, sequence, r.value.valueType⟩, r.value)

@[simp] theorem toEntry_userKey (r : BatchRecord) (sequence : Nat) :
    (r.toEntry sequence).1.userKey = r.key := rfl

@[simp] theorem toEntry_sequence (r : BatchRecord) (sequence : Nat) :
    (r.toEntry sequence).1.sequence = sequence := rfl

end BatchRecord

def WriteBatch.isEmpty (batch : WriteBatch) : Bool := batch.records.isEmpty

end TyLsm
