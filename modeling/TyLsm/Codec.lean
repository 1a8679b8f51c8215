import TyLsm.Coding
import TyLsm.Version

/-! The payloads of log records and manifest records: batches and version edits as bytes. -/

namespace TyLsm

/-! Write batches. -/

def BatchRecord.encode : BatchRecord → Bytes
  | put key value =>
    [1] ++ putVarU32 (asU32 key.length) ++ key ++ putVarU32 (asU32 value.length) ++ value
  | delete key => [2] ++ putVarU32 (asU32 key.length) ++ key ++ putVarU32 0

def WriteBatch.encodeWithSequence (batch : WriteBatch) (startSequence : Nat) : Bytes :=
  putVarU32 (asU32 batch.records.length) ++ putVarU64 startSequence ++
    batch.records.flatMap BatchRecord.encode

def BatchRecord.decode (src : Bytes) : Except Error (BatchRecord × Bytes) := do
  let (first, src) ← takeBytes src 1
  match first.head? with
  | none => throw (.corruption "missing value type")
  | some valueType =>
    let (keyLen, src) ← getVarU32 src
    let (key, src) ← takeBytes src keyLen
    let (valueLen, src) ← getVarU32 src
    let (value, src) ← takeBytes src valueLen
    if valueType = 1 then return (put key value, src)
    else if valueType = 2 then
      if !value.isEmpty then throw (.corruption "delete record must not carry a value")
      return (delete key, src)
    else throw (.corruption "unknown batch record type")

def decodeBatchRecords : Nat → Bytes → Except Error (List BatchRecord × Bytes)
  | 0, src => return ([], src)
  | count + 1, src => do
    let (record, src) ← BatchRecord.decode src
    let (records, src) ← decodeBatchRecords count src
    return (record :: records, src)

def WriteBatch.decodePayload (payload : Bytes) : Except Error (Nat × WriteBatch) := do
  let (count, src) ← getVarU32 payload
  let (startSequence, src) ← getVarU64 src
  let (records, src) ← decodeBatchRecords count src
  if !src.isEmpty then throw (.corruption "trailing batch payload bytes")
  return (startSequence, ⟨records⟩)

/-- The lengths of a record fit the fields of its encoding. -/
def BatchRecord.Encodable : BatchRecord → Prop
  | put key value => key.length < 2 ^ 32 ∧ value.length < 2 ^ 32
  | delete key => key.length < 2 ^ 32

structure WriteBatch.Encodable (batch : WriteBatch) : Prop where
  count : batch.records.length < 2 ^ 32
  records : ∀ record ∈ batch.records, record.Encodable

theorem takeBytes_one (byte : UInt8) (rest : Bytes) :
    takeBytes ([byte] ++ rest) 1 = .ok ([byte], rest) := takeBytes_append [byte] rest

theorem BatchRecord.decode_encode {record : BatchRecord} (h : record.Encodable) (rest : Bytes) :
    BatchRecord.decode (record.encode ++ rest) = .ok (record, rest) := by
  cases record with
  | put key value =>
    obtain ⟨hk, hv⟩ := h
    have hkl : asU32 key.length = key.length := Nat.mod_eq_of_lt hk
    have hvl : asU32 value.length = value.length := Nat.mod_eq_of_lt hv
    simp only [BatchRecord.decode, BatchRecord.encode, List.append_assoc, takeBytes_one, hkl, hvl,
      getVarU32_putVarU32 hk, getVarU32_putVarU32 hv, takeBytes_append, bind, Except.bind,
      List.head?_cons, if_true]
    rfl
  | delete key =>
    have hkl : asU32 key.length = key.length := Nat.mod_eq_of_lt h
    have hzero : takeBytes rest 0 = .ok ([], rest) := takeBytes_append [] rest
    simp only [BatchRecord.decode, BatchRecord.encode, List.append_assoc, takeBytes_one, hkl,
      getVarU32_putVarU32 h, getVarU32_putVarU32 (by norm_num : 0 < 2 ^ 32), takeBytes_append,
      hzero, bind, Except.bind, List.head?_cons]
    rfl

theorem decodeBatchRecords_encode {records : List BatchRecord}
    (h : ∀ record ∈ records, record.Encodable) (rest : Bytes) :
    decodeBatchRecords records.length (records.flatMap BatchRecord.encode ++ rest) =
      .ok (records, rest) := by
  induction records with
  | nil => rfl
  | cons record records ih =>
    have hrest := ih fun r hr => h r (by simp [hr])
    rw [List.length_cons, decodeBatchRecords, List.flatMap_cons, List.append_assoc,
      BatchRecord.decode_encode (h record (by simp))]
    simp only [bind, Except.bind, hrest]
    rfl

theorem WriteBatch.decodePayload_encode {batch : WriteBatch} (h : batch.Encodable)
    {startSequence : Nat} (hseq : startSequence < 2 ^ 64) :
    WriteBatch.decodePayload (batch.encodeWithSequence startSequence) =
      .ok (startSequence, batch) := by
  have hcount : asU32 batch.records.length = batch.records.length := Nat.mod_eq_of_lt h.count
  have hrecords := decodeBatchRecords_encode h.records []
  rw [List.append_nil] at hrecords
  simp only [WriteBatch.decodePayload, WriteBatch.encodeWithSequence, hcount, List.append_assoc,
    getVarU32_putVarU32 h.count, getVarU64_putVarU64 hseq, hrecords, bind, Except.bind]
  rfl

/-! Version edits. -/

def ValueType.toU8 : ValueType → UInt8
  | put => 1
  | delete => 2

def decodeValueType (value : UInt8) : Except Error ValueType :=
  if value = 1 then .ok .put
  else if value = 2 then .ok .delete
  else .error (.corruption "unknown value type")

def encodeInternalKey (key : InternalKey) : Bytes :=
  putVarU32 (asU32 key.userKey.length) ++ key.userKey ++ putVarU64 key.sequence ++
    [key.valueType.toU8]

def decodeInternalKey (src : Bytes) : Except Error (InternalKey × Bytes) := do
  let (keyLen, src) ← getVarU32 src
  let (userKey, src) ← takeBytes src keyLen
  let (sequence, src) ← getVarU64 src
  let (byte, src) ← takeBytes src 1
  let valueType ← decodeValueType (byte.getD 0 0)
  return (⟨userKey, sequence, valueType⟩, src)

def encodeFileMeta (file : FileMeta) : Bytes :=
  putVarU64 file.number ++ putVarU64 file.fileSize ++ encodeInternalKey file.smallest ++
    encodeInternalKey file.largest ++ putVarU64 file.smallestSeq ++ putVarU64 file.largestSeq

def decodeFileMeta (src : Bytes) : Except Error (FileMeta × Bytes) := do
  let (number, src) ← getVarU64 src
  let (fileSize, src) ← getVarU64 src
  let (smallest, src) ← decodeInternalKey src
  let (largest, src) ← decodeInternalKey src
  let (smallestSeq, src) ← getVarU64 src
  let (largestSeq, src) ← getVarU64 src
  return (⟨number, fileSize, smallest, largest, smallestSeq, largestSeq⟩, src)

namespace VersionEdit

def tagNextFileNumber : Nat := 1
def tagLastSequence : Nat := 2
def tagLogNumber : Nat := 3
def tagAddFile : Nat := 4
def tagDeleteFile : Nat := 5

def encode : VersionEdit → Bytes
  | nextFileNumber number => putVarU32 tagNextFileNumber ++ putVarU64 number
  | lastSequence sequence => putVarU32 tagLastSequence ++ putVarU64 sequence
  | logNumber number => putVarU32 tagLogNumber ++ putVarU64 number
  | addFile level file => putVarU32 tagAddFile ++ putVarU32 (asU32 level) ++ encodeFileMeta file
  | deleteFile level number =>
    putVarU32 tagDeleteFile ++ putVarU32 (asU32 level) ++ putVarU64 number

/-- The edit after its tag. -/
def decodeBody (tag : Nat) (src : Bytes) : Except Error (VersionEdit × Bytes) :=
  if tag = tagNextFileNumber then do
    let (number, src) ← getVarU64 src
    return (nextFileNumber number, src)
  else if tag = tagLastSequence then do
    let (sequence, src) ← getVarU64 src
    return (lastSequence sequence, src)
  else if tag = tagLogNumber then do
    let (number, src) ← getVarU64 src
    return (logNumber number, src)
  else if tag = tagAddFile then do
    let (level, src) ← getVarU32 src
    let (file, src) ← decodeFileMeta src
    return (addFile level file, src)
  else if tag = tagDeleteFile then do
    let (level, src) ← getVarU32 src
    let (number, src) ← getVarU64 src
    return (deleteFile level number, src)
  else throw (.corruption "unknown version edit tag")

def decode (bytes : Bytes) : Except Error VersionEdit := do
  let (tag, src) ← getVarU32 bytes
  let (edit, src) ← decodeBody tag src
  if !src.isEmpty then throw (.corruption "trailing version edit bytes")
  return edit

end VersionEdit

/-- The numbers of a key fit the fields of its encoding. -/
def InternalKey.Encodable (key : InternalKey) : Prop :=
  key.userKey.length < 2 ^ 32 ∧ key.sequence < 2 ^ 64

structure FileMeta.Encodable (file : FileMeta) : Prop where
  number : file.number < 2 ^ 64
  fileSize : file.fileSize < 2 ^ 64
  smallest : file.smallest.Encodable
  largest : file.largest.Encodable
  smallestSeq : file.smallestSeq < 2 ^ 64
  largestSeq : file.largestSeq < 2 ^ 64

def VersionEdit.Encodable : VersionEdit → Prop
  | nextFileNumber number => number < 2 ^ 64
  | lastSequence sequence => sequence < 2 ^ 64
  | logNumber number => number < 2 ^ 64
  | addFile level file => level < 2 ^ 32 ∧ file.Encodable
  | deleteFile level number => level < 2 ^ 32 ∧ number < 2 ^ 64

theorem decodeInternalKey_encode {key : InternalKey} (h : key.Encodable) (rest : Bytes) :
    decodeInternalKey (encodeInternalKey key ++ rest) = .ok (key, rest) := by
  obtain ⟨userKey, sequence, valueType⟩ := key
  obtain ⟨hlen, hseq⟩ := h
  have hl : asU32 userKey.length = userKey.length := Nat.mod_eq_of_lt hlen
  simp only [decodeInternalKey, encodeInternalKey, List.append_assoc, hl,
    getVarU32_putVarU32 hlen, takeBytes_append, getVarU64_putVarU64 hseq, takeBytes_one, bind,
    Except.bind]
  cases valueType <;> rfl

theorem decodeFileMeta_encode {file : FileMeta} (h : file.Encodable) (rest : Bytes) :
    decodeFileMeta (encodeFileMeta file ++ rest) = .ok (file, rest) := by
  simp only [decodeFileMeta, encodeFileMeta, List.append_assoc, getVarU64_putVarU64 h.number,
    getVarU64_putVarU64 h.fileSize, decodeInternalKey_encode h.smallest,
    decodeInternalKey_encode h.largest, getVarU64_putVarU64 h.smallestSeq,
    getVarU64_putVarU64 h.largestSeq, bind, Except.bind]
  rfl

theorem VersionEdit.decode_encode {edit : VersionEdit} (h : edit.Encodable) :
    VersionEdit.decode edit.encode = .ok edit := by
  have htag : ∀ {tag : Nat}, tag < 2 ^ 32 → ∀ rest, getVarU32 (putVarU32 tag ++ rest) =
    .ok (tag, rest) := fun hlt rest => getVarU32_putVarU32 hlt rest
  have h64 : ∀ {n : Nat}, n < 2 ^ 64 → getVarU64 (putVarU64 n) = .ok (n, []) := fun hlt => by
    simpa using getVarU64_putVarU64 hlt []
  cases edit with
  | nextFileNumber number =>
    simp only [decode, encode, htag (by decide : tagNextFileNumber < 2 ^ 32), decodeBody, h64 h,
      bind, Except.bind]
    rfl
  | lastSequence sequence =>
    simp only [decode, encode, htag (by decide : tagLastSequence < 2 ^ 32), decodeBody, h64 h,
      bind, Except.bind]
    rfl
  | logNumber number =>
    simp only [decode, encode, htag (by decide : tagLogNumber < 2 ^ 32), decodeBody, h64 h,
      bind, Except.bind]
    rfl
  | addFile level file =>
    have hl : asU32 level = level := Nat.mod_eq_of_lt h.1
    have hfile := decodeFileMeta_encode h.2 []
    rw [List.append_nil] at hfile
    simp only [decode, encode, List.append_assoc, htag (by decide : tagAddFile < 2 ^ 32),
      decodeBody, hl, htag h.1, hfile, bind, Except.bind]
    rfl
  | deleteFile level number =>
    have hl : asU32 level = level := Nat.mod_eq_of_lt h.1
    simp only [decode, encode, List.append_assoc, htag (by decide : tagDeleteFile < 2 ^ 32),
      decodeBody, hl, htag h.1, h64 h.2, bind, Except.bind]
    rfl

theorem putVarLoop_ne_nil (n value : Nat) : putVarLoop n value ≠ [] := by
  cases n with
  | zero => exact List.cons_ne_nil _ _
  | succ n =>
    rw [putVarLoop]
    split <;> exact List.cons_ne_nil _ _

theorem VersionEdit.encode_ne_nil (edit : VersionEdit) : edit.encode ≠ [] := by
  cases edit <;> simp [encode, putVarU32, putVarU64, putVarLoop_ne_nil]

theorem WriteBatch.encodeWithSequence_ne_nil (batch : WriteBatch) (startSequence : Nat) :
    batch.encodeWithSequence startSequence ≠ [] := by
  simp [encodeWithSequence, putVarU32, putVarU64, putVarLoop_ne_nil]

end TyLsm
