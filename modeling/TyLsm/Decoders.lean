import TyLsm.BatchCodec
import TyLsm.Panics
import TyLsm.TableFormat

/-! The decoders with the places where the source can panic: indices, slices, unwrapped
options, array conversions, subtractions and the one allocation whose size the input names
without having to hold that many bytes. But for this allocation none of them panics, each
ends as its model above, and every error is a corruption. -/

namespace TyLsm

open Panicking

/-- A decoder never panics, ends as its model and reports corruption only. -/
abbrev Decodes {α : Type} (p : Panicking Error α) (x : Except Error α) : Prop :=
  Surfaces Error.IsCorruption p x

theorem Error.isCorruption (message : String) : (Error.corruption message).IsCorruption :=
  ⟨message, rfl⟩

namespace Checked

/-! Integers and slices. -/

/-- The loop of `get_var_u64`; a shift by 64 bits or more would panic. -/
def getVarLoop : Nat → Nat → Nat → Bytes → Panicking Error (Nat × Bytes)
  | 0, _, _, _ => throw (.corruption "varint u64 overflow")
  | _ + 1, _, _, [] => throw (.corruption "truncated varint")
  | n + 1, shift, result, byte :: rest => do
    if 64 ≤ shift then panics
    let result := result ||| (byte.toNat % 0x80) <<< shift % 2 ^ 64
    if byte < 0x80 then return (result, rest) else getVarLoop n (shift + 7) result rest

def getVarU64 (src : Bytes) : Panicking Error (Nat × Bytes) := getVarLoop 10 0 0 src

def getVarU32 (src : Bytes) : Panicking Error (Nat × Bytes) := do
  let (value, rest) ← getVarU64 src
  if value < 2 ^ 32 then return (value, rest) else throw (.corruption "varint u32 overflow")

def takeBytes (src : Bytes) (len : Nat) : Panicking Error (Bytes × Bytes) :=
  if src.length < len then throw (.corruption "truncated byte slice") else splitAt src len

/-- `*take_bytes(src, 1)?.first().expect(..)` -/
def takeByte (src : Bytes) : Panicking Error (UInt8 × Bytes) := do
  let (bytes, src) ← takeBytes src 1
  return (← expect bytes.head?, src)

def decodeValueType (value : UInt8) : Panicking Error ValueType :=
  if value = 1 then return .put
  else if value = 2 then return .delete
  else throw (.corruption "unknown value type")

def decodeInternalKey (src : Bytes) : Panicking Error (InternalKey × Bytes) := do
  let (keyLen, src) ← getVarU32 src
  let (userKey, src) ← takeBytes src keyLen
  let (sequence, src) ← getVarU64 src
  let (byte, src) ← takeByte src
  let valueType ← decodeValueType byte
  return (⟨userKey, sequence, valueType⟩, src)

/-! Blocks. -/

def decodeRecord : ValueType → Bytes → Panicking Error ValueRecord
  | .put, value => return .put value
  | .delete, value =>
    if !value.isEmpty then throw (.corruption "delete block entry carries value bytes")
    else return .delete

def decodeBlockEntry (lastUserKey src : Bytes) : Panicking Error (Entry × Bytes) := do
  let (sharedLen, src) ← getVarU32 src
  let (unsharedLen, src) ← getVarU32 src
  let (valueLen, src) ← getVarU32 src
  let (byte, src) ← takeByte src
  let valueType ← decodeValueType byte
  let (sequence, src) ← getVarU64 src
  if lastUserKey.length < sharedLen then
    throw (.corruption "block entry shared prefix is too long")
  let (unshared, src) ← takeBytes src unsharedLen
  let (value, src) ← takeBytes src valueLen
  let shared ← slice lastUserKey 0 sharedLen
  let record ← decodeRecord valueType value
  return ((⟨shared ++ unshared, sequence, valueType⟩, record), src)

def decodeBlockLoop : Nat → Bytes → Bytes → Panicking Error (List Entry)
  | 0, _, _ => return []
  | turns + 1, lastUserKey, src =>
    if src.isEmpty then return []
    else do
      let (entry, src) ← decodeBlockEntry lastUserKey src
      let entries ← decodeBlockLoop turns entry.1.userKey src
      return entry :: entries

def decodeBlock (bytes : Bytes) : Panicking Error (List Entry) :=
  if bytes.length < 4 then throw (.corruption "block missing restart count")
  else do
    let restartCountPos ← sub bytes.length 4
    let restartCount ← toArray (← slice bytes restartCountPos bytes.length) 4
    let restartBytes := u32FromLeBytes restartCount * 4
    if 2 ^ 64 ≤ restartBytes then throw (.corruption "restart count overflow")
    else if restartCountPos < restartBytes then throw (.corruption "invalid restart section")
    else do
      let dataEnd ← sub restartCountPos restartBytes
      let src ← slice bytes 0 dataEnd
      decodeBlockLoop src.length [] src

/-! Table metadata. -/

def decodeFixed (src : Bytes) : Panicking Error TableFile.BlockHandle :=
  if src.length ≠ 16 then throw (.corruption "invalid block handle length")
  else do
    let offset ← toArray (← slice src 0 8) 8
    let size ← toArray (← slice src 8 16) 8
    return ⟨u64FromLeBytes offset, u64FromLeBytes size⟩

def decodeFooter (src : Bytes) : Panicking Error (TableFile.BlockHandle × TableFile.BlockHandle) :=
  do
  if src.length ≠ TableFile.footerSize then throw (.corruption "invalid table footer length")
  let properties ← decodeFixed (← slice src 0 16)
  let index ← decodeFixed (← slice src 16 32)
  let magic ← toArray (← slice src 32 40) 8
  if u64FromLeBytes magic ≠ TableFile.tableMagic then throw (.corruption "invalid table magic")
  return (properties, index)

def decodeOptionalKey : Bytes → Panicking Error (Option InternalKey × Bytes)
  | [] => return (none, [])
  | tag :: src =>
    if tag = 0 then return (none, src)
    else do
      let (key, src) ← decodeInternalKey src
      return (some key, src)

def decodeFilter (src : Bytes) : Panicking Error Bytes :=
  if src.isEmpty then return []
  else do
    let (filterLen, src) ← getVarU32 src
    let (filter, _) ← takeBytes src filterLen
    return filter

def decodeProperties (bytes : Bytes) : Panicking Error TableFile.TableProperties := do
  let (numEntries, src) ← getVarU64 bytes
  let (smallestKey, src) ← decodeOptionalKey src
  let (largestKey, src) ← decodeOptionalKey src
  let filter ← decodeFilter src
  return ⟨numEntries, smallestKey, largestKey, filter⟩

def decodeIndexEntry (src : Bytes) : Panicking Error (TableFile.IndexEntry × Bytes) := do
  let (firstKey, src) ← decodeInternalKey src
  let (lastKey, src) ← decodeInternalKey src
  let (offset, src) ← getVarU64 src
  let (size, src) ← getVarU64 src
  return (⟨firstKey, lastKey, ⟨offset, size⟩⟩, src)

def decodeIndexLoop : Nat → Bytes → Panicking Error (List TableFile.IndexEntry × Bytes)
  | 0, src => return ([], src)
  | count + 1, src => do
    let (entry, src) ← decodeIndexEntry src
    let (entries, src) ← decodeIndexLoop count src
    return (entry :: entries, src)

def decodeIndexEntries (grants : Nat → Bool) (bytes : Bytes) :
    Panicking Error (List TableFile.IndexEntry) := do
  let (count, src) ← getVarU32 bytes
  withCapacity grants count
  let (entries, src) ← decodeIndexLoop count src
  if !src.isEmpty then throw (.corruption "trailing index bytes")
  return entries

/-! Write batches and version edits. -/

def decodeBatchRecord (src : Bytes) : Panicking Error (BatchRecord × Bytes) := do
  let (first, src) ← takeBytes src 1
  match first.head? with
  | none => throw (.corruption "missing value type")
  | some valueType =>
    let (keyLen, src) ← getVarU32 src
    let (key, src) ← takeBytes src keyLen
    let (valueLen, src) ← getVarU32 src
    let (value, src) ← takeBytes src valueLen
    if valueType = 1 then return (.put key value, src)
    else if valueType = 2 then
      if !value.isEmpty then throw (.corruption "delete record must not carry a value")
      return (.delete key, src)
    else throw (.corruption "unknown batch record type")

def decodeBatchRecords : Nat → Bytes → Panicking Error (List BatchRecord × Bytes)
  | 0, src => return ([], src)
  | count + 1, src => do
    let (record, src) ← decodeBatchRecord src
    let (records, src) ← decodeBatchRecords count src
    return (record :: records, src)

def decodePayload (payload : Bytes) : Panicking Error (Nat × WriteBatch) := do
  let (count, src) ← getVarU32 payload
  let (startSequence, src) ← getVarU64 src
  let (records, src) ← decodeBatchRecords count src
  if !src.isEmpty then throw (.corruption "trailing batch payload bytes")
  return (startSequence, ⟨records⟩)

def decodeFileMeta (src : Bytes) : Panicking Error (FileMeta × Bytes) := do
  let (number, src) ← getVarU64 src
  let (fileSize, src) ← getVarU64 src
  let (smallest, src) ← decodeInternalKey src
  let (largest, src) ← decodeInternalKey src
  let (smallestSeq, src) ← getVarU64 src
  let (largestSeq, src) ← getVarU64 src
  return (⟨number, fileSize, smallest, largest, smallestSeq, largestSeq⟩, src)

def decodeEditBody (tag : Nat) (src : Bytes) : Panicking Error (VersionEdit × Bytes) :=
  if tag = VersionEdit.tagNextFileNumber then do
    let (number, src) ← getVarU64 src
    return (.nextFileNumber number, src)
  else if tag = VersionEdit.tagLastSequence then do
    let (sequence, src) ← getVarU64 src
    return (.lastSequence sequence, src)
  else if tag = VersionEdit.tagLogNumber then do
    let (number, src) ← getVarU64 src
    return (.logNumber number, src)
  else if tag = VersionEdit.tagAddFile then do
    let (level, src) ← getVarU32 src
    let (file, src) ← decodeFileMeta src
    return (.addFile level file, src)
  else if tag = VersionEdit.tagDeleteFile then do
    let (level, src) ← getVarU32 src
    let (number, src) ← getVarU64 src
    return (.deleteFile level number, src)
  else throw (.corruption "unknown version edit tag")

def decodeEdit (bytes : Bytes) : Panicking Error VersionEdit := do
  let (tag, src) ← getVarU32 bytes
  let (edit, src) ← decodeEditBody tag src
  if !src.isEmpty then throw (.corruption "trailing version edit bytes")
  return edit

/-! None of them panics. -/

theorem getVarLoop_decodes (n : Nat) {shift : Nat} (result : Nat) (src : Bytes)
    (h : shift + 7 * n ≤ 70) :
    Decodes (getVarLoop n shift result src) (TyLsm.getVarLoop n shift result src) := by
  induction n generalizing shift result src with
  | zero => exact Surfaces.throw (Error.isCorruption _)
  | succ n ih =>
    cases src with
    | nil => exact Surfaces.throw (Error.isCorruption _)
    | cons byte rest =>
      rw [getVarLoop, TyLsm.getVarLoop, if_neg (by omega)]
      exact Surfaces.ite (fun _ => Surfaces.pure _) fun _ => ih _ _ (by omega)

theorem getVarU64_decodes (src : Bytes) : Decodes (getVarU64 src) (TyLsm.getVarU64 src) :=
  getVarLoop_decodes 10 0 src (by norm_num)

theorem getVarU32_decodes (src : Bytes) : Decodes (getVarU32 src) (TyLsm.getVarU32 src) := by
  have hsame : TyLsm.getVarU32 src = (do
      let (value, rest) ← TyLsm.getVarU64 src
      if value < 2 ^ 32 then .ok (value, rest)
      else .error (.corruption "varint u32 overflow")) := by
    rw [TyLsm.getVarU32]
    cases TyLsm.getVarU64 src <;> rfl
  rw [hsame, getVarU32]
  refine (getVarU64_decodes src).bind fun a _ => ?_
  exact Surfaces.ite (fun _ => Surfaces.pure _) fun _ => Surfaces.throw (Error.isCorruption _)

theorem takeBytes_decodes (src : Bytes) (len : Nat) :
    Decodes (takeBytes src len) (TyLsm.takeBytes src len) :=
  Surfaces.ite (fun _ => Surfaces.throw (Error.isCorruption _))
    fun h => Surfaces.splitAt (not_lt.mp h)

theorem takeByte_bind {α : Type} {f : UInt8 × Bytes → Panicking Error α}
    {g : Bytes × Bytes → Except Error α} (src : Bytes)
    (h : ∀ byte rest, Decodes (f (byte, rest)) (g ([byte], rest))) :
    Decodes (takeByte src >>= f) (TyLsm.takeBytes src 1 >>= g) := by
  unfold takeByte
  rw [bind_assoc]
  refine (takeBytes_decodes src 1).bind fun a ha => ?_
  cases src with
  | nil => cases ha
  | cons byte rest =>
    cases ha
    exact h byte rest

theorem decodeValueType_decodes (value : UInt8) :
    Decodes (decodeValueType value) (TyLsm.decodeValueType value) :=
  Surfaces.ite (fun _ => Surfaces.pure _) fun _ =>
    Surfaces.ite (fun _ => Surfaces.pure _) fun _ => Surfaces.throw (Error.isCorruption _)

theorem decodeInternalKey_decodes (src : Bytes) :
    Decodes (decodeInternalKey src) (TyLsm.decodeInternalKey src) := by
  unfold decodeInternalKey TyLsm.decodeInternalKey
  refine (getVarU32_decodes src).bind fun a _ => ?_
  refine (takeBytes_decodes _ _).bind fun b _ => ?_
  refine (getVarU64_decodes _).bind fun c _ => ?_
  refine takeByte_bind _ fun byte rest => ?_
  exact (decodeValueType_decodes byte).bind fun d _ => Surfaces.pure _

theorem decodeRecord_decodes (valueType : ValueType) (value : Bytes) :
    Decodes (decodeRecord valueType value) (TyLsm.decodeRecord valueType value) := by
  cases valueType with
  | put => exact Surfaces.pure _
  | delete =>
    exact Surfaces.ite (fun _ => Surfaces.throw (Error.isCorruption _)) fun _ => Surfaces.pure _

theorem decodeBlockEntry_decodes (lastUserKey src : Bytes) :
    Decodes (decodeBlockEntry lastUserKey src) (TyLsm.decodeBlockEntry lastUserKey src) := by
  unfold decodeBlockEntry TyLsm.decodeBlockEntry
  refine (getVarU32_decodes src).bind fun a _ => ?_
  refine (getVarU32_decodes _).bind fun b _ => ?_
  refine (getVarU32_decodes _).bind fun c _ => ?_
  refine takeByte_bind _ fun byte rest => ?_
  refine (decodeValueType_decodes byte).bind fun d _ => ?_
  refine (getVarU64_decodes _).bind fun e _ => ?_
  refine Surfaces.ite (fun _ => ?_) fun hshared => ?_
  · exact (Surfaces.throw (Error.isCorruption _)).bind fun f hf => by cases hf
  · refine (takeBytes_decodes _ _).bind fun f _ => ?_
    refine (takeBytes_decodes _ _).bind fun g _ => ?_
    refine (Surfaces.slice (Nat.zero_le _) (not_lt.mp hshared)).step ?_
    exact (decodeRecord_decodes d g.1).bind fun r _ => Surfaces.pure _

theorem decodeBlockLoop_decodes (turns : Nat) (lastUserKey src : Bytes) :
    Decodes (decodeBlockLoop turns lastUserKey src)
      (TyLsm.decodeBlockLoop turns lastUserKey src) := by
  induction turns generalizing lastUserKey src with
  | zero => exact Surfaces.pure _
  | succ turns ih =>
    unfold decodeBlockLoop TyLsm.decodeBlockLoop
    refine Surfaces.ite (fun _ => Surfaces.pure _) fun _ => ?_
    refine (decodeBlockEntry_decodes lastUserKey src).bind fun a _ => ?_
    exact (ih _ _).bind fun b _ => Surfaces.pure _

theorem decodeBlock_decodes (bytes : Bytes) :
    Decodes (decodeBlock bytes) (TyLsm.decodeBlock bytes) := by
  unfold decodeBlock TyLsm.decodeBlock
  refine Surfaces.ite (fun _ => Surfaces.throw (Error.isCorruption _)) fun hshort => ?_
  refine (Surfaces.sub (not_lt.mp hshort)).step ?_
  refine (Surfaces.slice (Nat.sub_le _ _) le_rfl).step ?_
  rw [List.take_length]
  refine (Surfaces.toArray (by rw [List.length_drop]; omega)).step ?_
  refine Surfaces.ite (fun _ => Surfaces.throw (Error.isCorruption _)) fun _ => ?_
  refine Surfaces.ite (fun _ => Surfaces.throw (Error.isCorruption _)) fun hsection => ?_
  refine (Surfaces.sub (not_lt.mp hsection)).step ?_
  refine (Surfaces.slice (Nat.zero_le _) (by omega)).step ?_
  exact decodeBlockLoop_decodes _ _ _

theorem decodeFixed_decodes (src : Bytes) :
    Decodes (decodeFixed src) (TableFile.BlockHandle.decodeFixed src) := by
  unfold decodeFixed TableFile.BlockHandle.decodeFixed
  refine Surfaces.ite (fun _ => Surfaces.throw (Error.isCorruption _)) fun hlen => ?_
  rw [not_not] at hlen
  refine (Surfaces.slice (Nat.zero_le _) (by omega)).step ?_
  refine (Surfaces.toArray (by simp [hlen])).step ?_
  refine (Surfaces.slice (by norm_num) (by omega)).step ?_
  refine (Surfaces.toArray (by simp [hlen])).step ?_
  rw [← hlen, List.take_length]
  exact Surfaces.pure _

theorem decodeFooter_decodes (src : Bytes) :
    Decodes (decodeFooter src) (TableFile.decodeFooter src) := by
  unfold decodeFooter TableFile.decodeFooter
  refine Surfaces.ite (fun _ => ?_) fun hlen => ?_
  · exact (Surfaces.throw (Error.isCorruption _)).bind fun f hf => by cases hf
  · rw [not_not, TableFile.footerSize] at hlen
    have hmid : (src.take 32).drop 16 = (src.drop 16).take 16 := List.drop_take ..
    have hend : (src.take 40).drop 32 = src.drop 32 := by rw [← hlen, List.take_length]
    refine (Surfaces.slice (Nat.zero_le _) (by omega)).step ?_
    refine (decodeFixed_decodes _).bind fun a _ => ?_
    refine (Surfaces.slice (by norm_num) (by omega)).step ?_
    rw [hmid]
    refine (decodeFixed_decodes _).bind fun b _ => ?_
    refine (Surfaces.slice (by norm_num) (by omega)).step ?_
    rw [hend]
    refine (Surfaces.toArray (by rw [List.length_drop]; omega)).step ?_
    refine Surfaces.ite (fun _ => ?_) fun _ => Surfaces.pure _
    exact (Surfaces.throw (Error.isCorruption _)).bind fun f hf => by cases hf

theorem decodeOptionalKey_decodes (src : Bytes) :
    Decodes (decodeOptionalKey src) (TableFile.decodeOptionalKey src) := by
  cases src with
  | nil => exact Surfaces.pure _
  | cons tag src =>
    refine Surfaces.ite (fun _ => Surfaces.pure _) fun _ => ?_
    exact (decodeInternalKey_decodes src).bind fun a _ => Surfaces.pure _

theorem decodeFilter_decodes (src : Bytes) :
    Decodes (decodeFilter src) (TableFile.TableProperties.decodeFilter src) := by
  unfold decodeFilter TableFile.TableProperties.decodeFilter
  refine Surfaces.ite (fun _ => Surfaces.pure _) fun _ => ?_
  refine (getVarU32_decodes src).bind fun a _ => ?_
  exact (takeBytes_decodes _ _).bind fun b _ => Surfaces.pure _

theorem decodeProperties_decodes (bytes : Bytes) :
    Decodes (decodeProperties bytes) (TableFile.TableProperties.decode bytes) := by
  unfold decodeProperties TableFile.TableProperties.decode
  refine (getVarU64_decodes bytes).bind fun a _ => ?_
  refine (decodeOptionalKey_decodes _).bind fun b _ => ?_
  refine (decodeOptionalKey_decodes _).bind fun c _ => ?_
  exact (decodeFilter_decodes _).bind fun d _ => Surfaces.pure _

theorem decodeIndexEntry_decodes (src : Bytes) :
    Decodes (decodeIndexEntry src) (TableFile.IndexEntry.decode src) := by
  unfold decodeIndexEntry TableFile.IndexEntry.decode
  refine (decodeInternalKey_decodes src).bind fun a _ => ?_
  refine (decodeInternalKey_decodes _).bind fun b _ => ?_
  refine (getVarU64_decodes _).bind fun c _ => ?_
  exact (getVarU64_decodes _).bind fun d _ => Surfaces.pure _

theorem decodeIndexLoop_decodes (count : Nat) (src : Bytes) :
    Decodes (decodeIndexLoop count src) (TableFile.decodeIndexLoop count src) := by
  induction count generalizing src with
  | zero => exact Surfaces.pure _
  | succ count ih =>
    unfold decodeIndexLoop TableFile.decodeIndexLoop
    refine (decodeIndexEntry_decodes src).bind fun a _ => ?_
    exact (ih _).bind fun b _ => Surfaces.pure _

theorem trailing_decodes {α : Type} (src : Bytes) (message : String) (a : α) :
    Decodes (do
      if !src.isEmpty then throw (.corruption message)
      return a) (do
      if !src.isEmpty then throw (.corruption message)
      return a) := by
  refine Surfaces.ite (fun _ => ?_) fun _ => Surfaces.pure _
  exact (Surfaces.throw (Error.isCorruption _)).bind fun f hf => by cases hf

/-- There is memory for the number of entries that an index announces. -/
def CountGranted (grants : Nat → Bool) (bytes : Bytes) : Prop :=
  ∀ a, TyLsm.getVarU32 bytes = .ok a → a.1 = 0 ∨ grants a.1 = true

theorem decodeIndexEntries_decodes_iff (grants : Nat → Bool) (bytes : Bytes) :
    Decodes (decodeIndexEntries grants bytes) (TableFile.decodeIndexEntries bytes) ↔
      CountGranted grants bytes := by
  unfold decodeIndexEntries TableFile.decodeIndexEntries
  constructor
  · intro h a ha
    have houtcome := (getVarU32_decodes bytes).outcome
    rw [houtcome, ha] at h
    exact Surfaces.granted ⟨h.outcome, h.fault⟩
  · intro h
    refine (getVarU32_decodes bytes).bind fun a ha => ?_
    refine (Surfaces.withCapacity (h a ha)).step ?_
    exact (decodeIndexLoop_decodes _ _).bind fun b _ => trailing_decodes _ _ _

/-- Five bytes that announce `2 ^ 32 - 1` entries, where there is no memory for so many. -/
example : decodeIndexEntries (fun _ => false) [255, 255, 255, 255, 15] = panics := by
  rfl

theorem decodeBatchRecord_decodes (src : Bytes) :
    Decodes (decodeBatchRecord src) (BatchRecord.decode src) := by
  unfold decodeBatchRecord BatchRecord.decode
  refine (takeBytes_decodes src 1).bind fun a _ => ?_
  obtain ⟨first, src⟩ := a
  cases first with
  | nil => exact Surfaces.throw (Error.isCorruption _)
  | cons valueType more =>
    refine (getVarU32_decodes _).bind fun b _ => ?_
    refine (takeBytes_decodes _ _).bind fun c _ => ?_
    refine (getVarU32_decodes _).bind fun d _ => ?_
    refine (takeBytes_decodes _ _).bind fun e _ => ?_
    refine Surfaces.ite (fun _ => Surfaces.pure _) fun _ => ?_
    exact Surfaces.ite (fun _ => trailing_decodes _ _ _)
      fun _ => Surfaces.throw (Error.isCorruption _)

theorem decodeBatchRecords_decodes (count : Nat) (src : Bytes) :
    Decodes (decodeBatchRecords count src) (TyLsm.decodeBatchRecords count src) := by
  induction count generalizing src with
  | zero => exact Surfaces.pure _
  | succ count ih =>
    unfold decodeBatchRecords TyLsm.decodeBatchRecords
    refine (decodeBatchRecord_decodes src).bind fun a _ => ?_
    exact (ih _).bind fun b _ => Surfaces.pure _

theorem decodePayload_decodes (payload : Bytes) :
    Decodes (decodePayload payload) (WriteBatch.decodePayload payload) := by
  unfold decodePayload WriteBatch.decodePayload
  refine (getVarU32_decodes payload).bind fun a _ => ?_
  refine (getVarU64_decodes _).bind fun b _ => ?_
  exact (decodeBatchRecords_decodes _ _).bind fun c _ => trailing_decodes _ _ _

theorem decodeFileMeta_decodes (src : Bytes) :
    Decodes (decodeFileMeta src) (TyLsm.decodeFileMeta src) := by
  unfold decodeFileMeta TyLsm.decodeFileMeta
  refine (getVarU64_decodes src).bind fun a _ => ?_
  refine (getVarU64_decodes _).bind fun b _ => ?_
  refine (decodeInternalKey_decodes _).bind fun c _ => ?_
  refine (decodeInternalKey_decodes _).bind fun d _ => ?_
  refine (getVarU64_decodes _).bind fun e _ => ?_
  exact (getVarU64_decodes _).bind fun f _ => Surfaces.pure _

theorem decodeEditBody_decodes (tag : Nat) (src : Bytes) :
    Decodes (decodeEditBody tag src) (VersionEdit.decodeBody tag src) := by
  unfold decodeEditBody VersionEdit.decodeBody
  have hnumber : ∀ edit : Nat → VersionEdit, Decodes (do
      let (number, src) ← getVarU64 src
      return (edit number, src)) (do
      let (number, src) ← TyLsm.getVarU64 src
      return (edit number, src)) :=
    fun edit => (getVarU64_decodes src).bind fun a _ => Surfaces.pure _
  refine Surfaces.ite (fun _ => hnumber _) fun _ => ?_
  refine Surfaces.ite (fun _ => hnumber _) fun _ => ?_
  refine Surfaces.ite (fun _ => hnumber _) fun _ => ?_
  refine Surfaces.ite (fun _ => ?_) fun _ => Surfaces.ite (fun _ => ?_) fun _ => ?_
  · refine (getVarU32_decodes src).bind fun a _ => ?_
    exact (decodeFileMeta_decodes _).bind fun b _ => Surfaces.pure _
  · refine (getVarU32_decodes src).bind fun a _ => ?_
    exact (getVarU64_decodes _).bind fun b _ => Surfaces.pure _
  · exact Surfaces.throw (Error.isCorruption _)

theorem decodeEdit_decodes (bytes : Bytes) :
    Decodes (decodeEdit bytes) (VersionEdit.decode bytes) := by
  unfold decodeEdit VersionEdit.decode
  refine (getVarU32_decodes bytes).bind fun a _ => ?_
  exact (decodeEditBody_decodes _ _).bind fun b _ => trailing_decodes _ _ _

end Checked

/-! Every turn of the loop over a block's entries takes bytes. -/

/-- What is left of the input has at most `n` bytes. -/
def Leaves {α : Type} (n : Nat) (x : Except Error (α × Bytes)) : Prop :=
  ∀ a rest, x = .ok (a, rest) → rest.length ≤ n

theorem Leaves.pure {α : Type} {n : Nat} (a : α) {rest : Bytes} (h : rest.length ≤ n) :
    Leaves n (.ok (a, rest)) := by
  intro a' rest' he
  cases he
  exact h

theorem Leaves.throw {α : Type} (n : Nat) (err : Error) :
    Leaves n (.error err : Except Error (α × Bytes)) := by
  intro a rest he
  cases he

theorem Leaves.bind {α β : Type} {n : Nat} {x : Except Error β} {f : β → Except Error (α × Bytes)}
    (h : ∀ b, x = .ok b → Leaves n (f b)) : Leaves n (x >>= f) := by
  cases x with
  | error err => exact Leaves.throw n err
  | ok b => exact h b rfl

theorem Leaves.ite {α : Type} {n : Nat} {c : Prop} [Decidable c]
    {x y : Except Error (α × Bytes)} (hx : Leaves n x) (hy : Leaves n y) :
    Leaves n (if c then x else y) := by
  by_cases hc : c
  · rwa [if_pos hc]
  · rwa [if_neg hc]

theorem getVarLoop_leaves (n shift result : Nat) (src : Bytes) :
    Leaves (src.length - 1) (getVarLoop n shift result src) := by
  induction n generalizing shift result src with
  | zero => exact Leaves.throw _ _
  | succ n ih =>
    cases src with
    | nil => exact Leaves.throw _ _
    | cons byte rest =>
      refine Leaves.ite (Leaves.pure _ (by simp)) fun a left hleft => ?_
      have hle := ih _ _ _ a left hleft
      rw [List.length_cons]
      omega

theorem getVarU64_leaves (src : Bytes) : Leaves (src.length - 1) (getVarU64 src) :=
  getVarLoop_leaves 10 0 0 src

theorem getVarU32_leaves (src : Bytes) : Leaves (src.length - 1) (getVarU32 src) := by
  have h := getVarU64_leaves src
  rw [getVarU32]
  cases hvar : getVarU64 src with
  | error err => exact Leaves.throw _ _
  | ok a => exact Leaves.ite (Leaves.pure _ (h a.1 a.2 hvar)) (Leaves.throw _ _)

theorem takeBytes_leaves (src : Bytes) (len : Nat) : Leaves src.length (takeBytes src len) := by
  refine Leaves.ite (Leaves.throw _ _) (Leaves.pure _ ?_)
  rw [List.length_drop]
  omega

theorem decodeBlockEntry_leaves (lastUserKey src : Bytes) :
    Leaves (src.length - 1) (decodeBlockEntry lastUserKey src) := by
  unfold decodeBlockEntry
  refine Leaves.bind fun a ha => Leaves.bind fun b hb => Leaves.bind fun c hc => ?_
  refine Leaves.bind fun d hd => Leaves.bind fun e _ => Leaves.bind fun f hf => ?_
  have h1 := getVarU32_leaves _ a.1 a.2 ha
  have h2 := getVarU32_leaves _ b.1 b.2 hb
  have h3 := getVarU32_leaves _ c.1 c.2 hc
  have h4 := takeBytes_leaves _ _ d.1 d.2 hd
  have h5 := getVarU64_leaves _ f.1 f.2 hf
  refine Leaves.ite (Leaves.bind fun _ h => by cases h) ?_
  refine Leaves.bind fun g hg => Leaves.bind fun i hi => Leaves.bind fun r _ => Leaves.pure _ ?_
  have h6 := takeBytes_leaves _ _ g.1 g.2 hg
  have h7 := takeBytes_leaves _ _ i.1 i.2 hi
  omega

theorem decodeBlockLoop_turns {turns : Nat} (lastUserKey : Bytes) {src : Bytes}
    (h : src.length ≤ turns) :
    decodeBlockLoop turns lastUserKey src = decodeBlockLoop src.length lastUserKey src := by
  induction turns using Nat.strong_induction_on generalizing lastUserKey src with
  | _ turns ih =>
    cases src with
    | nil => cases turns <;> rfl
    | cons byte rest =>
      obtain ⟨turns, rfl⟩ : ∃ m, turns = m + 1 := ⟨turns - 1, by rw [List.length_cons] at h; omega⟩
      rw [List.length_cons] at h ⊢
      simp only [decodeBlockLoop, List.isEmpty_cons, Bool.false_eq_true, if_false]
      cases hentry : decodeBlockEntry lastUserKey (byte :: rest) with
      | error err => rfl
      | ok a =>
        have hleft := decodeBlockEntry_leaves lastUserKey (byte :: rest) a.1 a.2 hentry
        rw [List.length_cons, Nat.add_sub_cancel] at hleft
        have hmany := @ih turns (by omega) a.1.1.userKey a.2 (by omega)
        have hfew := @ih rest.length (by omega) a.1.1.userKey a.2 hleft
        simp only [bind, Except.bind, hmany, hfew]

end TyLsm
