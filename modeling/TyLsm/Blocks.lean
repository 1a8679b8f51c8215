import TyLsm.Codec
import TyLsm.Table
import TyLsm.Wal

/-! The bytes of a data block. The builder shares key prefixes between its restart points,
and decoding what it wrote gives back the entries. -/

namespace TyLsm

def BlockBuilder.finish (b : BlockBuilder) : Bytes :=
  let restarts := if b.restarts.isEmpty then [0] else b.restarts
  b.data ++ restarts.flatMap u32ToLeBytes ++ u32ToLeBytes (asU32 restarts.length)

/-- The value bytes of an entry read back under its type. -/
def decodeRecord : ValueType → Bytes → Except Error ValueRecord
  | .put, value => .ok (.put value)
  | .delete, value =>
    if !value.isEmpty then .error (.corruption "delete block entry carries value bytes")
    else .ok .delete

/-- One turn of the loop of `Block::decode`. -/
def decodeBlockEntry (lastUserKey src : Bytes) : Except Error (Entry × Bytes) := do
  let (sharedLen, src) ← getVarU32 src
  let (unsharedLen, src) ← getVarU32 src
  let (valueLen, src) ← getVarU32 src
  let (byte, src) ← takeBytes src 1
  let valueType ← decodeValueType (byte.getD 0 0)
  let (sequence, src) ← getVarU64 src
  if lastUserKey.length < sharedLen then
    throw (.corruption "block entry shared prefix is too long")
  let (unshared, src) ← takeBytes src unsharedLen
  let (value, src) ← takeBytes src valueLen
  let record ← decodeRecord valueType value
  return ((⟨lastUserKey.take sharedLen ++ unshared, sequence, valueType⟩, record), src)

/-- The loop of `Block::decode`. Every turn takes bytes, so their number bounds the turns. -/
def decodeBlockLoop : Nat → Bytes → Bytes → Except Error (List Entry)
  | 0, _, _ => return []
  | turns + 1, lastUserKey, src =>
    if src.isEmpty then return []
    else do
      let (entry, src) ← decodeBlockEntry lastUserKey src
      let entries ← decodeBlockLoop turns entry.1.userKey src
      return entry :: entries

/-- `Block::decode`, where a `usize` has 64 bits. -/
def decodeBlock (bytes : Bytes) : Except Error (List Entry) :=
  if bytes.length < 4 then .error (.corruption "block missing restart count")
  else
    let restartCountPos := bytes.length - 4
    let restartBytes := u32FromLeBytes (bytes.drop restartCountPos) * 4
    if 2 ^ 64 ≤ restartBytes then .error (.corruption "restart count overflow")
    else if restartCountPos < restartBytes then .error (.corruption "invalid restart section")
    else
      let src := bytes.take (restartCountPos - restartBytes)
      decodeBlockLoop src.length [] src

/-! Shared prefixes. -/

theorem sharedPrefixLen_le (left right : Bytes) : sharedPrefixLen left right ≤ left.length := by
  have htake := (List.takeWhile_sublist (fun p : UInt8 × UInt8 => p.1 == p.2)
    (l := left.zip right)).length_le
  rw [List.length_zip] at htake
  exact htake.trans (min_le_left _ _)

theorem take_sharedPrefixLen (left right : Bytes) :
    left.take (sharedPrefixLen left right) = right.take (sharedPrefixLen left right) := by
  induction left generalizing right with
  | nil => simp [sharedPrefixLen]
  | cons a left ih =>
    cases right with
    | nil => simp [sharedPrefixLen]
    | cons b right =>
      by_cases hab : a = b
      · subst hab
        simpa [sharedPrefixLen] using ih right
      · simp [sharedPrefixLen, hab]

namespace BlockBuilder

/-- How many bytes of the next key are taken from the last one. -/
def sharedLen (b : BlockBuilder) (key : InternalKey) : Nat :=
  if b.entryCount % b.restartInterval = 0 then 0 else sharedPrefixLen b.lastUserKey key.userKey

/-- What `add` appends to the data. -/
def entryBytes (b : BlockBuilder) (key : InternalKey) (value : ValueRecord) : Bytes :=
  putVarU32 (asU32 (b.sharedLen key)) ++
    (putVarU32 (asU32 (key.userKey.drop (b.sharedLen key)).length) ++
      (putVarU32 (asU32 value.bytes.length) ++
        ([UInt8.ofNat value.valueType.toNat] ++
          (putVarU64 key.sequence ++ (key.userKey.drop (b.sharedLen key) ++ value.bytes)))))

theorem add_data (b : BlockBuilder) (key : InternalKey) (value : ValueRecord) :
    (b.add key value).data = b.data ++ b.entryBytes key value := by
  simp [add, entryBytes, sharedLen]

theorem sharedLen_le (b : BlockBuilder) (key : InternalKey) :
    b.sharedLen key ≤ b.lastUserKey.length := by
  unfold sharedLen
  split
  · exact Nat.zero_le _
  · exact sharedPrefixLen_le _ _

theorem take_sharedLen (b : BlockBuilder) (key : InternalKey) :
    b.lastUserKey.take (b.sharedLen key) ++ key.userKey.drop (b.sharedLen key) = key.userKey := by
  have htake : b.lastUserKey.take (b.sharedLen key) = key.userKey.take (b.sharedLen key) := by
    unfold sharedLen
    split
    · rfl
    · exact take_sharedPrefixLen _ _
  rw [htake, List.take_append_drop]

end BlockBuilder

/-! Decoding. -/

theorem decodeValueType_toNat (t : ValueType) :
    decodeValueType (UInt8.ofNat t.toNat) = .ok t := by
  cases t <;> rfl

theorem decodeRecord_bytes (value : ValueRecord) :
    decodeRecord value.valueType value.bytes = .ok value := by
  cases value <;> rfl

/-- The numbers of an entry fit the fields of its encoding. -/
structure EntryFits (e : Entry) : Prop where
  key : e.1.Encodable
  value : e.2.bytes.length < 2 ^ 32

theorem decodeBlockEntry_entryBytes {b : BlockBuilder} {e : Entry}
    (hlast : b.lastUserKey.length < 2 ^ 32) (hfits : EntryFits e) (hmatched : Matched e)
    (rest : Bytes) :
    decodeBlockEntry b.lastUserKey (b.entryBytes e.1 e.2 ++ rest) = .ok (e, rest) := by
  obtain ⟨⟨userKey, sequence, valueType⟩, value⟩ := e
  obtain ⟨⟨hkey, hseq⟩, hvalue⟩ := hfits
  have hshared := (b.sharedLen_le ⟨userKey, sequence, valueType⟩).trans_lt hlast
  have hunshared : (userKey.drop (b.sharedLen ⟨userKey, sequence, valueType⟩)).length < 2 ^ 32 :=
    (List.drop_sublist _ userKey).length_le.trans_lt hkey
  have hle := Nat.not_lt.mpr (b.sharedLen_le ⟨userKey, sequence, valueType⟩)
  have htype : valueType = value.valueType := hmatched
  have htake := b.take_sharedLen ⟨userKey, sequence, valueType⟩
  simp only [decodeBlockEntry, BlockBuilder.entryBytes, List.append_assoc, asU32,
    Nat.mod_eq_of_lt hshared, Nat.mod_eq_of_lt hunshared, Nat.mod_eq_of_lt hvalue,
    getVarU32_putVarU32 hshared, getVarU32_putVarU32 hunshared, getVarU32_putVarU32 hvalue,
    getVarU64_putVarU64 hseq, takeBytes_one, takeBytes_append, List.getD_cons_zero,
    decodeValueType_toNat, decodeRecord_bytes, if_neg hle, bind, Except.bind]
  dsimp only at htake
  rw [← htype, htake]
  rfl

/-- Reading on after the entries `es`, whose last user key is `last`. -/
def DecodesTo (data : Bytes) (es : List Entry) (last : Bytes) : Prop :=
  ∀ turns tail, decodeBlockLoop (turns + es.length) [] (data ++ tail) =
    (decodeBlockLoop turns last tail).map (es ++ ·)

/-- The builder of a block that holds the entries `es`. -/
structure BlockBuilder.Encodes (b : BlockBuilder) (es : List Entry) : Prop where
  decodes : DecodesTo b.data es b.lastUserKey
  length : es.length ≤ b.data.length
  last : b.lastUserKey.length < 2 ^ 32
  count : b.entryCount = es.length
  restarts : b.restarts.length ≤ es.length

namespace BlockBuilder

theorem encodes_new (restartInterval : Nat) : (new restartInterval).Encodes [] := by
  constructor
  · intro turns tail
    change decodeBlockLoop turns [] tail = (decodeBlockLoop turns [] tail).map ([] ++ ·)
    cases decodeBlockLoop turns [] tail <;> rfl
  · exact Nat.zero_le _
  · exact Nat.two_pow_pos 32
  · rfl
  · exact le_rfl

theorem entryBytes_ne_nil (b : BlockBuilder) (key : InternalKey) (value : ValueRecord) :
    b.entryBytes key value ≠ [] := by
  simp [entryBytes, putVarU32, putVarU64, putVarLoop_ne_nil]

theorem Encodes.add {b : BlockBuilder} {es : List Entry} (h : b.Encodes es) {e : Entry}
    (hfits : EntryFits e) (hmatched : Matched e) : (b.add e.1 e.2).Encodes (es ++ [e]) := by
  have hpos : 0 < (b.entryBytes e.1 e.2).length :=
    List.length_pos_of_ne_nil (b.entryBytes_ne_nil e.1 e.2)
  constructor
  · intro turns tail
    have hne : (b.entryBytes e.1 e.2 ++ tail).isEmpty = false := by
      simp [b.entryBytes_ne_nil e.1 e.2]
    have hstep : decodeBlockLoop (turns + 1) b.lastUserKey (b.entryBytes e.1 e.2 ++ tail) =
        (decodeBlockLoop turns e.1.userKey tail).map (e :: ·) := by
      rw [decodeBlockLoop, hne, decodeBlockEntry_entryBytes h.last hfits hmatched]
      simp only [Bool.false_eq_true, if_false, bind, Except.bind]
      cases decodeBlockLoop turns e.1.userKey tail <;> rfl
    rw [add_data, List.append_assoc, List.length_append, List.length_singleton,
      show turns + (es.length + 1) = turns + 1 + es.length by omega, h.decodes, hstep]
    change _ = (decodeBlockLoop turns e.1.userKey tail).map _
    cases decodeBlockLoop turns e.1.userKey tail with
    | error err => rfl
    | ok rest => simp [Except.map]
  · rw [add_data, List.length_append, List.length_append, List.length_singleton]
    have := h.length
    omega
  · exact hfits.key.1
  · simp [BlockBuilder.add, h.count]
  · have := h.restarts
    simp only [BlockBuilder.add, List.length_append, List.length_singleton]
    split
    · simp only [List.length_append, List.length_singleton]
      omega
    · omega

theorem length_restartBytes (restarts : List Nat) :
    (restarts.flatMap u32ToLeBytes).length = 4 * restarts.length := by
  induction restarts with
  | nil => rfl
  | cons r restarts ih =>
    rw [List.flatMap_cons, List.length_append, ih]
    simp only [u32ToLeBytes, List.length_cons, List.length_nil]
    omega

/-- The restart offsets that a narrowed count does not cover. The decoder reads them as data. -/
def uncounted (restarts : List Nat) : Bytes :=
  (restarts.flatMap u32ToLeBytes).take (4 * (restarts.length - asU32 restarts.length))

theorem decodeBlock_trailer (data : Bytes) (restarts : List Nat) :
    decodeBlock (data ++ restarts.flatMap u32ToLeBytes ++ u32ToLeBytes (asU32 restarts.length)) =
      decodeBlockLoop (data ++ uncounted restarts).length [] (data ++ uncounted restarts) := by
  have hcount : asU32 restarts.length < 2 ^ 32 := Nat.mod_lt _ (by norm_num)
  have hle : asU32 restarts.length ≤ restarts.length := Nat.mod_le _ _
  have hbytes := length_restartBytes restarts
  have htrailer : (u32ToLeBytes (asU32 restarts.length)).length = 4 := rfl
  have hlen : (data ++ restarts.flatMap u32ToLeBytes ++
      u32ToLeBytes (asU32 restarts.length)).length - 4 =
      (data ++ restarts.flatMap u32ToLeBytes).length := by
    rw [List.length_append, htrailer, Nat.add_sub_cancel]
  have hcut : (data ++ restarts.flatMap u32ToLeBytes).length - asU32 restarts.length * 4 =
      data.length + 4 * (restarts.length - asU32 restarts.length) := by
    rw [List.length_append, hbytes]
    omega
  have hsmall : ¬ (data ++ restarts.flatMap u32ToLeBytes ++
      u32ToLeBytes (asU32 restarts.length)).length < 4 := by
    rw [List.length_append, htrailer]
    omega
  have hfits : ¬ 2 ^ 64 ≤ asU32 restarts.length * 4 := by omega
  have hsection : ¬ (data ++ restarts.flatMap u32ToLeBytes).length <
      asU32 restarts.length * 4 := by
    rw [List.length_append, hbytes]
    omega
  have hsrc : (data ++ restarts.flatMap u32ToLeBytes ++
      u32ToLeBytes (asU32 restarts.length)).take
        (data.length + 4 * (restarts.length - asU32 restarts.length)) =
      data ++ uncounted restarts := by
    rw [uncounted, List.append_assoc, List.take_length_add_append, List.take_append_of_le_length]
    rw [hbytes]
    omega
  simp only [decodeBlock, if_neg hsmall, hlen, List.drop_left, u32FromLeBytes_u32ToLeBytes hcount,
    if_neg hfits, if_neg hsection, hcut, hsrc]

/-- The restart offsets that `finish` writes. -/
def trailer (b : BlockBuilder) : List Nat := if b.restarts.isEmpty then [0] else b.restarts

theorem finish_eq (b : BlockBuilder) :
    b.finish = b.data ++ b.trailer.flatMap u32ToLeBytes ++ u32ToLeBytes (asU32 b.trailer.length) :=
  rfl

theorem Encodes.decodeBlockLoop_append {b : BlockBuilder} {es : List Entry} (h : b.Encodes es)
    (tail : Bytes) :
    ∃ turns, tail.length ≤ turns ∧ decodeBlockLoop (b.data ++ tail).length [] (b.data ++ tail) =
      (decodeBlockLoop turns b.lastUserKey tail).map (es ++ ·) := by
  have hlen := h.length
  refine ⟨(b.data ++ tail).length - es.length, ?_, ?_⟩
  · rw [List.length_append]
    omega
  · rw [← h.decodes]
    congr 1
    rw [List.length_append]
    omega

theorem Encodes.decodeBlock_finish {b : BlockBuilder} {es : List Entry} (h : b.Encodes es)
    (hcount : b.trailer.length < 2 ^ 32) : decodeBlock b.finish = .ok es := by
  have hall : uncounted b.trailer = [] := by
    rw [uncounted, asU32, Nat.mod_eq_of_lt hcount, Nat.sub_self, Nat.mul_zero, List.take_zero]
  obtain ⟨turns, -, hdecodes⟩ := h.decodeBlockLoop_append []
  have hend : decodeBlockLoop turns b.lastUserKey [] = .ok [] := by cases turns <;> rfl
  rw [List.append_nil, hend] at hdecodes
  rw [finish_eq, decodeBlock_trailer, hall, List.append_nil, hdecodes]
  simp [Except.map]

theorem Encodes.length_trailer {b : BlockBuilder} {es : List Entry} (h : b.Encodes es) :
    b.trailer.length ≤ max es.length 1 := by
  have := h.restarts
  unfold trailer
  split
  · simp
  · omega

end BlockBuilder

end TyLsm
