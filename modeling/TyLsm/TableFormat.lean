import TyLsm.Blocks

/-! The metadata of a table file: block handles, the footer, the properties block, the index
block and the bytes of the filter. Each part decodes to what was encoded. -/

namespace TyLsm

def u64ToLeBytes (n : Nat) : Bytes := u32ToLeBytes n ++ u32ToLeBytes (n / 2 ^ 32)

def u64FromLeBytes (bytes : Bytes) : Nat := bytes.foldr (fun byte n => byte.toNat + 2 ^ 8 * n) 0

@[simp] theorem length_u64ToLeBytes (n : Nat) : (u64ToLeBytes n).length = 8 := rfl

theorem u64FromLeBytes_u64ToLeBytes {n : Nat} (h : n < 2 ^ 64) :
    u64FromLeBytes (u64ToLeBytes n) = n := by
  simp only [u64FromLeBytes, u64ToLeBytes, u32ToLeBytes, List.cons_append, List.nil_append,
    List.foldr_cons, List.foldr_nil, UInt8.toNat_ofNat']
  omega

/-! The filter. -/

/-- The bytes that `build_bloom_filter` returns. -/
def bloomFilterBytes (keys : List Bytes) : Bytes :=
  match buildBloomFilter keys with
  | none => []
  | some filter =>
    putVarU32 (asU32 filter.bitLen) ++ filter.bits ++ [UInt8.ofNat filter.probes]

def BloomFilter.fromBytes (bytes : Bytes) : Option BloomFilter :=
  match bytes.getLast? with
  | none => none
  | some probes =>
    match getVarU32 bytes.dropLast with
    | .error _ => none
    | .ok (bitLen, bits) => some ⟨bits, bitLen, max probes.toNat 1⟩

/-- How many bits the filter of `count` keys has. -/
def bloomBitLen (count : Nat) : Nat := max (count * defaultBitsPerKey) 64

theorem bloomFilter_fromBytes {keys : List Bytes} (h : bloomBitLen keys.length < 2 ^ 32) :
    BloomFilter.fromBytes (bloomFilterBytes keys) = buildBloomFilter keys := by
  cases keys with
  | nil => rfl
  | cons key keys =>
    have hlen : asU32 (bloomBitLen (key :: keys).length) = bloomBitLen (key :: keys).length :=
      Nat.mod_eq_of_lt h
    simp only [bloomFilterBytes, buildBloomFilter, List.isEmpty_cons, Bool.false_eq_true, if_false,
      BloomFilter.fromBytes, List.getLast?_concat, List.dropLast_concat]
    change (match getVarU32 (putVarU32 (asU32 (bloomBitLen (key :: keys).length)) ++ _) with
      | .error _ => none
      | .ok (bitLen, bits) => some (BloomFilter.mk bits bitLen _)) = _
    rw [hlen, getVarU32_putVarU32 h]
    rfl

/-! Keys, handles and the footer. -/

namespace TableFile

def tableMagic : Nat := 0x54594c534d444201
def footerSize : Nat := 40
def blockTrailerSize : Nat := 5

inductive CompressionType where
  | none
  | zstd
  deriving DecidableEq, Repr

namespace CompressionType

def toU8 : CompressionType → UInt8
  | none => 0
  | zstd => 1

def fromU8 (value : UInt8) : Except Error CompressionType :=
  if value = 0 then .ok none
  else if value = 1 then .ok zstd
  else .error (.corruption "unknown block compression type")

theorem fromU8_toU8 (c : CompressionType) : fromU8 c.toU8 = .ok c := by
  cases c <;> rfl

end CompressionType

structure BlockHandle where
  offset : Nat
  size : Nat
  deriving DecidableEq, Repr

namespace BlockHandle

def encodeFixed (handle : BlockHandle) : Bytes :=
  u64ToLeBytes handle.offset ++ u64ToLeBytes handle.size

def decodeFixed (src : Bytes) : Except Error BlockHandle :=
  if src.length ≠ 16 then .error (.corruption "invalid block handle length")
  else .ok ⟨u64FromLeBytes (src.take 8), u64FromLeBytes (src.drop 8)⟩

/-- The numbers of a handle fit the fields of its encoding. -/
structure Encodable (handle : BlockHandle) : Prop where
  offset : handle.offset < 2 ^ 64
  size : handle.size < 2 ^ 64

theorem decodeFixed_encodeFixed {handle : BlockHandle} (h : handle.Encodable) :
    decodeFixed handle.encodeFixed = .ok handle := by
  have hlen : handle.encodeFixed.length = 16 := rfl
  have htake : handle.encodeFixed.take 8 = u64ToLeBytes handle.offset := rfl
  have hdrop : handle.encodeFixed.drop 8 = u64ToLeBytes handle.size := rfl
  rw [decodeFixed, if_neg (not_not.mpr hlen), htake, hdrop, u64FromLeBytes_u64ToLeBytes h.offset,
    u64FromLeBytes_u64ToLeBytes h.size]

end BlockHandle

def encodeFooter (properties index : BlockHandle) : Bytes :=
  properties.encodeFixed ++ index.encodeFixed ++ u64ToLeBytes tableMagic

def decodeFooter (src : Bytes) : Except Error (BlockHandle × BlockHandle) := do
  if src.length ≠ footerSize then throw (.corruption "invalid table footer length")
  let properties ← BlockHandle.decodeFixed (src.take 16)
  let index ← BlockHandle.decodeFixed ((src.drop 16).take 16)
  if u64FromLeBytes (src.drop 32) ≠ tableMagic then throw (.corruption "invalid table magic")
  return (properties, index)

theorem length_encodeFooter (properties index : BlockHandle) :
    (encodeFooter properties index).length = footerSize := rfl

theorem decodeFooter_encodeFooter {properties index : BlockHandle} (hp : properties.Encodable)
    (hi : index.Encodable) :
    decodeFooter (encodeFooter properties index) = .ok (properties, index) := by
  have htake : (encodeFooter properties index).take 16 = properties.encodeFixed := rfl
  have hmid : ((encodeFooter properties index).drop 16).take 16 = index.encodeFixed := rfl
  have hdrop : (encodeFooter properties index).drop 32 = u64ToLeBytes tableMagic := rfl
  have hmagic : u64FromLeBytes (u64ToLeBytes tableMagic) = tableMagic :=
    u64FromLeBytes_u64ToLeBytes (by norm_num [tableMagic])
  simp only [decodeFooter, length_encodeFooter, htake, hmid, hdrop, hmagic,
    BlockHandle.decodeFixed_encodeFixed hp, BlockHandle.decodeFixed_encodeFixed hi, bind,
    Except.bind]
  rfl

/-! The properties block. -/

structure TableProperties where
  numEntries : Nat
  smallestKey : Option InternalKey
  largestKey : Option InternalKey
  filter : Bytes
  deriving DecidableEq, Repr

def encodeOptionalKey : Option InternalKey → Bytes
  | some key => [1] ++ encodeInternalKey key
  | none => [0]

def decodeOptionalKey : Bytes → Except Error (Option InternalKey × Bytes)
  | [] => .ok (none, [])
  | tag :: src =>
    if tag = 0 then .ok (none, src)
    else do
      let (key, src) ← decodeInternalKey src
      return (some key, src)

namespace TableProperties

def encode (p : TableProperties) : Bytes :=
  putVarU64 p.numEntries ++ encodeOptionalKey p.smallestKey ++ encodeOptionalKey p.largestKey ++
    putVarU32 (asU32 p.filter.length) ++ p.filter

/-- Older tables have no filter. -/
def decodeFilter (src : Bytes) : Except Error Bytes :=
  if src.isEmpty then return []
  else do
    let (filterLen, src) ← getVarU32 src
    let (filter, _) ← takeBytes src filterLen
    return filter

def decode (bytes : Bytes) : Except Error TableProperties := do
  let (numEntries, src) ← getVarU64 bytes
  let (smallestKey, src) ← decodeOptionalKey src
  let (largestKey, src) ← decodeOptionalKey src
  let filter ← decodeFilter src
  return ⟨numEntries, smallestKey, largestKey, filter⟩

/-- The numbers of the properties fit the fields of their encoding. -/
structure Encodable (p : TableProperties) : Prop where
  numEntries : p.numEntries < 2 ^ 64
  smallest : ∀ key ∈ p.smallestKey, key.Encodable
  largest : ∀ key ∈ p.largestKey, key.Encodable
  filter : p.filter.length < 2 ^ 32

end TableProperties

theorem decodeOptionalKey_encodeOptionalKey {key : Option InternalKey}
    (h : ∀ k ∈ key, k.Encodable) (rest : Bytes) :
    decodeOptionalKey (encodeOptionalKey key ++ rest) = .ok (key, rest) := by
  cases key with
  | none => rfl
  | some key =>
    rw [encodeOptionalKey, List.append_assoc, List.cons_append, List.nil_append,
      decodeOptionalKey, if_neg (by decide), decodeInternalKey_encode (h key rfl)]
    rfl

namespace TableProperties

theorem decodeFilter_encode {filter : Bytes} (h : filter.length < 2 ^ 32) :
    decodeFilter (putVarU32 (asU32 filter.length) ++ filter) = .ok filter := by
  have hne : (putVarU32 filter.length ++ filter).isEmpty = false := by
    simp [putVarU32, putVarU64, putVarLoop_ne_nil]
  have hlen : asU32 filter.length = filter.length := Nat.mod_eq_of_lt h
  have htake : takeBytes filter filter.length = .ok (filter, []) := by
    simpa using takeBytes_append filter []
  simp only [decodeFilter, hlen, hne, Bool.false_eq_true, if_false, getVarU32_putVarU32 h, htake,
    bind, Except.bind]
  rfl

theorem decode_encode {p : TableProperties} (h : p.Encodable) : decode p.encode = .ok p := by
  simp only [decode, encode, List.append_assoc, getVarU64_putVarU64 h.numEntries,
    decodeOptionalKey_encodeOptionalKey h.smallest, decodeOptionalKey_encodeOptionalKey h.largest,
    decodeFilter_encode h.filter, bind, Except.bind]
  rfl

end TableProperties

/-! The index block. -/

structure IndexEntry where
  firstKey : InternalKey
  lastKey : InternalKey
  handle : BlockHandle
  deriving DecidableEq, Repr

def IndexEntry.encode (entry : IndexEntry) : Bytes :=
  encodeInternalKey entry.firstKey ++ encodeInternalKey entry.lastKey ++
    putVarU64 entry.handle.offset ++ putVarU64 entry.handle.size

def encodeIndexEntries (entries : List IndexEntry) : Bytes :=
  putVarU32 (asU32 entries.length) ++ entries.flatMap IndexEntry.encode

/-- One turn of the loop of `decode_index_entries`. -/
def IndexEntry.decode (src : Bytes) : Except Error (IndexEntry × Bytes) := do
  let (firstKey, src) ← decodeInternalKey src
  let (lastKey, src) ← decodeInternalKey src
  let (offset, src) ← getVarU64 src
  let (size, src) ← getVarU64 src
  return (⟨firstKey, lastKey, ⟨offset, size⟩⟩, src)

def decodeIndexLoop : Nat → Bytes → Except Error (List IndexEntry × Bytes)
  | 0, src => return ([], src)
  | count + 1, src => do
    let (entry, src) ← IndexEntry.decode src
    let (entries, src) ← decodeIndexLoop count src
    return (entry :: entries, src)

def decodeIndexEntries (bytes : Bytes) : Except Error (List IndexEntry) := do
  let (count, src) ← getVarU32 bytes
  let (entries, src) ← decodeIndexLoop count src
  if !src.isEmpty then throw (.corruption "trailing index bytes")
  return entries

/-- The numbers of an index entry fit the fields of its encoding. -/
structure IndexEntry.Encodable (entry : IndexEntry) : Prop where
  firstKey : entry.firstKey.Encodable
  lastKey : entry.lastKey.Encodable
  handle : entry.handle.Encodable

theorem IndexEntry.decode_encode {entry : IndexEntry} (h : entry.Encodable) (rest : Bytes) :
    IndexEntry.decode (entry.encode ++ rest) = .ok (entry, rest) := by
  simp only [IndexEntry.decode, IndexEntry.encode, List.append_assoc,
    decodeInternalKey_encode h.firstKey, decodeInternalKey_encode h.lastKey,
    getVarU64_putVarU64 h.handle.offset, getVarU64_putVarU64 h.handle.size, bind, Except.bind]
  rfl

theorem decodeIndexLoop_encode {entries : List IndexEntry} (h : ∀ i ∈ entries, i.Encodable) :
    decodeIndexLoop entries.length (entries.flatMap IndexEntry.encode) = .ok (entries, []) := by
  induction entries with
  | nil => rfl
  | cons entry entries ih =>
    have hrest := ih fun i hi => h i (by simp [hi])
    rw [List.length_cons, decodeIndexLoop, List.flatMap_cons,
      IndexEntry.decode_encode (h entry (by simp))]
    simp only [bind, Except.bind, hrest]
    rfl

theorem decodeIndexEntries_encode {entries : List IndexEntry} (hcount : entries.length < 2 ^ 32)
    (h : ∀ i ∈ entries, i.Encodable) :
    decodeIndexEntries (encodeIndexEntries entries) = .ok entries := by
  have hlen : asU32 entries.length = entries.length := Nat.mod_eq_of_lt hcount
  simp only [decodeIndexEntries, encodeIndexEntries, hlen, getVarU32_putVarU32 hcount,
    decodeIndexLoop_encode h, bind, Except.bind]
  rfl

end TableFile

end TyLsm
