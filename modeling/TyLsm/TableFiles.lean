import TyLsm.TableFormat

/-! Table files. The builder writes blocks, index, properties and footer one after the other;
a reader that opens the file sees the decoded table of the model. The file is taken to
return what was written; checksum and compression are those of libraries. -/

namespace TyLsm

structure Zstd where
  encodeAll : Bytes → Except Error Bytes
  decodeAll : Bytes → Except Error Bytes

def Zstd.Lossless (zstd : Zstd) : Prop :=
  ∀ block, (do zstd.decodeAll (← zstd.encodeAll block)) = .ok block

namespace TableFile

variable (crc32c : Bytes → UInt32) (zstd : Zstd)

/-! The builder. -/

structure SSTableBuilder where
  file : Bytes
  offset : Nat
  blockSize : Nat
  currentBlock : BlockBuilder
  currentBlockFirstKey : Option InternalKey
  indexEntries : List IndexEntry
  smallestKey : Option InternalKey
  largestKey : Option InternalKey
  filterKeys : List Bytes
  numEntries : Nat
  compression : CompressionType

def compressBlock (block : Bytes) : CompressionType → Except Error Bytes
  | .none => .ok block
  | .zstd => zstd.encodeAll block

namespace SSTableBuilder

def create (blockSize : Nat) (compression : CompressionType) : SSTableBuilder where
  file := []
  offset := 0
  blockSize := max blockSize 1
  currentBlock := .new 16
  currentBlockFirstKey := none
  indexEntries := []
  smallestKey := none
  largestKey := none
  filterKeys := []
  numEntries := 0
  compression := compression

def writeBlock (b : SSTableBuilder) (block : Bytes) :
    Except Error (SSTableBuilder × BlockHandle) := do
  let block ← compressBlock zstd block b.compression
  let handle : BlockHandle := ⟨b.offset, block.length⟩
  let compression := b.compression.toU8
  let checksum := crc32c (compression :: block)
  return ({ b with
    file := b.file ++ (block ++ ([compression] ++ u32ToLeBytes checksum.toNat))
    offset := b.offset + (block.length + blockTrailerSize) }, handle)

/-- A non-empty block has its two keys; the source panics without them. -/
def flushCurrentBlock (b : SSTableBuilder) : Except Error SSTableBuilder :=
  if b.currentBlock.isEmpty then return b
  else
    match b.currentBlockFirstKey, b.largestKey with
    | some firstKey, some lastKey => do
      let block := b.currentBlock.finish
      let (b, handle) ← writeBlock crc32c zstd
        { b with currentBlock := .new 16, currentBlockFirstKey := none } block
      return { b with indexEntries := b.indexEntries ++ [⟨firstKey, lastKey, handle⟩] }
    | _, _ => return b

def add (b : SSTableBuilder) (key : InternalKey) (value : ValueRecord) :
    Except Error SSTableBuilder :=
  let b :=
    { b with
      currentBlockFirstKey := b.currentBlockFirstKey.or (some key)
      smallestKey := b.smallestKey.or (some key)
      largestKey := some key
      filterKeys := b.filterKeys ++ [key.userKey]
      currentBlock := b.currentBlock.add key value
      numEntries := b.numEntries + 1 }
  if b.blockSize ≤ b.currentBlock.approximateSize then b.flushCurrentBlock crc32c zstd
  else return b

def finish (b : SSTableBuilder) : Except Error Bytes := do
  let b ← b.flushCurrentBlock crc32c zstd
  let properties : TableProperties :=
    ⟨b.numEntries, b.smallestKey, b.largestKey, bloomFilterBytes b.filterKeys⟩
  let (b, propertiesHandle) ← b.writeBlock crc32c zstd properties.encode
  let (b, indexHandle) ← b.writeBlock crc32c zstd (encodeIndexEntries b.indexEntries)
  return b.file ++ encodeFooter propertiesHandle indexHandle

end SSTableBuilder

/-- Create a builder, add the entries in order and finish: the bytes of the file. -/
def buildFile (blockSize : Nat) (compression : CompressionType) (entries : List Entry) :
    Except Error Bytes := do
  let b ← entries.foldlM (fun (b : SSTableBuilder) e => b.add crc32c zstd e.1 e.2)
    (.create blockSize compression)
  b.finish crc32c zstd

/-! The reader. -/

structure SSTableReader where
  file : Bytes
  index : List IndexEntry
  properties : TableProperties
  filter : Option BloomFilter

/-- `seek` to the offset, then `read_exact`. -/
def readExactAt (file : Bytes) (offset len : Nat) : Except Error Bytes :=
  if (file.drop offset).length < len then .error (.io .other "failed to fill whole buffer")
  else .ok ((file.drop offset).take len)

def decompressBlock (block : Bytes) : CompressionType → Except Error Bytes
  | .none => .ok block
  | .zstd => zstd.decodeAll block

/-- A handle of a corrupt footer can name a size that there is no memory for: the source then
panics where this is the error of the short read. No handle that the builder writes does. -/
def readBlock (file : Bytes) (handle : BlockHandle) : Except Error Bytes := do
  let block ← readExactAt file handle.offset handle.size
  let trailer ← readExactAt file (handle.offset + handle.size) blockTrailerSize
  let compression ← CompressionType.fromU8 (trailer.getD 0 0)
  if u32FromLeBytes (trailer.drop 1) ≠ (crc32c (trailer.getD 0 0 :: block)).toNat then
    throw (.corruption "SSTable block checksum mismatch")
  decompressBlock zstd block compression

def indexMayContainUserKey (index : IndexEntry) (userKey : Bytes) : Bool :=
  decide (index.firstKey.userKey ≤ userKey) && decide (userKey ≤ index.lastKey.userKey)

namespace SSTableReader

def openWithEnv (file : Bytes) : Except Error SSTableReader := do
  if file.length < footerSize then throw (.corruption "SSTable is too small")
  let footer ← readExactAt file (file.length - footerSize) footerSize
  let (propertiesHandle, indexHandle) ← decodeFooter footer
  let propertiesBlock ← readBlock crc32c zstd file propertiesHandle
  let properties ← TableProperties.decode propertiesBlock
  let indexBlock ← readBlock crc32c zstd file indexHandle
  let index ← decodeIndexEntries indexBlock
  return ⟨file, index, properties, BloomFilter.fromBytes properties.filter⟩

def readDecodedBlock (r : SSTableReader) (index : IndexEntry) : Except Error (List Entry) := do
  decodeBlock (← readBlock crc32c zstd r.file index.handle)

/-- The loop of `entries`. -/
def entriesLoop (r : SSTableReader) : List IndexEntry → Except Error (List Entry)
  | [] => return []
  | index :: rest => do
    let block ← r.readDecodedBlock crc32c zstd index
    return block ++ (← entriesLoop r rest)

def entries (r : SSTableReader) : Except Error (List Entry) := r.entriesLoop crc32c zstd r.index

/-- The loop of `get`. -/
def getLoop (r : SSTableReader) (userKey : Bytes) (readSeq : Nat) :
    List IndexEntry → Except Error (Option ValueRecord)
  | [] => return none
  | index :: rest =>
    if !indexMayContainUserKey index userKey then getLoop r userKey readSeq rest
    else do
      let block ← r.readDecodedBlock crc32c zstd index
      match block.find? (fun e => decide (e.1.userKey = userKey ∧ e.1.sequence ≤ readSeq)) with
      | some e => return some e.2
      | none => getLoop r userKey readSeq rest

def mightContain (r : SSTableReader) (userKey : Bytes) : Bool := mayContain r.filter userKey

def get (r : SSTableReader) (userKey : Bytes) (readSeq : Nat) :
    Except Error (Option ValueRecord) :=
  if !r.mightContain userKey then return none
  else r.getLoop crc32c zstd userKey readSeq r.index

def smallestKey (r : SSTableReader) : Option InternalKey := r.properties.smallestKey

def largestKey (r : SSTableReader) : Option InternalKey := r.properties.largestKey

end SSTableReader

/-! Blocks in the file. -/

theorem readExactAt_append (before bytes after : Bytes) :
    readExactAt (before ++ (bytes ++ after)) before.length bytes.length = .ok bytes := by
  have hlen : ¬ (bytes ++ after).length < bytes.length := by
    rw [List.length_append]
    omega
  rw [readExactAt, List.drop_left, if_neg hlen, List.take_left]

/-- The handle leads to the block, whatever is written after it. -/
structure Stored (file : Bytes) (handle : BlockHandle) (block : Bytes) : Prop where
  inside : handle.offset + handle.size ≤ file.length
  read : ∀ tail, readBlock crc32c zstd (file ++ tail) handle = .ok block

variable {crc32c zstd}

theorem Stored.append {file : Bytes} {handle : BlockHandle} {block : Bytes}
    (h : Stored crc32c zstd file handle block) (more : Bytes) :
    Stored crc32c zstd (file ++ more) handle block := by
  refine ⟨?_, fun tail => ?_⟩
  · rw [List.length_append]
    exact h.inside.trans (Nat.le_add_right _ _)
  · rw [List.append_assoc]
    exact h.read (more ++ tail)

theorem Stored.encodable {file : Bytes} {handle : BlockHandle} {block : Bytes}
    (h : Stored crc32c zstd file handle block) (hfile : file.length < 2 ^ 64) :
    handle.Encodable := by
  have := h.inside
  constructor <;> omega

theorem compressBlock_lossless (hz : zstd.Lossless) (block : Bytes) (c : CompressionType) :
    ∃ stored, compressBlock zstd block c = .ok stored ∧
      decompressBlock zstd stored c = .ok block := by
  cases c with
  | none => exact ⟨block, rfl, rfl⟩
  | zstd =>
    have hblock := hz block
    cases hencode : zstd.encodeAll block with
    | error e =>
      rw [hencode] at hblock
      exact absurd hblock (by simp [bind, Except.bind])
    | ok stored =>
      rw [hencode] at hblock
      exact ⟨stored, hencode, hblock⟩

theorem writeBlock_ok (crc32c : Bytes → UInt32) (hz : zstd.Lossless) {b : SSTableBuilder}
    (hoffset : b.offset = b.file.length) (block : Bytes) :
    ∃ more handle, b.writeBlock crc32c zstd block =
        .ok ({ b with file := b.file ++ more, offset := (b.file ++ more).length }, handle) ∧
      Stored crc32c zstd (b.file ++ more) handle block := by
  obtain ⟨stored, hstored, hback⟩ := compressBlock_lossless hz block b.compression
  let trailer := [b.compression.toU8] ++
    u32ToLeBytes (crc32c (b.compression.toU8 :: stored)).toNat
  have htrailer : trailer.length = blockTrailerSize := rfl
  refine ⟨stored ++ trailer, ⟨b.offset, stored.length⟩, ?_, ?_, ?_⟩
  · rw [SSTableBuilder.writeBlock, hstored, List.length_append, List.length_append, htrailer,
      ← hoffset]
    rfl
  · rw [List.length_append, List.length_append, hoffset]
    dsimp only
    omega
  · intro tail
    have hblock : readExactAt (b.file ++ (stored ++ trailer) ++ tail) b.offset stored.length =
        .ok stored := by
      rw [hoffset, List.append_assoc, List.append_assoc]
      exact readExactAt_append _ _ _
    have htrail : readExactAt (b.file ++ (stored ++ trailer) ++ tail)
        (b.offset + stored.length) blockTrailerSize = .ok trailer := by
      rw [hoffset, ← List.length_append, ← htrailer, ← List.append_assoc, List.append_assoc]
      exact readExactAt_append _ _ _
    have hhead : trailer.getD 0 0 = b.compression.toU8 := rfl
    have hsum : u32FromLeBytes (trailer.drop 1) =
        (crc32c (b.compression.toU8 :: stored)).toNat :=
      u32FromLeBytes_u32ToLeBytes (crc32c (b.compression.toU8 :: stored)).toNat_lt
    simp only [readBlock, hblock, htrail, hhead, hsum, CompressionType.fromU8_toU8, hback, bind,
      Except.bind]
    rw [if_neg (not_not.mpr rfl)]

end TableFile

end TyLsm
