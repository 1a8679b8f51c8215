import TyLsm.TableFiles
import TyLsm.TornTail

/-! The file builder takes the steps of the decoded builder, and what it leaves is opened as
the table that the decoded builder makes. -/

namespace TyLsm

theorem SortedEntries.sequence_le_of_find {es : List Entry} (hs : SortedEntries es) {u : Bytes}
    {s : Nat} {e : Entry} (he : newest u s es = some e) :
    ∀ e' ∈ es, e'.1.userKey = u → e'.1.sequence ≤ s → e'.1.sequence ≤ e.1.sequence := by
  obtain ⟨hmatch, before, after, rfl, hbefore⟩ := List.find?_eq_some_iff_append.mp he
  have hkey : e.1.userKey = u := (of_decide_eq_true hmatch).1
  intro e' he' hu hle
  rcases List.mem_append.mp he' with he' | he'
  · have hno := hbefore e' he'
    rw [Bool.not_eq_true', decide_eq_false_iff_not] at hno
    exact absurd ⟨hu, hle⟩ hno
  · rcases List.mem_cons.mp he' with rfl | he'
    · exact le_rfl
    · have hlt := (List.pairwise_cons.mp (List.pairwise_append.mp hs).2.1).1 e' he'
      exact InternalKey.sequence_le_of_lt hlt (hkey.trans hu.symm)

namespace TableFile

variable (crc32c : Bytes → UInt32) (zstd : Zstd)

/-- An index entry of the file, and the decoded one it stands for. -/
structure Reads (file : Bytes) (i : IndexEntry) (j : TyLsm.IndexEntry) : Prop where
  firstKey : i.firstKey = j.firstKey
  lastKey : i.lastKey = j.lastKey
  block : ∃ bytes, Stored crc32c zstd file i.handle bytes ∧ decodeBlock bytes = .ok j.block

/-- The file builder `b` and the decoded builder `t` after the same entries. -/
structure SSTableBuilder.Writes (b : SSTableBuilder) (t : TyLsm.SSTableBuilder) : Prop where
  offset : b.offset = b.file.length
  blockSize : b.blockSize = t.blockSize
  currentBlock : b.currentBlock = t.currentBlock
  firstKey : b.currentBlockFirstKey = t.currentBlockFirstKey
  smallest : b.smallestKey = t.smallestKey
  largest : b.largestKey = t.largestKey
  filterKeys : b.filterKeys = t.filterKeys
  numEntries : b.numEntries = t.numEntries
  index : List.Forall₂ (Reads crc32c zstd b.file) b.indexEntries t.indexEntries
  encodes : t.currentBlock.Encodes t.currentEntries

variable {crc32c zstd}

theorem Reads.append {file : Bytes} {i : IndexEntry} {j : TyLsm.IndexEntry}
    (h : Reads crc32c zstd file i j) (more : Bytes) : Reads crc32c zstd (file ++ more) i j := by
  obtain ⟨bytes, hstored, hdecode⟩ := h.block
  exact ⟨h.firstKey, h.lastKey, bytes, hstored.append more, hdecode⟩

namespace SSTableBuilder

theorem writes_create (crc32c : Bytes → UInt32) (zstd : Zstd) (blockSize : Nat)
    (compression : CompressionType) :
    (create blockSize compression).Writes crc32c zstd (.create blockSize) where
  offset := rfl
  blockSize := rfl
  currentBlock := rfl
  firstKey := rfl
  smallest := rfl
  largest := rfl
  filterKeys := rfl
  numEntries := rfl
  index := .nil
  encodes := BlockBuilder.encodes_new 16

theorem Writes.flushCurrentBlock (hz : zstd.Lossless) {b : SSTableBuilder}
    {t : TyLsm.SSTableBuilder} (h : b.Writes crc32c zstd t)
    (hcount : t.currentEntries.length < 2 ^ 32) :
    ∃ b', b.flushCurrentBlock crc32c zstd = .ok b' ∧
      b'.Writes crc32c zstd t.flushCurrentBlock := by
  obtain ⟨file, offset, blockSize, block, firstKey, index, smallest, largest, keys, n, c⟩ := b
  obtain ⟨hoffset, rfl, rfl, rfl, rfl, rfl, rfl, rfl, hindex, hencodes⟩ := h
  unfold SSTableBuilder.flushCurrentBlock TyLsm.SSTableBuilder.flushCurrentBlock
  have hsame : ∃ b', (.ok ⟨file, offset, t.blockSize, t.currentBlock, t.currentBlockFirstKey,
      index, t.smallestKey, t.largestKey, t.filterKeys, t.numEntries, c⟩ :
      Except Error SSTableBuilder) = .ok b' ∧ b'.Writes crc32c zstd t :=
    ⟨_, rfl, hoffset, rfl, rfl, rfl, rfl, rfl, rfl, rfl, hindex, hencodes⟩
  by_cases hempty : t.currentBlock.isEmpty = true
  · rw [if_pos hempty, if_pos hempty]
    exact hsame
  · rw [if_neg hempty, if_neg hempty]
    cases hfirst : t.currentBlockFirstKey with
    | none =>
      rw [hfirst] at hsame
      exact hsame
    | some firstKey =>
      cases hlast : t.largestKey with
      | none =>
        rw [hfirst, hlast] at hsame
        exact hsame
      | some lastKey =>
        obtain ⟨more, handle, hwrite, hstored⟩ := writeBlock_ok crc32c hz
          (b := ⟨file, offset, t.blockSize, .new 16, none, index, t.smallestKey, some lastKey,
            t.filterKeys, t.numEntries, c⟩) hoffset t.currentBlock.finish
        have hrestarts := hencodes.length_trailer.trans_lt (max_lt hcount (by norm_num))
        dsimp only
        rw [hwrite]
        exact ⟨_, rfl, rfl, rfl, rfl, rfl, rfl, rfl, rfl, rfl,
          List.rel_append (hindex.imp fun i j hij => hij.append more)
            (.cons ⟨rfl, rfl, _, hstored, hencodes.decodeBlock_finish hrestarts⟩ .nil),
          BlockBuilder.encodes_new 16⟩

theorem Writes.add (hz : zstd.Lossless) {b : SSTableBuilder} {t : TyLsm.SSTableBuilder}
    (h : b.Writes crc32c zstd t) {e : Entry} (hfits : EntryFits e) (hmatched : Matched e)
    (hcount : t.currentEntries.length + 1 < 2 ^ 32) :
    ∃ b', b.add crc32c zstd e.1 e.2 = .ok b' ∧ b'.Writes crc32c zstd (t.add e.1 e.2) := by
  have hentry : TyLsm.SSTableBuilder.blockEntry e.1 e.2 = e := by
    obtain ⟨⟨u, s, k⟩, v⟩ := e
    simp only [TyLsm.SSTableBuilder.blockEntry, ← show k = v.valueType from hmatched]
  have hencodes := h.encodes.add hfits hmatched
  obtain ⟨file, offset, blockSize, block, firstKey, index, smallest, largest, keys, n, c⟩ := b
  obtain ⟨hoffset, rfl, rfl, rfl, rfl, rfl, rfl, rfl, hindex, -⟩ := h
  unfold SSTableBuilder.add TyLsm.SSTableBuilder.add
  dsimp only
  rw [hentry]
  split
  · refine Writes.flushCurrentBlock hz ⟨hoffset, rfl, rfl, rfl, rfl, rfl, rfl, rfl, hindex,
      hencodes⟩ ?_
    rw [List.length_append, List.length_singleton]
    exact hcount
  · exact ⟨_, rfl, hoffset, rfl, rfl, rfl, rfl, rfl, rfl, rfl, hindex, hencodes⟩

theorem writes_foldlM (hz : zstd.Lossless) {es before : List Entry} {b : SSTableBuilder}
    {t : TyLsm.SSTableBuilder} (h : b.Writes crc32c zstd t) (ht : t.Holds before)
    (hfits : ∀ e ∈ es, EntryFits e) (hmatched : ∀ e ∈ es, Matched e)
    (hcount : (before ++ es).length < 2 ^ 32) :
    ∃ b', es.foldlM (fun (b : SSTableBuilder) e => b.add crc32c zstd e.1 e.2) b = .ok b' ∧
      b'.Writes crc32c zstd (es.foldl (fun t e => t.add e.1 e.2) t) := by
  induction es generalizing before b t with
  | nil => exact ⟨b, rfl, h⟩
  | cons e es ih =>
    have hcurrent : t.currentEntries.length + 1 < 2 ^ 32 := by
      have hlen := congrArg List.length ht.entries
      simp only [List.length_append, List.length_cons] at hlen hcount
      omega
    obtain ⟨b', hadd, hb'⟩ := h.add hz (hfits e (by simp)) (hmatched e (by simp)) hcurrent
    obtain ⟨b'', hrest, hb''⟩ := ih hb' (ht.add (hmatched e (by simp)))
      (fun x hx => hfits x (by simp [hx])) (fun x hx => hmatched x (by simp [hx]))
      (by simpa using hcount)
    refine ⟨b'', ?_, hb''⟩
    rw [List.foldlM_cons, hadd]
    exact hrest

end SSTableBuilder

/-! What a decoded builder holds fits the fields of the metadata. -/

theorem numEntries_flushCurrentBlock (t : TyLsm.SSTableBuilder) :
    t.flushCurrentBlock.numEntries = t.numEntries := by
  unfold TyLsm.SSTableBuilder.flushCurrentBlock
  split
  · rfl
  · split <;> rfl

theorem numEntries_foldl (es : List Entry) (t : TyLsm.SSTableBuilder) :
    (es.foldl (fun t e => t.add e.1 e.2) t).numEntries = t.numEntries + es.length := by
  induction es generalizing t with
  | nil => rfl
  | cons e es ih =>
    have hadd : (t.add e.1 e.2).numEntries = t.numEntries + 1 := by
      unfold TyLsm.SSTableBuilder.add
      dsimp only
      split
      · rw [numEntries_flushCurrentBlock]
      · rfl
    rw [List.foldl_cons, ih, hadd, List.length_cons]
    omega

theorem length_putVarLoop_le (n value : Nat) : (putVarLoop n value).length ≤ n + 1 := by
  induction n generalizing value with
  | zero => exact le_rfl
  | succ n ih =>
    rw [putVarLoop]
    split
    · simp
    · have := ih (value / 0x80)
      rw [List.length_cons]
      omega

theorem length_bloomFilterBytes {keys : List Bytes} (h : bloomBitLen keys.length < 2 ^ 32) :
    (bloomFilterBytes keys).length < 2 ^ 32 := by
  cases keys with
  | nil => exact Nat.two_pow_pos 32
  | cons key keys =>
    have hbits := (foldl_addKey_keeps (bloomBitLen (key :: keys).length) defaultProbes
      (key :: keys) (List.replicate ((bloomBitLen (key :: keys).length + 7) / 8) 0)).1
    have hvar := length_putVarLoop_le 9 (asU32 (bloomBitLen (key :: keys).length))
    have hlen : (bloomFilterBytes (key :: keys)).length =
        (putVarLoop 9 (asU32 (bloomBitLen (key :: keys).length))).length +
          (bloomBitLen (key :: keys).length + 7) / 8 + 1 := by
      rw [List.length_replicate] at hbits
      rw [← hbits]
      simp only [bloomFilterBytes, buildBloomFilter, List.isEmpty_cons, Bool.false_eq_true,
        if_false, List.length_append, List.length_singleton]
      rfl
    omega

theorem length_le_flatMap_block {index : List TyLsm.IndexEntry} (h : ∀ i ∈ index, i.Ok) :
    index.length ≤ (index.flatMap IndexEntry.block).length := by
  induction index with
  | nil => exact le_rfl
  | cons i index ih =>
    obtain ⟨e, he, -⟩ := (h i (by simp)).head
    have hpos : 0 < i.block.length := List.length_pos_of_mem (List.mem_of_mem_head? he)
    have hrest := ih fun j hj => h j (by simp [hj])
    rw [List.length_cons, List.flatMap_cons, List.length_append]
    omega

theorem indexKeys_encodable {t : TyLsm.SSTableBuilder} {es : List Entry} (ht : t.Holds es)
    (hfits : ∀ e ∈ es, EntryFits e) {j : TyLsm.IndexEntry} (hj : j ∈ t.indexEntries) :
    j.firstKey.Encodable ∧ j.lastKey.Encodable := by
  have hmem : ∀ e ∈ j.block, e ∈ es := by
    intro e he
    rw [← ht.entries]
    exact List.mem_append_left _ (List.mem_flatMap.mpr ⟨j, hj, he⟩)
  obtain ⟨first, hfirst, hfirstKey⟩ := (ht.indexOk j hj).head
  obtain ⟨last, hlast, hlastKey⟩ := (ht.indexOk j hj).last
  rw [← hfirstKey, ← hlastKey]
  exact ⟨(hfits first (hmem first (List.mem_of_mem_head? hfirst))).key,
    (hfits last (hmem last (List.mem_of_mem_getLast? hlast))).key⟩

/-! Opening. -/

variable (crc32c zstd) in
/-- The open reader `r` of a file shows the decoded table `t`. -/
structure SSTableReader.Shows (r : SSTableReader) (t : Table) : Prop where
  index : List.Forall₂ (Reads crc32c zstd r.file) r.index t.index
  smallest : r.smallestKey = t.properties.smallestKey
  largest : r.largestKey = t.properties.largestKey
  filter : r.filter = t.properties.filter

theorem index_encodable {file : Bytes} {index : List IndexEntry} {t : TyLsm.SSTableBuilder}
    {es : List Entry} (h : List.Forall₂ (Reads crc32c zstd file) index t.indexEntries)
    (ht : t.Holds es) (hfits : ∀ e ∈ es, EntryFits e) (hfile : file.length < 2 ^ 64) :
    ∀ i ∈ index, i.Encodable := by
  intro i hi
  obtain ⟨j, hj, hij⟩ : ∃ j ∈ t.indexEntries, Reads crc32c zstd file i j := by
    obtain ⟨n, hn, rfl⟩ := List.mem_iff_getElem.mp hi
    have hn' : n < t.indexEntries.length := h.length_eq ▸ hn
    exact ⟨_, List.getElem_mem hn', h.get hn hn'⟩
  obtain ⟨bytes, hstored, -⟩ := hij.block
  obtain ⟨hfirst, hlast⟩ := indexKeys_encodable ht hfits hj
  exact ⟨hij.firstKey ▸ hfirst, hij.lastKey ▸ hlast, hstored.encodable hfile⟩

theorem properties_encodable {t : TyLsm.SSTableBuilder} {es : List Entry} (ht : t.Holds es)
    (hn : t.numEntries = es.length) (hfits : ∀ e ∈ es, EntryFits e)
    (hbits : bloomBitLen es.length < 2 ^ 32) :
    (⟨t.numEntries, t.smallestKey, t.largestKey, bloomFilterBytes t.filterKeys⟩ :
      TableProperties).Encodable := by
  constructor
  · dsimp only
    rw [hn]
    unfold bloomBitLen defaultBitsPerKey at hbits
    omega
  · intro key hkey
    dsimp only at hkey
    rw [ht.smallest, Option.mem_def, Option.map_eq_some_iff] at hkey
    obtain ⟨e, he, rfl⟩ := hkey
    exact (hfits e (List.mem_of_mem_head? he)).key
  · intro key hkey
    dsimp only at hkey
    rw [ht.largest, Option.mem_def, Option.map_eq_some_iff] at hkey
    obtain ⟨e, he, rfl⟩ := hkey
    exact (hfits e (List.mem_of_mem_getLast? he)).key
  · refine length_bloomFilterBytes ?_
    rw [ht.filterKeys, List.length_map]
    exact hbits

theorem openWithEnv_ok {front : Bytes} {propertiesHandle indexHandle : BlockHandle}
    {properties : TableProperties} {index : List IndexEntry}
    (hfile : (front ++ encodeFooter propertiesHandle indexHandle).length < 2 ^ 64)
    (hp : Stored crc32c zstd front propertiesHandle properties.encode)
    (hi : Stored crc32c zstd front indexHandle (encodeIndexEntries index))
    (hproperties : properties.Encodable) (hcount : index.length < 2 ^ 32)
    (hindex : ∀ i ∈ index, i.Encodable) :
    SSTableReader.openWithEnv crc32c zstd (front ++ encodeFooter propertiesHandle indexHandle) =
      .ok ⟨front ++ encodeFooter propertiesHandle indexHandle, index, properties,
        BloomFilter.fromBytes properties.filter⟩ := by
  have hlen : (front ++ encodeFooter propertiesHandle indexHandle).length =
      front.length + footerSize := by
    rw [List.length_append, length_encodeFooter]
  have hsmall : ¬ (front ++ encodeFooter propertiesHandle indexHandle).length < footerSize := by
    rw [hlen]
    omega
  have hfront : front.length < 2 ^ 64 := by omega
  have hfooter : readExactAt (front ++ encodeFooter propertiesHandle indexHandle)
      ((front ++ encodeFooter propertiesHandle indexHandle).length - footerSize) footerSize =
      .ok (encodeFooter propertiesHandle indexHandle) := by
    rw [hlen, Nat.add_sub_cancel, ← length_encodeFooter propertiesHandle indexHandle]
    simpa using readExactAt_append front (encodeFooter propertiesHandle indexHandle) []
  simp only [SSTableReader.openWithEnv, if_neg hsmall, hfooter,
    decodeFooter_encodeFooter (hp.encodable hfront) (hi.encodable hfront), hp.read, hi.read,
    TableProperties.decode_encode hproperties, decodeIndexEntries_encode hcount hindex, bind,
    Except.bind]
  rfl

theorem SSTableBuilder.Writes.finish (hz : zstd.Lossless) {b : SSTableBuilder} {t : TyLsm.SSTableBuilder}
    {es : List Entry} (h : b.Writes crc32c zstd t) (ht : t.Holds es)
    (hn : t.numEntries = es.length) (hfits : ∀ e ∈ es, EntryFits e)
    (hbits : bloomBitLen es.length < 2 ^ 32) :
    ∃ file, b.finish crc32c zstd = .ok file ∧ (file.length < 2 ^ 64 →
      ∃ r, SSTableReader.openWithEnv crc32c zstd file = .ok r ∧
        r.Shows crc32c zstd t.finish) := by
  have hes : es.length < 2 ^ 32 := by
    unfold bloomBitLen defaultBitsPerKey at hbits
    omega
  have hcurrent : t.currentEntries.length < 2 ^ 32 := by
    have hlen := congrArg List.length ht.entries
    rw [List.length_append] at hlen
    omega
  obtain ⟨b₁, hflush, hw⟩ := h.flushCurrentBlock hz hcurrent
  have hT := ht.flushCurrentBlock.1
  have hnT : t.flushCurrentBlock.numEntries = es.length := by
    rw [numEntries_flushCurrentBlock, hn]
  let properties : TableProperties :=
    ⟨b₁.numEntries, b₁.smallestKey, b₁.largestKey, bloomFilterBytes b₁.filterKeys⟩
  obtain ⟨more₁, propertiesHandle, hwrite₁, hstored₁⟩ :=
    writeBlock_ok crc32c hz hw.offset properties.encode
  obtain ⟨more₂, indexHandle, hwrite₂, hstored₂⟩ :=
    writeBlock_ok crc32c hz (b := { b₁ with
      file := b₁.file ++ more₁, offset := (b₁.file ++ more₁).length }) rfl
      (encodeIndexEntries b₁.indexEntries)
  have hfinish : b.finish crc32c zstd =
      .ok (b₁.file ++ more₁ ++ more₂ ++ encodeFooter propertiesHandle indexHandle) := by
    simp only [SSTableBuilder.finish, hflush, bind, Except.bind]
    rw [hwrite₁]
    dsimp only
    rw [hwrite₂]
    rfl
  refine ⟨_, hfinish, fun hfile => ?_⟩
  have hfront : b₁.file.length < 2 ^ 64 := by
    simp only [List.length_append] at hfile
    omega
  have hindexLen : b₁.indexEntries.length < 2 ^ 32 := by
    have hle := length_le_flatMap_block hT.indexOk
    have hlen := congrArg List.length hT.entries
    rw [List.length_append] at hlen
    rw [hw.index.length_eq]
    omega
  have hproperties : properties.Encodable := by
    have hp := properties_encodable hT hnT hfits hbits
    rw [← hw.numEntries, ← hw.smallest, ← hw.largest, ← hw.filterKeys] at hp
    exact hp
  have hopen := openWithEnv_ok hfile (hstored₁.append more₂) hstored₂ hproperties hindexLen
    (index_encodable hw.index hT hfits hfront)
  refine ⟨_, hopen, ?_, hw.smallest, hw.largest, ?_⟩
  · refine hw.index.imp fun i j hij => ?_
    rw [List.append_assoc, List.append_assoc]
    exact hij.append _
  · change BloomFilter.fromBytes (bloomFilterBytes b₁.filterKeys) =
      buildBloomFilter t.flushCurrentBlock.filterKeys
    rw [hw.filterKeys, hT.filterKeys]
    refine bloomFilter_fromBytes ?_
    rw [List.length_map]
    exact hbits

/-! Reading. -/

theorem Reads.readDecodedBlock {r : SSTableReader} {i : IndexEntry} {j : TyLsm.IndexEntry}
    (h : Reads crc32c zstd r.file i j) : r.readDecodedBlock crc32c zstd i = .ok j.block := by
  obtain ⟨bytes, hstored, hdecode⟩ := h.block
  have hread := hstored.read []
  rw [List.append_nil] at hread
  rw [SSTableReader.readDecodedBlock, hread]
  exact hdecode

theorem entriesLoop_eq {r : SSTableReader} {index : List IndexEntry}
    {decoded : List TyLsm.IndexEntry}
    (h : List.Forall₂ (Reads crc32c zstd r.file) index decoded) :
    r.entriesLoop crc32c zstd index = .ok (decoded.flatMap IndexEntry.block) := by
  induction h with
  | nil => rfl
  | cons hij _ ih =>
    rw [SSTableReader.entriesLoop, hij.readDecodedBlock, ih]
    rfl

theorem getLoop_eq {r : SSTableReader} {index : List IndexEntry}
    {decoded : List TyLsm.IndexEntry} (userKey : Bytes) (readSeq : Nat)
    (h : List.Forall₂ (Reads crc32c zstd r.file) index decoded) :
    r.getLoop crc32c zstd userKey readSeq index = .ok ((decoded.findSome? (fun j =>
      if TyLsm.indexMayContainUserKey j userKey then newest userKey readSeq j.block
      else none)).map Prod.snd) := by
  induction h with
  | nil => rfl
  | @cons i j index decoded hij _ ih =>
    have hrange : indexMayContainUserKey i userKey = TyLsm.indexMayContainUserKey j userKey := by
      rw [indexMayContainUserKey, hij.firstKey, hij.lastKey]
      rfl
    rw [SSTableReader.getLoop, hrange, List.findSome?_cons, ih]
    cases hin : TyLsm.indexMayContainUserKey j userKey with
    | false => rfl
    | true =>
      rw [hij.readDecodedBlock]
      have hfind : j.block.find?
          (fun e => decide (e.1.userKey = userKey ∧ e.1.sequence ≤ readSeq)) =
          newest userKey readSeq j.block := rfl
      simp only [Bool.not_true, Bool.false_eq_true, if_false, if_true, bind, Except.bind, hfind]
      cases newest userKey readSeq j.block <;> rfl

namespace SSTableReader.Shows

variable {r : SSTableReader} {t : Table}

theorem entries_eq (h : r.Shows crc32c zstd t) : r.entries crc32c zstd = .ok t.entries :=
  entriesLoop_eq h.index

theorem get_eq (h : r.Shows crc32c zstd t) (userKey : Bytes) (readSeq : Nat) :
    r.get crc32c zstd userKey readSeq = .ok (t.get userKey readSeq) := by
  have hfilter : r.mightContain userKey = t.mightContain userKey := by
    rw [mightContain, h.filter]
    rfl
  rw [get, Table.get, hfilter, getLoop_eq userKey readSeq h.index]
  cases t.mightContain userKey <;> rfl

end SSTableReader.Shows

theorem buildFile_shows (crc32c : Bytes → UInt32) (hz : zstd.Lossless) (blockSize : Nat)
    (compression : CompressionType) {es : List Entry} (hmatched : ∀ e ∈ es, Matched e)
    (hfits : ∀ e ∈ es, EntryFits e) (hbits : bloomBitLen es.length < 2 ^ 32) :
    ∃ file, buildFile crc32c zstd blockSize compression es = .ok file ∧
      (file.length < 2 ^ 64 → ∃ r, SSTableReader.openWithEnv crc32c zstd file = .ok r ∧
        r.Shows crc32c zstd (buildTable blockSize es)) := by
  have hcount : ([] ++ es).length < 2 ^ 32 := by
    unfold bloomBitLen defaultBitsPerKey at hbits
    rw [List.nil_append]
    omega
  obtain ⟨b, hadd, hw⟩ := SSTableBuilder.writes_foldlM hz
    (SSTableBuilder.writes_create crc32c zstd blockSize compression)
    (TyLsm.SSTableBuilder.holds_create blockSize) hfits hmatched hcount
  have ht := TyLsm.SSTableBuilder.holds_foldl (TyLsm.SSTableBuilder.holds_create blockSize) hmatched
  have hn := numEntries_foldl es (TyLsm.SSTableBuilder.create blockSize)
  have hzero : (TyLsm.SSTableBuilder.create blockSize).numEntries = 0 := rfl
  obtain ⟨file, hfinish, hopen⟩ := hw.finish hz ht (by rw [hn, hzero]; simp) hfits hbits
  refine ⟨file, ?_, hopen⟩
  rw [buildFile, hadd]
  exact hfinish

/-- A table written from sorted entries is opened and read back as those entries. -/
theorem sstable_round_trip (crc32c : Bytes → UInt32) {zstd : Zstd} (hz : zstd.Lossless)
    (blockSize : Nat) (compression : CompressionType) {es : List Entry} (hne : es ≠ [])
    (hsorted : SortedEntries es) (hmatched : ∀ e ∈ es, Matched e)
    (hfits : ∀ e ∈ es, EntryFits e) (hbits : bloomBitLen es.length < 2 ^ 32) :
    ∃ file, buildFile crc32c zstd blockSize compression es = .ok file ∧
      (file.length < 2 ^ 64 → ∃ r, SSTableReader.openWithEnv crc32c zstd file = .ok r ∧
        r.entries crc32c zstd = .ok es ∧
        r.smallestKey = es.head?.map Prod.fst ∧
        r.largestKey = es.getLast?.map Prod.fst ∧
        ∀ u s, r.get crc32c zstd u s = .ok ((es.find? (fun e =>
            decide (e.1.userKey = u ∧ e.1.sequence ≤ s))).map Prod.snd) ∧
          ∀ e, es.find? (fun e => decide (e.1.userKey = u ∧ e.1.sequence ≤ s)) = some e →
            ∀ e' ∈ es, e'.1.userKey = u → e'.1.sequence ≤ s →
              e'.1.sequence ≤ e.1.sequence) := by
  obtain ⟨file, hfile, hopen⟩ :=
    buildFile_shows crc32c hz blockSize compression hmatched hfits hbits
  refine ⟨file, hfile, fun hlen => ?_⟩
  obtain ⟨r, hr, hshows⟩ := hopen hlen
  have hwf := wellFormed_buildTable blockSize hne hsorted hmatched
  have hentries : (buildTable blockSize es).entries = es := entries_buildTable hmatched
  obtain ⟨first, hfirst, hsmallest⟩ := hwf.smallest
  obtain ⟨last, hlast, hlargest⟩ := hwf.largest
  rw [hentries] at hfirst hlast
  refine ⟨r, hr, ?_, ?_, ?_, fun u s => ⟨?_, fun e he => ?_⟩⟩
  · rw [hshows.entries_eq, hentries]
  · rw [hshows.smallest, hsmallest, hfirst]
    rfl
  · rw [hshows.largest, hlargest, hlast]
    rfl
  · rw [hshows.get_eq, hwf.get_eq_newest, hentries]
    rfl
  · exact SortedEntries.sequence_le_of_find hsorted he

/-- Frames with one raw block, as the library writes short input that does not compress. -/
def rawFrames : Zstd where
  encodeAll block := .ok ([0x28, 0xb5, 0x2f, 0xfd, 0x00, 0x58] ++
    (u32ToLeBytes (block.length * 8 + 1)).take 3 ++ block)
  decodeAll frame :=
    if frame.take 6 = [0x28, 0xb5, 0x2f, 0xfd, 0x00, 0x58] then .ok (frame.drop 9)
    else .error (.io .other "Unknown frame descriptor")

theorem rawFrames_lossless : rawFrames.Lossless := fun _ => rfl

/-- Two versions of a key that fall into two blocks, and another key. -/
def smallEntries : List Entry :=
  [(⟨[1], 7, .delete⟩, .delete), (⟨[1], 4, .put⟩, .put [9, 9]), (⟨[1, 2], 5, .put⟩, .put [])]

theorem sstable_round_trip_small :
    ∃ file, buildFile castagnoli rawFrames 1 .zstd smallEntries = .ok file ∧
      ∃ r, SSTableReader.openWithEnv castagnoli rawFrames file = .ok r ∧
        r.entries castagnoli rawFrames = .ok smallEntries ∧
        r.get castagnoli rawFrames [1] 6 = .ok (some (.put [9, 9])) ∧
        r.get castagnoli rawFrames [1, 2] 4 = .ok none := by
  have hsize : (buildFile castagnoli rawFrames 1 .zstd smallEntries).toOption.all
      (fun file => file.length < 2 ^ 64) = true := by decide +kernel
  have hne : smallEntries ≠ [] := List.cons_ne_nil _ _
  have hfits : ∀ e ∈ smallEntries, EntryFits e := by
    intro e he
    simp only [smallEntries, List.mem_cons, List.not_mem_nil, or_false] at he
    rcases he with rfl | rfl | rfl <;> exact ⟨⟨by decide, by decide⟩, by decide⟩
  obtain ⟨file, hfile, hopen⟩ := sstable_round_trip castagnoli rawFrames_lossless 1 .zstd
    hne (by unfold SortedEntries; decide) (by unfold Matched; decide) hfits
    (by decide)
  rw [hfile] at hsize
  obtain ⟨r, hr, hentries, -, -, hget⟩ := hopen (of_decide_eq_true hsize)
  exact ⟨file, hfile, r, hr, hentries, (hget [1] 6).1, (hget [1, 2] 4).1⟩

end TableFile

end TyLsm
