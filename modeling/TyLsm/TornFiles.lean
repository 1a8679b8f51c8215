import TyLsm.Journals
import TyLsm.LogCasts
import TyLsm.ManifestReplay
import TyLsm.Rendering

/-! The files after a stop at any byte. A log may end in a part of a record; no reader
looks at any other file that is not finished. -/

namespace TyLsm

/-! What fits the widths of the formats. -/

/-- A table whose entries and file fit the formats. -/
structure TableFits (F : FileFormat) (blockSize : Nat) (table : Table) : Prop where
  entries : ∀ e ∈ table.entries, EntryFits e
  filter : bloomBitLen table.entries.length < 2 ^ 32
  file : (F.tableBytes blockSize table).length < 2 ^ 64

/-- What is on disk fits its format. -/
structure Disk.Fits (F : FileFormat) (blockSize : Nat) (disk : Disk) : Prop where
  manifest : ∀ edit ∈ disk.manifest, edit.Loggable
  wals : ∀ n log, disk.wals n = some log → ∀ record ∈ log, SizeFits record
  tables : ∀ n table, disk.tables n = some table →
    table.Built blockSize ∧ TableFits F blockSize table

/-- What an operation writes fits its format. -/
def DiskOp.Fits (F : FileFormat) (blockSize : Nat) : DiskOp → Prop
  | appendManifest edit => edit.Loggable
  | appendWal _ startSequence batch => SizeFits (startSequence, batch)
  | renameTable _ table => table.Built blockSize ∧ TableFits F blockSize table
  | _ => True

/-- What an operation writes fits the widths of its format. -/
def DiskOp.Sized (F : FileFormat) (blockSize : Nat) : DiskOp → Prop
  | appendManifest edit => edit.Loggable
  | appendWal _ startSequence batch => SizeFits (startSequence, batch)
  | renameTable _ table => TableFits F blockSize table
  | _ => True

variable {F : FileFormat} {crc32c : Bytes → UInt32} {blockSize : Nat}

theorem DiskOp.Ordinary.fits {op : DiskOp} (h : op.Ordinary blockSize)
    (hsized : op.Sized F blockSize) : op.Fits F blockSize := by
  cases op with
  | renameTable number table => exact ⟨h, hsized⟩
  | appendManifest edit => exact hsized
  | appendWal number startSequence batch => exact hsized
  | createDir => trivial
  | createManifest => trivial
  | setCurrent => trivial
  | openWal number => trivial
  | removeTable number => trivial

instance (key : InternalKey) : Decidable key.Encodable :=
  inferInstanceAs (Decidable (key.userKey.length < 2 ^ 32 ∧ key.sequence < 2 ^ 64))

instance (e : Entry) : Decidable (EntryFits e) :=
  decidable_of_iff (e.1.Encodable ∧ e.2.bytes.length < 2 ^ 32)
    ⟨fun h => ⟨h.1, h.2⟩, fun h => ⟨h.1, h.2⟩⟩

instance (file : FileMeta) : Decidable file.Encodable :=
  decidable_of_iff ((file.number < 2 ^ 64 ∧ file.fileSize < 2 ^ 64) ∧
    (file.smallest.Encodable ∧ file.largest.Encodable) ∧
    file.smallestSeq < 2 ^ 64 ∧ file.largestSeq < 2 ^ 64)
    ⟨fun h => ⟨h.1.1, h.1.2, h.2.1.1, h.2.1.2, h.2.2.1, h.2.2.2⟩,
      fun h => ⟨⟨h.1, h.2⟩, ⟨h.3, h.4⟩, h.5, h.6⟩⟩

instance : (edit : VersionEdit) → Decidable edit.Loggable
  | .nextFileNumber number => inferInstanceAs (Decidable (number < 2 ^ 64 ∧ _))
  | .lastSequence sequence => inferInstanceAs (Decidable (sequence < 2 ^ 64 ∧ _))
  | .logNumber number => inferInstanceAs (Decidable (number < 2 ^ 64 ∧ _))
  | .addFile level file => inferInstanceAs (Decidable ((level < 2 ^ 32 ∧ file.Encodable) ∧ _))
  | .deleteFile level number =>
    inferInstanceAs (Decidable ((level < 2 ^ 32 ∧ number < 2 ^ 64) ∧ _))

instance (F : FileFormat) (blockSize : Nat) (table : Table) :
    Decidable (TableFits F blockSize table) :=
  decidable_of_iff ((∀ e ∈ table.entries, EntryFits e) ∧
    bloomBitLen table.entries.length < 2 ^ 32 ∧ (F.tableBytes blockSize table).length < 2 ^ 64)
    ⟨fun h => ⟨h.1, h.2.1, h.2.2⟩, fun h => ⟨h.entries, h.filter, h.file⟩⟩

instance (F : FileFormat) (blockSize : Nat) : (op : DiskOp) → Decidable (op.Sized F blockSize)
  | .appendManifest edit => inferInstanceAs (Decidable edit.Loggable)
  | .appendWal _ startSequence batch =>
    inferInstanceAs (Decidable (startSequence < 2 ^ 64 ∧ batch.payloadSize startSequence < 2 ^ 32))
  | .renameTable _ table => inferInstanceAs (Decidable (TableFits F blockSize table))
  | .createDir => isTrue trivial
  | .createManifest => isTrue trivial
  | .setCurrent => isTrue trivial
  | .openWal _ => isTrue trivial
  | .removeTable _ => isTrue trivial

theorem forall_update {β : Type} {f : Nat → Option β} {P : β → Prop}
    (h : ∀ n b, f n = some b → P b) (m : Nat) {v : Option β} (hv : ∀ b, v = some b → P b) :
    ∀ n b, Function.update f m v n = some b → P b := by
  intro n b hb
  by_cases hn : n = m
  · subst hn
    exact hv b (by simpa using hb)
  · exact h n b (by simpa [Function.update_of_ne hn] using hb)

theorem Disk.Fits.apply {blockSize : Nat} {disk : Disk} (h : disk.Fits F blockSize) {op : DiskOp}
    (hop : op.Fits F blockSize) : (disk.apply op).Fits F blockSize := by
  have hlog : ∀ n, ∀ record ∈ (disk.wals n).getD [], SizeFits record := by
    intro n record hrecord
    cases hold : disk.wals n with
    | none => simp [hold] at hrecord
    | some old => exact h.wals n old hold record (by simpa [hold] using hrecord)
  cases op with
  | createDir => exact ⟨h.manifest, h.wals, h.tables⟩
  | createManifest => exact ⟨by simp [Disk.apply], h.wals, h.tables⟩
  | setCurrent => exact ⟨h.manifest, h.wals, h.tables⟩
  | appendManifest edit =>
    refine ⟨fun e he => ?_, h.wals, h.tables⟩
    rcases List.mem_append.mp he with he | he
    · exact h.manifest e he
    · rwa [List.mem_singleton.mp he]
  | openWal number =>
    refine ⟨h.manifest, forall_update h.wals number fun log hsome => ?_, h.tables⟩
    obtain rfl := Option.some.inj hsome
    exact hlog number
  | appendWal number startSequence batch =>
    refine ⟨h.manifest, forall_update h.wals number fun log hsome => ?_, h.tables⟩
    obtain rfl := Option.some.inj hsome
    intro record hrecord
    rcases List.mem_append.mp hrecord with hrecord | hrecord
    · exact hlog number record hrecord
    · rwa [List.mem_singleton.mp hrecord]
  | renameTable number table =>
    refine ⟨h.manifest, h.wals, forall_update h.tables number fun table' hsome => ?_⟩
    obtain rfl := Option.some.inj hsome
    exact hop
  | removeTable number =>
    exact ⟨h.manifest, h.wals, forall_update h.tables number fun _ hsome => by cases hsome⟩

theorem Disk.Fits.applyAll {blockSize : Nat} {disk : Disk} (h : disk.Fits F blockSize)
    {ops : List DiskOp} (hops : ∀ op ∈ ops, op.Fits F blockSize) :
    (disk.applyAll ops).Fits F blockSize := by
  induction ops generalizing disk with
  | nil => exact h
  | cons op ops ih => exact ih (h.apply (hops op (by simp))) fun op' hop => hops op' (by simp [hop])

theorem fits_empty (blockSize : Nat) (path : String) : (Disk.empty path).Fits F blockSize :=
  ⟨by simp [Disk.empty], by simp [Disk.empty], by simp [Disk.empty]⟩

theorem fits_createOps (blockSize : Nat) : ∀ op ∈ DB.createOps, op.Fits F blockSize := by
  intro op hop
  rcases List.mem_cons.mp hop with rfl | hop
  · trivial
  rcases List.mem_append.mp hop with hop | hop
  · obtain ⟨edit, hedit, rfl⟩ := List.mem_map.mp hop
    exact createEdits_loggable edit hedit
  · rw [List.mem_singleton.mp hop]
    trivial

/-! Reading a log with a torn end. -/

theorem recoverWalFile_holds {bytes : Bytes} {log : List (Nat × WriteBatch)}
    (h : (walFraming crc32c).Holds bytes (log.map logPayload))
    (hlog : ∀ record ∈ log, SizeFits record)
    (state : DBState) (chunks : Nat → Nat) :
    recoverWalFile crc32c state ⟨bytes, chunks⟩ = .ok (state.recoverWal log) := by
  have hp : ∀ payload ∈ log.map logPayload, Loggable payload := by
    intro payload hmem
    obtain ⟨record, hrecord, rfl⟩ := List.mem_map.mp hmem
    exact (hlog record hrecord).fits.loggable
  -- the reader folds the payloads, as it does on the file without the tail
  have hwhole : recoverWalFile crc32c state ⟨logBytes crc32c log, chunks⟩ =
      .ok (state.recoverWal log) := recoverWalFile_logBytes hlog state chunks
  have hbytes : logBytes crc32c log = (walFraming crc32c).frames (log.map logPayload) := by
    rw [logBytes, walFile_eq, List.nil_append]
    rfl
  rw [hbytes, recoverWalFile, readRecords_eq,
    Framing.readInto_of_read le_rfl (Framing.read_frames hp)] at hwhole
  rw [recoverWalFile, readRecords_eq, Framing.readInto_of_read le_rfl (h.read hp)]
  exact hwhole

theorem recover_holds {bytes : Bytes} {edits : List VersionEdit}
    (h : (walFraming crc32c).Holds bytes (edits.map VersionEdit.encode))
    (hedits : ∀ edit ∈ edits, edit.Loggable) (maxLevels : Nat) (chunks : Nat → Nat) :
    VersionSet.recover crc32c maxLevels ⟨bytes, chunks⟩ =
      (VersionSet.newEmpty maxLevels).replay edits := by
  have hread := readAll_of_read crc32c ⟨bytes, chunks⟩ (h.read (loggable_encode hedits))
    fun edit hmem => (hedits edit hmem).1
  rw [VersionSet.recover, hread]
  rfl

section

variable (F : FileFormat) (blockSize : Nat)

/-- `DB::open` finds in `dir` what it would find in the decoded directory. -/
structure Finds (disk : Disk) (dir : Directory) : Prop where
  made : dir.made = disk.dirExists
  current : dir.files currentFile =
    if disk.current then some (utf8 (manifestFileName 1 ++ "\n")) else none
  manifest : disk.current = true → ∃ bytes, dir.files (manifestFileName 1) = some bytes ∧
    (walFraming F.crc32c).Holds bytes (disk.manifest.map VersionEdit.encode)
  wals : ∀ n, (dir.files (walFileName n) = none ∧ (disk.wals n).getD [] = []) ∨
    ∃ bytes, dir.files (walFileName n) = some bytes ∧
      (walFraming F.crc32c).Holds bytes (((disk.wals n).getD []).map logPayload)
  tables : ∀ n, dir.files (tableFileName n) = (disk.tables n).map (F.tableBytes blockSize)

/-- The names of the files that `DB::open` reads. -/
inductive ReadName : String → Prop where
  | current : ReadName currentFile
  | manifest : ReadName (manifestFileName 1)
  | wal (n : Nat) : ReadName (walFileName n)
  | table (n : Nat) : ReadName (tableFileName n)

end

variable {disk : Disk} {dir dir' : Directory}

theorem Finds.congr (h : Finds F blockSize disk dir) (hmade : dir'.made = dir.made)
    (hfiles : ∀ name, ReadName name → dir'.files name = dir.files name) :
    Finds F blockSize disk dir' := by
  refine ⟨hmade.trans h.made, ?_, fun hcurrent => ?_, fun n => ?_, fun n => ?_⟩
  · rw [hfiles _ .current, h.current]
  · rw [hfiles _ .manifest]
    exact h.manifest hcurrent
  · rw [hfiles _ (.wal n)]
    exact h.wals n
  · rw [hfiles _ (.table n), h.tables]

theorem logBytes_eq (log : List (Nat × WriteBatch)) :
    logBytes crc32c log = (walFraming crc32c).frames (log.map logPayload) := by
  rw [logBytes, walFile_eq, List.nil_append]
  rfl

theorem Renders.finds (h : Renders F blockSize disk dir) : Finds F blockSize disk dir := by
  refine ⟨h.made, h.current, fun hcurrent => ?_, fun n => ?_, h.tables⟩
  · obtain ⟨bytes, hbytes⟩ := Option.isSome_iff_exists.mp (h.manifestMade hcurrent)
    have hmanifest := h.manifest
    rw [hbytes, Option.getD_some, manifestFile_eq, List.nil_append] at hmanifest
    exact ⟨bytes, hbytes, hmanifest ▸ Framing.holds_frames _⟩
  · rw [h.wals]
    cases disk.wals n with
    | none => exact .inl ⟨rfl, rfl⟩
    | some log => exact .inr ⟨_, rfl, logBytes_eq log ▸ Framing.holds_frames _⟩

theorem Renders.torn_appendManifest (h : Renders F blockSize disk dir) {edit : VersionEdit}
    (hedit : edit.Loggable) {n : Nat} (hn : n < (walRecord F.crc32c edit.encode).length) :
    Finds F blockSize disk (dir.apply (.writeAll (manifestFileName 1)
      ((walRecord F.crc32c edit.encode).take n))) := by
  have hd := h.finds
  have hother : ∀ name, lastLetter name ≠ some '1' → (dir.apply (.writeAll (manifestFileName 1)
      ((walRecord F.crc32c edit.encode).take n))).files name = dir.files name :=
    fun name hname => Renders.files_of_letter rfl (by simpa using hname)
  refine ⟨h.made, ?_, fun hcurrent => ?_, fun m => ?_, fun m => ?_⟩
  · rw [hother _ (by simp), hd.current]
  · obtain ⟨bytes, hbytes⟩ := Option.isSome_iff_exists.mp (h.manifestMade hcurrent)
    have hmanifest := h.manifest
    rw [hbytes, Option.getD_some, manifestFile_eq, List.nil_append] at hmanifest
    refine ⟨bytes ++ (walRecord F.crc32c edit.encode).take n, ?_, ?_⟩
    · simp [Directory.apply, hbytes]
    · rw [hmanifest]
      exact Framing.holds_torn (F := walFraming F.crc32c) _ hedit.payload hn
  · rw [hother _ (by simp)]
    exact hd.wals m
  · rw [hother _ (by simp), hd.tables]

theorem Renders.torn_appendWal (h : Renders F blockSize disk dir) {number startSequence : Nat}
    {batch : WriteBatch} (hsize : SizeFits (startSequence, batch)) {n : Nat}
    (hn : n < (walRecord F.crc32c (batch.encodeWithSequence startSequence)).length) :
    Finds F blockSize disk (dir.apply (.writeAll (walFileName number)
      ((walRecord F.crc32c (batch.encodeWithSequence startSequence)).take n))) := by
  have hd := h.finds
  have hother : ∀ name, lastLetter name ≠ some 'l' → (dir.apply (.writeAll (walFileName number)
      ((walRecord F.crc32c (batch.encodeWithSequence startSequence)).take n))).files name =
        dir.files name :=
    fun name hname => Renders.files_of_letter rfl (by simpa using hname)
  refine ⟨h.made, ?_, fun hcurrent => ?_, fun m => ?_, fun m => ?_⟩
  · rw [hother _ (by simp), hd.current]
  · rw [hother _ (by simp)]
    exact hd.manifest hcurrent
  · by_cases hm : m = number
    · subst hm
      have hloggable : Loggable (batch.encodeWithSequence startSequence) := hsize.fits.loggable
      have htorn : (walFraming F.crc32c).Holds
          ((walFraming F.crc32c).frames (((disk.wals m).getD []).map logPayload) ++
            (walRecord F.crc32c (batch.encodeWithSequence startSequence)).take n)
          (((disk.wals m).getD []).map logPayload) := Framing.holds_torn _ hloggable hn
      have hold : (dir.files (walFileName m)).getD [] =
          (walFraming F.crc32c).frames (((disk.wals m).getD []).map logPayload) := by
        rw [h.wals]
        cases disk.wals m with
        | none => rfl
        | some log => exact logBytes_eq log
      rw [← hold] at htorn
      exact .inr ⟨_, Directory.files_writeAll_self _ _ _, htorn⟩
    · rw [Directory.files_writeAll_of_ne _ _ (walFileName_injective.ne hm)]
      exact hd.wals m
  · rw [hother _ (by simp), hd.tables]

theorem lastLetter_read {name : String} (h : ReadName name) : lastLetter name ≠ some 'p' := by
  cases h <;> simp

/-- Until the rename, a file that is written under another name is not looked at. -/
theorem Renders.stopped_replaceOps (h : Renders F blockSize disk dir) {tmp target : String}
    (htmp : lastLetter tmp = some 'p') (bytes : Bytes) {i : Nat} (hi : i < 3) (n : Nat) :
    Finds F blockSize disk (dir.stopped (Directory.replaceOps tmp target bytes) i n) := by
  have hwritten : ∀ written, Finds F blockSize disk
      ((dir.apply (.openWritable tmp .fresh)).apply (.writeAll tmp written)) := by
    intro written
    rw [Directory.apply_openFresh]
    refine h.finds.congr rfl fun name hname => ?_
    have hne : name ≠ tmp := fun he => lastLetter_read hname (he ▸ htmp)
    rw [Directory.files_writeAll_of_ne _ _ hne]
    exact Function.update_of_ne hne _ _
  match i, hi with
  | 0, _ => exact h.finds
  | 1, _ => exact hwritten (bytes.take n)
  | 2, _ => exact hwritten bytes

/-- A stop inside an operation is one before it or behind it. -/
theorem Renders.stopped_fileOps (h : Renders F blockSize disk dir) {op : DiskOp}
    (hop : op.Sized F blockSize) {i : Nat} (hi : i < (op.fileOps F blockSize).length) (n : Nat) :
    Finds F blockSize disk (dir.stopped (op.fileOps F blockSize) i n) ∨
      (op.fileOps F blockSize).length = i + 1 ∧
        Finds F blockSize (disk.apply op) (dir.stopped (op.fileOps F blockSize) i n) := by
  cases op with
  | createDir =>
    obtain rfl : i = 0 := by simpa [DiskOp.fileOps] using hi
    exact .inl h.finds
  | createManifest =>
    obtain rfl : i = 0 := by simpa [DiskOp.fileOps] using hi
    exact .inl h.finds
  | appendManifest edit =>
    obtain rfl : i = 0 := by simpa [DiskOp.fileOps] using hi
    by_cases hn : n < (walRecord F.crc32c edit.encode).length
    · exact .inl (h.torn_appendManifest hop hn)
    · refine .inr ⟨rfl, ?_⟩
      have hwhole : (walRecord F.crc32c edit.encode).take n = walRecord F.crc32c edit.encode :=
        List.take_of_length_le (by omega)
      change Finds F blockSize _ (dir.apply (.writeAll (manifestFileName 1)
        ((walRecord F.crc32c edit.encode).take n)))
      rw [hwhole]
      exact (h.appendManifest edit).finds
  | setCurrent => exact .inl (h.stopped_replaceOps (by simp) _ hi n)
  | openWal number =>
    obtain rfl : i = 0 := by simpa [DiskOp.fileOps] using hi
    exact .inl h.finds
  | appendWal number startSequence batch =>
    obtain rfl : i = 0 := by simpa [DiskOp.fileOps] using hi
    by_cases hn : n < (walRecord F.crc32c (batch.encodeWithSequence startSequence)).length
    · exact .inl (h.torn_appendWal hop hn)
    · refine .inr ⟨rfl, ?_⟩
      have hwhole : (walRecord F.crc32c (batch.encodeWithSequence startSequence)).take n =
          walRecord F.crc32c (batch.encodeWithSequence startSequence) :=
        List.take_of_length_le (by omega)
      change Finds F blockSize _ (dir.apply (.writeAll (walFileName number)
        ((walRecord F.crc32c (batch.encodeWithSequence startSequence)).take n)))
      rw [hwhole]
      exact (h.appendWal number startSequence batch).finds
  | renameTable number table => exact .inl (h.stopped_replaceOps (by simp) _ hi n)
  | removeTable number =>
    obtain rfl : i = 0 := by simpa [DiskOp.fileOps] using hi
    exact .inl h.finds

variable (F blockSize) in
/-- A stop at any byte of the operations leaves what the first few of them make, among them
all that were finished. -/
def Stops (disk : Disk) (dir : Directory) (ops : List DiskOp) : Prop :=
  ∀ i n, ∃ j ≤ ops.length, Finds F blockSize (disk.applyAll (ops.take j))
      (dir.stopped (diskFileOps F blockSize ops) i n) ∧
    (∀ k ≤ ops.length, (diskFileOps F blockSize (ops.take k)).length ≤ i → k ≤ j) ∧
    (diskFileOps F blockSize (ops.take j)).length ≤ i + 1

theorem Renders.stops_nil (h : Renders F blockSize disk dir) : Stops F blockSize disk dir [] :=
  fun i n => ⟨0, le_rfl, by simpa [diskFileOps] using h.finds, by simp, by simp [diskFileOps]⟩

theorem Renders.stops_cons (h : Renders F blockSize disk dir) (op : DiskOp) {ops : List DiskOp}
    (hop : op.Sized F blockSize)
    (hrest : Stops F blockSize (disk.apply op) (dir.applyAll (op.fileOps F blockSize)) ops) :
    Stops F blockSize disk dir (op :: ops) := by
  intro i n
  have hcons : ∀ k, (diskFileOps F blockSize ((op :: ops).take (k + 1))).length =
      (op.fileOps F blockSize).length + (diskFileOps F blockSize (ops.take k)).length := by
    intro k
    simp [diskFileOps]
  rw [diskFileOps, List.flatMap_cons, Directory.stopped_append]
  by_cases hi : i < (op.fileOps F blockSize).length
  · rw [if_pos hi]
    have hnone : ∀ k ≤ (op :: ops).length,
        (diskFileOps F blockSize ((op :: ops).take k)).length ≤ i → k ≤ 0 := by
      intro k _ hlen
      cases k with
      | zero => exact le_rfl
      | succ k =>
        rw [hcons] at hlen
        omega
    rcases h.stopped_fileOps hop hi n with hbefore | ⟨hlen, hbehind⟩
    · exact ⟨0, Nat.zero_le _, hbefore, hnone, Nat.zero_le _⟩
    · refine ⟨1, by simp, hbehind, fun k hk hle => (hnone k hk hle).trans (Nat.zero_le _), ?_⟩
      rw [hcons 0, hlen]
      simp [diskFileOps]
  · rw [if_neg hi]
    obtain ⟨j, hj, hd, hdone, hle⟩ := hrest (i - (op.fileOps F blockSize).length) n
    refine ⟨j + 1, by simpa using hj, hd, fun k hk hlen => ?_, ?_⟩
    · cases k with
      | zero => exact Nat.zero_le _
      | succ k =>
        rw [hcons] at hlen
        exact Nat.succ_le_succ (hdone k (by simpa using hk) (by omega))
    · rw [hcons]
      omega

theorem Renders.stops (h : Renders F blockSize disk dir) {ops : List DiskOp}
    (hops : ∀ op ∈ ops, op.Sized F blockSize) (hset : .setCurrent ∉ ops) :
    Stops F blockSize disk dir ops := by
  induction ops generalizing disk dir with
  | nil => exact h.stops_nil
  | cons op ops ih =>
    have hne : op ≠ .setCurrent := fun he => hset (by simp [he])
    exact h.stops_cons op (hops op (by simp)) (ih (h.apply fun he => absurd he hne)
      (fun op' hop => hops op' (by simp [hop])) fun hmem => hset (by simp [hmem]))

end TyLsm
