import TyLsm.FileNames
import TyLsm.TableTrip
import TyLsm.WalPrefix

/-! The bytes of a database directory: what every operation on the directory does to its
files, and which files the decoded directory stands for. -/

namespace TyLsm

def utf8 (text : String) : Bytes := text.toByteArray.data.toList

@[simp] theorem utf8_append (l r : String) : utf8 (l ++ r) = utf8 l ++ utf8 r := by
  simp [utf8]

theorem fromUTF8?_utf8 (text : String) : String.fromUTF8? ⟨(utf8 text).toArray⟩ = some text := by
  have hbytes : (⟨(utf8 text).toArray⟩ : ByteArray) = text.toByteArray := by simp [utf8]
  rw [hbytes, String.fromUTF8?, dif_pos text.isValidUTF8]
  rfl

/-- `set_current`. Consecutive writes of a file are one: a stop between them is one inside it. -/
def setCurrentOps (manifestName : String) : List FileOp :=
  Directory.replaceOps currentTmpFile currentFile (utf8 manifestName ++ utf8 "\n")

namespace Directory

def openReadable (d : Directory) (name : String) : Except Error Bytes :=
  match d.files name with
  | some bytes => .ok bytes
  | none => .error notFound

def readToString (d : Directory) (name : String) : Except Error String := do
  let bytes ← d.openReadable name
  match String.fromUTF8? ⟨bytes.toArray⟩ with
  | some text => return text
  | none => throw (.io .other "stream did not contain valid UTF-8")

def readCurrent (d : Directory) : Except Error String := do
  let current ← d.readToString currentFile
  let manifestName := String.ofList
    (current.toList.rdropWhile (fun c => c == Char.ofNat 13 || c == Char.ofNat 10))
  if manifestName.isEmpty then throw (.corruption "CURRENT is empty")
  return manifestName

end Directory

/-- How the bytes of files come about. -/
structure FileFormat where
  crc32c : Bytes → UInt32
  zstd : Zstd
  tableCompression : TableFile.CompressionType

section

variable (F : FileFormat) (blockSize : Nat)

/-- The file of a table, built again from its entries. -/
def FileFormat.tableBytes (table : Table) : Bytes :=
  match TableFile.buildFile F.crc32c F.zstd blockSize F.tableCompression table.entries with
  | .ok bytes => bytes
  | .error _ => []

/-- The builder's writes and the rename. -/
def writeTableOps (number : Nat) (bytes : Bytes) : List FileOp :=
  Directory.replaceOps (tableTmpName number) (tableFileName number) bytes

def DiskOp.fileOps : DiskOp → List FileOp
  | .createDir => [.createDirAll]
  | .createManifest => [.openWritable (manifestFileName 1) .fresh]
  | .appendManifest edit => [.writeAll (manifestFileName 1) (walRecord F.crc32c edit.encode)]
  | .setCurrent => setCurrentOps (manifestFileName 1)
  | .openWal number => [.openWritable (walFileName number) .appending]
  | .appendWal number startSequence batch =>
    [.writeAll (walFileName number)
      (walRecord F.crc32c (batch.encodeWithSequence startSequence))]
  | .renameTable number table => writeTableOps number (F.tableBytes blockSize table)
  | .removeTable number => [.removeFile (tableFileName number)]

def diskFileOps (ops : List DiskOp) : List FileOp := ops.flatMap (DiskOp.fileOps F blockSize)

/-- The files of `dir` are those that the decoded directory stands for. -/
structure Renders (disk : Disk) (dir : Directory) : Prop where
  made : dir.made = disk.dirExists
  current : dir.files currentFile =
    if disk.current then some (utf8 (manifestFileName 1 ++ "\n")) else none
  manifest : (dir.files (manifestFileName 1)).getD [] = manifestFile F.crc32c [] disk.manifest
  manifestMade : disk.current = true → (dir.files (manifestFileName 1)).isSome
  wals : ∀ n, dir.files (walFileName n) = (disk.wals n).map (logBytes F.crc32c)
  tables : ∀ n, dir.files (tableFileName n) = (disk.tables n).map (F.tableBytes blockSize)

variable {F blockSize}

theorem manifestFile_append (crc32c : Bytes → UInt32) (edits : List VersionEdit)
    (edit : VersionEdit) : manifestFile crc32c [] (edits ++ [edit]) =
      manifestFile crc32c [] edits ++ walRecord crc32c edit.encode := by
  simp [manifestFile_eq, Framing.frames_append, walFraming]

theorem logBytes_append (crc32c : Bytes → UInt32) (records : List (Nat × WriteBatch))
    (record : Nat × WriteBatch) : logBytes crc32c (records ++ [record]) =
      logBytes crc32c records ++ walRecord crc32c (record.2.encodeWithSequence record.1) := by
  simp [logBytes, walFile_eq, Framing.frames_append, walFraming]

theorem renders_empty (path : String) : Renders F blockSize (Disk.empty path) .empty :=
  ⟨rfl, rfl, (manifestFile_eq F.crc32c [] []).symm ▸ rfl, fun h => absurd h Bool.false_ne_true,
    fun _ => rfl, fun _ => rfl⟩

namespace Renders

variable {disk : Disk} {dir : Directory}

/-- Operations leave the files whose names end in another letter than theirs. -/
theorem files_of_letters {ops : List FileOp} {name : String}
    (h : ∀ op ∈ ops, ∀ name' ∈ op.names, lastLetter name ≠ lastLetter name') :
    (dir.applyAll ops).files name = dir.files name :=
  Directory.files_applyAll_of_not_mem fun op hop hname => h op hop name hname rfl

theorem files_of_letter {op : FileOp} {name name' : String} (hop : op.names = [name'])
    (h : lastLetter name ≠ lastLetter name') : (dir.apply op).files name = dir.files name :=
  Directory.files_apply_of_not_mem (by simpa [hop] using ne_of_lastLetter h)

theorem createDir (h : Renders F blockSize disk dir) :
    Renders F blockSize (disk.apply .createDir) (dir.apply .createDirAll) :=
  { h with made := rfl }

theorem createManifest (h : Renders F blockSize disk dir) :
    Renders F blockSize (disk.apply .createManifest)
      (dir.apply (.openWritable (manifestFileName 1) .fresh)) := by
  have hother : ∀ name, lastLetter name ≠ some '1' →
      (dir.apply (.openWritable (manifestFileName 1) .fresh)).files name = dir.files name :=
    fun name hname => files_of_letter rfl (by simpa using hname)
  rw [Directory.apply_openFresh] at hother ⊢
  refine ⟨h.made, ?_, ?_, fun _ => ?_, fun n => ?_, fun n => ?_⟩
  · rw [hother _ (by simp)]
    exact h.current
  · simp [Disk.apply, manifestFile_eq]
  · simp
  · rw [hother _ (by simp)]
    exact h.wals n
  · rw [hother _ (by simp)]
    exact h.tables n

theorem appendManifest (h : Renders F blockSize disk dir) (edit : VersionEdit) :
    Renders F blockSize (disk.apply (.appendManifest edit))
      (dir.apply (.writeAll (manifestFileName 1) (walRecord F.crc32c edit.encode))) := by
  have hother : ∀ name, lastLetter name ≠ some '1' →
      (dir.apply (.writeAll (manifestFileName 1) (walRecord F.crc32c edit.encode))).files name =
        dir.files name :=
    fun name hname => files_of_letter rfl (by simpa using hname)
  refine ⟨h.made, ?_, ?_, fun _ => ?_, fun n => ?_, fun n => ?_⟩
  · rw [hother _ (by simp)]
    exact h.current
  · simp [Disk.apply, Directory.apply, manifestFile_append, h.manifest]
  · simp [Directory.apply]
  · rw [hother _ (by simp)]
    exact h.wals n
  · rw [hother _ (by simp)]
    exact h.tables n

theorem setCurrent (h : Renders F blockSize disk dir)
    (hmanifest : (dir.files (manifestFileName 1)).isSome) :
    Renders F blockSize (disk.apply .setCurrent)
      (dir.applyAll (setCurrentOps (manifestFileName 1))) := by
  have hother : ∀ name, lastLetter name ≠ some 'T' → lastLetter name ≠ some 'p' →
      (dir.applyAll (setCurrentOps (manifestFileName 1))).files name = dir.files name :=
    fun name hname htmp => files_of_letters (by
      simp [setCurrentOps, Directory.replaceOps, FileOp.names, hname, htmp])
  rw [setCurrentOps, Directory.applyAll_replaceOps] at hother ⊢
  refine ⟨h.made, ?_, ?_, fun _ => ?_, fun n => ?_, fun n => ?_⟩
  · simp [Disk.apply]
  · rw [hother _ (by simp) (by simp)]
    exact h.manifest
  · rwa [hother _ (by simp) (by simp)]
  · rw [hother _ (by simp) (by simp)]
    exact h.wals n
  · rw [hother _ (by simp) (by simp)]
    exact h.tables n

theorem openWal (h : Renders F blockSize disk dir) (number : Nat) :
    Renders F blockSize (disk.apply (.openWal number))
      (dir.apply (.openWritable (walFileName number) .appending)) := by
  have hother : ∀ name, lastLetter name ≠ some 'l' →
      (dir.apply (.openWritable (walFileName number) .appending)).files name = dir.files name :=
    fun name hname => files_of_letter rfl (by simpa using hname)
  rw [Directory.apply_openAppending] at hother ⊢
  refine ⟨h.made, ?_, ?_, fun hcurrent => ?_, fun n => ?_, fun n => ?_⟩
  · rw [hother _ (by simp)]
    exact h.current
  · rw [hother _ (by simp)]
    exact h.manifest
  · rw [hother _ (by simp)]
    exact h.manifestMade hcurrent
  · by_cases hn : n = number
    · subst hn
      cases hlog : disk.wals n <;>
        simp [Disk.apply, h.wals, hlog, logBytes, walFile_eq]
    · simp [Disk.apply, Function.update_of_ne hn,
        Function.update_of_ne (walFileName_injective.ne hn), h.wals]
  · rw [hother _ (by simp)]
    exact h.tables n

theorem appendWal (h : Renders F blockSize disk dir) (number startSequence : Nat)
    (batch : WriteBatch) :
    Renders F blockSize (disk.apply (.appendWal number startSequence batch))
      (dir.apply (.writeAll (walFileName number)
        (walRecord F.crc32c (batch.encodeWithSequence startSequence)))) := by
  have hother : ∀ name, lastLetter name ≠ some 'l' → (dir.apply (.writeAll (walFileName number)
      (walRecord F.crc32c (batch.encodeWithSequence startSequence)))).files name =
        dir.files name :=
    fun name hname => files_of_letter rfl (by simpa using hname)
  refine ⟨h.made, ?_, ?_, fun hcurrent => ?_, fun n => ?_, fun n => ?_⟩
  · rw [hother _ (by simp)]
    exact h.current
  · rw [hother _ (by simp)]
    exact h.manifest
  · rw [hother _ (by simp)]
    exact h.manifestMade hcurrent
  · by_cases hn : n = number
    · subst hn
      have hlog := logBytes_append F.crc32c ((disk.wals n).getD []) (startSequence, batch)
      cases hlog' : disk.wals n <;>
        simp_all [Disk.apply, Directory.apply, h.wals, logBytes, walFile_eq]
    · simp [Disk.apply, Directory.apply, Function.update_of_ne hn,
        Function.update_of_ne (walFileName_injective.ne hn), h.wals]
  · rw [hother _ (by simp)]
    exact h.tables n

theorem renameTable (h : Renders F blockSize disk dir) (number : Nat) (table : Table) :
    Renders F blockSize (disk.apply (.renameTable number table))
      (dir.applyAll (writeTableOps number (F.tableBytes blockSize table))) := by
  have hother : ∀ name, lastLetter name ≠ some 't' → lastLetter name ≠ some 'p' →
      (dir.applyAll (writeTableOps number (F.tableBytes blockSize table))).files name =
        dir.files name :=
    fun name hname htmp => files_of_letters (by
      simp [writeTableOps, Directory.replaceOps, FileOp.names, hname, htmp])
  rw [writeTableOps, Directory.applyAll_replaceOps] at hother ⊢
  refine ⟨h.made, ?_, ?_, fun hcurrent => ?_, fun n => ?_, fun n => ?_⟩
  · rw [hother _ (by simp) (by simp)]
    exact h.current
  · rw [hother _ (by simp) (by simp)]
    exact h.manifest
  · rw [hother _ (by simp) (by simp)]
    exact h.manifestMade hcurrent
  · rw [hother _ (by simp) (by simp)]
    exact h.wals n
  · have htmp : tableFileName n ≠ tableTmpName number := ne_of_lastLetter (by simp)
    by_cases hn : n = number
    · subst hn
      simp [Disk.apply]
    · simp [Disk.apply, Function.update_of_ne hn,
        Function.update_of_ne (tableFileName_injective.ne hn), Function.update_of_ne htmp, h.tables]

theorem removeTable (h : Renders F blockSize disk dir) (number : Nat) :
    Renders F blockSize (disk.apply (.removeTable number))
      (dir.apply (.removeFile (tableFileName number))) := by
  have hother : ∀ name, lastLetter name ≠ some 't' →
      (dir.apply (.removeFile (tableFileName number))).files name = dir.files name :=
    fun name hname => files_of_letter rfl (by simpa using hname)
  refine ⟨h.made, ?_, ?_, fun hcurrent => ?_, fun n => ?_, fun n => ?_⟩
  · rw [hother _ (by simp)]
    exact h.current
  · rw [hother _ (by simp)]
    exact h.manifest
  · rw [hother _ (by simp)]
    exact h.manifestMade hcurrent
  · rw [hother _ (by simp)]
    exact h.wals n
  · by_cases hn : n = number
    · subst hn
      simp [Disk.apply, Directory.apply]
    · simp [Disk.apply, Directory.apply, Function.update_of_ne hn,
        Function.update_of_ne (tableFileName_injective.ne hn), h.tables]

theorem apply (h : Renders F blockSize disk dir) {op : DiskOp}
    (hset : op = .setCurrent → (dir.files (manifestFileName 1)).isSome) :
    Renders F blockSize (disk.apply op) (dir.applyAll (op.fileOps F blockSize)) := by
  cases op with
  | createDir => exact h.createDir
  | createManifest => exact h.createManifest
  | appendManifest edit => exact h.appendManifest edit
  | setCurrent => exact h.setCurrent (hset rfl)
  | openWal number => exact h.openWal number
  | appendWal number startSequence batch => exact h.appendWal number startSequence batch
  | renameTable number table => exact h.renameTable number table
  | removeTable number => exact h.removeTable number

theorem applyAll (h : Renders F blockSize disk dir) {ops : List DiskOp}
    (hset : .setCurrent ∉ ops) :
    Renders F blockSize (disk.applyAll ops) (dir.applyAll (diskFileOps F blockSize ops)) := by
  induction ops generalizing disk dir with
  | nil => exact h
  | cons op ops ih =>
    have hne : op ≠ .setCurrent := fun he => hset (by simp [he])
    have hrest := ih (h.apply fun he => absurd he hne) fun hmem => hset (by simp [hmem])
    rw [← Directory.applyAll_append] at hrest
    exact hrest

end Renders

end

end TyLsm
