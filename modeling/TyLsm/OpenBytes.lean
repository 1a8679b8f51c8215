import TyLsm.Alike
import TyLsm.TornFiles

/-! Opening a database from the bytes of its directory, and looking keys up in the files. -/

namespace TyLsm

/-- An open table file with its metadata. -/
abbrev ReaderRef := FileMeta × TableFile.SSTableReader

structure ByteDB where
  directory : Directory
  versions : VersionSet
  /-- What is in memory; the open tables are below. -/
  memory : DBState
  l0Tables : List ReaderRef
  levelTables : List (List ReaderRef)

section

variable (F : FileFormat)

namespace Directory

/-- `TableCache::get_or_open` on a number that is not cached. -/
def getOrOpen (d : Directory) (number : Nat) : Except Error TableFile.SSTableReader := do
  let file ← d.openReadable (tableFileName number)
  TableFile.SSTableReader.openWithEnv F.crc32c F.zstd file

def openFiles (d : Directory) : List FileMeta → Except Error (List ReaderRef)
  | [] => .ok []
  | file :: files => do
    let reader ← d.getOrOpen F file.number
    let rest ← openFiles d files
    return (file, reader) :: rest

def openLevels (d : Directory) : List (List FileMeta) → Except Error (List (List ReaderRef))
  | [] => .ok []
  | level :: levels => do
    let readers ← d.openFiles F level
    let rest ← openLevels d levels
    return readers :: rest

/-- `chunks` is how the reads of each file are split. -/
def recoverVersions (chunks : String → Nat → Nat) (d : Directory) (maxLevels : Nat) :
    Except Error VersionSet := do
  let manifestName ← d.readCurrent
  match parseManifestNumber manifestName with
  | none => throw (.corruption "CURRENT points to invalid manifest")
  | some _ =>
    let manifest ← d.openReadable manifestName
    VersionSet.recover F.crc32c maxLevels ⟨manifest, chunks manifestName⟩

/-- The versions, and the directory after a manifest was made for a new database. -/
def openVersions (chunks : String → Nat → Nat) (d : Directory) (options : Options) :
    Except Error (VersionSet × Directory) :=
  if (d.files currentFile).isSome then do
    let versions ← recoverVersions F chunks d options.maxLevels
    return (versions, d)
  else
    .ok (VersionSet.newEmpty options.maxLevels,
      d.applyAll (diskFileOps F options.blockSize DB.createOps))

def openVersionTables (d : Directory) (version : Version) :
    Except Error (List ReaderRef × List (List ReaderRef)) := do
  let l0Tables ← d.openFiles F version.l0Files
  let levelTables ← d.openLevels F version.levels
  return (l0Tables, levelTables)

def recoverLog (chunks : String → Nat → Nat) (d : Directory) (state : DBState)
    (logNumber : Nat) : Except Error DBState :=
  match d.files (walFileName logNumber) with
  | some log => recoverWalFile F.crc32c state ⟨log, chunks (walFileName logNumber)⟩
  | none => .ok state

end Directory

/-- `DB::open` on a directory of bytes. A manifest that is there is opened for appending,
which leaves it as it is. -/
def ByteDB.openPath (chunks : String → Nat → Nat) (path : String) (d : Directory)
    (options : Options) : Except Error ByteDB := do
  if d.made && options.errorIfExists then
    throw (.invalidArgument ("database already exists: " ++ path))
  if !d.made && !options.createIfMissing then
    throw (.invalidArgument ("database does not exist: " ++ path))
  let (versions, d) ← Directory.openVersions F chunks (d.apply .createDirAll) options
  let (l0Tables, levelTables) ← d.openVersionTables F versions.current
  let state : DBState :=
    { mutable := .new options.memtableKind
      immutables := []
      l0Tables := []
      levelTables := []
      lastSequence := versions.lastSequence
      closed := false }
  let memory ← Directory.recoverLog F chunks d state versions.logNumber
  return ⟨d.apply (.openWritable (walFileName versions.logNumber) .appending), versions, memory,
    l0Tables, levelTables⟩

namespace ByteDB

/-- `might_contain` and `get_with_cache`; the file is opened again for the blocks. -/
def searchTable (d : Directory) (key : Bytes) (readSeq : Nat) (ref : ReaderRef) :
    Except Error (Option ValueRecord) := do
  if ref.2.mightContain key then
    let file ← d.openReadable (tableFileName ref.1.number)
    TableFile.SSTableReader.get F.crc32c F.zstd { ref.2 with file := file } key readSeq
  else return none

def searchL0 (d : Directory) (key : Bytes) (readSeq : Nat) :
    List ReaderRef → Except Error (Option ValueRecord)
  | [] => .ok none
  | ref :: refs => do
    if !fileOverlapsUserKey ref.1 key then searchL0 d key readSeq refs
    else
      match ← searchTable F d key readSeq ref with
      | some record => return some record
      | none => searchL0 d key readSeq refs

def searchLevels (d : Directory) (key : Bytes) (readSeq : Nat) :
    List (List ReaderRef) → Except Error (Option ValueRecord)
  | [] => .ok none
  | level :: levels => do
    match level.find? (fun ref => fileOverlapsUserKey ref.1 key) with
    | none => searchLevels d key readSeq levels
    | some ref =>
      match ← searchTable F d key readSeq ref with
      | some record => return some record
      | none => searchLevels d key readSeq levels

def getOpt (b : ByteDB) (key : Bytes) (snapshot : Option Nat) : Except Error (Option Bytes) := do
  if b.memory.closed then throw .closed
  let readSeq := snapshot.getD b.memory.lastSequence
  match b.memory.memtables.findSome? (fun memtable => memtable.get key readSeq) with
  | some record => return record.intoVisibleValue
  | none =>
    match ← searchL0 F b.directory key readSeq b.l0Tables with
    | some record => return record.intoVisibleValue
    | none =>
      match ← searchLevels F b.directory key readSeq (b.levelTables.drop 1) with
      | some record => return record.intoVisibleValue
      | none => return none

def get (b : ByteDB) (key : Bytes) : Except Error (Option Bytes) := b.getOpt F key none

end ByteDB

/-- The open file shows the decoded table, and is still there. -/
structure RefShows (d : Directory) (r : ReaderRef) (ref : TableRef) : Prop where
  file : r.1 = ref.1
  reader : r.2.Shows F.crc32c F.zstd ref.2
  present : d.files (tableFileName r.1.number) = some r.2.file

/-- What was opened from bytes is the database `db`, with its tables in files. -/
structure ByteDB.Shows (b : ByteDB) (db : DB) : Prop where
  tables : ∀ n, b.directory.files (tableFileName n) =
    (db.disk.tables n).map (F.tableBytes db.options.blockSize)
  versions : b.versions = db.versions
  memory : b.memory = { db.state with l0Tables := [], levelTables := [] }
  l0Tables : List.Forall₂ (RefShows F b.directory) b.l0Tables db.state.l0Tables
  levelTables : List.Forall₂ (List.Forall₂ (RefShows F b.directory)) b.levelTables
    db.state.levelTables

variable {F}

theorem ok_of_bind {ε α β : Type} {x : Except ε α} {f : α → Except ε β} {b : β}
    (h : (x >>= f) = .ok b) : ∃ a, x = .ok a ∧ f a = .ok b := by
  cases x with
  | ok a => exact ⟨a, rfl, h⟩
  | error err => cases h

theorem openReadable_eq {d : Directory} {name : String} {bytes : Bytes}
    (h : d.files name = some bytes) : d.openReadable name = .ok bytes := by
  rw [Directory.openReadable, h]

theorem openWithEnv_file {file : Bytes} {r : TableFile.SSTableReader}
    (h : TableFile.SSTableReader.openWithEnv F.crc32c F.zstd file = .ok r) : r.file = file := by
  unfold TableFile.SSTableReader.openWithEnv at h
  dsimp only at h
  split at h
  · cases h
  · obtain ⟨footer, -, h⟩ := ok_of_bind h
    obtain ⟨handles, -, h⟩ := ok_of_bind h
    obtain ⟨propertiesBlock, -, h⟩ := ok_of_bind h
    obtain ⟨properties, -, h⟩ := ok_of_bind h
    obtain ⟨indexBlock, -, h⟩ := ok_of_bind h
    obtain ⟨index, -, h⟩ := ok_of_bind h
    obtain rfl := Except.ok.inj h
    rfl

/-- The bytes of a built table are opened as this table. -/
theorem open_tableBytes (hz : F.zstd.Lossless) {blockSize : Nat} {table : Table}
    (hbuilt : table.Built blockSize) (hfits : TableFits F blockSize table) :
    ∃ r, TableFile.SSTableReader.openWithEnv F.crc32c F.zstd (F.tableBytes blockSize table) =
      .ok r ∧ r.Shows F.crc32c F.zstd table := by
  obtain ⟨file, hfile, hopen⟩ := TableFile.buildFile_shows F.crc32c hz blockSize
    F.tableCompression hbuilt.matched hfits.entries hfits.filter
  have hbytes : F.tableBytes blockSize table = file := by
    rw [FileFormat.tableBytes, hfile]
  obtain ⟨r, hr, hshows⟩ := hopen (hbytes ▸ hfits.file)
  exact ⟨r, hbytes ▸ hr, hbuilt.build ▸ hshows⟩

theorem RefShows.of_tables {d d' : Directory} {r : ReaderRef} {ref : TableRef}
    (h : RefShows F d r ref)
    (hd : ∀ n, d'.files (tableFileName n) = d.files (tableFileName n)) : RefShows F d' r ref :=
  ⟨h.file, h.reader, (hd _).trans h.present⟩

namespace Finds

variable {blockSize : Nat} {disk : Disk} {dir : Directory}

theorem getOrOpen (h : Finds F blockSize disk dir) (hz : F.zstd.Lossless)
    (hfits : disk.Fits F blockSize) (number : Nat) :
    Alike (fun r table => r.Shows F.crc32c F.zstd table ∧
      dir.files (tableFileName number) = some r.file)
      (dir.getOrOpen F number) (disk.openTable number) := by
  have hfile := h.tables number
  cases hdisk : disk.tables number with
  | none =>
    rw [hdisk, Option.map_none] at hfile
    rw [Directory.getOrOpen, Directory.openReadable, hfile, Disk.openTable, hdisk]
    exact .error notFound
  | some table =>
    rw [hdisk, Option.map_some] at hfile
    obtain ⟨hbuilt, hsize⟩ := hfits.tables number table hdisk
    obtain ⟨r, hr, hshows⟩ := open_tableBytes hz hbuilt hsize
    have hopen : dir.getOrOpen F number = .ok r := by
      rw [Directory.getOrOpen, openReadable_eq hfile]
      exact hr
    rw [hopen, Disk.openTable, hdisk]
    exact .ok ⟨hshows, by rw [hfile, openWithEnv_file hr]⟩

theorem openFiles (h : Finds F blockSize disk dir) (hz : F.zstd.Lossless)
    (hfits : disk.Fits F blockSize) (files : List FileMeta) :
    Alike (List.Forall₂ (RefShows F dir)) (dir.openFiles F files)
      (TyLsm.openFiles disk files) := by
  induction files with
  | nil => exact .ok .nil
  | cons file files ih =>
    exact (h.getOrOpen hz hfits file.number).bind fun r table hr =>
      ih.bind fun rs refs hrs => .ok (.cons ⟨rfl, hr.1, hr.2⟩ hrs)

theorem openLevels (h : Finds F blockSize disk dir) (hz : F.zstd.Lossless)
    (hfits : disk.Fits F blockSize) (levels : List (List FileMeta)) :
    Alike (List.Forall₂ (List.Forall₂ (RefShows F dir))) (dir.openLevels F levels)
      (TyLsm.openLevels disk levels) := by
  induction levels with
  | nil => exact .ok .nil
  | cons level levels ih =>
    exact (h.openFiles hz hfits level).bind fun rs refs hrs =>
      ih.bind fun _ _ hlevels => .ok (.cons hrs hlevels)

theorem openVersionTables (h : Finds F blockSize disk dir) (hz : F.zstd.Lossless)
    (hfits : disk.Fits F blockSize) (version : Version) :
    Alike (fun tables refs => List.Forall₂ (RefShows F dir) tables.1 refs.1 ∧
      List.Forall₂ (List.Forall₂ (RefShows F dir)) tables.2 refs.2)
      (dir.openVersionTables F version) (TyLsm.openVersionTables disk version) :=
  (h.openFiles hz hfits version.l0Files).bind fun _ _ hl0 =>
    (h.openLevels hz hfits version.levels).bind fun _ _ hlevels => .ok ⟨hl0, hlevels⟩

theorem createDir (h : Finds F blockSize disk dir) :
    Finds F blockSize (disk.apply .createDir) (dir.apply .createDirAll) :=
  { h with made := rfl }

/-- The operations of `VersionSet::create`; a manifest that is there already is overwritten. -/
theorem create (h : Finds F blockSize disk dir) :
    Finds F blockSize (disk.applyAll DB.createOps)
      (dir.applyAll (diskFileOps F blockSize DB.createOps)) := by
  have hother : ∀ name, lastLetter name ≠ some '1' → lastLetter name ≠ some 'T' →
      lastLetter name ≠ some 'p' →
      (dir.applyAll (diskFileOps F blockSize DB.createOps)).files name = dir.files name := by
    intro name hmanifest hcurrent htmp
    refine Renders.files_of_letters ?_
    simp [diskFileOps, DB.createOps, VersionSet.createEdits, DiskOp.fileOps, setCurrentOps,
      Directory.replaceOps, FileOp.names, hmanifest, hcurrent, htmp]
  have hops : diskFileOps F blockSize DB.createOps =
      [.openWritable (manifestFileName 1) .fresh,
        .writeAll (manifestFileName 1) (walRecord F.crc32c (VersionEdit.nextFileNumber 2).encode),
        .writeAll (manifestFileName 1) (walRecord F.crc32c (VersionEdit.logNumber 1).encode),
        .writeAll (manifestFileName 1) (walRecord F.crc32c (VersionEdit.lastSequence 0).encode)] ++
        setCurrentOps (manifestFileName 1) := rfl
  have hne : manifestFileName 1 ≠ currentFile := ne_of_lastLetter (by simp)
  have hne' : manifestFileName 1 ≠ currentTmpFile := ne_of_lastLetter (by simp)
  have hdir : dir.applyAll (diskFileOps F blockSize DB.createOps) = { dir with
      files := Function.update (Function.update (Function.update dir.files (manifestFileName 1)
        (some ((walFraming F.crc32c).frames (VersionSet.createEdits.map VersionEdit.encode))))
        currentTmpFile none) currentFile
        (some (utf8 (manifestFileName 1) ++ utf8 "\n")) } := by
    rw [hops, Directory.applyAll_append, setCurrentOps, Directory.applyAll_replaceOps]
    simp only [Directory.applyAll_cons, Directory.applyAll_nil, Directory.apply_openFresh]
    simp [Directory.apply, VersionSet.createEdits, walFraming]
  refine ⟨?_, ?_, fun _ => ⟨_, ?_, Framing.holds_frames _⟩, fun n => ?_, fun n => ?_⟩
  · rw [hdir]
    exact h.made
  · rw [hdir]
    simp [DB.createOps, VersionSet.createEdits, Disk.apply]
  · rw [hdir]
    simp [hne, hne', DB.createOps, VersionSet.createEdits, Disk.apply]
  · rw [hother _ (by simp) (by simp) (by simp)]
    exact h.wals n
  · rw [hother _ (by simp) (by simp) (by simp)]
    exact h.tables n

theorem readCurrent (h : Finds F blockSize disk dir) (hcurrent : disk.current = true) :
    dir.readCurrent = .ok (manifestFileName 1) := by
  have hfile := h.current
  rw [if_pos hcurrent] at hfile
  have htrim : ((manifestFileName 1 ++ "\n").toList.rdropWhile
      (fun c => c == Char.ofNat 13 || c == Char.ofNat 10)) = (manifestFileName 1).toList := by
    decide +kernel
  have hread : dir.readToString currentFile = .ok (manifestFileName 1 ++ "\n") := by
    simp only [Directory.readToString, openReadable_eq hfile, bind, Except.bind, fromUTF8?_utf8]
    rfl
  have hname : (manifestFileName 1).isEmpty = false := by decide
  simp only [Directory.readCurrent, hread, bind, Except.bind, htrim, String.ofList_toList, hname]
  rfl

theorem openVersions (h : Finds F blockSize disk dir) (hfits : disk.Fits F blockSize)
    (chunks : String → Nat → Nat) {options : Options} (hsize : options.blockSize = blockSize) :
    Alike (fun opened versions => opened.1 = versions ∧ Finds F blockSize
        (disk.applyAll (if disk.current then [] else DB.createOps)) opened.2)
      (Directory.openVersions F chunks dir options)
      (if disk.current then (VersionSet.newEmpty options.maxLevels).replay disk.manifest
        else .ok (VersionSet.newEmpty options.maxLevels)) := by
  by_cases hcurrent : disk.current = true
  · have hexists : (dir.files currentFile).isSome = true := by simp [h.current, hcurrent]
    obtain ⟨bytes, hbytes, hholds⟩ := h.manifest hcurrent
    have hnumber : parseManifestNumber (manifestFileName 1) = some 1 := by decide +kernel
    have hrecover : Directory.recoverVersions F chunks dir options.maxLevels =
        (VersionSet.newEmpty options.maxLevels).replay disk.manifest := by
      simp only [Directory.recoverVersions, h.readCurrent hcurrent, hnumber, bind, Except.bind,
        openReadable_eq hbytes]
      exact recover_holds hholds hfits.manifest options.maxLevels _
    rw [Directory.openVersions, if_pos hexists, hrecover, if_pos hcurrent, if_pos hcurrent]
    cases (VersionSet.newEmpty options.maxLevels).replay disk.manifest with
    | ok versions => exact .ok ⟨rfl, h⟩
    | error err => exact .error err
  · have hexists : ¬ (dir.files currentFile).isSome = true := by simp [h.current, hcurrent]
    rw [Directory.openVersions, if_neg hexists, if_neg hcurrent, if_neg hcurrent, hsize]
    exact .ok ⟨rfl, h.create⟩

theorem recoverLog (h : Finds F blockSize disk dir) (hfits : disk.Fits F blockSize)
    (chunks : String → Nat → Nat) (state : DBState) (logNumber : Nat) :
    Directory.recoverLog F chunks dir state logNumber =
      .ok (state.recoverWal ((disk.wals logNumber).getD [])) := by
  rw [Directory.recoverLog]
  rcases h.wals logNumber with ⟨hnone, hempty⟩ | ⟨bytes, hbytes, hholds⟩
  · rw [hnone, hempty]
    rfl
  · rw [hbytes]
    refine recoverWalFile_holds hholds (fun record hrecord => ?_) state _
    cases hlog : disk.wals logNumber with
    | none => simp [hlog] at hrecord
    | some log => exact hfits.wals logNumber log hlog record (by simpa [hlog] using hrecord)

end Finds

/-- The directory once the versions are known. -/
def Disk.opened (disk : Disk) : Disk :=
  (disk.apply .createDir).applyAll (if disk.current then [] else DB.createOps)

/-- `DB::open` behind its checks. -/
theorem DB.open_eq (env : Env) {disk : Disk} {options : Options}
    (hfound : (disk.dirExists && options.errorIfExists) = false)
    (hallowed : (!disk.dirExists && !options.createIfMissing) = false) :
    DB.open env disk options =
      (if disk.current then (VersionSet.newEmpty options.maxLevels).replay disk.manifest
        else .ok (VersionSet.newEmpty options.maxLevels)) >>= fun versions =>
      TyLsm.openVersionTables disk.opened versions.current >>= fun tables => return {
        env := env
        options := options
        disk := disk.opened.apply (.openWal versions.logNumber)
        journal := [.createDir] ++ (if disk.current then [] else DB.createOps) ++
          [.openWal versions.logNumber]
        state := (DBState.fresh options.memtableKind tables.1 tables.2
          versions.lastSequence).recoverWal ((disk.opened.wals versions.logNumber).getD [])
        versions := versions
        watermark := .new
        wal := versions.logNumber } := by
  unfold DB.open
  dsimp only
  rw [if_neg (by rw [hfound]; decide), if_neg (by rw [hallowed]; decide)]
  have hsame : (disk.applyAll [.createDir]).current = disk.current := rfl
  have hopened : (disk.applyAll [.createDir]).applyAll (if disk.current then [] else DB.createOps) =
    disk.opened := rfl
  rw [hsame, hopened]
  by_cases hcurrent : disk.current = true
  · rw [if_pos hcurrent, if_pos hcurrent, if_pos hcurrent]
    refine bind_congr fun versions => bind_congr fun tables => ?_
    cases disk.opened.wals versions.logNumber <;> rfl
  · rw [if_neg hcurrent, if_neg hcurrent, if_neg hcurrent]
    refine bind_congr fun versions => bind_congr fun tables => ?_
    cases disk.opened.wals versions.logNumber <;> rfl

/-- `DB::open` reads from the bytes of a directory what the decoded directory says, and fails
where that fails. -/
theorem openPath_alike {disk : Disk} {dir : Directory} {options : Options}
    (h : Finds F options.blockSize disk dir) (hz : F.zstd.Lossless)
    (hfits : disk.Fits F options.blockSize) (env : Env) (chunks : String → Nat → Nat) :
    Alike (fun b db => b.Shows F db) (ByteDB.openPath F chunks disk.path dir options)
      (DB.open env disk options) := by
  by_cases hfound : (disk.dirExists && options.errorIfExists) = true
  · have hopen : DB.open env disk options =
        .error (.invalidArgument ("database already exists: " ++ disk.path)) := by
      unfold DB.open
      dsimp only
      rw [if_pos hfound]
      rfl
    rw [hopen, ByteDB.openPath, h.made, if_pos hfound]
    exact .error _
  by_cases hallowed : (!disk.dirExists && !options.createIfMissing) = true
  · have hopen : DB.open env disk options =
        .error (.invalidArgument ("database does not exist: " ++ disk.path)) := by
      unfold DB.open
      dsimp only
      rw [if_neg hfound, if_pos hallowed]
      rfl
    rw [hopen, ByteDB.openPath, h.made, if_neg hfound, if_pos hallowed]
    exact .error _
  have hdirFits : (disk.apply .createDir).Fits F options.blockSize :=
    hfits.apply (show DiskOp.Fits F options.blockSize .createDir from trivial)
  have hfits' : disk.opened.Fits F options.blockSize := by
    refine hdirFits.applyAll fun op hop => ?_
    cases hcurrent : disk.current with
    | true => simp [hcurrent] at hop
    | false => exact fits_createOps _ op (by simpa [hcurrent] using hop)
  rw [DB.open_eq env (by simpa using hfound) (by simpa using hallowed), ByteDB.openPath, h.made,
    if_neg hfound, if_neg hallowed]
  refine (h.createDir.openVersions hdirFits chunks rfl).bind ?_
  rintro ⟨versions, dir'⟩ _ ⟨rfl, hdir'⟩
  refine (hdir'.openVersionTables hz hfits' versions.current).bind ?_
  rintro ⟨l0', levels'⟩ ⟨l0, levels⟩ ⟨hl0, hlevels⟩
  have hlog := hdir'.recoverLog hfits' chunks (.fresh options.memtableKind [] []
    versions.lastSequence) versions.logNumber
  have hfiles : ∀ n, (dir'.apply (.openWritable (walFileName versions.logNumber)
      .appending)).files (tableFileName n) = dir'.files (tableFileName n) :=
    fun n => Renders.files_of_letter rfl (by simp)
  dsimp only
  rw [← DBState.fresh, hlog]
  refine .ok ⟨fun n => (hfiles n).trans (hdir'.tables n), rfl, ?_, ?_, ?_⟩
  · change _ = { (DBState.fresh options.memtableKind l0 levels versions.lastSequence).recoverWal
      ((disk.opened.wals versions.logNumber).getD []) with l0Tables := [], levelTables := [] }
    rw [← DBState.recoverWal_withTables]
    rfl
  · change List.Forall₂ _ l0' (DBState.recoverWal _ _).l0Tables
    rw [(DB.recoverWal_tables _ _).2.1]
    exact hl0.imp fun r ref hr => hr.of_tables hfiles
  · change List.Forall₂ _ levels' (DBState.recoverWal _ _).levelTables
    rw [(DB.recoverWal_tables _ _).2.2]
    exact hlevels.imp fun rs refs hrs => hrs.imp fun r ref hr => hr.of_tables hfiles

end

end TyLsm
