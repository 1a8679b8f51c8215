import TyLsm.FlushView
import TyLsm.Phases
import TyLsm.RejectedEdits

/-! Several threads that write, flush and compact. A compaction is a chain of steps, and between
two of them any other thread may take its own. The table cache is shared by all of them: it may
hold the reader of a file that is no longer there. -/

namespace TyLsm

/-- A compaction between two of its steps. -/
inductive Progress where
  | picked (task : CompactionTask)
  | bounded (task : CompactionTask) (gcWatermark : Nat)
  | surveyed (task : CompactionTask) (gcWatermark : Nat) (dropTombstones : Bool)
  | rewriting (task : CompactionTask) (gcWatermark : Nat) (dropTombstones : Bool)
  | gathered (task : CompactionTask) (dropTombstones : Bool) (entries : List Entry)
  | ready (task : CompactionTask) (dropTombstones : Bool) (publication : Publication)
  | published (removed : List Nat)
  | reading (version : Version) (removed : List Nat)
  | opened (version : Version) (l0Tables : List TableRef) (levelTables : List (List TableRef))
      (removed : List Nat)
  | deleting (removed : List Nat)

/-- `TableCache::get_or_open`, for every number: a reader in the cache, whether or not its file
is still there, or else the file. -/
def Disk.through (d : Disk) (cached : Nat → Option Table) : Disk :=
  { d with tables := fun number => (cached number).or (d.tables number) }

namespace Progress

open DB in
/-- The next step of a compaction; there is none after the last. Only the refresh is content with
the cached reader of a removed file: to read entries the file itself is opened as well. -/
def advance (cached : Nat → Option Table) : Progress → DBM (Option Progress)
  | picked task => do
    if task.inputFiles.isEmpty then return none
    let db ← MonadState.get
    return some (bounded task db.gcWatermark)
  | bounded task gcWatermark => do
    let db ← MonadState.get
    return some (surveyed task gcWatermark (canDropTombstones db.versions.current task))
  | surveyed task gcWatermark dropTombstones => do
    match task.inputFiles with
    | [] => return none
    | file :: _ =>
      let needsRewrite ←
        if task.isTrivialMove then trivialMoveNeedsRewrite file gcWatermark dropTombstones
        else pure true
      if needsRewrite then return some (rewriting task gcWatermark dropTombstones)
      else return some (ready task dropTombstones
        ⟨[.deleteFile task.inputLevel file.number, .addFile task.outputLevel file], []⟩)
  | rewriting task gcWatermark dropTombstones => do
    let entries ← readEntries task.allInputFiles
    return some (gathered task dropTombstones
      (compactEntries entries gcWatermark dropTombstones))
  | gathered task dropTombstones entries => do
    let outputs ← writeCompactionOutputs entries
    return some (ready task dropTombstones ⟨deleteEdits task ++ addEdits task outputs,
      task.allInputFiles.map FileMeta.number⟩)
  | ready _ _ publication => do
    publish publication
    return some (published publication.removed)
  | published removed => do
    let db ← MonadState.get
    return some (reading db.versions.current removed)
  | reading version removed => do
    let db ← MonadState.get
    let (l0Tables, levelTables) ← ofExcept (openVersionTables (db.disk.through cached) version)
    return some (opened version l0Tables levelTables removed)
  | opened _ l0Tables levelTables removed => do
    modify fun db =>
      { db with state := { db.state with l0Tables := l0Tables, levelTables := levelTables } }
    return some (deleting removed)
  | deleting [] => return none
  | deleting (number :: removed) => do
    act (.removeTable number)
    return some (deleting removed)

end Progress

namespace Version

/-- The numbers of the files, level by level. -/
def numbers (v : Version) : List Nat × List (List Nat) :=
  (v.l0Files.map FileMeta.number, v.levels.map (List.map FileMeta.number))

end Version

/-- The numbers of the open tables, level by level. -/
def tableNumbers (l0Tables : List TableRef) (levelTables : List (List TableRef)) :
    List Nat × List (List Nat) :=
  (l0Tables.map (fun ref => ref.1.number),
    levelTables.map (List.map (fun ref : TableRef => ref.1.number)))

namespace DB

/-- The table lists hold the files of the current version, in the same order. -/
def InStep (db : DB) : Prop :=
  tableNumbers db.state.l0Tables db.state.levelTables = db.versions.current.numbers

instance (db : DB) : Decidable db.InStep := by
  unfold InStep
  infer_instance

end DB

/-- The database, the readers in the table cache, and what each thread is doing: nothing, or a
compaction. -/
structure Compactors where
  db : DB
  cached : Nat → Option Table
  running : List (Option Progress)

inductive ThreadStep where
  | writer (step : Section)
  /-- An idle thread picks a task. -/
  | compact (thread : Nat) (lower upper : Bound)
  | advance (thread : Nat)
  /-- A full cache drops any of its readers. -/
  | evict (number : Nat)

namespace Compactors

/-- Opening the database opens all its tables. -/
def start (db : DB) (threads : Nat) : Compactors :=
  ⟨db, db.disk.tables, List.replicate threads none⟩

/-- After a step the cache holds the tables on the disk, each of which was opened when it was
written, and the readers of those that the step has removed. A reader that was dropped while its
file is there makes no difference, since the file would be opened again. -/
def moveTo (s : Compactors) (db : DB) (running : List (Option Progress)) : Compactors :=
  ⟨db, fun number => (db.disk.tables number).or (s.cached number), running⟩

/-- A compaction that fails in a step ends there. -/
def step (s : Compactors) : ThreadStep → Compactors
  | .writer step => s.moveTo (after Section.run s.db step) s.running
  | .compact thread lower upper =>
    match s.running[thread]? with
    | some none =>
      let task := CompactionPicker.pickManual s.db.versions.current lower upper
      s.moveTo s.db (s.running.set thread (task.map .picked))
    | _ => s
  | .advance thread =>
    match s.running[thread]? with
    | some (some progress) =>
      match progress.advance s.cached s.db with
      | .ok next db => s.moveTo db (s.running.set thread next)
      | .error _ db => s.moveTo db (s.running.set thread none)
    | _ => s
  | .evict number => { s with cached := Function.update s.cached number none }

def run (steps : List ThreadStep) (s : Compactors) : Compactors := steps.foldl step s

/-- No compaction is in progress. -/
def Idle (s : Compactors) : Prop := ∀ progress ∈ s.running, progress = none

end Compactors

/-- The version has changed, and the table lists are still to be replaced. -/
def Progress.awaitsRefresh : Option Progress → Bool
  | some (published _) | some (reading _ _) | some (opened _ _ _ _) => true
  | _ => false

namespace Compactors

/-- Another compaction will replace the table lists. -/
def refreshFollows (s : Compactors) (thread : Nat) : Bool :=
  (s.running.eraseIdx thread).any Progress.awaitsRefresh

/-- Unless another refresh follows, the version that a refresh has read can be opened, and when
its tables replace the lists it still lists the files of the current version. -/
def Timely : ThreadStep → Compactors → Prop
  | .advance thread, s =>
    match s.running[thread]? with
    | some (some (.reading version _)) => s.refreshFollows thread = true ∨ s.db.InStep ∨
        ∀ file ∈ version.files, ((s.db.disk.through s.cached).tables file.number).isSome
    | some (some (.opened version _ _ _)) => s.refreshFollows thread = true ∨
        version.numbers = s.db.versions.current.numbers
    | _ => True
  | _, _ => True

instance (step : ThreadStep) (s : Compactors) : Decidable (Timely step s) := by
  unfold Timely
  split
  · split <;> infer_instance
  · infer_instance

end Compactors

/-! What the steps do to the table lists and to the version. -/

theorem applyItems_tables (options : Options) (state : DBState) (items : List DB.GroupWriteItem) :
    (DB.applyItems options state items).1.l0Tables = state.l0Tables ∧
      (DB.applyItems options state items).1.levelTables = state.levelTables := by
  induction items generalizing state with
  | nil => exact ⟨rfl, rfl⟩
  | cons item items ih =>
    have happlied := DB.applyRecords_tables state item.startSequence item.batch.records
    have hfrozen := DB.freezeMutableIfNeeded_tables
      (state.applyRecords item.startSequence item.batch.records) options.memtableSize
      options.memtableKind
    have hrest := ih ((state.applyBatch item.startSequence item.batch).freezeMutableIfNeeded
      options.memtableSize options.memtableKind).1
    exact ⟨hrest.1.trans (hfrozen.2.1.trans happlied.2.1),
      hrest.2.trans (hfrozen.2.2.trans happlied.2.2.1)⟩

namespace DB

variable {db db' : DB}

/-- The table lists and the current version stay as they are. -/
structure KeepsLists (db db' : DB) : Prop where
  l0Tables : db'.state.l0Tables = db.state.l0Tables
  levelTables : db'.state.levelTables = db.state.levelTables
  current : db'.versions.current = db.versions.current

theorem KeepsLists.rfl : KeepsLists db db := ⟨Eq.refl _, Eq.refl _, Eq.refl _⟩

instance : Std.Refl KeepsLists := ⟨fun _ => .rfl⟩

instance : IsTrans DB KeepsLists := ⟨fun _ _ _ h h' =>
  ⟨h'.l0Tables.trans h.l0Tables, h'.levelTables.trans h.levelTables, h'.current.trans h.current⟩⟩

theorem KeepsLists.inStep (h : KeepsLists db db') (hs : db.InStep) : db'.InStep := by
  rw [InStep, h.l0Tables, h.levelTables, h.current]
  exact hs

abbrev ListsKept {α : Type} (x : DBM α) : Prop :=
  ∀ db, Within KeepsLists (fun _ => True) x db

theorem listsKept_ofExcept {α : Type} (x : Except Error α) : ListsKept (ofExcept x) := by
  intro db
  cases x with
  | ok a => exact .of_ok rfl .rfl
  | error err => exact .of_error rfl .rfl trivial

theorem listsKept_act (op : DiskOp) : ListsKept (act op) := fun _ => .of_ok rfl ⟨rfl, rfl, rfl⟩

theorem listsKept_readEntries (files : List FileMeta) : ListsKept (readEntries files) := by
  induction files with
  | nil => exact fun db => .pure _
  | cons file files ih =>
    intro db
    apply Within.get_bind
    apply Within.bind (listsKept_ofExcept _ db)
    intro table db₁ _
    exact .bind (ih db₁) fun rest db₂ _ => .pure _

theorem listsKept_trivialMoveNeedsRewrite (file : FileMeta) (gcWatermark : Nat)
    (dropTombstones : Bool) : ListsKept (trivialMoveNeedsRewrite file gcWatermark dropTombstones) :=
  fun db => .bind (listsKept_readEntries _ db) fun _ _ _ => .pure _

theorem listsKept_writeTable (entries : List Entry) (number : Nat) :
    ListsKept (writeTable entries number) := by
  intro db
  apply Within.get_bind
  apply Within.bind (listsKept_act _ db)
  intro _ db₁ _
  exact .bind (listsKept_ofExcept _ db₁) fun _ _ _ => .pure _

theorem listsKept_writeOutputs (chunks : List (List Entry × Nat)) :
    ListsKept (writeOutputs chunks) := by
  induction chunks with
  | nil => exact fun db => .pure _
  | cons chunk chunks ih =>
    intro db
    apply Within.bind (listsKept_writeTable chunk.1 chunk.2 db)
    intro ref db₁ _
    exact .bind (ih db₁) fun refs db₂ _ => .pure _

theorem listsKept_writeCompactionOutputs (entries : List Entry) :
    ListsKept (writeCompactionOutputs entries) := by
  intro db
  unfold writeCompactionOutputs
  split
  · exact .pure _
  · apply Within.get_bind
    exact .bind (.of_ok rfl ⟨rfl, rfl, rfl⟩) fun _ db₁ _ => listsKept_writeOutputs _ db₁

theorem listsKept_writeL0Table (memtable : MemTable) (number : Nat) :
    ListsKept (writeL0Table memtable number) := by
  intro db
  apply Within.get_bind
  by_cases htaken : (db.disk.tables number).isSome = true
  · rw [if_pos htaken]
    exact .of_error (run_bind_error (run_throw _ _)) .rfl trivial
  · rw [if_neg htaken]
    exact listsKept_writeTable memtable.entries number db

theorem publishL0Table_ne_error (file : FileMeta) (lastSequence : Nat) (err : Error) :
    publishL0Table file lastSequence db ≠ .error err db' := by
  intro h
  rw [publishL0Table, run_bind_ok (run_logAndApply rfl), run_bind_ok (run_logAndApply rfl),
    run_bind_ok (run_allocateFileNumber _), run_bind_ok (run_act _ _),
    run_bind_ok (run_logAndApply rfl), run_modify] at h
  cases h

theorem flush_error {err : Error} (h : flush db = .error err db') : KeepsLists db db' := by
  rw [flush, run_bind_ok (run_get db)] at h
  cases hclosed : db.state.closed with
  | true =>
    simp only [hclosed, if_true, run_bind_error (run_throw _ _)] at h
    cases h
    exact .rfl
  | false =>
    simp only [hclosed, Bool.false_eq_true, if_false] at h
    cases htake : db.state.takeOldestFlushableMemtable db.options.memtableKind with
    | none =>
      rw [htake] at h
      cases h
    | some taken =>
      obtain ⟨memtable, source, rest⟩ := taken
      obtain ⟨-, -, -, hl0, hlevels, -⟩ := DBState.takeOldest_spec htake
      simp only [htake] at h
      rw [run_bind_ok (run_set _ _), run_bind_ok (run_allocateFileNumber _)] at h
      rcases bind_eq_error h with h | ⟨ref, t, -, h⟩
      · set taken : DB := { db with
          state := rest
          versions := { db.versions with
            nextFileNumber := db.versions.nextFileNumber + 1 } } with htaken
        cases hbody : (do
            let ref ← writeL0Table memtable db.versions.nextFileNumber
            publishL0Table ref.1 rest.lastSequence
            return ref) taken with
        | ok ref t =>
          rw [run_tryCatch_ok hbody] at h
          cases h
        | error err' t =>
          have hkept : KeepsLists taken t := by
            rcases bind_eq_error hbody with hwrite | ⟨ref, u, -, hpublish⟩
            · exact ((listsKept_writeL0Table _ _ taken).error _ _ hwrite).1
            · rcases bind_eq_error hpublish with hpublish | ⟨-, u', -, hpure⟩
              · exact absurd hpublish (publishL0Table_ne_error _ _ _)
              · cases hpure
          rw [run_tryCatch_error hbody, run_bind_ok (run_modify _ _), run_throw] at h
          cases h
          have hrestored : ∀ state : DBState,
              (state.restoreFlushMemtable memtable source).l0Tables = state.l0Tables ∧
              (state.restoreFlushMemtable memtable source).levelTables = state.levelTables := by
            intro state
            cases source with
            | mutable =>
              unfold DBState.restoreFlushMemtable
              dsimp only
              split <;> exact ⟨rfl, rfl⟩
            | immutableOldest => exact ⟨rfl, rfl⟩
          exact ⟨(hrestored t.state).1.trans (hkept.l0Tables.trans hl0),
            (hrestored t.state).2.trans (hkept.levelTables.trans hlevels), hkept.current⟩
      · cases h

theorem after_group (db : DB) (requests : List Request) :
    KeepsLists db (after Section.run db (.group requests)) := by
  cases hclosed : db.state.closed with
  | true =>
    have hrun : applyWriteGroupToMemtable (.ok ()) requests db = .error .closed db := by
      rw [applyWriteGroupToMemtable, run_bind_ok (run_get db), hclosed]
      rfl
    rw [after_error (f := Section.run) (i := .group requests) (run_discard_error hrun)]
    exact .rfl
  | false =>
    rw [after_ok (Section.run_group hclosed requests)]
    obtain ⟨hl0, hlevels⟩ := applyItems_tables db.options db.state
      (groupItems (db.state.lastSequence + 1) requests)
    exact ⟨hl0, hlevels, rfl⟩

theorem after_commit (db : DB) (readSeq : Nat) (batch : WriteBatch) (readKeys : List Bytes)
    (readRanges : List ReadRange) :
    KeepsLists db (after Section.run db (.commit readSeq batch readKeys readRanges)) := by
  have hclosed : db.state.closed = true →
      commitToMemtable (.ok ()) readSeq batch readKeys readRanges db = .error .closed db := by
    intro hclosed
    rw [commitToMemtable, run_bind_ok (run_get db), hclosed]
    rfl
  cases hopen : db.state.closed with
  | true =>
    rw [after, Section.run, run_discard_error (hclosed hopen)]
    exact .rfl
  | false =>
    rcases Section.run_commit hopen readSeq batch readKeys readRanges with
      ⟨err, hrun⟩ | ⟨-, hrun⟩ | ⟨-, hrun⟩
    · rw [after_error hrun]
      exact .rfl
    · rw [after_ok hrun]
      exact .rfl
    · have hgroup := after_group db [⟨batch, {}⟩]
      rw [after_ok (Section.run_group hopen _)] at hgroup
      rw [after_ok hrun]
      exact hgroup

theorem after_section (db : DB) (step : Section) :
    (db.InStep → (after Section.run db step).InStep) ∧
      (after Section.run db step).versions.current.levels = db.versions.current.levels := by
  have hkept : ∀ {db' : DB}, KeepsLists db db' →
      (db.InStep → db'.InStep) ∧ db'.versions.current.levels = db.versions.current.levels :=
    fun h => ⟨h.inStep, by rw [h.current]⟩
  cases step with
  | group requests => exact hkept (after_group db requests)
  | commit readSeq batch readKeys readRanges =>
    exact hkept (after_commit db readSeq batch readKeys readRanges)
  | flush =>
    cases hflush : flush db with
    | error err db' =>
      rw [after_error (f := Section.run) (i := .flush) hflush]
      exact hkept (flush_error hflush)
    | ok a db' =>
      rw [after_ok (f := Section.run) (i := .flush) hflush]
      obtain ⟨-, hcases⟩ := flush_eq_ok hflush
      cases htake : db.state.takeOldestFlushableMemtable db.options.memtableKind with
      | none =>
        rw [htake] at hcases
        obtain rfl : db' = db := hcases
        exact ⟨id, rfl⟩
      | some taken =>
        obtain ⟨memtable, source, rest⟩ := taken
        obtain ⟨-, -, -, hl0, hlevels, -⟩ := DBState.takeOldest_spec htake
        rw [htake] at hcases
        obtain ⟨file, -, -, rfl⟩ := hcases
        refine ⟨fun hs => ?_, rfl⟩
        have hl0s := congrArg Prod.fst hs
        have hlevelss := congrArg Prod.snd hs
        rw [← hl0] at hl0s
        rw [← hlevels] at hlevelss
        exact Prod.ext (congrArg (file.number :: ·) hl0s) hlevelss

end DB

/-- The edits that the compaction will publish name levels that are there, and the tables that it
has opened are those of the version that it has read. -/
def Progress.Fits (levels : Nat) : Progress → Prop
  | picked task | bounded task _ | surveyed task _ _ | rewriting task _ _ | gathered task _ _ =>
    (task.inputLevel = 0 ∨ task.inputLevel < levels) ∧
      (task.outputLevel = 0 ∨ task.outputLevel < levels)
  | ready _ _ publication => ∀ edit ∈ publication.edits, edit.LevelFits levels
  | opened version l0Tables levelTables _ => tableNumbers l0Tables levelTables = version.numbers
  | _ => True

theorem VersionSet.replay_of_levelFits {vs : VersionSet} {edits : List VersionEdit}
    (h : ∀ edit ∈ edits, edit.LevelFits vs.current.levels.length) :
    ∃ vs', vs.replay edits = .ok vs' ∧
      vs'.current.levels.length = vs.current.levels.length := by
  induction edits generalizing vs with
  | nil => exact ⟨vs, rfl, rfl⟩
  | cons edit edits ih =>
    rcases vs.applyEdit_cases edit with ⟨-, next, happly, hlen⟩ | ⟨hno, -⟩
    · obtain ⟨vs', hreplay, hlen'⟩ := @ih next fun e he => by
        rw [hlen]
        exact h e (by simp [he])
      refine ⟨vs', ?_, hlen'.trans hlen⟩
      rw [VersionSet.replay, happly]
      exact hreplay
    · exact absurd (h edit (by simp)) hno

theorem levelFits_publication {levels : Nat} {task : CompactionTask}
    (h : (task.inputLevel = 0 ∨ task.inputLevel < levels) ∧
      (task.outputLevel = 0 ∨ task.outputLevel < levels)) (outputs : List TableRef) :
    ∀ edit ∈ DB.deleteEdits task ++ DB.addEdits task outputs, edit.LevelFits levels := by
  intro edit hedit
  rcases List.mem_append.mp hedit with hedit | hedit
  · obtain ⟨file, -, rfl⟩ := List.mem_map.mp hedit
    unfold VersionEdit.LevelFits
    dsimp only
    split
    · exact h.1
    · exact h.2
  · obtain ⟨ref, -, rfl⟩ := List.mem_map.mp hedit
    exact h.2

theorem Version.Fits.levels {v : Version} {task : CompactionTask} (h : v.Fits task) :
    (task.inputLevel = 0 ∨ task.inputLevel < v.levels.length) ∧
      (task.outputLevel = 0 ∨ task.outputLevel < v.levels.length) := by
  rcases h with ⟨files, -, -, rfl⟩ | ⟨pre, source, target, post, file, hl, -, -, rfl⟩
  · refine ⟨.inl rfl, ?_⟩
    simp only [CompactionPicker.taskForFiles]
    omega
  · have hlen : v.levels.length = pre.length + (post.length + 2) := by
      rw [hl, List.length_append]
      rfl
    simp only [CompactionPicker.taskForFiles]
    omega

theorem openFiles_eq_ok {d : Disk} {files : List FileMeta} {refs : List TableRef}
    (h : openFiles d files = .ok refs) :
    refs.map Prod.fst = files ∧ ∀ ref ∈ refs, d.tables ref.1.number = some ref.2 := by
  induction files generalizing refs with
  | nil =>
    cases h
    exact ⟨rfl, nofun⟩
  | cons file files ih =>
    simp only [openFiles, Disk.openTable, bind, Except.bind] at h
    cases ht : d.tables file.number with
    | none =>
      rw [ht] at h
      cases h
    | some t =>
      simp only [ht] at h
      split at h
      · cases h
      · rename_i rest hrest
        cases h
        obtain ⟨hmap, htables⟩ := ih hrest
        exact ⟨congrArg (file :: ·) hmap, List.forall_mem_cons.mpr ⟨ht, htables⟩⟩

theorem openLevels_eq_ok {d : Disk} {levels : List (List FileMeta)}
    {refs : List (List TableRef)} (h : openLevels d levels = .ok refs) :
    refs.map (List.map Prod.fst) = levels ∧
      ∀ ref ∈ refs.flatten, d.tables ref.1.number = some ref.2 := by
  induction levels generalizing refs with
  | nil =>
    cases h
    exact ⟨rfl, nofun⟩
  | cons level levels ih =>
    simp only [openLevels, bind, Except.bind] at h
    split at h
    · cases h
    · rename_i tables htables
      split at h
      · cases h
      · rename_i rest hrest
        cases h
        obtain ⟨hmap, hfiles⟩ := openFiles_eq_ok htables
        obtain ⟨hmaps, hrefs⟩ := ih hrest
        refine ⟨congrArg₂ List.cons hmap hmaps, fun ref href => ?_⟩
        rcases List.mem_append.mp href with href | href
        · exact hfiles ref href
        · exact hrefs ref href

theorem openVersionTables_eq_ok {d : Disk} {version : Version} {l0Tables : List TableRef}
    {levelTables : List (List TableRef)}
    (h : openVersionTables d version = .ok (l0Tables, levelTables)) :
    l0Tables.map Prod.fst = version.l0Files ∧
      levelTables.map (List.map Prod.fst) = version.levels ∧
      ∀ ref ∈ l0Tables ++ levelTables.flatten, d.tables ref.1.number = some ref.2 := by
  simp only [openVersionTables, bind, Except.bind] at h
  split at h
  · cases h
  · rename_i tables htables
    split at h
    · cases h
    · rename_i levels hlevels
      cases h
      obtain ⟨hl0, hfiles⟩ := openFiles_eq_ok htables
      obtain ⟨hmaps, hrefs⟩ := openLevels_eq_ok hlevels
      exact ⟨hl0, hmaps, List.forall_mem_append.mpr ⟨hfiles, hrefs⟩⟩

theorem numbers_openVersionTables {d : Disk} {version : Version} {l0Tables : List TableRef}
    {levelTables : List (List TableRef)}
    (h : openVersionTables d version = .ok (l0Tables, levelTables)) :
    tableNumbers l0Tables levelTables = version.numbers := by
  obtain ⟨hl0, hlevels, -⟩ := openVersionTables_eq_ok h
  rw [Version.numbers, ← hl0, ← hlevels, List.map_map, List.map_map, List.map_comp_map]
  rfl

theorem openVersionTables_present {d : Disk} {version : Version}
    (h : ∀ file ∈ version.files, (d.tables file.number).isSome) :
    ∃ tables, openVersionTables d version = .ok tables := by
  have hpresent : ∀ file ∈ version.files, ∃ t, d.tables file.number = some t := fun file hfile =>
    Option.isSome_iff_exists.mp (h file hfile)
  obtain ⟨l0, hl0, -⟩ := openFiles_ok fun f (hf : f ∈ version.l0Files) =>
    hpresent f (List.mem_append.mpr (.inl hf))
  obtain ⟨levels, hlevels, -⟩ := openLevels_ok
    fun level (hl : level ∈ version.levels) f hf => hpresent f
      (List.mem_append.mpr (.inr (List.mem_flatten.mpr ⟨level, hl, hf⟩)))
  exact ⟨(l0, levels), by
    simp [openVersionTables, hl0, hlevels, bind, Except.bind, pure, Except.pure]⟩

namespace Progress

open DB

variable {progress next : Progress} {cached : Nat → Option Table} {db db' : DB}

theorem advance_keepsLists (cached : Nat → Option Table) (db : DB)
    (hready : ∀ task drop publication, progress ≠ ready task drop publication)
    (hopened : ∀ version l0 levels removed, progress ≠ opened version l0 levels removed) :
    Within KeepsLists (fun _ => True) (progress.advance cached) db := by
  cases progress with
  | picked task =>
    rw [advance]
    split
    · exact .pure _
    · exact .get_bind (.pure _)
  | bounded task gcWatermark => exact .get_bind (.pure _)
  | surveyed task gcWatermark dropTombstones =>
    rw [advance]
    split
    · exact .pure _
    · dsimp only
      split
      · apply Within.bind (listsKept_trivialMoveNeedsRewrite _ _ _ db)
        intro needsRewrite db₁ _
        split <;> exact .pure _
      · exact .pure _
  | rewriting task gcWatermark dropTombstones =>
    exact .bind (listsKept_readEntries _ db) fun _ _ _ => .pure _
  | gathered task drop entries =>
    exact .bind (listsKept_writeCompactionOutputs _ db) fun _ _ _ => .pure _
  | ready task drop publication => exact absurd rfl (hready task drop publication)
  | published removed => exact .get_bind (.pure _)
  | reading version removed =>
    apply Within.get_bind
    exact .bind (listsKept_ofExcept _ db) fun _ _ _ => .pure _
  | opened version l0 levels removed => exact absurd rfl (hopened version l0 levels removed)
  | deleting removed =>
    cases removed with
    | nil => exact .pure _
    | cons number removed => exact .bind (listsKept_act _ db) fun _ _ _ => .pure _

theorem advance_ready {task : CompactionTask} {drop : Bool} {publication : Publication}
    (h : (ready task drop publication).Fits db.versions.current.levels.length) :
    ∃ db', (ready task drop publication).advance cached db =
        .ok (some (published publication.removed)) db' ∧
      db'.versions.current.levels.length = db.versions.current.levels.length := by
  obtain ⟨versions, hreplay, hlen⟩ := VersionSet.replay_of_levelFits h
  refine ⟨{ db.performed (publication.edits.map .appendManifest) with versions := versions },
    ?_, hlen⟩
  rw [advance, publish, run_bind_ok (run_logAndApplyAll hreplay), run_pure]

theorem advance_opened (version : Version) (l0 : List TableRef) (levels : List (List TableRef))
    (removed : List Nat) (db : DB) : (opened version l0 levels removed).advance cached db =
      .ok (some (deleting removed)) { db with
        state := { db.state with l0Tables := l0, levelTables := levels } } := rfl

theorem advance_fits {levels : Nat} (h : progress.Fits levels)
    (hstep : progress.advance cached db = .ok (some next) db') : next.Fits levels := by
  cases progress with
  | picked task =>
    rw [advance] at hstep
    split at hstep
    · cases hstep
    · rw [run_bind_ok (run_get db)] at hstep
      cases hstep
      exact h
  | bounded task gcWatermark =>
    rw [advance, run_bind_ok (run_get db)] at hstep
    cases hstep
    exact h
  | surveyed task gcWatermark dropTombstones =>
    rw [advance] at hstep
    cases hfiles : task.inputFiles with
    | nil =>
      simp only [hfiles] at hstep
      cases hstep
    | cons file rest =>
      simp only [hfiles] at hstep
      have hnext : ∀ (needsRewrite : Bool) (t : DB), (if needsRewrite then
            pure (some (rewriting task gcWatermark dropTombstones))
          else pure (some (ready task dropTombstones ⟨[.deleteFile task.inputLevel file.number,
            .addFile task.outputLevel file], []⟩)) : DBM (Option Progress)) t =
          .ok (some next) db' → next.Fits levels := by
        intro needsRewrite t hstep
        cases needsRewrite with
        | true =>
          cases hstep
          exact h
        | false =>
          cases hstep
          intro edit hedit
          simp only [List.mem_cons, List.not_mem_nil, or_false] at hedit
          rcases hedit with rfl | rfl
          · exact h.1
          · exact h.2
      by_cases htrivial : task.isTrivialMove = true
      · rw [if_pos htrivial] at hstep
        obtain ⟨needsRewrite, t, -, hstep⟩ := bind_eq_ok hstep
        exact hnext needsRewrite t hstep
      · rw [if_neg htrivial] at hstep
        exact hnext true db hstep
  | rewriting task gcWatermark dropTombstones =>
    obtain ⟨entries, t, -, hstep⟩ := bind_eq_ok hstep
    cases hstep
    exact h
  | gathered task drop entries =>
    obtain ⟨outputs, t, -, hstep⟩ := bind_eq_ok hstep
    cases hstep
    exact levelFits_publication h outputs
  | ready task drop publication =>
    obtain ⟨-, t, -, hstep⟩ := bind_eq_ok hstep
    cases hstep
    trivial
  | published removed =>
    cases hstep
    trivial
  | reading version removed =>
    rw [advance, run_bind_ok (run_get db)] at hstep
    obtain ⟨⟨l0, levelTables⟩, t, hopen, hstep⟩ := bind_eq_ok hstep
    cases hstep
    cases htables : openVersionTables (db.disk.through cached) version with
    | error err =>
      rw [htables, run_ofExcept_error] at hopen
      cases hopen
    | ok tables =>
      rw [htables, run_ofExcept_ok] at hopen
      cases hopen
      exact numbers_openVersionTables htables
  | opened version l0 levelTables removed =>
    cases hstep
    trivial
  | deleting removed =>
    cases removed <;> cases hstep
    trivial

/-- After it has published, a compaction awaits its refresh until the lists are replaced. -/
theorem advance_awaits {next : Option Progress} (h : awaitsRefresh (some progress) = true)
    (hstep : progress.advance cached db = .ok next db') :
    awaitsRefresh next = true ∨ ∃ version l0 levels removed,
      progress = opened version l0 levels removed := by
  cases progress with
  | published removed =>
    cases hstep
    exact .inl rfl
  | reading version removed =>
    rw [advance, run_bind_ok (run_get db)] at hstep
    obtain ⟨tables, t, -, hstep⟩ := bind_eq_ok hstep
    cases hstep
    exact .inl rfl
  | opened version l0 levels removed => exact .inr ⟨version, l0, levels, removed, rfl⟩
  | _ => cases h

theorem advance_reading {version : Version} (removed : List Nat)
    (h : ∀ file ∈ version.files, ((db.disk.through cached).tables file.number).isSome) :
    ∃ next, (reading version removed).advance cached db = .ok next db := by
  obtain ⟨tables, htables⟩ := openVersionTables_present h
  refine ⟨some (opened version tables.1 tables.2 removed), ?_⟩
  rw [advance, run_bind_ok (run_get db), htables, run_bind_ok (run_ofExcept_ok _ _)]
  rfl

end Progress

theorem any_set {α : Type} {l : List α} {i : Nat} {a : α} (h : l[i]? = some a) (b : α)
    (p : α → Bool) : (l.set i b).any p = (p b || (l.eraseIdx i).any p) := by
  obtain ⟨hlt, -⟩ := List.getElem?_eq_some_iff.mp h
  rw [List.set_eq_take_append_cons_drop, if_pos hlt, List.eraseIdx_eq_take_drop_succ,
    List.any_append, List.any_append, List.any_cons]
  exact Bool.or_left_comm _ _ _

theorem any_eq_of_getElem? {α : Type} {l : List α} {i : Nat} {a : α} (h : l[i]? = some a)
    (p : α → Bool) : l.any p = (p a || (l.eraseIdx i).any p) := by
  obtain ⟨hlt, rfl⟩ := List.getElem?_eq_some_iff.mp h
  rw [← any_set h, List.set_getElem_self]

namespace Compactors

variable {s : Compactors} {thread : Nat}

/-- Either the lists are in step, or a compaction is about to replace them. -/
structure Holds (s : Compactors) : Prop where
  inStep : s.running.any Progress.awaitsRefresh = true ∨ s.db.InStep
  fits : ∀ progress, some progress ∈ s.running →
    progress.Fits s.db.versions.current.levels.length

theorem holds_start {db : DB} (h : db.InStep) (threads : Nat) : (start db threads).Holds := by
  refine ⟨.inr h, fun progress hmem => ?_⟩
  cases List.eq_of_mem_replicate hmem

theorem Holds.set (h : s.Holds) {progress next : Option Progress}
    (hthread : s.running[thread]? = some progress) {db : DB}
    (hlen : db.versions.current.levels.length = s.db.versions.current.levels.length)
    (hfits : ∀ p, next = some p → p.Fits s.db.versions.current.levels.length)
    (hinStep : s.refreshFollows thread = false → Progress.awaitsRefresh next = true ∨ db.InStep) :
    (s.moveTo db (s.running.set thread next)).Holds := by
  constructor
  · show (s.running.set thread next).any Progress.awaitsRefresh = true ∨ db.InStep
    rw [any_set hthread]
    cases hfollows : s.refreshFollows thread with
    | true =>
      left
      rw [refreshFollows] at hfollows
      rw [hfollows, Bool.or_true]
    | false =>
      rcases hinStep hfollows with hawaits | hs
      · left
        rw [hawaits, Bool.true_or]
      · exact .inr hs
  · intro p hmem
    show p.Fits db.versions.current.levels.length
    rw [hlen]
    rcases List.mem_or_eq_of_mem_set hmem with hmem | rfl
    · exact h.fits p hmem
    · exact hfits p rfl

/-- If no other refresh follows, the thread's own compaction awaits one or the lists are in
step. -/
theorem Holds.awaits_or_inStep (h : s.Holds) {progress : Option Progress}
    (hthread : s.running[thread]? = some progress) (hfollows : s.refreshFollows thread = false) :
    Progress.awaitsRefresh progress = true ∨ s.db.InStep := by
  rcases h.inStep with hany | hs
  · left
    rw [any_eq_of_getElem? hthread] at hany
    rw [refreshFollows] at hfollows
    rwa [hfollows, Bool.or_false] at hany
  · exact .inr hs

theorem Holds.compact (h : s.Holds) (lower upper : Bound) :
    (s.step (.compact thread lower upper)).Holds := by
  rw [step]
  split
  · rename_i hthread
    apply h.set hthread rfl
    · intro p hp
      cases hpick : CompactionPicker.pickManual s.db.versions.current lower upper with
      | none =>
        rw [hpick] at hp
        cases hp
      | some task =>
        rw [hpick] at hp
        cases hp
        exact (Version.fits_of_pick hpick).levels
    · exact fun hfollows => .inr ((h.awaits_or_inStep hthread hfollows).resolve_left nofun)
  · exact h

theorem Holds.publish (h : s.Holds) {task : CompactionTask} {drop : Bool}
    {publication : Publication}
    (hthread : s.running[thread]? = some (some (.ready task drop publication))) :
    (s.step (.advance thread)).Holds := by
  obtain ⟨db', hrun, hlen⟩ := Progress.advance_ready (h.fits _ (List.mem_of_getElem? hthread))
  rw [step, hthread]
  dsimp only
  rw [hrun]
  apply h.set hthread hlen
  · intro p hp
    cases hp
    trivial
  · exact fun _ => .inl rfl

theorem Holds.install (h : s.Holds) {version : Version} {l0 : List TableRef}
    {levels : List (List TableRef)} {removed : List Nat}
    (hthread : s.running[thread]? = some (some (.opened version l0 levels removed)))
    (htimely : Timely (.advance thread) s) : (s.step (.advance thread)).Holds := by
  have hfits := h.fits _ (List.mem_of_getElem? hthread)
  rw [step, hthread]
  dsimp only
  rw [Progress.advance_opened]
  refine h.set hthread rfl ?_ ?_
  · intro p hp
    cases hp
    trivial
  · intro hfollows
    simp only [Timely, hthread] at htimely
    rcases htimely with hother | hnumbers
    · rw [hfollows] at hother
      cases hother
    · exact .inr (show tableNumbers l0 levels = s.db.versions.current.numbers from
        hfits.trans hnumbers)

/-- A refresh that fails leaves the lists as they are, so they have to be in step already. -/
theorem Holds.fails (h : s.Holds) {progress : Progress} {err : Error} {db' : DB}
    (hthread : s.running[thread]? = some (some progress)) (htimely : Timely (.advance thread) s)
    (hrun : progress.advance s.cached s.db = .error err db') (hkept : DB.KeepsLists s.db db') :
    (s.moveTo db' (s.running.set thread none)).Holds := by
  apply h.set hthread (by rw [hkept.current])
  · intro p hp
    cases hp
  · intro hfollows
    right
    rcases h.awaits_or_inStep hthread hfollows with hawaits | hs
    · cases progress with
      | reading version removed =>
        simp only [Timely, hthread] at htimely
        rcases htimely with hother | hs | hpresent
        · rw [hfollows] at hother
          cases hother
        · exact hkept.inStep hs
        · obtain ⟨next, hok⟩ := Progress.advance_reading removed hpresent
          rw [hok] at hrun
          cases hrun
      | published removed => cases hrun
      | opened version l0 levels removed => cases hrun
      | _ => cases hawaits
    · exact hkept.inStep hs

theorem Holds.advance (h : s.Holds) (htimely : Timely (.advance thread) s) :
    (s.step (.advance thread)).Holds := by
  cases hthread : s.running[thread]? with
  | none =>
    rw [step, hthread]
    exact h
  | some running =>
    cases running with
    | none =>
      rw [step, hthread]
      exact h
    | some progress =>
      by_cases hready : ∃ task drop publication, progress = .ready task drop publication
      · obtain ⟨task, drop, publication, rfl⟩ := hready
        exact h.publish hthread
      by_cases hopened : ∃ version l0 levels removed,
          progress = .opened version l0 levels removed
      · obtain ⟨version, l0, levels, removed, rfl⟩ := hopened
        exact h.install hthread htimely
      -- no other step touches the version or the lists
      have hkeeps := Progress.advance_keepsLists s.cached s.db
        (fun task drop p hp => hready ⟨task, drop, p, hp⟩)
        (fun v l0 levels r hp => hopened ⟨v, l0, levels, r, hp⟩)
      rw [step, hthread]
      dsimp only
      cases hrun : progress.advance s.cached s.db with
      | error err db' => exact h.fails hthread htimely hrun (hkeeps.error err db' hrun).1
      | ok next db' =>
        have hkept := hkeeps.ok next db' hrun
        apply h.set hthread (by rw [hkept.current])
        · intro p hp
          rw [hp] at hrun
          exact Progress.advance_fits (h.fits progress (List.mem_of_getElem? hthread)) hrun
        · intro hfollows
          rcases h.awaits_or_inStep hthread hfollows with hawaits | hs
          · rcases Progress.advance_awaits hawaits hrun with hnext | hinstall
            · exact .inl hnext
            · exact absurd hinstall hopened
          · exact .inr (hkept.inStep hs)

theorem Holds.step (h : s.Holds) {step : ThreadStep} (htimely : Timely step s) :
    (s.step step).Holds := by
  cases step with
  | writer step =>
    obtain ⟨hs, hlevels⟩ := DB.after_section s.db step
    refine ⟨h.inStep.imp_right hs, fun p hp => ?_⟩
    show p.Fits (after Section.run s.db step).versions.current.levels.length
    rw [hlevels]
    exact h.fits p hp
  | compact thread lower upper => exact h.compact lower upper
  | advance thread => exact h.advance htimely
  | evict number => exact ⟨h.inStep, h.fits⟩

theorem Holds.run (h : s.Holds) {steps : List ThreadStep}
    (htimely : Throughout Compactors.step Timely steps s) : (run steps s).Holds :=
  foldl_invariant (I := Holds) (fun _ _ h htimely => h.step htimely) h htimely

theorem Holds.inStep_of_idle (h : s.Holds) (hidle : s.Idle) : s.db.InStep := by
  rcases h.inStep with hany | hs
  · obtain ⟨progress, hmem, hawaits⟩ := List.any_eq_true.mp hany
    rw [hidle progress hmem] at hawaits
    cases hawaits
  · exact hs

end Compactors

namespace DB

theorem inStep_of_open {env : Env} {disk : Disk} {options : Options} {db : DB}
    (h : DB.open env disk options = .ok db) : db.InStep := by
  have hrecovered : ∀ (state : DBState) (records : List (Nat × WriteBatch)),
      tableNumbers (state.recoverWal records).l0Tables (state.recoverWal records).levelTables =
        tableNumbers state.l0Tables state.levelTables := by
    intro state records
    obtain ⟨-, hl0, hlevels⟩ := recoverWal_tables state records
    rw [hl0, hlevels]
  simp only [DB.open, bind, Except.bind, pure, Except.pure] at h
  by_cases hcurrent : (disk.applyAll [.createDir]).current = true
  · simp only [hcurrent, if_true] at h
    split at h
    · cases h
    split at h
    · cases h
    split at h
    · cases h
    split at h
    · cases h
    rename_i tables htables
    cases h
    rw [InStep]
    dsimp only
    split
    · exact (hrecovered _ _).trans (numbers_openVersionTables htables)
    · exact numbers_openVersionTables htables
  · simp only [hcurrent, Bool.false_eq_true, if_false] at h
    split at h
    · cases h
    split at h
    · cases h
    split at h
    · cases h
    rename_i tables htables
    cases h
    rw [InStep]
    dsimp only
    split
    · exact (hrecovered _ _).trans (numbers_openVersionTables htables)
    · exact numbers_openVersionTables htables

theorem InStep.listed {db : DB} (h : db.InStep) {file : FileMeta}
    (hfile : file ∈ db.versions.current.files) :
    ∃ ref ∈ db.tableRefs, ref.1.number = file.number := by
  have hl0 : db.state.l0Tables.map (fun ref => ref.1.number) =
      db.versions.current.l0Files.map FileMeta.number := congrArg Prod.fst h
  have hlevels : db.state.levelTables.map (List.map (fun ref : TableRef => ref.1.number)) =
      db.versions.current.levels.map (List.map FileMeta.number) := congrArg Prod.snd h
  have hall : db.tableRefs.map (fun ref => ref.1.number) =
      db.versions.current.files.map FileMeta.number := by
    rw [tableRefs, Version.files, List.map_append, List.map_append, hl0, List.map_flatten,
      List.map_flatten, hlevels]
  have hmem : file.number ∈ db.tableRefs.map (fun ref => ref.1.number) := by
    rw [hall]
    exact List.mem_map_of_mem hfile
  exact List.mem_map.mp hmem

end DB

/-- A flush between the two halves of a refresh. -/
def flushDuringRefresh (advances : Nat) : List ThreadStep :=
  [.writer (.group [⟨⟨[.put [1] [7]]⟩, {}⟩]), .writer .flush, .compact 0 .unbounded .unbounded] ++
    List.replicate advances (.advance 0) ++
    [.writer (.group [⟨⟨[.put [2] [8]]⟩, {}⟩]), .writer .flush] ++
    List.replicate (11 - advances) (.advance 0)

instance (s : Compactors) : Decidable s.Idle :=
  decidable_of_iff (s.running.all Option.isNone = true) (by simp [Compactors.Idle])

end TyLsm
