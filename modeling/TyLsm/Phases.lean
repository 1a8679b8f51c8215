import TyLsm.Frame
import TyLsm.Rotation

/-! A compaction as its threads see it: it picks a task and writes the outputs, publishes its
edits, refreshes the table lists, and unlinks its input files. Between these steps writers
may run, and flush. -/

namespace TyLsm

/-- What a compaction publishes, and the files that it unlinks in the end. -/
structure Publication where
  edits : List VersionEdit
  removed : List Nat

namespace DB

/-- A compaction up to its first edit. -/
def prepareTask (task : CompactionTask) : DBM (Option Publication) := do
  match task.inputFiles with
  | [] => return none
  | file :: _ =>
    let db ← MonadState.get
    let gcWatermark := db.gcWatermark
    let dropTombstones := canDropTombstones db.versions.current task
    let needsRewrite ←
      if task.isTrivialMove then trivialMoveNeedsRewrite file gcWatermark dropTombstones
      else pure true
    if needsRewrite then
      let entries ← readEntries task.allInputFiles
      let outputs ← writeCompactionOutputs (compactEntries entries gcWatermark dropTombstones)
      return some ⟨deleteEdits task ++ addEdits task outputs,
        task.allInputFiles.map FileMeta.number⟩
    else
      return some ⟨[.deleteFile task.inputLevel file.number, .addFile task.outputLevel file], []⟩

def prepare (lower upper : Bound) : DBM (Option Publication) := do
  let db ← MonadState.get
  match CompactionPicker.pickManual db.versions.current lower upper with
  | some task => prepareTask task
  | none => return none

def publish (publication : Publication) : DBM Unit := logAndApplyAll publication.edits

/-- The steps of a compaction after its outputs are written. -/
def finishCompaction : Option Publication → DBM Unit
  | none => pure ()
  | some publication => do
    publish publication
    refreshTablesFromVersion
    deleteObsoleteFiles publication.removed

theorem discard_executeCompaction (task : CompactionTask) :
    discard (executeCompaction task) = prepareTask task >>= finishCompaction := by
  change (executeCompaction task >>= fun _ => pure ()) = _
  unfold executeCompaction prepareTask
  cases task.inputFiles with
  | nil => rfl
  | cons file rest =>
    simp only [bind_assoc]
    refine bind_congr fun db => ?_
    split
    · simp only [bind_assoc]
      refine bind_congr fun needsRewrite => ?_
      cases needsRewrite <;>
        simp [rewrite, moveTrivially, finishCompaction, publish, deleteObsoleteFiles, bind_assoc]
    · simp [rewrite, finishCompaction, publish, bind_assoc]

theorem compactRange_eq (lower upper : Bound) :
    compactRange lower upper = prepare lower upper >>= finishCompaction := by
  unfold compactRange prepare
  rw [bind_assoc]
  refine bind_congr fun db => ?_
  cases CompactionPicker.pickManual db.versions.current lower upper with
  | none => rfl
  | some task => exact discard_executeCompaction task

variable {db db' : DB} {task : CompactionTask} {refs : List TableRef} {outs : List FileMeta}
  {publication : Publication}

/-- The table files of the numbers handed out so far stay as they are. -/
structure KeepsTables (db db' : DB) : Prop where
  next_le : db.versions.nextFileNumber ≤ db'.versions.nextFileNumber
  same : ∀ n < db.versions.nextFileNumber, db'.disk.tables n = db.disk.tables n

theorem KeepsTables.refl (db : DB) : KeepsTables db db := ⟨le_rfl, fun _ _ => rfl⟩

/-- The database after the outputs `refs` of a compaction are written. -/
def prepared (db : DB) (refs : List TableRef) : DB :=
  { db.performed (refs.map (fun ref => .renameTable ref.1.number ref.2)) with
    versions := { db.versions with
      nextFileNumber := db.versions.nextFileNumber + refs.length } }

theorem prepared_tables (db : DB) (refs : List TableRef) :
    (db.prepared refs).disk.tables = db.disk.withTables refs := by
  rw [prepared, performed, Disk.applyAll_renameTable]

/-- A publication that replaces the files of a task by `outs` in the current version. -/
structure Ready (db : DB) (publication : Publication) (task : CompactionTask)
    (outs : List FileMeta) : Prop where
  fits : db.versions.current.Fits task
  edits : publication.edits =
    deleteEdits task ++ outs.map (VersionEdit.addFile task.outputLevel)
  placed : Placed db.versions.current task db.disk.tables outs
  entries : (outs.flatMap (fileEntries db.disk.tables)).Subperm (task.entries db.disk.tables)
  removed : publication.removed ⊆ task.numbers
  unlisted : publication.removed = [] ∨ ∀ o ∈ outs, o.number ∉ task.numbers

/-- No file that a publication removes is listed any more. -/
def Gone (db : DB) (publication : Publication) : Prop :=
  ∀ n ∈ publication.removed, n < db.versions.nextFileNumber ∧
    ∀ f ∈ db.versions.current.files, f.number ≠ n

theorem run_prepareTask {file : FileMeta} {rest : List FileMeta}
    (hfiles : task.inputFiles = file :: rest)
    (hread : ∀ f ∈ task.allInputFiles, ∃ t, db.disk.tables f.number = some t) :
    (db.movesTrivially task = true ∧ task.allInputFiles = [file] ∧ prepareTask task db =
      .ok (some ⟨deleteEdits task ++ [file].map (VersionEdit.addFile task.outputLevel), []⟩) db) ∨
    prepareTask task db = (do
      let outputs ← writeCompactionOutputs (compactEntries (task.entries db.disk.tables)
        db.gcWatermark (canDropTombstones db.versions.current task))
      return some (⟨deleteEdits task ++ addEdits task outputs, task.numbers⟩ : Publication)) db := by
  have hfile : file ∈ task.allInputFiles := List.mem_append.mpr (.inl (by simp [hfiles]))
  rw [prepareTask]
  simp only [hfiles]
  rw [run_bind_ok (run_get db)]
  have hrewrite : ∀ {gcWatermark : Nat} {drop : Bool}, (do
      let entries ← readEntries task.allInputFiles
      let outputs ← writeCompactionOutputs (compactEntries entries gcWatermark drop)
      return some (⟨deleteEdits task ++ addEdits task outputs,
        task.allInputFiles.map FileMeta.number⟩ : Publication)) db = (do
      let outputs ← writeCompactionOutputs
        (compactEntries (task.entries db.disk.tables) gcWatermark drop)
      return some (⟨deleteEdits task ++ addEdits task outputs, task.numbers⟩ : Publication)) db := by
    intro gcWatermark drop
    rw [run_bind_ok (run_readEntries hread)]
    rfl
  by_cases ht : task.isTrivialMove = true
  · obtain ⟨_, hone, hover, hneeds⟩ := run_trivialMoveNeedsRewrite hfiles (hread file hfile) ht
    have hall : task.allInputFiles = [file] := by
      rw [CompactionTask.allInputFiles, hone, hover, List.append_nil]
    rw [if_pos ht, run_bind_ok hneeds]
    cases hm : db.movesTrivially task with
    | false => exact .inr hrewrite
    | true =>
      refine .inl ⟨rfl, hall, ?_⟩
      simp [deleteEdits, hall, hone]
  · rw [if_neg ht, run_bind_ok (run_pure db true)]
    exact .inr hrewrite

theorem Live.prepared (h : db.Live)
    (hnumbers : ∀ ref ∈ refs, db.versions.nextFileNumber ≤ ref.1.number ∧
      ref.1.number < db.versions.nextFileNumber + refs.length) :
    (db.prepared refs).Live ∧ KeepsTables db (db.prepared refs) := by
  have hsame : ∀ n < db.versions.nextFileNumber,
      (db.prepared refs).disk.tables n = db.disk.tables n := by
    intro n hn
    rw [prepared_tables, Disk.withTables_of_ne _ fun ref href => ?_]
    have := (hnumbers ref href).1
    omega
  have hagree : ∀ f ∈ db.versions.current.files,
      (db.prepared refs).disk.tables f.number = db.disk.tables f.number := fun f hf =>
    hsame f.number (h.file_number_lt hf)
  have hall : (db.prepared refs).allEntries = db.allEntries := by
    rw [allEntries, allEntries, ← Version.entries_congr hagree]
    rfl
  refine ⟨⟨h.isOpen, h.listed.congr hagree, ?_, ?_, h.matched, h.frozen, ?_⟩, ⟨?_, hsame⟩⟩
  · rw [hall]
    exact h.distinct
  · rw [hall]
    exact h.sequences
  · intro n hn
    have hn' : db.versions.nextFileNumber + refs.length ≤ n := hn
    rw [prepared_tables, Disk.withTables_of_ne _ fun ref href => ?_]
    · exact h.freshTables n (by omega)
    · have := (hnumbers ref href).2
      omega
  · exact Nat.le_add_right _ _

theorem Live.prepare (h : db.Live) (lower upper : Bound) :
    DB.prepare lower upper db = .ok none db ∨
    ∃ publication refs task outs, DB.prepare lower upper db = .ok (some publication) (db.prepared refs) ∧
      (db.prepared refs).Live ∧ KeepsTables db (db.prepared refs) ∧
      (db.prepared refs).Ready publication task outs := by
  rw [DB.prepare, run_bind_ok (run_get db)]
  cases hpick : CompactionPicker.pickManual db.versions.current lower upper with
  | none => exact .inl rfl
  | some task =>
    right
    have hfits := Version.fits_of_pick hpick
    have hin := (h.listed.fits_sublist hfits).subset
    have hread : ∀ f ∈ task.allInputFiles, ∃ t, db.disk.tables f.number = some t := fun f hf =>
      (h.listed.described f (hin hf)).imp fun t ht => ht.1
    obtain ⟨file, rest, hfiles⟩ := List.exists_cons_of_ne_nil (hfits.cases h.listed).1
    have hfile : file ∈ task.allInputFiles := List.mem_append.mpr (.inl (by simp [hfiles]))
    dsimp only
    rcases run_prepareTask hfiles hread with ⟨_, hall, hrun⟩ | hrun
    · -- the file changes its level as it is
      have hnone : db.prepared [] = db := by simp [DB.prepared, performed]
      refine ⟨_, [], task, [file], by rw [hnone]; exact hrun, ?_⟩
      rw [hnone]
      refine ⟨h, KeepsTables.refl db, hfits, rfl, placed_moved h hall (hin hfile), ?_, by simp,
        .inl rfl⟩
      rw [CompactionTask.entries, hall]
    · have hsub := h.listed.entries_sublist hpick
      have hmatched : ∀ e ∈ compactEntries (task.entries db.disk.tables) db.gcWatermark
          (canDropTombstones db.versions.current task), Matched e := by
        intro e he
        obtain ⟨f, hf, hef⟩ := List.mem_flatMap.mp (mem_compactEntries.mp he).1
        obtain ⟨t, ht, hd⟩ := h.listed.described f (hin hf)
        rw [fileEntries_eq ht] at hef
        exact hd.wellFormed.matched e hef
      obtain ⟨refs, hw, hwrite⟩ := run_writeCompactionOutputs
        (h.sorted_compactEntries hsub db.gcWatermark (canDropTombstones db.versions.current task))
        hmatched
      rw [run_bind_ok hwrite, run_pure, addEdits_eq] at hrun
      obtain ⟨hlive, hkeeps⟩ := h.prepared hw.numbers
      refine ⟨_, refs, task, refs.map Prod.fst, hrun, hlive, hkeeps, hfits, rfl, ?_, ?_,
        List.Subset.refl _, .inr ?_⟩
      · rw [prepared_tables]
        exact hw.placed h
      · have houts : (refs.map Prod.fst).flatMap (fileEntries (db.prepared refs).disk.tables) =
            compactEntries (task.entries db.disk.tables) db.gcWatermark
              (canDropTombstones db.versions.current task) := by
          rw [← hw.flatten, List.flatMap_def, List.map_map, prepared_tables]
          exact congrArg List.flatten (List.map_congr_left fun ref href =>
            fileEntries_eq (Disk.withTables_of_mem _ hw.nodup href))
        have htask : task.entries (db.prepared refs).disk.tables = task.entries db.disk.tables :=
          flatMap_fileEntries_congr fun f hf => hkeeps.same f.number (h.file_number_lt (hin hf))
        rw [houts, htask]
        exact compactEntries_subperm _ _ _
      · intro o ho hmem
        obtain ⟨ref, href, rfl⟩ := List.mem_map.mp ho
        obtain ⟨f, hf, he⟩ := List.mem_map.mp hmem
        have := (hw.numbers ref href).1
        have := h.file_number_lt (hin hf)
        omega

/-- The table lists are those of the current version. -/
def Synced (db : DB) : Prop :=
  TablesOf db.disk db.versions.current db.state.l0Tables db.state.levelTables

/-- The open tables are on disk. -/
def ListsOpened (db : DB) : Prop :=
  Opened db.disk (db.state.l0Tables ++ db.state.levelTables.flatten)

theorem entries_subperm_of_replaces {v v' : Version} {tables : Nat → Option Table}
    (hr : Replaces v task tables outs v') (h : v.Listed tables)
    (hsub : task.allInputFiles.Sublist v.files)
    (hentries : (outs.flatMap (fileEntries tables)).Subperm (task.entries tables)) :
    (v'.entries tables).Subperm (v.entries tables) := by
  have hnew : (v'.entries tables).Perm ((v.remaining task).flatMap (fileEntries tables) ++
      outs.flatMap (fileEntries tables)) := by
    rw [← List.flatMap_append]
    exact hr.perm.flatMap_right _
  have hold : (v.entries tables).Perm ((v.remaining task).flatMap (fileEntries tables) ++
      task.entries tables) := by
    rw [CompactionTask.entries, ← List.flatMap_append]
    exact (h.files_perm hsub).flatMap_right _
  refine hnew.subperm.trans (List.Subperm.trans ?_ hold.symm.subperm)
  exact (List.subperm_append_left _).mpr hentries

theorem Live.publish (h : db.Live) (hr : db.Ready publication task outs) :
    ∃ db', DB.publish publication db = .ok () db' ∧ db'.Live ∧ KeepsTables db db' ∧
      db'.Gone publication ∧ db'.state = db.state ∧ db'.disk.tables = db.disk.tables := by
  have hsub := h.listed.fits_sublist hr.fits
  obtain ⟨v', hrep⟩ := h.listed.fits_publishes hr.fits hr.placed
  have hreplay := hrep.replay db.versions rfl
  rw [← hr.edits] at hreplay
  refine ⟨_, run_logAndApplyAll hreplay, ?_⟩
  set db' : DB := { db.performed (publication.edits.map .appendManifest) with
    versions := { db.versions with
      current := v'
      nextFileNumber := Version.nextAfter db.versions.nextFileNumber outs } } with hdb'
  have htables : db'.disk.tables = db.disk.tables := by
    rw [hdb', performed, Disk.applyAll_appendManifest]
  have hnext : db.versions.nextFileNumber ≤ db'.versions.nextFileNumber :=
    Version.le_nextAfter _ _
  have hall : db'.allEntries.Subperm db.allEntries := by
    rw [allEntries, allEntries, htables]
    exact (List.subperm_append_left _).mpr (entries_subperm_of_replaces hrep h.listed hsub hr.entries)
  refine ⟨⟨h.isOpen, ?_, ?_, fun e he => h.sequences e (hall.subset he), h.matched, h.frozen, ?_⟩,
    ⟨hnext, fun n _ => by rw [htables]⟩, ?_, rfl, htables⟩
  · rw [htables]
    exact hrep.listed
  · obtain ⟨l, hperm, hl⟩ := hall
    exact (hperm.map Prod.fst).nodup_iff.mp (h.distinct.sublist (hl.map _))
  · intro n hn
    rw [htables]
    exact h.freshTables n (hnext.trans hn)
  · intro n hn
    obtain ⟨f, hf, rfl⟩ := List.mem_map.mp (hr.removed hn)
    refine ⟨(h.file_number_lt (hsub.subset hf)).trans_le hnext, fun g hg he => ?_⟩
    rcases List.mem_append.mp (hrep.perm.mem_iff.mp hg) with hg | hg
    · exact of_decide_eq_true (List.mem_filter.mp hg).2 (he ▸ hr.removed hn)
    · rcases hr.unlisted with hnil | hne
      · rw [hnil] at hn
        cases hn
      · exact hne g hg (he ▸ hr.removed hn)

theorem Live.refresh (h : db.Live) :
    ∃ db', refreshTablesFromVersion db = .ok () db' ∧ db'.Live ∧ KeepsTables db db' ∧
      db'.Synced ∧ db'.versions = db.versions ∧ db'.disk = db.disk := by
  obtain ⟨l0, levels, hopen, htables⟩ := openVersionTables_ok h.listed
  refine ⟨_, run_refreshTablesFromVersion hopen, ?_, ⟨le_rfl, fun _ _ => rfl⟩, htables, rfl, rfl⟩
  exact ⟨h.isOpen, h.listed, h.distinct, h.sequences, h.matched, h.frozen, h.freshTables⟩

theorem Live.delete (h : db.Live) (hgone : db.Gone publication) (hsynced : db.Synced) :
    ∃ db', deleteObsoleteFiles publication.removed db = .ok () db' ∧ db'.Live ∧ db'.Synced ∧
      db'.versions = db.versions ∧
      ∀ n, db'.disk.tables n = if n ∈ publication.removed then none else db.disk.tables n := by
  refine ⟨_, run_deleteObsoleteFiles db publication.removed, ?_⟩
  have htables : (db.performed (publication.removed.map .removeTable)).disk.tables =
      fun n => if n ∈ publication.removed then none else db.disk.tables n := by
    rw [performed, Disk.applyAll_removeTable]
  have hagree : ∀ f ∈ db.versions.current.files,
      (db.performed (publication.removed.map .removeTable)).disk.tables f.number =
        db.disk.tables f.number := by
    intro f hf
    rw [htables]
    exact if_neg fun hmem => (hgone f.number hmem).2 f hf rfl
  have hall : (db.performed (publication.removed.map .removeTable)).allEntries = db.allEntries := by
    rw [allEntries, allEntries, ← Version.entries_congr hagree]
    rfl
  refine ⟨⟨h.isOpen, h.listed.congr hagree, ?_, ?_, h.matched, h.frozen, ?_⟩,
    hsynced.congr hagree, rfl, fun n => congrFun htables n⟩
  · rw [hall]
    exact h.distinct
  · rw [hall]
    exact h.sequences
  · intro n hn
    rw [htables]
    dsimp only
    split
    · rfl
    · exact h.freshTables n hn

/-- What a writer's section does to a compaction on its way. -/
structure Undisturbed (db db' : DB) : Prop where
  live : db'.Live
  keeps : KeepsTables db db'
  opened : db.ListsOpened → db'.ListsOpened
  synced : db.Synced → db'.Synced
  ready : ∀ publication task outs, db.Ready publication task outs → db'.Ready publication task outs
  gone : ∀ publication, db.Gone publication → db'.Gone publication

theorem Live.written_undisturbed (h : db.Live) (requests : List Request) :
    Undisturbed db (db.written requests) := by
  obtain ⟨hlive, hadds⟩ := h.written requests
  have htables := db.written_tables requests
  refine ⟨hlive, ⟨le_rfl, fun n _ => by rw [htables]⟩, fun ho ref href => ?_,
    fun hs => tablesOf_written hs hadds, fun publication task outs hr => ?_, fun _ hg => hg⟩
  · rw [hadds.l0Tables, hadds.levelTables] at href
    rw [htables]
    exact ho ref href
  · refine ⟨hr.fits, hr.edits, ?_, ?_, hr.removed, hr.unlisted⟩
    · rw [htables]
      exact hr.placed
    · rw [htables]
      exact hr.entries

theorem Live.flushed_undisturbed (h : db.Live) {state : DBState} {memtable : MemTable}
    {source : DBState.FlushSource} {ref : TableRef}
    (htake : db.state.takeOldestFlushableMemtable db.options.memtableKind =
      some (memtable, source, state)) (hnum : ref.1.number = db.versions.nextFileNumber)
    (hdesc : ref.1.Describes ref.2) (hlive : (db.flushed state ref).Live) :
    Undisturbed db (db.flushed state ref) := by
  obtain ⟨_, _, _, hl0, hlevels, _⟩ := DBState.takeOldest_spec htake
  have htables : (db.flushed state ref).disk.tables =
      Function.update db.disk.tables db.versions.nextFileNumber (some ref.2) := rfl
  have hsame : ∀ n < db.versions.nextFileNumber,
      (db.flushed state ref).disk.tables n = db.disk.tables n := fun n hn => by
    rw [htables, Function.update_of_ne hn.ne]
  have hlt : ∀ n t, db.disk.tables n = some t → n < db.versions.nextFileNumber := by
    intro n t ht
    by_contra hno
    rw [h.freshTables n (not_lt.mp hno)] at ht
    cases ht
  refine ⟨hlive, ⟨Nat.le_add_right _ _, hsame⟩, fun ho r hr => ?_,
    fun hs => tablesOf_flushed h hs hl0 hlevels hnum hdesc, fun publication task outs hr => ?_, ?_⟩
  · rcases List.mem_cons.mp hr with rfl | hr
    · refine ⟨?_, hdesc⟩
      rw [hnum, htables, Function.update_self]
    · obtain ⟨ht, hd⟩ := ho r (by rw [← hl0, ← hlevels]; exact hr)
      exact ⟨(hsame _ (hlt _ _ ht)).trans ht, hd⟩
  · have hin := (h.listed.fits_sublist hr.fits).subset
    have houts : ∀ o ∈ outs, (db.flushed state ref).disk.tables o.number =
        db.disk.tables o.number := by
      intro o ho
      obtain ⟨t, ht, _⟩ := hr.placed.described o ho
      exact hsame _ (hlt _ _ ht)
    refine ⟨?_, hr.edits, ⟨?_, hr.placed.nodup, ?_⟩, ?_, hr.removed, hr.unlisted⟩
    · rcases hr.fits with ⟨files, hne, hsub, htask⟩ | hlevel
      · exact .inl ⟨files, hne, hsub.cons _, htask⟩
      · exact .inr hlevel
    · intro o ho
      rw [houts o ho]
      exact hr.placed.described o ho
    · intro o ho f hf
      obtain ⟨hf, hno⟩ := List.mem_filter.mp hf
      rcases List.mem_cons.mp hf with rfl | hf
      · obtain ⟨t, ht, _⟩ := hr.placed.described o ho
        rw [hnum]
        exact (hlt _ _ ht).ne'
      · exact hr.placed.fresh o ho f (List.mem_filter.mpr ⟨hf, hno⟩)
    · rw [flatMap_fileEntries_congr houts, CompactionTask.entries,
        flatMap_fileEntries_congr fun f hf => hsame _ (h.file_number_lt (hin hf))]
      exact hr.entries
  · intro publication hg n hn
    obtain ⟨hn', hno⟩ := hg n hn
    refine ⟨hn'.trans_le (Nat.le_add_right _ _), fun f hf => ?_⟩
    rcases List.mem_cons.mp hf with rfl | hf
    · rw [hnum]
      exact hn'.ne'
    · exact hno f hf

theorem Undisturbed.refl (h : db.Live) : Undisturbed db db :=
  ⟨h, KeepsTables.refl db, id, id, fun _ _ _ h => h, fun _ h => h⟩

theorem Live.section_undisturbed (h : db.Live) (step : Section) :
    Undisturbed db (after Section.run db step) := by
  rcases step.after_live h with ⟨hafter, _⟩ | ⟨requests, hafter, _⟩ |
    ⟨_, _, _, _, _, _, htake, hnum, hdesc, hlive, _, hafter⟩
  · rw [hafter]
    exact Undisturbed.refl h
  · rw [hafter]
    exact h.written_undisturbed requests
  · rw [hafter]
    exact h.flushed_undisturbed htake hnum hdesc hlive

theorem Live.withWatermark_undisturbed (h : db.Live) (w : Watermark) :
    Undisturbed db { db with watermark := w } :=
  ⟨⟨h.isOpen, h.listed, h.distinct, h.sequences, h.matched, h.frozen, h.freshTables⟩,
    ⟨le_rfl, fun _ _ => rfl⟩, id, id,
    fun _ _ _ h => ⟨h.fits, h.edits, h.placed, h.entries, h.removed, h.unlisted⟩, fun _ h => h⟩

end DB

end TyLsm
