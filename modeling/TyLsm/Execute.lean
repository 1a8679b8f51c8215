import TyLsm.Compaction

/-! A compaction from its task to its end. Whether or not the entries are in search
order, the task that the picker hands out runs through: its outputs replace its input
files in the version, and nothing above the watermark is lost. -/

namespace TyLsm

theorem sortedEntries_of_distinct {l : List Entry} (hr : Rising l) (hd : (l.map Prod.fst).Nodup) :
    SortedEntries l :=
  (hr.and (List.pairwise_map.mp hd)).imp fun h => lt_of_le_of_ne h.1 h.2

theorem FileMeta.Describes.exists_smallest {f : FileMeta} {t : Table} (h : f.Describes t) :
    ∃ e ∈ t.entries, e.1 = f.smallest := by
  obtain ⟨e, he, hs⟩ := h.wellFormed.smallest
  exact ⟨e, List.mem_of_head? he, Option.some.inj (hs.symm.trans h.smallest)⟩

theorem FileMeta.Describes.exists_largest {f : FileMeta} {t : Table} (h : f.Describes t) :
    ∃ e ∈ t.entries, e.1 = f.largest := by
  obtain ⟨e, he, hl⟩ := h.wellFormed.largest
  exact ⟨e, List.mem_of_getLast? he, Option.some.inj (hl.symm.trans h.largest)⟩

theorem flatMap_fileEntries_congr {tables tables' : Nat → Option Table} {files : List FileMeta}
    (h : ∀ f ∈ files, tables' f.number = tables f.number) :
    files.flatMap (fileEntries tables') = files.flatMap (fileEntries tables) := by
  simp only [List.flatMap_def]
  exact congrArg List.flatten (List.map_congr_left fun f hf => by simp [fileEntries, h f hf])

/-- Publishing the edits of a task leads from `v` to `v'`, in which `outs` replace its files. -/
structure Replaces (v : Version) (task : CompactionTask) (tables : Nat → Option Table)
    (outs : List FileMeta) (v' : Version) : Prop where
  replay : ∀ vs : VersionSet, vs.current = v →
    vs.replay (DB.deleteEdits task ++ outs.map (VersionEdit.addFile task.outputLevel)) =
      .ok { vs with
        current := v'
        nextFileNumber := Version.nextAfter vs.nextFileNumber outs }
  listed : v'.Listed tables
  perm : v'.files.Perm (v.remaining task ++ outs)

/-- A task made from files of L0, or from a file of a level that has a level below it. A
flush in the meantime does not change that. -/
def Version.Fits (v : Version) (task : CompactionTask) : Prop :=
  (∃ files, files ≠ [] ∧ files.Sublist v.l0Files ∧
    task = CompactionPicker.taskForFiles v 0 files true) ∨
  ∃ pre source target post file, v.levels = pre ++ source :: target :: post ∧ pre ≠ [] ∧
    file ∈ source ∧ task = CompactionPicker.taskForFiles v pre.length [file] true

theorem Version.fits_of_pick {v : Version} {lower upper : Bound} {task : CompactionTask}
    (h : CompactionPicker.pickManual v lower upper = some task) : v.Fits task := by
  rcases pickManual_some h with ⟨rfl, hne⟩ | hlevel
  · exact .inl ⟨_, hne, List.filter_sublist, rfl⟩
  · exact .inr hlevel

/-- What the picker can hand out: a task moves files one level down, or merges them in L0. -/
theorem Version.Fits.cases {v : Version} {tables : Nat → Option Table} {task : CompactionTask}
    (hfits : v.Fits task) (h : v.Listed tables) : task.inputFiles ≠ [] ∧
      ((∃ above source target below, Shift v task above source target below) ∨ Front v task) := by
  rcases hfits with ⟨files, hne, hsub, rfl⟩ | ⟨pre, source, target, post, file, hl, hpre, hfile, rfl⟩
  · refine ⟨hne, ?_⟩
    by_cases hlen : 2 ≤ v.levels.length
    · obtain ⟨zero, one, post, hl⟩ : ∃ zero one post, v.levels = zero :: one :: post := by
        match hlev : v.levels, hlen with
        | zero :: one :: post, _ => exact ⟨zero, one, post, rfl⟩
      exact .inl ⟨_, _, _, _, shift_l0 h hl _ hsub⟩
    · exact .inr (front_l0 h (by omega) _ hsub)
  · exact ⟨List.cons_ne_nil _ _, .inl ⟨_, _, _, _, shift_level h hl hpre hfile⟩⟩

theorem pickManual_cases {v : Version} {tables : Nat → Option Table} (h : v.Listed tables)
    {lower upper : Bound} {task : CompactionTask}
    (hpick : CompactionPicker.pickManual v lower upper = some task) :
    task.inputFiles ≠ [] ∧
      ((∃ above source target below, Shift v task above source target below) ∨ Front v task) :=
  (Version.fits_of_pick hpick).cases h

namespace Version.Listed

variable {v : Version} {tables : Nat → Option Table} {lower upper : Bound} {task : CompactionTask}

theorem fits_sublist (h : v.Listed tables) (hfits : v.Fits task) :
    task.allInputFiles.Sublist v.files := by
  rcases (hfits.cases h).2 with ⟨_, _, _, _, st⟩ | fr
  · exact st.allInputFiles_sublist
  · rw [fr.allInputFiles_eq, fr.files]
    exact fr.inputs

theorem allInputFiles_sublist (h : v.Listed tables)
    (hpick : CompactionPicker.pickManual v lower upper = some task) :
    task.allInputFiles.Sublist v.files :=
  h.fits_sublist (Version.fits_of_pick hpick)

theorem entries_sublist (h : v.Listed tables)
    (hpick : CompactionPicker.pickManual v lower upper = some task) :
    (task.entries tables).Sublist (v.entries tables) :=
  (h.allInputFiles_sublist hpick).flatMap _

theorem fits_publishes (h : v.Listed tables) (hfits : v.Fits task) {outs : List FileMeta}
    (ho : Placed v task tables outs) : ∃ v', Replaces v task tables outs v' := by
  rcases (hfits.cases h).2 with ⟨_, _, _, _, st⟩ | fr
  · obtain ⟨v', hp, hreplay⟩ := st.published h outs
    exact ⟨v', hreplay, ho.listed h (hp.files_perm st h) hp.levelZero, hp.files_perm st h⟩
  · exact ⟨_, fun vs hvs => fr.publish vs hvs _, fr.listed h ho, fr.files_perm outs⟩

theorem publishes (h : v.Listed tables)
    (hpick : CompactionPicker.pickManual v lower upper = some task) {outs : List FileMeta}
    (ho : Placed v task tables outs) : ∃ v', Replaces v task tables outs v' :=
  h.fits_publishes (Version.fits_of_pick hpick) ho

theorem files_perm (h : v.Listed tables) (hsub : task.allInputFiles.Sublist v.files) :
    v.files.Perm (v.remaining task ++ task.allInputFiles) := by
  have hnd := List.Nodup.of_map _ h.nodup
  refine (List.perm_ext_iff_of_nodup hnd ?_).mpr fun f => ?_
  · refine List.nodup_append.mpr ⟨hnd.filter _, hnd.sublist hsub, ?_⟩
    rintro f hf g hg rfl
    exact of_decide_eq_true (List.mem_filter.mp hf).2 (List.mem_map.mpr ⟨f, hg, rfl⟩)
  · rw [List.mem_append, Version.remaining, List.mem_filter]
    constructor
    · intro hf
      by_cases hn : f.number ∈ task.numbers
      · obtain ⟨g, hg, he⟩ := List.mem_map.mp hn
        obtain rfl := h.eq_of_number (hsub.subset hg) hf he
        exact .inr hg
      · exact .inl ⟨hf, decide_eq_true hn⟩
    · rintro (hf | hf)
      · exact hf.1
      · exact hsub.subset hf

end Version.Listed

theorem Replaces.number_notMem {v v' : Version} {task : CompactionTask}
    {tables : Nat → Option Table} {outs : List FileMeta} (hr : Replaces v task tables outs v')
    (hnew : ∀ o ∈ outs, o.number ∉ task.numbers) : ∀ f ∈ v'.files, f.number ∉ task.numbers := by
  intro f hf
  rcases List.mem_append.mp (hr.perm.mem_iff.mp hf) with hf | hf
  · exact of_decide_eq_true (List.mem_filter.mp hf).2
  · exact hnew f hf

namespace DB

variable {db : DB} {task : CompactionTask} {w : Nat} {drop : Bool} {refs : List TableRef}

theorem Written.tables_agree (h : db.Live) {entries : List Entry} (hw : Written db entries refs)
    {f : FileMeta} (hf : f ∈ db.versions.current.files) :
    db.disk.withTables refs f.number = db.disk.tables f.number :=
  Disk.withTables_of_ne _ fun ref href => by
    have := (hw.numbers ref href).1
    have := h.file_number_lt hf
    omega

theorem Written.placed (h : db.Live) {entries : List Entry} (hw : Written db entries refs) :
    Placed db.versions.current task (db.disk.withTables refs) (refs.map Prod.fst) := by
  refine ⟨?_, ?_, ?_⟩
  · intro o ho
    obtain ⟨ref, href, rfl⟩ := List.mem_map.mp ho
    exact ⟨ref.2, Disk.withTables_of_mem _ hw.nodup href, hw.described ref href⟩
  · rw [List.map_map]
    exact hw.nodup
  · intro o ho f hf
    obtain ⟨ref, href, rfl⟩ := List.mem_map.mp ho
    have := (hw.numbers ref href).1
    have := h.file_number_lt (List.mem_filter.mp hf).1
    omega

theorem placed_moved (h : db.Live) {file : FileMeta} (hall : task.allInputFiles = [file])
    (hin : file ∈ db.versions.current.files) :
    Placed db.versions.current task db.disk.tables [file] := by
  refine ⟨?_, by simp, ?_⟩
  · intro o ho
    rw [List.mem_singleton.mp ho]
    exact h.listed.described file hin
  · intro o ho f hf he
    rw [List.mem_singleton.mp ho] at he
    refine of_decide_eq_true (List.mem_filter.mp hf).2 ?_
    rw [CompactionTask.numbers, hall, he]
    simp

/-- The only file of the task changes its level as it is. -/
def movesTrivially (db : DB) (task : CompactionTask) : Bool :=
  task.isTrivialMove && (compactEntries (task.entries db.disk.tables) db.gcWatermark
    (canDropTombstones db.versions.current task)).length == (task.entries db.disk.tables).length

/-- A trivial move takes a single file, and the test whether to rewrite it reads that file. -/
theorem run_trivialMoveNeedsRewrite {file : FileMeta} {rest : List FileMeta}
    (hfiles : task.inputFiles = file :: rest)
    (hread : ∃ t, db.disk.tables file.number = some t) (ht : task.isTrivialMove = true) :
    0 < task.inputLevel ∧ task.inputFiles = [file] ∧ task.overlapFiles = [] ∧
      trivialMoveNeedsRewrite file db.gcWatermark
        (canDropTombstones db.versions.current task) db = .ok (!db.movesTrivially task) db := by
  have hentries := run_readEntries (show ∀ f ∈ [file], ∃ t, db.disk.tables f.number = some t by
    simpa using hread)
  have hparts := ht
  simp only [CompactionTask.isTrivialMove, Bool.and_eq_true, decide_eq_true_eq, beq_iff_eq,
    hfiles, List.length_cons, List.isEmpty_iff] at hparts
  obtain ⟨⟨hlevel, hone⟩, hover⟩ := hparts
  obtain rfl : rest = [] := List.length_eq_zero_iff.mp (Nat.succ.inj hone)
  have hall : task.entries db.disk.tables = [file].flatMap (fileEntries db.disk.tables) := by
    rw [CompactionTask.entries, CompactionTask.allInputFiles, hfiles, hover, List.append_nil]
  refine ⟨hlevel, hfiles, hover, ?_⟩
  rw [trivialMoveNeedsRewrite, run_bind_ok hentries, run_pure, movesTrivially, ht, hall,
    Bool.true_and]
  rfl

theorem run_executeCompaction {file : FileMeta} {rest : List FileMeta}
    (hfiles : task.inputFiles = file :: rest)
    (hread : ∃ t, db.disk.tables file.number = some t) :
    (db.movesTrivially task = true ∧
      0 < task.inputLevel ∧ task.inputFiles = [file] ∧ task.overlapFiles = [] ∧
      executeCompaction task db = (do moveTrivially task file; return true) db) ∨
    db.movesTrivially task = false ∧ executeCompaction task db = (do
      rewrite task db.gcWatermark (canDropTombstones db.versions.current task)
      return true) db := by
  rw [executeCompaction]
  simp only [hfiles]
  rw [run_bind_ok (run_get db)]
  by_cases ht : task.isTrivialMove = true
  · obtain ⟨hlevel, hone, hover, hneeds⟩ := run_trivialMoveNeedsRewrite hfiles hread ht
    rw [if_pos ht, run_bind_ok hneeds, ← hone, hfiles]
    cases hm : db.movesTrivially task with
    | false => exact .inr ⟨rfl, rfl⟩
    | true => exact .inl ⟨rfl, hlevel, rfl, hover, rfl⟩
  · rw [if_neg ht, run_bind_ok (run_pure db true)]
    exact .inr ⟨by simp [movesTrivially, ht], rfl⟩

/-- The chunks of records that a task lists again, one for each file. -/
def outputChunks (db : DB) (task : CompactionTask) : List (List Entry) :=
  if db.movesTrivially task then [task.entries db.disk.tables]
  else splitCompactionEntries (compactEntries (task.entries db.disk.tables) db.gcWatermark
    (canDropTombstones db.versions.current task)) db.options.targetFileSizeBase
      db.options.maxSubcompactions

/-- The number of tables that a task writes before its first manifest edit. -/
def outputTables (db : DB) (task : CompactionTask) : Nat :=
  if db.movesTrivially task then 0 else (db.outputChunks task).length

/-- What is listed again is what the compaction keeps, also when the file only moves. -/
theorem outputChunks_perm (db : DB) (task : CompactionTask) :
    (db.outputChunks task).flatten.Perm (compactEntries (task.entries db.disk.tables)
      db.gcWatermark (canDropTombstones db.versions.current task)) := by
  unfold outputChunks
  split
  · rename_i hm
    rw [movesTrivially, Bool.and_eq_true, beq_iff_eq] at hm
    have hsub := compactLoop_sublist db.gcWatermark (canDropTombstones db.versions.current task) []
      (sortEntries (task.entries db.disk.tables))
    have heq := hsub.eq_of_length
      (hm.2.trans (sortEntries_perm (task.entries db.disk.tables)).length_eq.symm)
    have hflat : [task.entries db.disk.tables].flatten = task.entries db.disk.tables := by simp
    rw [hflat, compactEntries, heq]
    exact (sortEntries_perm _).symm
  · rw [splitCompactionEntries_flatten]

theorem compactEntries_subperm (entries : List Entry) (w : Nat) (drop : Bool) :
    (compactEntries entries w drop).Subperm entries :=
  (compactLoop_sublist w drop [] _).subperm.trans (sortEntries_perm entries).subperm

def compactionOps (task : CompactionTask) (refs : List TableRef) (outs : List FileMeta)
    (removed : List Nat) : List DiskOp :=
  refs.map (fun ref => .renameTable ref.1.number ref.2) ++
    (deleteEdits task ++ outs.map (VersionEdit.addFile task.outputLevel)).map .appendManifest ++
    removed.map .removeTable

theorem applyAll_compactionOps (d : Disk) (task : CompactionTask) (refs : List TableRef)
    (outs : List FileMeta) (removed : List Nat) :
    d.applyAll (compactionOps task refs outs removed) = { d with
      manifest := d.manifest ++
        (deleteEdits task ++ outs.map (VersionEdit.addFile task.outputLevel))
      tables := fun n => if n ∈ removed then none else d.withTables refs n } := by
  rw [compactionOps, Disk.applyAll_append, Disk.applyAll_append, Disk.applyAll_renameTable,
    Disk.applyAll_appendManifest, Disk.applyAll_removeTable]

/-- What a compaction does: it writes `refs`, lists `outs` in place of its files and
unlinks `removed`. -/
structure Performs (db db' : DB) (task : CompactionTask) (refs : List TableRef)
    (outs : List FileMeta) (removed : List Nat) : Prop where
  db_eq : db' = db.replaced (compactionOps task refs outs removed) db'.versions
    db'.state.l0Tables db'.state.levelTables
  opened : TablesOf db'.disk db'.versions.current db'.state.l0Tables db'.state.levelTables
  replaces : Replaces db.versions.current task (db.disk.withTables refs) outs db'.versions.current
  versions : db'.versions = { db.versions with
    current := db'.versions.current
    nextFileNumber := Version.nextAfter db.versions.nextFileNumber outs }
  next : Version.nextAfter db.versions.nextFileNumber outs =
    db.versions.nextFileNumber + refs.length
  placed : Placed db.versions.current task (db.disk.withTables refs) outs
  chunks : outs.map (fileEntries (db.disk.withTables refs)) = db.outputChunks task
  numbers : ∀ ref ∈ refs, db.versions.nextFileNumber ≤ ref.1.number ∧
    ref.1.number < db.versions.nextFileNumber + refs.length
  order : refs.map (fun ref => ref.1.number) =
    (db.env.workerOrder db.versions.nextFileNumber refs.length).map
      (db.versions.nextFileNumber + ·)
  removed : removed ⊆ task.numbers ∧ (removed = [] ∨ ∀ o ∈ outs, o.number ∉ task.numbers)
  count : refs.length = db.outputTables task
  written : outs = refs.map Prod.fst ∨ refs = [] ∧ outs = task.allInputFiles

theorem addEdits_eq (task : CompactionTask) (refs : List TableRef) :
    addEdits task refs = (refs.map Prod.fst).map (VersionEdit.addFile task.outputLevel) := by
  simp [addEdits]

theorem rewriteOps_eq (task : CompactionTask) (refs : List TableRef) :
    rewriteOps task refs = compactionOps task refs (refs.map Prod.fst) task.numbers := by
  rw [rewriteOps, compactionOps, addEdits_eq]

theorem Live.sorted_compactEntries (h : db.Live)
    (hsub : (task.entries db.disk.tables).Sublist (db.versions.current.entries db.disk.tables))
    (w : Nat) (drop : Bool) : SortedEntries (compactEntries (task.entries db.disk.tables) w drop) := by
  refine sortedEntries_of_distinct (compactEntries_rising _ _ _) ?_
  have hd : ((task.entries db.disk.tables).map Prod.fst).Nodup :=
    h.distinct.sublist ((hsub.trans (List.sublist_append_right _ _)).map _)
  obtain ⟨l, hperm, hl⟩ := compactEntries_subperm (task.entries db.disk.tables) w drop
  exact ((hperm.map Prod.fst).nodup_iff).mp (hd.sublist (hl.map _))

theorem Sound.matched_compactEntries (h : db.Sound)
    (hin : ∀ f ∈ task.allInputFiles, f ∈ db.versions.current.files) (w : Nat) (drop : Bool) :
    ∀ e ∈ compactEntries (task.entries db.disk.tables) w drop, Matched e := by
  intro e he
  obtain ⟨f, hf, hef⟩ := List.mem_flatMap.mp (mem_compactEntries.mp he).1
  obtain ⟨t, ht, hd⟩ := h.listed.described f (hin f hf)
  rw [fileEntries_eq ht] at hef
  exact hd.wellFormed.matched e hef

theorem Written.number_notMem (h : db.Live) {entries : List Entry} (hw : Written db entries refs)
    (hin : ∀ f ∈ task.allInputFiles, f ∈ db.versions.current.files) :
    ∀ o ∈ refs.map Prod.fst, o.number ∉ task.numbers := by
  intro o ho hmem
  obtain ⟨ref, href, rfl⟩ := List.mem_map.mp ho
  obtain ⟨f, hf, he⟩ := List.mem_map.mp hmem
  have := (hw.numbers ref href).1
  have := h.file_number_lt (hin f hf)
  omega

/-- The edits of a rewrite meet a counter that its outputs have already raised. -/
theorem Written.replay {entries : List Entry} (hw : Written db entries refs) {v' : Version}
    (hr : Replaces db.versions.current task (db.disk.withTables refs) (refs.map Prod.fst) v') :
    ({ db.versions with
      nextFileNumber := db.versions.nextFileNumber + refs.length } : VersionSet).replay
        (deleteEdits task ++ addEdits task refs) = .ok { db.versions with
          current := v'
          nextFileNumber := Version.nextAfter db.versions.nextFileNumber (refs.map Prod.fst) } := by
  rw [addEdits_eq, hw.nextAfter_eq le_rfl (Nat.le_add_right _ _)]
  refine (hr.replay { db.versions with
    nextFileNumber := db.versions.nextFileNumber + refs.length } rfl).trans ?_
  rw [hw.nextAfter_eq (Nat.le_add_right _ _) le_rfl]

section

variable {lower upper : Bound}

/-- The file of a trivial move changes its level as it is. -/
theorem Sound.moveTrivially (h : db.Sound)
    (hpick : CompactionPicker.pickManual db.versions.current lower upper = some task)
    {file : FileMeta} (hmoves : db.movesTrivially task = true) (hone : task.inputFiles = [file])
    (hover : task.overlapFiles = []) :
    ∃ db', DB.moveTrivially task file db = .ok () db' ∧ Performs db db' task [] [file] [] := by
  have hall : task.allInputFiles = [file] := by
    rw [CompactionTask.allInputFiles, hone, hover, List.append_nil]
  have hfile : file ∈ db.versions.current.files :=
    (h.listed.allInputFiles_sublist hpick).subset (by simp [hall])
  have hent : task.entries db.disk.tables = [file].flatMap (fileEntries db.disk.tables) := by
    rw [CompactionTask.entries, hall]
  have hplaced := placed_moved h.live hall hfile
  obtain ⟨v', hr⟩ := h.listed.publishes hpick hplaced
  have hedits : deleteEdits task ++ [file].map (VersionEdit.addFile task.outputLevel) =
      [.deleteFile task.inputLevel file.number, .addFile task.outputLevel file] := by
    simp [deleteEdits, hall, hone]
  have hnext : Version.nextAfter db.versions.nextFileNumber [file] =
      db.versions.nextFileNumber :=
    Version.nextAfter_eq fun f hf => by
      rw [List.mem_singleton.mp hf]
      exact h.file_number_lt hfile
  have hreplay := hr.replay db.versions rfl
  rw [hedits] at hreplay
  obtain ⟨l0, levels, hopen, htables⟩ := openVersionTables_ok (d := { db.disk with
    manifest := db.disk.manifest ++ [.deleteFile task.inputLevel file.number,
      .addFile task.outputLevel file] }) (v := v') hr.listed
  have horder : db.env.workerOrder db.versions.nextFileNumber 0 = [] :=
    (db.env.workerOrder_perm db.versions.nextFileNumber 0).eq_nil
  refine ⟨_, run_moveTrivially hreplay hopen, ?_, ?_, hr, rfl, hnext, hplaced, ?_, by simp,
    by simp [horder], by simp, ?_, .inr ⟨rfl, hall.symm⟩⟩
  · rw [compactionOps, hedits]
    rfl
  · exact htables.congr fun f _ => rfl
  · simp [outputChunks, hmoves, hent, Disk.withTables]
  · simp [outputTables, hmoves]

/-- The files of any other task are merged and written again. -/
theorem Sound.rewrite (h : db.Sound)
    (hpick : CompactionPicker.pickManual db.versions.current lower upper = some task)
    (hmoves : db.movesTrivially task = false) :
    ∃ db' refs, DB.rewrite task db.gcWatermark (canDropTombstones db.versions.current task) db =
      .ok () db' ∧ Performs db db' task refs (refs.map Prod.fst) task.numbers := by
  have hin := (h.listed.allInputFiles_sublist hpick).subset
  obtain ⟨refs, hw, hwrite⟩ := run_writeCompactionOutputs
    (h.live.sorted_compactEntries (h.listed.entries_sublist hpick) db.gcWatermark
      (canDropTombstones db.versions.current task))
    (h.matched_compactEntries (fun f hf => hin hf) _ _)
  have hplaced : Placed db.versions.current task (db.disk.withTables refs)
      (refs.map Prod.fst) := hw.placed h.live
  obtain ⟨v', hr⟩ := (h.listed.congr fun f hf => hw.tables_agree h.live hf).publishes hpick hplaced
  obtain ⟨l0, levels, hopen, htables⟩ := openVersionTables_ok (d := { db.disk with
    manifest := db.disk.manifest ++ (deleteEdits task ++ addEdits task refs)
    tables := db.disk.withTables refs }) (v := v') hr.listed
  have hnew := hw.number_notMem h.live fun f hf => hin hf
  have hwritten := DB.run_rewrite (fun f hf => (h.listed.described f (hin hf)).imp
    fun t ht => ht.1) hwrite (hw.replay hr) hopen
  rw [rewriteOps_eq] at hwritten
  refine ⟨_, refs, hwritten, rfl, ?_, hr, rfl, hw.nextAfter_eq le_rfl (Nat.le_add_right _ _),
    hplaced, ?_, hw.numbers, hw.order, ⟨List.Subset.refl _, .inr hnew⟩, ?_, .inl rfl⟩
  · refine htables.congr fun f hf => ?_
    change (db.disk.applyAll _).tables f.number = _
    rw [applyAll_compactionOps]
    exact if_neg (hr.number_notMem hnew f hf)
  · rw [outputChunks, hmoves, if_neg Bool.false_ne_true, ← hw.chunks, List.map_map]
    exact List.map_congr_left fun ref href =>
      fileEntries_eq (Disk.withTables_of_mem _ hw.nodup href)
  · rw [outputTables, hmoves, if_neg Bool.false_ne_true, outputChunks, hmoves,
      if_neg Bool.false_ne_true, ← hw.chunks, List.length_map]

theorem Sound.execute (h : db.Sound)
    (hpick : CompactionPicker.pickManual db.versions.current lower upper = some task) :
    ∃ db' refs outs removed, executeCompaction task db = .ok true db' ∧
      Performs db db' task refs outs removed := by
  obtain ⟨file, rest, hfiles⟩ := List.exists_cons_of_ne_nil (pickManual_cases h.listed hpick).1
  have hfile : file ∈ db.versions.current.files :=
    (h.listed.allInputFiles_sublist hpick).subset (List.mem_append.mpr (.inl (by simp [hfiles])))
  rcases run_executeCompaction hfiles ((h.listed.described file hfile).imp fun t ht => ht.1) with
    ⟨hmoves, _, hone, hover, hrun⟩ | ⟨hmoves, hrun⟩
  · obtain ⟨db', hmove, hp⟩ := h.moveTrivially hpick hmoves hone hover
    exact ⟨db', [], [file], [], by rw [hrun, run_bind_ok hmove, run_pure], hp⟩
  · obtain ⟨db', refs, hwritten, hp⟩ := h.rewrite hpick hmoves
    exact ⟨db', refs, _, _, by rw [hrun, run_bind_ok hwritten, run_pure], hp⟩

end

namespace Performs

variable {db' : DB} {outs : List FileMeta} {removed : List Nat}

theorem disk (hp : Performs db db' task refs outs removed) :
    db'.disk = { db.disk with
      manifest := db.disk.manifest ++
        (deleteEdits task ++ outs.map (VersionEdit.addFile task.outputLevel))
      tables := fun n => if n ∈ removed then none else db.disk.withTables refs n } := by
  rw [← applyAll_compactionOps, hp.db_eq]
  rfl

theorem journal (hp : Performs db db' task refs outs removed) :
    db'.journal = db.journal ++ compactionOps task refs outs removed := by
  rw [hp.db_eq]
  rfl

theorem memEntries (hp : Performs db db' task refs outs removed) :
    db'.state.memEntries = db.state.memEntries := by
  rw [hp.db_eq]
  rfl

theorem tables (hp : Performs db db' task refs outs removed) {f : FileMeta}
    (hf : f ∈ db'.versions.current.files) :
    db'.disk.tables f.number = db.disk.withTables refs f.number := by
  rw [hp.disk]
  refine if_neg fun hmem => ?_
  rcases hp.removed.2 with hnil | hne
  · rw [hnil] at hmem
    cases hmem
  · exact hp.replaces.number_notMem hne f hf (hp.removed.1 hmem)

theorem tables_agree (hp : Performs db db' task refs outs removed) (h : db.Sound) {f : FileMeta}
    (hf : f ∈ db.versions.current.files) :
    db.disk.withTables refs f.number = db.disk.tables f.number :=
  Disk.withTables_of_ne _ fun ref href => by
    have := (hp.numbers ref href).1
    have := h.file_number_lt hf
    omega

theorem listed (hp : Performs db db' task refs outs removed) :
    db'.versions.current.Listed db'.disk.tables :=
  hp.replaces.listed.congr fun _ hf => hp.tables hf

theorem outs_entries (hp : Performs db db' task refs outs removed) :
    outs.flatMap (fileEntries (db.disk.withTables refs)) = (db.outputChunks task).flatten := by
  rw [List.flatMap_def, hp.chunks]

theorem mem_outs (hp : Performs db db' task refs outs removed) {e : Entry} :
    e ∈ outs.flatMap (fileEntries (db.disk.withTables refs)) ↔
      e ∈ compactEntries (task.entries db.disk.tables) db.gcWatermark
        (canDropTombstones db.versions.current task) := by
  rw [hp.outs_entries]
  exact (db.outputChunks_perm task).mem_iff

theorem entries_withTables (hp : Performs db db' task refs outs removed) :
    db'.versions.current.entries db'.disk.tables =
      db'.versions.current.entries (db.disk.withTables refs) :=
  (Version.entries_congr fun _ hf => hp.tables hf)

/-- The entries of the tables are those of the remaining files and those that were kept. -/
theorem entries_perm (hp : Performs db db' task refs outs removed) (h : db.Sound) :
    (db'.versions.current.entries db'.disk.tables).Perm
      ((db.versions.current.remaining task).flatMap (fileEntries db.disk.tables) ++
        compactEntries (task.entries db.disk.tables) db.gcWatermark
          (canDropTombstones db.versions.current task)) := by
  have hremaining : (db.versions.current.remaining task).flatMap
      (fileEntries (db.disk.withTables refs)) =
        (db.versions.current.remaining task).flatMap (fileEntries db.disk.tables) :=
    flatMap_fileEntries_congr fun f hf => hp.tables_agree h (List.mem_filter.mp hf).1
  rw [hp.entries_withTables]
  refine (hp.replaces.perm.flatMap_right _).trans ?_
  rw [List.flatMap_append, hp.outs_entries, hremaining]
  exact (db.outputChunks_perm task).append_left _

theorem entries_subperm (hp : Performs db db' task refs outs removed) (h : db.Sound)
    (hsub : task.allInputFiles.Sublist db.versions.current.files) :
    (db'.versions.current.entries db'.disk.tables).Subperm
      (db.versions.current.entries db.disk.tables) := by
  have hperm : (db.versions.current.entries db.disk.tables).Perm
      ((db.versions.current.remaining task).flatMap (fileEntries db.disk.tables) ++
        task.entries db.disk.tables) := by
    rw [CompactionTask.entries, ← List.flatMap_append]
    exact (h.listed.files_perm hsub).flatMap_right _
  refine (hp.entries_perm h).subperm.trans (List.Subperm.trans ?_ hperm.symm.subperm)
  exact (List.subperm_append_left _).mpr (compactEntries_subperm _ _ _)

theorem keeps (hp : Performs db db' task refs outs removed) (h : db.Sound)
    (hsub : task.allInputFiles.Sublist db.versions.current.files) {e : Entry}
    (he : e ∈ db.allEntries) (hw : db.gcWatermark < e.1.sequence) : e ∈ db'.allEntries := by
  rw [allEntries, hp.memEntries]
  rcases List.mem_append.mp he with he | he
  · exact List.mem_append.mpr (.inl he)
  · refine List.mem_append.mpr (.inr ((hp.entries_perm h).mem_iff.mpr ?_))
    rw [Version.entries, ((h.listed.files_perm hsub).flatMap_right _).mem_iff,
      List.flatMap_append, List.mem_append] at he
    refine List.mem_append.mpr (he.imp_right fun he => ?_)
    exact mem_compactEntries.mpr ⟨he, .inl hw⟩

theorem tablesChanged (hp : Performs db db' task refs outs removed) (h : db.Sound)
    (hsub : task.allInputFiles.Sublist db.versions.current.files) : TablesChanged db db' := by
  have hd := hp.disk
  have hreplay := hp.replaces.replay db.versions rfl
  rw [← hp.versions] at hreplay
  refine ⟨?_, ?_, ?_, ?_, ?_, ?_, ⟨_, by rw [hd], hreplay⟩, ?_, ?_, (hp.entries_subperm h hsub).subset⟩
  · rw [hp.db_eq]
    rfl
  · rw [hp.db_eq]
    rfl
  · rw [hp.db_eq]
    rfl
  · rw [hp.db_eq]
    rfl
  · rw [hp.db_eq]
    rfl
  · rw [hd]
  · rw [hp.versions]
  · rw [hp.versions]

theorem sound (hp : Performs db db' task refs outs removed) (h : db.Sound)
    (hsub : task.allInputFiles.Sublist db.versions.current.files) : db'.Sound := by
  have hd := hp.disk
  have hc := hp.tablesChanged h hsub
  have hlast : db'.state.lastSequence = db.state.lastSequence := by rw [hc.state]
  have hnext : db'.versions.nextFileNumber = db.versions.nextFileNumber + refs.length := by
    rw [hp.versions, ← hp.next]
  refine ⟨⟨?_, hp.listed, hp.opened⟩, ?_, ?_, ?_, ?_, ?_, ?_⟩
  · rw [hc.state]
    exact h.isOpen
  · have hall : db'.allEntries.Subperm db.allEntries := by
      rw [allEntries, hp.memEntries]
      exact (List.subperm_append_left _).mpr (hp.entries_subperm h hsub)
    obtain ⟨l, hperm, hl⟩ := hall
    exact (hperm.map Prod.fst).nodup_iff.mp (h.distinct.sublist (hl.map _))
  · intro e he
    rw [hlast]
    rw [allEntries, hp.memEntries] at he
    refine h.sequences e ?_
    rcases List.mem_append.mp he with he | he
    · exact List.mem_append.mpr (.inl he)
    · exact List.mem_append.mpr (.inr (hc.entries he))
  · rw [hp.memEntries]
    exact h.matched
  · rw [hc.state]
    exact h.frozen
  · intro n hn
    rw [hnext] at hn
    have hnone : db.disk.withTables refs n = none := by
      rw [Disk.withTables_of_ne _ fun ref href => by
        have := (hp.numbers ref href).2
        omega]
      exact h.freshTables n (by omega)
    rw [hd]
    simp [hnone]
  · intro n hn
    rw [hd]
    exact h.freshWals n (by omega)

end Performs

end DB

end TyLsm
