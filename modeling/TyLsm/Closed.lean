import TyLsm.Frame
import TyLsm.Transaction
import TyLsm.Execute
import TyLsm.Calls

/-! A handle after `close`. Most calls test the flag before anything else; a compaction
never does, and a write or a commit may start one before its own test. -/

namespace TyLsm

theorem Disk.openTable_ne_closed (d : Disk) (number : Nat) :
    d.openTable number ≠ .error .closed := by
  unfold Disk.openTable
  split
  · simp
  · simp [notFound]

theorem openFiles_ne_closed (d : Disk) (files : List FileMeta) :
    openFiles d files ≠ .error .closed := by
  induction files with
  | nil => simp [openFiles]
  | cons file files ih =>
    refine except_bind_ne_error (d.openTable_ne_closed file.number) fun table => ?_
    exact except_bind_ne_error ih fun rest h => by cases h

theorem openLevels_ne_closed (d : Disk) (levels : List (List FileMeta)) :
    openLevels d levels ≠ .error .closed := by
  induction levels with
  | nil => simp [openLevels]
  | cons level levels ih =>
    refine except_bind_ne_error (openFiles_ne_closed d level) fun tables => ?_
    exact except_bind_ne_error ih fun rest h => by cases h

theorem openVersionTables_ne_closed (d : Disk) (version : Version) :
    openVersionTables d version ≠ .error .closed := by
  refine except_bind_ne_error (openFiles_ne_closed d version.l0Files) fun l0Tables => ?_
  exact except_bind_ne_error (openLevels_ne_closed d version.levels) fun levelTables h => by cases h

theorem fileMetaFromTable_ne_closed (number fileSize : Nat) (table : Table) :
    fileMetaFromTable number fileSize table ≠ .error .closed := by
  unfold fileMetaFromTable
  split
  · simp
  · split
    · simp
    · split <;> simp

theorem VersionSet.applyEdit_ne_closed (vs : VersionSet) (edit : VersionEdit) :
    (vs.applyEdit edit).2 ≠ .error .closed := by
  cases edit with
  | addFile level file =>
    simp only [VersionSet.applyEdit, Version.addFile]
    split
    · simp
    · rename_i err h
      split at h
      · cases h
      · split at h
        · cases h
        · cases h
          simp [invalidLevel]
  | deleteFile level number =>
    simp only [VersionSet.applyEdit, Version.deleteFile]
    split
    · simp
    · rename_i err h
      split at h
      · cases h
      · split at h
        · cases h
        · cases h
          simp [invalidLevel]
  | _ => simp [VersionSet.applyEdit]

namespace DB

variable {db db' : DB}

/-- Only the table lists of the state may differ: the memtables, the sequence and the flag
stay. -/
def SameMemory (db db' : DB) : Prop :=
  db'.state = { db.state with
    l0Tables := db'.state.l0Tables
    levelTables := db'.state.levelTables }

instance : Std.Refl SameMemory := ⟨fun _ => rfl⟩

instance : IsTrans DB SameMemory := by
  refine ⟨fun a b c hab hbc => ?_⟩
  unfold SameMemory at hab hbc ⊢
  rw [hbc, hab]

/-- A program that leaves the memory alone and has no notion of a closed handle. -/
abbrev Oblivious {α : Type} (x : DBM α) : Prop := ∀ db, Within SameMemory (· ≠ .closed) x db

theorem oblivious_ofExcept {α : Type} {x : Except Error α} (h : x ≠ .error .closed) :
    Oblivious (ofExcept x) := by
  intro db
  cases x with
  | ok a => exact .of_ok rfl rfl
  | error err => exact .of_error rfl rfl fun he => h (by rw [he])

theorem oblivious_act (op : DiskOp) : Oblivious (act op) := fun _ => .of_ok rfl rfl

theorem oblivious_readEntries (files : List FileMeta) : Oblivious (readEntries files) := by
  induction files with
  | nil => exact fun db => .pure _
  | cons file files ih =>
    intro db
    refine .get_bind ?_
    refine .bind (oblivious_ofExcept (db.disk.openTable_ne_closed _) db) fun table db₁ _ => ?_
    exact .bind (ih db₁) fun rest db₂ _ => .pure _

theorem oblivious_writeTable (entries : List Entry) (number : Nat) :
    Oblivious (writeTable entries number) := by
  intro db
  refine .get_bind ?_
  refine .bind (oblivious_act _ db) fun _ db₁ _ => ?_
  exact .bind (oblivious_ofExcept (fileMetaFromTable_ne_closed _ _ _) db₁) fun _ _ _ => .pure _

theorem oblivious_writeOutputs (chunks : List (List Entry × Nat)) :
    Oblivious (writeOutputs chunks) := by
  induction chunks with
  | nil => exact fun db => .pure _
  | cons chunk chunks ih =>
    intro db
    refine .bind (oblivious_writeTable chunk.1 chunk.2 db) fun ref db₁ _ => ?_
    exact .bind (ih db₁) fun refs db₂ _ => .pure _

theorem oblivious_writeCompactionOutputs (entries : List Entry) :
    Oblivious (writeCompactionOutputs entries) := by
  intro db
  unfold writeCompactionOutputs
  split
  · exact .pure _
  · refine .get_bind ?_
    exact .bind (.of_ok rfl rfl) fun _ db₁ _ => oblivious_writeOutputs _ db₁

theorem oblivious_logAndApply (edit : VersionEdit) : Oblivious (logAndApply edit) := by
  intro db
  refine .bind (oblivious_act _ db) fun _ db₁ _ => ?_
  refine .get_bind ?_
  refine .bind (.of_ok rfl rfl) fun _ db₂ _ => ?_
  exact oblivious_ofExcept (db₁.versions.applyEdit_ne_closed edit) db₂

theorem oblivious_logAndApplyAll (edits : List VersionEdit) :
    Oblivious (logAndApplyAll edits) := by
  induction edits with
  | nil => exact fun db => .pure _
  | cons edit edits ih =>
    exact fun db => .bind (oblivious_logAndApply edit db) fun _ db₁ _ => ih db₁

theorem oblivious_refreshTablesFromVersion : Oblivious refreshTablesFromVersion := by
  intro db
  refine .get_bind ?_
  cases hopen : openVersionTables db.disk db.versions.current with
  | error err =>
    refine .of_error (run_bind_error (run_ofExcept_error db err)) rfl fun he => ?_
    exact openVersionTables_ne_closed db.disk db.versions.current (by rw [hopen, he])
  | ok tables => exact .of_ok (run_bind_ok (run_ofExcept_ok db tables)) rfl

theorem oblivious_deleteObsoleteFiles (numbers : List Nat) :
    Oblivious (deleteObsoleteFiles numbers) :=
  fun db => .of_ok (run_deleteObsoleteFiles db numbers) rfl

theorem oblivious_moveTrivially (task : CompactionTask) (file : FileMeta) :
    Oblivious (moveTrivially task file) :=
  fun db => .bind (oblivious_logAndApplyAll _ db) fun _ db₁ _ =>
    oblivious_refreshTablesFromVersion db₁

theorem oblivious_rewrite (task : CompactionTask) (gcWatermark : Nat) (drop : Bool) :
    Oblivious (rewrite task gcWatermark drop) := by
  intro db
  refine .bind (oblivious_readEntries _ db) fun entries db₁ _ => ?_
  refine .bind (oblivious_writeCompactionOutputs _ db₁) fun outputs db₂ _ => ?_
  refine .bind (oblivious_logAndApplyAll _ db₂) fun _ db₃ _ => ?_
  refine .bind (oblivious_refreshTablesFromVersion db₃) fun _ db₄ _ => ?_
  exact oblivious_deleteObsoleteFiles _ db₄

theorem oblivious_executeCompaction (task : CompactionTask) :
    Oblivious (executeCompaction task) := by
  intro db
  unfold executeCompaction
  split
  · exact .pure _
  · rename_i file rest hfiles
    refine .get_bind ?_
    dsimp only
    split
    · refine .bind (.bind (oblivious_readEntries [file] db) fun _ _ _ => .pure _)
        fun needsRewrite db₁ _ => ?_
      split
      · exact .bind (oblivious_rewrite _ _ _ db₁) fun _ _ _ => .pure _
      · exact .bind (oblivious_moveTrivially _ _ db₁) fun _ _ _ => .pure _
    · refine .bind (.pure _) fun needsRewrite db₁ _ => ?_
      split
      · exact .bind (oblivious_rewrite _ _ _ db₁) fun _ _ _ => .pure _
      · exact .bind (oblivious_moveTrivially _ _ db₁) fun _ _ _ => .pure _

theorem oblivious_compactRange (lower upper : Bound) : Oblivious (compactRange lower upper) := by
  intro db
  refine .get_bind ?_
  split
  · exact .bind (oblivious_executeCompaction _ db) fun _ _ _ => .pure _
  · exact .pure _

/-- The files of the directory by name. -/
def SameFiles (d d' : Disk) : Prop :=
  d'.dirExists = d.dirExists ∧ d'.current = d.current ∧
    (∀ n, (d'.wals n).isSome = (d.wals n).isSome) ∧
    ∀ n, (d'.tables n).isSome = (d.tables n).isSome

/-- The memtables, the version, the table lists and the files on disk are the same. -/
structure Unchanged (db db' : DB) : Prop where
  memtables : db'.state.memtables = db.state.memtables
  version : db'.versions.current = db.versions.current
  l0Tables : db'.state.l0Tables = db.state.l0Tables
  levelTables : db'.state.levelTables = db.state.levelTables
  files : SameFiles db.disk db'.disk

theorem readEntries_ok {files : List FileMeta} {entries : List Entry}
    (h : readEntries files db = .ok entries db') :
    db' = db ∧ ∀ f ∈ files, (db.disk.tables f.number).isSome := by
  induction files generalizing entries db' with
  | nil =>
    cases h
    exact ⟨rfl, by simp⟩
  | cons file files ih =>
    rw [readEntries, run_bind_ok (run_get db)] at h
    obtain ⟨table, db₁, hopen, h⟩ := bind_eq_ok h
    have hsome : (db.disk.tables file.number).isSome ∧ db₁ = db := by
      unfold Disk.openTable at hopen
      split at hopen
      · rename_i ht
        cases hopen
        simp [ht]
      · cases hopen
    obtain ⟨hsome, hdb⟩ := hsome
    rw [hdb] at h
    obtain ⟨rest, db₂, hrest, h⟩ := bind_eq_ok h
    cases h
    obtain ⟨rfl, hall⟩ := ih hrest
    exact ⟨rfl, by simpa using ⟨hsome, hall⟩⟩

theorem rewrite_changes {task : CompactionTask} {gcWatermark : Nat} {drop : Bool}
    (hne : task.allInputFiles ≠ []) (h : rewrite task gcWatermark drop db = .ok () db') :
    ¬ SameFiles db.disk db'.disk := by
  obtain ⟨file, hfile⟩ := List.exists_mem_of_ne_nil _ hne
  obtain ⟨_, db₁, hread, h⟩ := bind_eq_ok h
  obtain ⟨_, hsome⟩ := readEntries_ok hread
  obtain ⟨_, _, _, h⟩ := bind_eq_ok h
  obtain ⟨_, _, _, h⟩ := bind_eq_ok h
  obtain ⟨_, db₄, _, h⟩ := bind_eq_ok h
  rw [run_deleteObsoleteFiles] at h
  cases h
  intro hsame
  have hgone : ((db₄.performed ((task.allInputFiles.map FileMeta.number).map
      .removeTable)).disk.tables file.number) = none := by
    rw [performed, Disk.applyAll_removeTable]
    exact if_pos (List.mem_map.mpr ⟨file, hfile, rfl⟩)
  have := hsame.2.2.2 file.number
  rw [hgone, hsome file hfile] at this
  cases this

theorem logAndApply_ok {edit : VersionEdit} (h : logAndApply edit db = .ok () db') :
    db.versions.applyEdit edit = (db'.versions, .ok ()) := by
  obtain ⟨_, _, hact, h⟩ := bind_eq_ok h
  cases hact
  obtain ⟨_, _, hget, h⟩ := bind_eq_ok h
  cases hget
  obtain ⟨_, _, hset, h⟩ := bind_eq_ok h
  cases hset
  change ofExcept (db.versions.applyEdit edit).2 _ = _ at h
  cases hr : (db.versions.applyEdit edit).2 with
  | error err =>
    rw [hr] at h
    cases h
  | ok u =>
    rw [hr] at h
    cases h
    exact Prod.ext rfl hr

theorem applyEdit_addFile_levels {vs vs' : VersionSet} {level l : Nat} {file : FileMeta}
    (h : vs.applyEdit (.addFile level file) = (vs', .ok ())) (hl : level ≠ l) :
    vs'.current.levels[l]? = vs.current.levels[l]? := by
  simp only [VersionSet.applyEdit] at h
  split at h
  · rename_i next hnext
    rw [← (Prod.mk.inj h).1]
    unfold Version.addFile at hnext
    split at hnext
    · rw [← Except.ok.inj hnext]
    · split at hnext
      · rw [← Except.ok.inj hnext]
        exact List.getElem?_set_ne hl
      · cases hnext
  · cases (Prod.mk.inj h).2

theorem moveTrivially_changes {task : CompactionTask} {file : FileMeta} {source : List FileMeta}
    (hlevel : 0 < task.inputLevel) (hout : task.outputLevel ≠ task.inputLevel)
    (hsource : db.versions.current.levels[task.inputLevel]? = some source) (hfile : file ∈ source)
    (h : moveTrivially task file db = .ok () db') :
    db'.versions.current ≠ db.versions.current := by
  obtain ⟨_, db₁, hlog, h⟩ := bind_eq_ok h
  obtain ⟨_, db₂, hdelete, hlog⟩ := bind_eq_ok hlog
  obtain ⟨_, db₃, hadd, hlog⟩ := bind_eq_ok hlog
  cases hlog
  have hversions : db'.versions = db₁.versions := by
    obtain ⟨_, _, hget, h⟩ := bind_eq_ok h
    cases hget
    obtain ⟨_, db₅, hopen, h⟩ := bind_eq_ok h
    cases h
    rfl
  have hdelete := logAndApply_ok hdelete
  have hadd := logAndApply_ok hadd
  have hmid : db₂.versions.current.levels = db.versions.current.levels.set task.inputLevel
      (source.filter (fun f => f.number ≠ file.number)) := by
    simp only [VersionSet.applyEdit, Version.deleteFile, hsource, if_neg hlevel.ne'] at hdelete
    rw [← (Prod.mk.inj hdelete).1]
  have hend : db₁.versions.current.levels[task.inputLevel]? =
      some (source.filter (fun f => f.number ≠ file.number)) := by
    rw [applyEdit_addFile_levels hadd hout, hmid]
    exact List.getElem?_set_self (List.getElem?_eq_some_iff.mp hsource).1
  intro hsame
  rw [hversions] at hsame
  rw [hsame, hsource] at hend
  have hmem := Option.some.inj hend ▸ hfile
  simp at hmem

/-- A compaction that finds work removes files from the directory or moves one in the
version. -/
theorem executeCompaction_changes {task : CompactionTask} {lower upper : Bound} {done : Bool}
    (hpick : CompactionPicker.pickManual db.versions.current lower upper = some task)
    (h : executeCompaction task db = .ok done db') :
    ¬ SameFiles db.disk db'.disk ∨ db'.versions.current ≠ db.versions.current := by
  have hne : task.inputFiles ≠ [] := by
    rcases pickManual_some hpick with ⟨rfl, hne⟩ | ⟨_, _, _, _, _, _, _, _, rfl⟩
    · exact hne
    · exact List.cons_ne_nil _ _
  have hall : task.allInputFiles ≠ [] := List.append_ne_nil_of_left_ne_nil hne _
  obtain ⟨file, rest, hfiles⟩ := List.exists_cons_of_ne_nil hne
  rw [executeCompaction] at h
  simp only [hfiles] at h
  rw [run_bind_ok (run_get db)] at h
  by_cases htrivial : task.isTrivialMove = true
  · rw [if_pos htrivial] at h
    obtain ⟨needsRewrite, db₁, hneeds, h⟩ := bind_eq_ok h
    obtain ⟨entries, db₂, hread, hneeds⟩ := bind_eq_ok hneeds
    obtain ⟨hdb, _⟩ := readEntries_ok hread
    cases hneeds
    rw [hdb] at h
    split at h
    · obtain ⟨_, db₃, hrewrite, h⟩ := bind_eq_ok h
      cases h
      exact .inl (rewrite_changes hall hrewrite)
    · obtain ⟨_, db₃, hmove, h⟩ := bind_eq_ok h
      cases h
      right
      rcases pickManual_some hpick with ⟨rfl, _⟩ | ⟨pre, source, target, post, f, hl, hpre, hf, rfl⟩
      · simp [CompactionTask.isTrivialMove, CompactionPicker.taskForFiles] at htrivial
      · obtain rfl : f = file := (List.cons.inj hfiles).1
        have hlevel : 0 < pre.length := List.length_pos_iff.mpr hpre
        have hout : min (pre.length + 1) (db.versions.current.levels.length - 1) ≠ pre.length := by
          rw [hl, List.length_append, List.length_cons, List.length_cons]
          omega
        have hsource : db.versions.current.levels[pre.length]? = some source := by
          rw [hl, List.getElem?_append_right le_rfl, Nat.sub_self]
          rfl
        exact moveTrivially_changes hlevel hout hsource hf hmove
  · rw [if_neg htrivial, run_bind_ok (run_pure db true), if_pos rfl] at h
    obtain ⟨_, db₃, hrewrite, h⟩ := bind_eq_ok h
    cases h
    exact .inl (rewrite_changes hall hrewrite)

/-- The compaction that a write starts finds nothing to do. -/
def PressureIdle (db : DB) : Prop :=
  db.state.l0Tables.length < db.options.level0StopWritesTrigger ∨
    CompactionPicker.pickManual db.versions.current .unbounded .unbounded = none

theorem PressureIdle.run (h : db.PressureIdle) : applyWritePressure db = .ok () db := by
  rw [applyWritePressure, run_bind_ok (run_get db)]
  split
  · rename_i hfull
    have hnone := h.resolve_left (by omega)
    rw [compactRange, run_bind_ok (run_get db), hnone]
    rfl
  · rfl

theorem oblivious_applyWritePressure : Oblivious applyWritePressure := by
  intro db
  refine .get_bind ?_
  split
  · exact oblivious_compactRange _ _ db
  · exact .pure _

theorem applyWritePressure_changes (h : ¬ db.PressureIdle) (hrun : applyWritePressure db = .ok () db') :
    ¬ Unchanged db db' := by
  unfold PressureIdle at h
  push Not at h
  obtain ⟨task, hpick⟩ := Option.ne_none_iff_exists'.mp h.2
  rw [applyWritePressure, run_bind_ok (run_get db), if_pos h.1, compactRange,
    run_bind_ok (run_get db)] at hrun
  simp only [hpick] at hrun
  obtain ⟨done, db₁, hexec, hrun⟩ := bind_eq_ok hrun
  cases hrun
  intro hsame
  rcases executeCompaction_changes hpick hexec with hfiles | hversion
  · exact hfiles hsame.files
  · exact hversion hsame.version

theorem run_pressured {body : DBM Unit}
    (hbody : ∀ db, db.state.closed = true → body db = .error .closed db)
    (hclosed : db.state.closed = true) :
    ∃ err db', (applyWritePressure >>= fun _ => body) db = .error err db' ∧
      (db.PressureIdle → err = .closed ∧ db' = db) ∧
      (err = .closed → Unchanged db db' → db.PressureIdle) := by
  by_cases hidle : db.PressureIdle
  · exact ⟨.closed, db, by rw [run_bind_ok hidle.run, hbody db hclosed], fun _ => ⟨rfl, rfl⟩,
      fun _ _ => hidle⟩
  · have hframe := oblivious_applyWritePressure db
    cases hrun : applyWritePressure db with
    | error err db₁ =>
      refine ⟨err, db₁, run_bind_error hrun, fun h => absurd h hidle, fun herr => ?_⟩
      exact absurd herr (hframe.error err db₁ hrun).2
    | ok u db₁ =>
      have hclosed₁ : db₁.state.closed = true := by
        rw [hframe.ok u db₁ hrun]
        exact hclosed
      refine ⟨.closed, db₁, by rw [run_bind_ok hrun, hbody db₁ hclosed₁],
        fun h => absurd h hidle, fun _ hsame => ?_⟩
      exact absurd hsame (applyWritePressure_changes hidle hrun)

theorem repeatGroupError_eq_closed {err : Error} : repeatGroupError err = .closed ↔ err = .closed := by
  cases err <;> simp [repeatGroupError]

theorem run_applyWriteGroup_closed (hclosed : db.state.closed = true)
    (sync : Except Error Unit) (requests : List Request) :
    ∃ err db', applyWriteGroup sync requests db = .error err db' ∧
      (db.PressureIdle → err = .closed ∧ db' = db) ∧
      (err = .closed → Unchanged db db' → db.PressureIdle) := by
  have hbody : ∀ db : DB, db.state.closed = true → (do
      let shouldFlush ← applyWriteGroupToMemtable sync requests
      if shouldFlush then flush) db = .error .closed db := by
    intro db hclosed
    refine run_bind_error ?_
    rw [applyWriteGroupToMemtable, run_bind_ok (run_get db), hclosed]
    rfl
  obtain ⟨err, db', hrun, hidle, hrefused⟩ := run_pressured hbody hclosed
  refine ⟨repeatGroupError err, db', run_tryCatch_error hrun, fun h => ?_, fun herr => ?_⟩
  · rw [(hidle h).1, (hidle h).2]
    exact ⟨rfl, rfl⟩
  · exact hrefused (repeatGroupError_eq_closed.mp herr)

theorem run_commit_closed (hclosed : db.state.closed = true) (sync : Except Error Unit)
    (txn : Transaction) :
    ∃ err db', txn.commit sync db = .error err { db' with watermark := db'.watermark.remove txn.readSeq } ∧
      (db.PressureIdle → err = .closed ∧ db' = db) ∧
      (err = .closed → Unchanged db db' → db.PressureIdle) := by
  have hbody : ∀ db : DB, db.state.closed = true → (do
      let shouldFlush ← commitToMemtable sync txn.readSeq txn.writes
        (txn.readKeys.entries.map Prod.fst) txn.readRanges
      if shouldFlush then flush) db = .error .closed db := by
    intro db hclosed
    refine run_bind_error ?_
    rw [commitToMemtable, run_bind_ok (run_get db), hclosed]
    rfl
  obtain ⟨err, db', hrun, hidle, hrefused⟩ := run_pressured hbody hclosed
  refine ⟨err, db', ?_, hidle, hrefused⟩
  exact run_bind_error ((run_tryCatch_error hrun).trans rfl)

end DB

/-- What a client can call on a handle, or do with a transaction begun earlier. -/
inductive HandleOp where
  | get (key : Bytes) (snapshot : Option Nat)
  | scan (lower upper : Bound) (snapshot : Option Nat)
  | put (key value : Bytes)
  | delete (key : Bytes)
  | write (sync : Except Error Unit) (batch : WriteBatch) (opts : WriteOptions)
      (nonempty : batch.isEmpty = false)
  | flush
  | transaction (readOnly : Bool)
  | commit (sync : Except Error Unit) (txn : Transaction)
  | compactRange (lower upper : Bound)

namespace HandleOp

def run : HandleOp → DBM Unit
  | get key snapshot => do
    let db ← MonadState.get
    discard (ofExcept (db.getOpt key snapshot))
  | scan lower upper snapshot => do
    let db ← MonadState.get
    discard (ofExcept (db.scanOpt lower upper snapshot))
  | put key value => DB.put key value
  | delete key => DB.delete key
  | write sync batch opts _ => DB.write sync batch opts
  | flush => DB.flush
  | transaction readOnly => discard (DB.transaction readOnly)
  | commit sync txn => txn.commit sync
  | compactRange lower upper => DB.compactRange lower upper

/-- The call reports a closed handle and changes nothing. -/
def Refused (op : HandleOp) (db : DB) : Prop :=
  ∃ db', op.run db = .error .closed db' ∧ DB.Unchanged db db'

/-- The flag is tested before anything else happens. -/
def ChecksClosed : HandleOp → DB → Prop
  | compactRange _ _, _ => False
  | put _ _, db => db.PressureIdle
  | delete _, db => db.PressureIdle
  | write _ _ _ _, db => db.PressureIdle
  | commit _ _, db => db.PressureIdle
  | _, _ => True

variable {db : DB}

/-- A call that tests the flag first may only release the snapshot of its transaction. -/
theorem ChecksClosed.run {op : HandleOp} (h : op.ChecksClosed db) (hclosed : db.state.closed = true) :
    ∃ w, op.run db = .error .closed { db with watermark := w } := by
  have hwrite : ∀ (sync : Except Error Unit) (batch : WriteBatch) (opts : WriteOptions),
      batch.isEmpty = false → db.PressureIdle → DB.write sync batch opts db = .error .closed db := by
    intro sync batch opts hne hidle
    obtain ⟨err, db', hrun, hclose, _⟩ := DB.run_applyWriteGroup_closed hclosed sync [⟨batch, opts⟩]
    obtain ⟨rfl, rfl⟩ := hclose hidle
    rw [DB.write, hne, if_neg Bool.false_ne_true, hrun]
  cases op with
  | get key snapshot =>
    refine ⟨db.watermark, ?_⟩
    change discard (ofExcept (db.getOpt key snapshot)) db = _
    rw [DB.getOpt, hclosed]
    rfl
  | scan lower upper snapshot =>
    refine ⟨db.watermark, ?_⟩
    change discard (ofExcept (db.scanOpt lower upper snapshot)) db = _
    rw [DB.scanOpt, hclosed]
    rfl
  | put key value => exact ⟨db.watermark, hwrite (.ok ()) ⟨[.put key value]⟩ {} rfl h⟩
  | delete key => exact ⟨db.watermark, hwrite (.ok ()) ⟨[.delete key]⟩ {} rfl h⟩
  | write sync batch opts hne => exact ⟨db.watermark, hwrite sync batch opts hne h⟩
  | flush =>
    refine ⟨db.watermark, ?_⟩
    change DB.flush db = _
    rw [DB.flush, run_bind_ok (run_get db), hclosed]
    rfl
  | transaction readOnly =>
    refine ⟨db.watermark, run_discard_error ?_⟩
    rw [DB.transaction, run_bind_ok (run_get db), hclosed]
    rfl
  | commit sync txn =>
    obtain ⟨err, db', hrun, hclose, _⟩ := DB.run_commit_closed hclosed sync txn
    obtain ⟨rfl, rfl⟩ := hclose h
    exact ⟨_, hrun⟩
  | compactRange lower upper => exact h.elim

theorem refused_iff (op : HandleOp) (hclosed : db.state.closed = true) :
    op.Refused db ↔ op.ChecksClosed db := by
  constructor
  · rintro ⟨db', hrun, hsame⟩
    have hwrite : ∀ (sync : Except Error Unit) (batch : WriteBatch) (opts : WriteOptions),
        batch.isEmpty = false → DB.write sync batch opts db = .error .closed db' →
        db.PressureIdle := by
      intro sync batch opts hne hw
      obtain ⟨err, db₁, hgroup, _, hidle⟩ :=
        DB.run_applyWriteGroup_closed hclosed sync [⟨batch, opts⟩]
      rw [DB.write, hne, if_neg Bool.false_ne_true, hgroup] at hw
      cases hw
      exact hidle rfl hsame
    cases op with
    | put key value => exact hwrite (.ok ()) ⟨[.put key value]⟩ {} rfl hrun
    | delete key => exact hwrite (.ok ()) ⟨[.delete key]⟩ {} rfl hrun
    | write sync batch opts hne => exact hwrite sync batch opts hne hrun
    | commit sync txn =>
      obtain ⟨err, db₁, hcommit, _, hidle⟩ := DB.run_commit_closed hclosed sync txn
      have hcommit' := hcommit.symm.trans hrun
      cases hcommit'
      exact hidle rfl ⟨hsame.memtables, hsame.version, hsame.l0Tables, hsame.levelTables, hsame.files⟩
    | compactRange lower upper =>
      exact absurd rfl ((DB.oblivious_compactRange lower upper db).error _ _ hrun).2
    | _ => trivial
  · intro h
    obtain ⟨w, hrun⟩ := h.run hclosed
    exact ⟨_, hrun, rfl, rfl, rfl, rfl, rfl, rfl, fun _ => rfl, fun _ => rfl⟩

theorem checksClosed_withWatermark (op : HandleOp) (w : Watermark) :
    op.ChecksClosed { db with watermark := w } ↔ op.ChecksClosed db := by
  cases op <;> exact Iff.rfl

end HandleOp

/-- After `close`, every call of a sequence reports a closed handle and changes nothing
exactly when each of them tests the flag first in the state that was closed. -/
theorem closed_handle_refuses_iff {db₀ db : DB} (hclose : DB.close db₀ = .ok () db)
    (ops : List HandleOp) :
    Along HandleOp.run HandleOp.Refused ops db ↔ ∀ op ∈ ops, op.ChecksClosed db := by
  have hclosed : db.state.closed = true := by
    cases hclose
    rfl
  clear hclose
  induction ops generalizing db with
  | nil => simp [Along]
  | cons op ops ih =>
    rw [Along, List.forall_mem_cons, op.refused_iff hclosed]
    refine and_congr_right fun h => ?_
    obtain ⟨w, hrun⟩ := h.run hclosed
    rw [after_error hrun]
    refine (@ih { db with watermark := w } hclosed).trans ?_
    exact forall₂_congr fun op' _ => op'.checksClosed_withWatermark w

/-- One record in L0, where a single table counts as too many. -/
def closingOptions : Options := { level0StopWritesTrigger := 1 }

def closingCalls : List Call := [.put [97] [49], .flush]

theorem closingCalls_end :
    EndsIn (fun db => closingOptions.level0StopWritesTrigger ≤ db.state.l0Tables.length ∧
        db.options = closingOptions ∧
        (CompactionPicker.pickManual db.versions.current .unbounded .unbounded).isSome = true)
      (runAll Call.run closingCalls (DB.created .inOrder closingOptions "db")) := by
  decide +kernel

/-- After `close` a write still compacts, and so does `compactRange`, which even succeeds. -/
theorem closed_handle_compacts :
    ∃ db₀ db, runAll Call.run closingCalls (DB.created .inOrder closingOptions "db") = .ok () db₀ ∧
      DB.close db₀ = .ok () db ∧
      ¬ Along HandleOp.run HandleOp.Refused [.put [98] [50]] db ∧
      ¬ Along HandleOp.run HandleOp.Refused [.compactRange .unbounded .unbounded] db := by
  obtain ⟨db₀, hrun, hfull, hoptions, hpick⟩ := closingCalls_end.exists_ok
  refine ⟨db₀, _, hrun, rfl, ?_, ?_⟩
  · rintro ⟨hrefused, _⟩
    rcases (HandleOp.refused_iff _ rfl).mp hrefused with hlt | hnone
    · rw [← hoptions] at hfull
      exact absurd hlt (Nat.not_lt.mpr hfull)
    · rw [Option.isSome_iff_ne_none] at hpick
      exact hpick hnone
  · rintro ⟨hrefused, _⟩
    exact (HandleOp.refused_iff _ rfl).mp hrefused

/-- With the default options L0 is far from full and every other call is refused. -/
theorem closed_handle_refuses_small :
    ∃ db, DB.close (DB.created .inOrder {} "db") = .ok () db ∧
      Along HandleOp.run HandleOp.Refused [.put [97] [49], .get [97] none,
        .commit (.ok ()) ⟨0, false, ⟨[.put [97] [49]]⟩, .empty, []⟩, .flush] db := by
  refine ⟨_, rfl, (closed_handle_refuses_iff rfl _).mpr ?_⟩
  intro op hop
  have hidle : DB.PressureIdle { DB.created .inOrder {} "db" with
      state := { (DB.created .inOrder {} "db").state with closed := true } } := by
    left
    decide
  simp only [List.mem_cons, List.not_mem_nil, or_false] at hop
  rcases hop with rfl | rfl | rfl | rfl
  · exact hidle
  · trivial
  · exact hidle
  · trivial

end TyLsm
