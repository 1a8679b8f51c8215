import TyLsm.SearchOrder
import TyLsm.Restorable

/-! Stopping the process inside a flush. The new table, the last sequence and the new log
are recorded by three manifest edits. Between the first and the last of them the old log is
replayed on top of the table that already has its records; records that skipped the log are
in the table only. -/

namespace TyLsm

/-- What writers and `flush` do, piece by piece. -/
inductive WriteStep where
  /-- The compaction that a write starts when L0 has too many files. -/
  | pressure
  | locked (step : Section)

namespace WriteStep

def run : WriteStep → DBM Unit
  | pressure => DB.applyWritePressure
  | locked step => step.run

/-- The records that a step appends to the log, as entries. -/
def logged : WriteStep → DB → List Entry
  | pressure, _ => []
  | locked step, db => if db.options.walEnabled then step.logged db else []

def Covers : WriteStep → DB → Prop
  | pressure, _ => True
  | locked step, db => step.Covers db

instance (step : WriteStep) (db : DB) : Decidable (step.Covers db) :=
  match step with
  | pressure => isTrue trivial
  | locked step => inferInstanceAs (Decidable (step.Covers db))

end WriteStep

/-- The entries logged along a run, and the database it ends in. -/
def runWrites (steps : List WriteStep) (db : DB) : List Entry × DB :=
  follow WriteStep.run (fun step db entries => entries ++ step.logged db) steps [] db

namespace DB

/-- The records of the live log are in memory, each internal key once, and every logged
record that the database still has is in a table or in the live log. -/
structure LogsMemory (env : Env) (options : Options) (logged : List Entry) (db : DB) : Prop where
  ordered : db.Ordered
  env_eq : db.env = env
  options_eq : db.options = options
  inMemory : ∀ e ∈ db.liveLog, e ∈ db.state.memEntries
  inLogged : ∀ e ∈ db.liveLog, e ∈ logged
  distinct : (db.liveLog.map Prod.fst).Nodup
  tables_le : ∀ e ∈ db.versions.current.entries db.disk.tables,
    e.1.sequence ≤ db.versions.lastSequence
  logged_le : ∀ e ∈ logged, e.1.sequence ≤ db.state.lastSequence
  recoverable : ∀ e ∈ logged, e ∈ db.allEntries → db.Recoverable e

variable {db : DB} {env : Env} {options : Options} {logged : List Entry}

theorem LogsMemory.restorable (h : LogsMemory env options logged db) : db.Restorable :=
  ⟨h.ordered.ok.sound, h.ordered.recorded, h.inMemory, h.distinct, h.tables_le⟩

theorem LogsMemory.written (h : LogsMemory env options logged db) (requests : List Request) :
    LogsMemory env options (logged ++ db.appendedEntries requests) (db.written requests) := by
  obtain ⟨hok, hrec, happ⟩ := h.ordered.ok.written h.ordered.recorded requests
  have hr := h.restorable.written requests
  have hlog := h.ordered.recorded.liveLog_appended requests
  have hsub := db.appendedEntries_sublist requests
  refine ⟨⟨hok, hrec, h.ordered.noSnapshot⟩, h.env_eq, h.options_eq, hr.inMemory, ?_,
    hr.distinctLog, hr.tables_le, ?_, ?_⟩
  · intro e he
    rw [hlog, List.mem_append] at he
    exact List.mem_append.mpr (he.imp_left (h.inLogged e))
  · intro e he
    rw [show (db.written requests).state.lastSequence = _ from happ.lastSequence]
    rcases List.mem_append.mp he with he | he
    · exact (h.logged_le e he).trans (Nat.le_add_right _ _)
    · have := (entriesFrom_sequence (hsub.subset he)).2
      omega
  · intro e he hin
    rw [Recoverable, hlog, written_tables, List.mem_append]
    rcases List.mem_append.mp he with he | he
    · rw [allEntries, written_tables, List.mem_append, happ.mem] at hin
      rcases hin with (hin | hin) | hin
      · exact (h.recoverable e he (List.mem_append.mpr (.inl hin))).imp_right .inl
      · -- the new sequence numbers are above those of every older logged record
        have hge := (entriesFrom_sequence hin).1
        have hle := h.logged_le e he
        omega
      · exact .inl hin
    · exact .inr (.inr he)

theorem LogsMemory.tablesChanged {db' : DB} (h : LogsMemory env options logged db)
    (hc : TablesChanged db db') (hok : db'.Ok) : LogsMemory env options logged db' := by
  have hmem : db'.state.memEntries = db.state.memEntries := by
    rw [hc.state]
    rfl
  have hlog : db'.liveLog = db.liveLog := by rw [liveLog, hc.wals, hc.logNumber, liveLog]
  have hlast : db'.state.lastSequence = db.state.lastSequence := by rw [hc.state]
  have hr := h.restorable.tablesChanged hc hok.sound
  refine ⟨⟨hok, hr.recorded, hc.watermark ▸ h.ordered.noSnapshot⟩,
    hc.env.trans h.env_eq, hc.options.trans h.options_eq, hr.inMemory, ?_, hr.distinctLog,
    hr.tables_le, ?_, ?_⟩
  · rw [hlog]
    exact h.inLogged
  · rw [hlast]
    exact h.logged_le
  · intro e he hin
    rw [allEntries, hmem, List.mem_append] at hin
    rcases hin with hin | hin
    · rcases h.recoverable e he (List.mem_append.mpr (.inl hin)) with ht | hl
      · -- a record in memory is newer than those of its key in the tables
        have habove := (newestFirst_append.mp h.ordered.ok.stateOk.newestFirst).2.2
        exact absurd (habove e hin e ht rfl) (lt_irrefl _)
      · exact .inr (hlog ▸ hl)
    · exact .inl hin

theorem LogsMemory.flushed (h : LogsMemory env options logged db) {memtable : MemTable}
    {source : DBState.FlushSource} {state : DBState} {ref : TableRef}
    (htake : db.state.takeOldestFlushableMemtable db.options.memtableKind =
      some (memtable, source, state)) (hnum : ref.1.number = db.versions.nextFileNumber)
    (hs : (db.flushed state ref).Sound)
    (hall : (db.flushed state ref).allEntries = db.allEntries)
    (hcovers : db.FlushCoversLog) : LogsMemory env options logged (db.flushed state ref) := by
  rw [FlushCoversLog, htake] at hcovers
  obtain ⟨hmem, hlast, _⟩ := DBState.takeOldest_spec htake
  have hr := h.restorable.flushed htake hnum hs hall
  have hlog := liveLog_flushed h.ordered.ok.sound state ref
  refine ⟨⟨h.ordered.ok.flushed_of_sound hs hall, hr.recorded, h.ordered.noSnapshot⟩, h.env_eq,
    h.options_eq, hr.inMemory, by simp [hlog], hr.distinctLog, hr.tables_le, ?_, ?_⟩
  · intro e he
    rw [show (db.flushed state ref).state.lastSequence = state.lastSequence from rfl, hlast]
    exact h.logged_le e he
  · intro e he hin
    refine .inl ?_
    rw [entries_flushed hmem hall, List.mem_append]
    rw [hall] at hin
    exact (h.recoverable e he hin).symm.imp (hcovers e) id

theorem LogsMemory.step (step : WriteStep) (logged : List Entry) (db : DB)
    (h : LogsMemory env options logged db) (hcovers : step.Covers db) :
    LogsMemory env options (logged ++ step.logged db) (after WriteStep.run db step) := by
  cases step with
  | pressure =>
    obtain ⟨db', hrun, hok, hc, _⟩ :=
      h.ordered.ok.applyWritePressure fun _ => h.ordered.splitsSafely _ _
    have hrun' : WriteStep.pressure.run db = .ok () db' := hrun
    rw [after_ok hrun', WriteStep.logged, List.append_nil]
    exact h.tablesChanged hc hok
  | locked step =>
    have hafter : after WriteStep.run db (.locked step) = after Section.run db step := rfl
    rw [hafter, WriteStep.logged]
    rcases step.after_cases h.ordered.ok.sound with ⟨hafter, hlogged⟩ | ⟨requests, hafter, hlogged⟩ |
      ⟨rfl, hlogged, memtable, source, state, ref, htake, hnum, hs, hall, hafter⟩
    · rw [hafter, hlogged, ite_self, List.append_nil]
      exact h
    · rw [hafter, hlogged]
      exact h.written requests
    · rw [hafter, hlogged, ite_self, List.append_nil]
      exact h.flushed htake hnum hs hall hcovers

theorem logsMemory_created (env : Env) (options : Options) (path : String) :
    LogsMemory env options [] (created env options path) := by
  have hlog : (created env options path).liveLog = [] := rfl
  refine ⟨ordered_created env options path, rfl, rfl, by simp [hlog], by simp [hlog],
    by simp [hlog], ?_, by simp, by simp⟩
  intro e he
  exact (ok_created env options path).stateOk.sequences e (List.mem_append.mpr (.inr he))

theorem reopened_allEntries (env : Env) (options : Options) (disk : Disk) (versions : VersionSet)
    (l0 : List TableRef) (levels : List (List TableRef)) :
    (reopened env options disk versions l0 levels).allEntries =
      (OrderedMap.empty.insertAll
        (walEntries ((disk.wals versions.logNumber).getD []))).entries ++
        versions.current.entries disk.tables :=
  congrArg (· ++ versions.current.entries disk.tables)
    (DBState.memEntries_recoverWal _ _ _ _ _)

theorem reopened_lastSequence (env : Env) (options : Options) (disk : Disk)
    (versions : VersionSet) (l0 : List TableRef) (levels : List (List TableRef)) :
    (reopened env options disk versions l0 levels).state.lastSequence =
      lastOf versions.lastSequence (walEntries ((disk.wals versions.logNumber).getD [])) :=
  DBState.lastSequence_recoverWal _ _

/-- What opening finds when a flush that takes `memtable` stops after `i` operations. The
table has its name after the first, is listed after the second, the last sequence is recorded
after the third and the new log after the fifth. -/
structure FlushStopped (db : DB) (memtable : MemTable) (i : Nat) (r : DB) : Prop where
  tabled : r.Tabled
  flushable : Flushable r.state
  levels : r.versions.current.levels = db.versions.current.levels
  allEntries : r.allEntries =
    (OrderedMap.empty.insertAll (if i < 5 then db.liveLog else [])).entries ++
      ((if i < 2 then [] else memtable.entries) ++ db.versions.current.entries db.disk.tables)
  lastSequence : r.state.lastSequence =
    lastOf (if i < 3 then db.versions.lastSequence else db.state.lastSequence)
      (if i < 5 then db.liveLog else [])
  nextFileNumber : r.versions.nextFileNumber = if i < 2 then db.versions.nextFileNumber
    else if i < 5 then db.versions.nextFileNumber + 1 else db.versions.nextFileNumber + 2
  tables : ∀ n, db.versions.nextFileNumber ≤ n →
    (r.disk.tables n ≠ none ↔ 0 < i ∧ n = db.versions.nextFileNumber)

theorem FlushStopped.readable {memtable : MemTable} {i : Nat} {r : DB}
    (hst : FlushStopped db memtable i r) (h : db.Readable) : r.Readable :=
  ⟨hst.tabled.isOpen, ⟨hst.tabled.listed, hst.levels ▸ h.stored.ranges⟩, hst.tabled.tables⟩

theorem crashed_flushed (db : DB) (state : DBState) (ref : TableRef) (i : Nat) :
    db.crashed (db.flushed state ref) i = db.disk.applyAll
      ((flushOps db.versions.nextFileNumber ref state.lastSequence).take i) := by
  rw [crashed, DB.flushed, performed]
  simp only
  rw [List.drop_left]

/-- Reading the log, the version and the numbers off a directory that opening accepts. -/
theorem FlushStopped.of_reopened {memtable : MemTable} {i : Nat} {disk : Disk} {vs : VersionSet}
    {l0 : List TableRef} {levels : List (List TableRef)} (hst : vs.current.Listed disk.tables)
    (ht : TablesOf disk vs.current l0 levels)
    (hlevels : vs.current.levels = db.versions.current.levels)
    (hlog : walEntries ((disk.wals vs.logNumber).getD []) = if i < 5 then db.liveLog else [])
    (hent : vs.current.entries disk.tables = (if i < 2 then [] else memtable.entries) ++
      db.versions.current.entries db.disk.tables)
    (hlast : vs.lastSequence =
      if i < 3 then db.versions.lastSequence else db.state.lastSequence)
    (hnext : vs.nextFileNumber = if i < 2 then db.versions.nextFileNumber
      else if i < 5 then db.versions.nextFileNumber + 1 else db.versions.nextFileNumber + 2)
    (htables : ∀ n, db.versions.nextFileNumber ≤ n →
      (disk.tables n ≠ none ↔ 0 < i ∧ n = db.versions.nextFileNumber)) :
    FlushStopped db memtable i (reopened env options disk vs l0 levels) :=
  ⟨reopened_tabled hst ht, flushable_recoverWal _ _ _ _ _, hlevels,
    by rw [reopened_allEntries, hlog, hent], by rw [reopened_lastSequence, hlog, hlast], hnext, htables⟩

theorem Recorded.logNumber_lt (hr : db.Recorded) (h : db.Sound) :
    db.versions.logNumber < db.versions.nextFileNumber := by
  by_contra hle
  obtain ⟨records, hrecords⟩ := hr.log
  rw [hr.wal, h.freshWals _ (not_lt.mp hle)] at hrecords
  cases hrecords

/-- Opening a directory whose manifest has got some more edits. -/
theorem Recorded.open_logged (hr : db.Recorded) (herr : db.options.errorIfExists = false)
    {disk : Disk} (edits : List VersionEdit) {vs : VersionSet}
    (hdir : disk.dirExists = db.disk.dirExists) (hcur : disk.current = db.disk.current)
    (hman : disk.manifest = db.disk.manifest ++ edits)
    (hreplay : db.versions.replay edits = .ok vs) (hst : vs.current.Listed disk.tables) :
    ∃ l0 levels, TablesOf disk vs.current l0 levels ∧
      DB.open db.env disk db.options = .ok (reopened db.env db.options disk vs l0 levels) :=
  open_ok db.env (hdir.trans hr.dirExists) herr (hcur.trans hr.current)
    (by rw [hman, VersionSet.replay_append, hr.manifest]; exact hreplay) hst

/-- The table that a flush writes from `memtable`: it gets the next number, and in front of
L0 it lists the records that leave the memory. -/
structure FlushWrites (db : DB) (memtable : MemTable) (state : DBState) (ref : TableRef) :
    Prop where
  number : ref.1.number = db.versions.nextFileNumber
  lastSequence : max db.versions.lastSequence state.lastSequence = db.state.lastSequence
  listed : (db.flushed state ref).versions.current.Listed
    (Function.update db.disk.tables db.versions.nextFileNumber (some ref.2))
  entries : (db.flushed state ref).versions.current.entries
    (Function.update db.disk.tables db.versions.nextFileNumber (some ref.2)) =
      memtable.entries ++ db.versions.current.entries db.disk.tables

theorem Sound.flush_writes (h : db.Sound) (hr : db.Recorded) {memtable : MemTable}
    {source : DBState.FlushSource} {state : DBState}
    (htake : db.state.takeOldestFlushableMemtable db.options.memtableKind =
      some (memtable, source, state)) :
    ∃ ref, DB.flush db = .ok () (db.flushed state ref) ∧ FlushWrites db memtable state ref := by
  obtain ⟨ref, hnum, _, hrun, hok, hall⟩ := h.flushed htake
  obtain ⟨hmem, hlast, _⟩ := DBState.takeOldest_spec htake
  refine ⟨ref, hrun, hnum, ?_, hok.listed, entries_flushed hmem hall⟩
  rw [hlast, max_eq_right hr.lastSequence]

theorem Sound.tables_named (h : db.Sound) (table : Table) {i : Nat} (hi : 0 < i) {n : Nat}
    (hle : db.versions.nextFileNumber ≤ n) :
    Function.update db.disk.tables db.versions.nextFileNumber (some table) n ≠ none ↔
      0 < i ∧ n = db.versions.nextFileNumber := by
  by_cases he : n = db.versions.nextFileNumber
  · simp [he, hi]
  · simp [h.freshTables n hle, he]

theorem Sound.flush_not_begun (h : db.Sound) (hr : db.Recorded)
    (herr : db.options.errorIfExists = false) (memtable : MemTable) :
    ∃ r, DB.open db.env db.disk db.options = .ok r ∧ FlushStopped db memtable 0 r := by
  obtain ⟨l0, levels, ht, ho⟩ := open_ok db.env hr.dirExists herr hr.current hr.manifest h.listed
  refine ⟨_, ho, .of_reopened h.listed ht rfl rfl rfl rfl rfl fun n hle => ?_⟩
  simp [h.freshTables n hle]

/-- The table has its name and is not listed. -/
theorem Sound.flush_named (h : db.Sound) (hr : db.Recorded)
    (herr : db.options.errorIfExists = false) (memtable : MemTable) (table : Table) :
    ∃ r, DB.open db.env (db.disk.apply (.renameTable db.versions.nextFileNumber table))
      db.options = .ok r ∧ FlushStopped db memtable 1 r := by
  have hst : db.versions.current.Listed
      (Function.update db.disk.tables db.versions.nextFileNumber (some table)) :=
    h.listed.congr fun f hf => Function.update_of_ne (h.file_number_lt hf).ne _ _
  have hent : db.versions.current.entries
      (Function.update db.disk.tables db.versions.nextFileNumber (some table)) =
      db.versions.current.entries db.disk.tables :=
    Version.entries_congr fun f hf => Function.update_of_ne (h.file_number_lt hf).ne _ _
  obtain ⟨l0, levels, ht, ho⟩ := @Recorded.open_logged db hr herr
    (db.disk.apply (.renameTable db.versions.nextFileNumber table)) [] _ rfl rfl
    (by simp [Disk.apply]) rfl hst
  exact ⟨_, ho, .of_reopened hst ht rfl rfl hent rfl rfl
    fun n hle => h.tables_named table (by omega) hle⟩

/-- The table is listed, and some of the edits behind it are logged. -/
theorem FlushWrites.reopens {memtable : MemTable} {state : DBState} {ref : TableRef}
    (hw : FlushWrites db memtable state ref) (h : db.Sound) (hr : db.Recorded)
    (herr : db.options.errorIfExists = false) {i : Nat} (hi : 2 ≤ i) {disk : Disk}
    (edits : List VersionEdit) {last next logNumber : Nat}
    (hdir : disk.dirExists = db.disk.dirExists) (hcur : disk.current = db.disk.current)
    (htables : disk.tables =
      Function.update db.disk.tables db.versions.nextFileNumber (some ref.2))
    (hman : disk.manifest = db.disk.manifest ++ edits)
    (hreplay : db.versions.replay edits = .ok
      ⟨(db.flushed state ref).versions.current, next, last, logNumber⟩)
    (hlast : last = if i < 3 then db.versions.lastSequence else db.state.lastSequence)
    (hnext : next = if i < 5 then db.versions.nextFileNumber + 1
      else db.versions.nextFileNumber + 2)
    (hlog : walEntries ((disk.wals logNumber).getD []) = if i < 5 then db.liveLog else []) :
    ∃ r, DB.open db.env disk db.options = .ok r ∧ FlushStopped db memtable i r := by
  have hst : (db.flushed state ref).versions.current.Listed disk.tables := htables ▸ hw.listed
  obtain ⟨l0, levels, ht, ho⟩ := hr.open_logged herr edits hdir hcur hman hreplay hst
  refine ⟨_, ho, .of_reopened hst ht rfl hlog ?_ hlast ?_ fun n hle => ?_⟩
  · rw [htables, if_neg (by omega)]
    exact hw.entries
  · rw [if_neg (by omega)]
    exact hnext
  · rw [htables]
    exact h.tables_named ref.2 (by omega) hle

theorem FlushWrites.replay_addFile {memtable : MemTable} {state : DBState} {ref : TableRef}
    (hw : FlushWrites db memtable state ref) (edits : List VersionEdit) :
    db.versions.replay (.addFile 0 ref.1 :: edits) =
      ({ db.versions with
        current := (db.flushed state ref).versions.current
        nextFileNumber := db.versions.nextFileNumber + 1 } : VersionSet).replay edits := by
  have hraised : max db.versions.nextFileNumber (ref.1.number + 1) =
      db.versions.nextFileNumber + 1 := by
    rw [hw.number]
    omega
  simp [VersionSet.replay, VersionSet.applyEdit, Version.addFile, hraised, DB.flushed]

theorem FlushWrites.replay_lastSequence {memtable : MemTable} {state : DBState} {ref : TableRef}
    (hw : FlushWrites db memtable state ref) (edits : List VersionEdit) :
    db.versions.replay (.addFile 0 ref.1 :: .lastSequence state.lastSequence :: edits) =
      ({ db.versions with
        current := (db.flushed state ref).versions.current
        nextFileNumber := db.versions.nextFileNumber + 1
        lastSequence := db.state.lastSequence } : VersionSet).replay edits := by
  rw [hw.replay_addFile]
  simp [VersionSet.replay, VersionSet.applyEdit, hw.lastSequence]

theorem Sound.flush_crashed (h : db.Sound) (hr : db.Recorded)
    (herr : db.options.errorIfExists = false) {memtable : MemTable}
    {source : DBState.FlushSource} {state : DBState}
    (htake : db.state.takeOldestFlushableMemtable db.options.memtableKind =
      some (memtable, source, state)) :
    ∃ db', DB.flush db = .ok () db' ∧ ∀ i, ∃ r,
      DB.open db.env (db.crashed db' i) db.options = .ok r ∧ FlushStopped db memtable i r := by
  obtain ⟨ref, hrun, hw⟩ := h.flush_writes hr htake
  refine ⟨_, hrun, fun i => ?_⟩
  rw [crashed_flushed]
  match i with
  | 0 => exact h.flush_not_begun hr herr memtable
  | 1 => exact h.flush_named hr herr memtable ref.2
  | 2 =>
    exact hw.reopens h hr herr le_rfl [.addFile 0 ref.1] rfl rfl rfl
      (by simp [flushOps, Disk.apply]) (hw.replay_addFile []) rfl rfl rfl
  | 3 =>
    exact hw.reopens h hr herr (by omega) [.addFile 0 ref.1, .lastSequence state.lastSequence]
      rfl rfl rfl (by simp [flushOps, Disk.apply]) (hw.replay_lastSequence []) rfl rfl rfl
  | 4 =>
    refine hw.reopens h hr herr (by omega) [.addFile 0 ref.1, .lastSequence state.lastSequence]
      rfl rfl rfl (by simp [flushOps, Disk.apply]) (hw.replay_lastSequence []) rfl rfl ?_
    -- the new log has a number of its own
    have := hr.logNumber_lt h
    simp only [flushOps, List.take_succ_cons, List.take_zero, Disk.applyAll_cons,
      Disk.applyAll_nil, Disk.apply]
    rw [Function.update_of_ne (by omega)]
    rfl
  | i + 5 =>
    have hall : (flushOps db.versions.nextFileNumber ref state.lastSequence).take (i + 5) =
        flushOps db.versions.nextFileNumber ref state.lastSequence :=
      List.take_of_length_le (by simp [flushOps])
    rw [hall]
    exact hw.reopens h hr herr (by omega) [.addFile 0 ref.1, .lastSequence state.lastSequence,
      .logNumber (db.versions.nextFileNumber + 1)] rfl rfl rfl (by simp [flushOps, Disk.apply])
      (hw.replay_lastSequence _) rfl (max_eq_right (Nat.le_succ _)) (liveLog_flushed h state ref)

/-- What a reopened database should offer: the last sequence covers every record, logged
records are there, `get` finds the newest record of each key and `scan` agrees with it. -/
structure Consistent (logged : List Entry) (r : DB) : Prop where
  sequences : ∀ e ∈ r.sources.flatten, e.1.sequence ≤ r.state.lastSequence
  present : ∀ e ∈ logged, e ∈ r.sources.flatten
  newest : r.ReadsNewest
  scans : ∀ lower upper, ∃ rows, r.scan lower upper = .ok rows ∧
    ∀ k v, (k, v) ∈ rows ↔ withinBounds k lower upper = true ∧ r.get k = .ok (some v)

/-- When a flush may stop after `i` operations. The table may be listed before the last
sequence if the log or the recorded last sequence cover it; while the old log is still the
live one, no record of the table may be newer than the newest one of its key in the log,
unless both show the same; and the log may be left only when the table has all its records. -/
def FlushSafe (db : DB) (i : Nat) : Prop :=
  match db.state.takeOldestFlushableMemtable db.options.memtableKind with
  | none => True
  | some (memtable, _, _) =>
    (i = 2 → ∀ e ∈ memtable.entries, e.1.sequence ≤ db.versions.lastSequence ∨
      ∃ a ∈ db.liveLog, e.1.sequence ≤ a.1.sequence) ∧
    (2 ≤ i ∧ i < 5 → ∀ a ∈ db.liveLog, ∀ e ∈ memtable.entries,
      a.1.userKey = e.1.userKey → a.1.sequence < e.1.sequence →
      (∀ b ∈ db.liveLog, b.1.userKey = a.1.userKey → b.1.sequence ≤ a.1.sequence) →
      (∀ b ∈ memtable.entries, b.1.userKey = e.1.userKey → b.1.sequence ≤ e.1.sequence) →
      a.2.intoVisibleValue = e.2.intoVisibleValue) ∧
    (5 ≤ i → ∀ e ∈ db.liveLog, e ∈ memtable.entries)

/-- The next flush writes exactly the records of the live log. -/
def FlushesLog (db : DB) : Prop :=
  match db.state.takeOldestFlushableMemtable db.options.memtableKind with
  | some (memtable, _, _) =>
    (∀ e ∈ db.liveLog, e ∈ memtable.entries) ∧ ∀ e ∈ memtable.entries, e ∈ db.liveLog
  | none => True

instance (db : DB) : Decidable db.FlushesLog :=
  match h : db.state.takeOldestFlushableMemtable db.options.memtableKind with
  | some (memtable, _, _) =>
    decidable_of_iff ((∀ e ∈ db.liveLog, e ∈ memtable.entries) ∧
      ∀ e ∈ memtable.entries, e ∈ db.liveLog) (by rw [FlushesLog, h])
  | none => isTrue (by rw [FlushesLog, h]; trivial)

theorem FlushesLog.flushSafe (h : db.FlushesLog) (i : Nat) : db.FlushSafe i := by
  rw [FlushesLog] at h
  rw [FlushSafe]
  cases htake : db.state.takeOldestFlushableMemtable db.options.memtableKind with
  | none => trivial
  | some taken =>
    rw [htake] at h
    obtain ⟨hcovers, hlogged⟩ := h
    refine ⟨fun _ e he => .inr ⟨e, hlogged e he, le_rfl⟩, ?_, fun _ => hcovers⟩
    intro _ a _ e he hk hlt hamax _
    exact absurd (hamax e (hlogged e he) hk.symm) (not_le.mpr hlt)

/-- If records with the same key and sequence are the same, a scan agrees with reads that
find the newest record. -/
theorem Readable.scan_agrees {r : DB} (h : r.Readable)
    (hs : ∀ e ∈ r.allEntries, e.1.sequence ≤ r.state.lastSequence)
    (hu : ∀ a ∈ r.allEntries, ∀ b ∈ r.allEntries, a.1.userKey = b.1.userKey →
      a.1.sequence = b.1.sequence → a = b) (hread : r.ReadsNewest) (lower upper : Bound) :
    ∃ rows, r.scan lower upper = .ok rows ∧
      ∀ k v, (k, v) ∈ rows ↔ withinBounds k lower upper = true ∧ r.get k = .ok (some v) := by
  obtain ⟨all, rows, hperm, hrise, hscan, _, hrows⟩ := h.tabled.scanOpt_sorted lower upper none
  refine ⟨rows, hscan, fun k v => ?_⟩
  rw [hrows, Option.getD_none]
  refine and_congr_right fun _ => ?_
  have hvis : r.get k = .ok (visible k r.state.lastSequence all) := by
    rcases hread k with ⟨e, ⟨hmem, hk, hmax⟩, hget⟩ | ⟨hnone, hget⟩
    · rw [h.sources_flatten] at hmem hmax
      rw [hget, visible]
      cases hx : newest k r.state.lastSequence all with
      | none =>
        exact absurd (hs e hmem) (not_le.mpr
          (newest_eq_none_iff.mp hx e (hperm.mem_iff.mpr hmem) hk))
      | some x =>
        -- in a rising list the first record of a key has the largest sequence
        obtain ⟨hp, pre, post, hall, hpre⟩ := List.find?_eq_some_iff_append.mp hx
        simp only [decide_eq_true_eq] at hp
        have hxmem : x ∈ all := by simp [hall]
        have hle : e.1.sequence ≤ x.1.sequence := by
          have hemem := hperm.mem_iff.mpr hmem
          rw [hall] at hemem hrise
          rcases List.mem_append.mp hemem with hpr | hpo
          · have := hpre e hpr
            simp only [Bool.not_eq_true', decide_eq_false_iff_not, not_and] at this
            exact absurd (hs e hmem) (this hk)
          · rcases List.mem_cons.mp hpo with rfl | hpo
            · exact le_rfl
            · have hxe : x.1 ≤ e.1 :=
                (List.pairwise_cons.mp (List.pairwise_append.mp hrise).2.1).1 e hpo
              rcases hxe.eq_or_lt with heq | hlt
              · exact (congrArg InternalKey.sequence heq).ge
              · exact InternalKey.sequence_le_of_lt hlt (hp.1.trans hk.symm)
        have hxe : x = e := hu x (hperm.mem_iff.mp hxmem) e hmem (hp.1.trans hk.symm)
          (le_antisymm (hmax x (hperm.mem_iff.mp hxmem) hp.1) hle)
        rw [hxe]
        rfl
    · rw [hget, visible]
      have hx : newest k r.state.lastSequence all = none := newest_eq_none_iff.mpr fun e he hk =>
        absurd hk (hnone e (by rw [h.sources_flatten]; exact hperm.mem_iff.mp he))
      rw [hx]
      rfl
  rw [hvis]
  constructor
  · exact fun hv => congrArg Except.ok hv
  · exact fun hv => Except.ok.inj hv

section

variable {r : DB} {L M : List Entry} {k : Bytes}

theorem get_overlay (h : r.Readable) (hall : r.allEntries = L ++ M) (k : Bytes) :
    r.get k = .ok (((newest k r.state.lastSequence L).or
      (newest k r.state.lastSequence M)).bind (fun e => e.2.intoVisibleValue)) := by
  rw [get, h.getOpt_eq, Option.getD_none, visible, hall, newest_append]

theorem ne_of_newest_none (hs : ∀ e ∈ r.allEntries, e.1.sequence ≤ r.state.lastSequence)
    {l : List Entry} (hl : ∀ e ∈ l, e ∈ r.allEntries)
    (hn : newest k r.state.lastSequence l = none) : ∀ e ∈ l, e.1.userKey ≠ k := fun e he hk =>
  absurd (hs e (hl e he)) (not_le.mpr (newest_eq_none_iff.mp hn e he hk))

/-- A key that is not in the list searched first is read from the one below. -/
theorem reads_below (h : r.Readable) (hall : r.allEntries = L ++ M) (hM : NewestFirst M)
    (hs : ∀ e ∈ r.allEntries, e.1.sequence ≤ r.state.lastSequence)
    (ha : newest k r.state.lastSequence L = none) :
    (∃ e, r.Newest k e ∧ r.get k = .ok e.2.intoVisibleValue) ∨
      (∀ e ∈ r.sources.flatten, e.1.userKey ≠ k) ∧ r.get k = .ok none := by
  have hnoL := ne_of_newest_none hs (fun e he => hall ▸ List.mem_append.mpr (.inl he)) ha
  have hin : ∀ e ∈ M, e ∈ r.allEntries := fun e he => hall ▸ List.mem_append.mpr (.inr he)
  simp only [Newest, h.sources_flatten, get_overlay h hall, ha, Option.none_or]
  cases he : newest k r.state.lastSequence M with
  | none =>
    have hnoM := ne_of_newest_none hs hin he
    refine .inr ⟨fun e hmem => ?_, rfl⟩
    rw [hall] at hmem
    exact (List.mem_append.mp hmem).elim (hnoL e) (hnoM e)
  | some e =>
    obtain ⟨hmem, hk, _, hmax⟩ := hM.newest_eq_some_iff.mp he
    refine .inl ⟨e, ⟨hin e hmem, hk, fun b hb hbk => ?_⟩, rfl⟩
    have hbs := hs b hb
    rw [hall] at hb
    exact (List.mem_append.mp hb).elim (fun hb => absurd hbk (hnoL b hb))
      fun hb => hmax b hb hbk hbs

/-- The newest record of a key is the first one found, or a newer one below it. -/
theorem newest_overlay (h : r.Readable) (hall : r.allEntries = L ++ M) (hL : NewestFirst L)
    (hM : NewestFirst M) (hs : ∀ e ∈ r.allEntries, e.1.sequence ≤ r.state.lastSequence)
    {a : Entry} (ha : newest k r.state.lastSequence L = some a) :
    r.Newest k a ∨ ∃ e ∈ M, a.1.sequence < e.1.sequence ∧ r.Newest k e := by
  have hin : ∀ e ∈ M, e ∈ r.allEntries := fun e he => hall ▸ List.mem_append.mpr (.inr he)
  obtain ⟨hamem, hak, _, hamax⟩ := hL.newest_eq_some_iff.mp ha
  simp only [Newest, h.sources_flatten]
  by_cases hnewer : ∃ e, newest k r.state.lastSequence M = some e ∧
      a.1.sequence < e.1.sequence
  · obtain ⟨e, he, hlt⟩ := hnewer
    obtain ⟨hmem, hk, _, hmax⟩ := hM.newest_eq_some_iff.mp he
    refine .inr ⟨e, hmem, hlt, hin e hmem, hk, fun b hb hbk => ?_⟩
    have hbs := hs b hb
    rw [hall] at hb
    rcases List.mem_append.mp hb with hb | hb
    · exact (hamax b hb hbk hbs).trans hlt.le
    · exact hmax b hb hbk hbs
  · refine .inl ⟨hall ▸ List.mem_append.mpr (.inl hamem), hak, fun b hb hbk => ?_⟩
    have hbs := hs b hb
    rw [hall] at hb
    rcases List.mem_append.mp hb with hb | hb
    · exact hamax b hb hbk hbs
    · cases he : newest k r.state.lastSequence M with
      | none => exact absurd hbk (ne_of_newest_none hs hin he b hb)
      | some e =>
        have hle := (hM.newest_eq_some_iff.mp he).2.2.2 b hb hbk hbs
        exact hle.trans (not_lt.mp fun hlt => hnewer ⟨e, he, hlt⟩)

end

/-- Reads find the newest record although `L` is searched before the newer `T ++ V`, exactly
when what they find in `L` first shows the same. -/
theorem readsNewest_overlay_iff {r : DB} (h : r.Readable) {L T V : List Entry}
    (hall : r.allEntries = L ++ (T ++ V)) (hL : NewestFirst L) (hTV : NewestFirst (T ++ V))
    (hLV : Above L V) (hs : ∀ e ∈ r.allEntries, e.1.sequence ≤ r.state.lastSequence) :
    r.ReadsNewest ↔ ∀ a ∈ L, ∀ e ∈ T, a.1.userKey = e.1.userKey → a.1.sequence < e.1.sequence →
      (∀ b ∈ L, b.1.userKey = a.1.userKey → b.1.sequence ≤ a.1.sequence) →
      (∀ b ∈ T, b.1.userKey = e.1.userKey → b.1.sequence ≤ e.1.sequence) →
      a.2.intoVisibleValue = e.2.intoVisibleValue := by
  have hin : ∀ {e}, e ∈ L ∨ e ∈ T ++ V → e ∈ r.allEntries := fun he => by
    rw [hall]
    exact List.mem_append.mpr he
  -- a record below that is newer than the one found in `L` is not in `V`
  have hT : ∀ {a e : Entry}, a ∈ L → e ∈ T ++ V → a.1.userKey = e.1.userKey →
      a.1.sequence < e.1.sequence → e ∈ T := fun {a e} ha he hk hlt => by
    rcases List.mem_append.mp he with he | he
    · exact he
    · have : e.1.sequence < a.1.sequence := hLV a ha e he hk
      omega
  constructor
  · intro hread a ha e he hk hlt hamax hemax
    have hfirst : newest a.1.userKey r.state.lastSequence L = some a :=
      hL.newest_eq_some_iff.mpr ⟨ha, rfl, hs a (hin (.inl ha)), fun b hb hbk _ => hamax b hb hbk⟩
    have hga := get_overlay h hall a.1.userKey
    rw [hfirst, Option.some_or, Option.bind_some] at hga
    rcases hread a.1.userKey with ⟨e', ⟨hmem, hk', hmax⟩, hge⟩ | ⟨hnone, _⟩
    · rw [h.sources_flatten] at hmem hmax
      have hle := hmax e (hin (.inr (List.mem_append.mpr (.inl he)))) hk.symm
      have hee : e' = e := by
        rw [hall] at hmem
        rcases List.mem_append.mp hmem with hmem | hmem
        · have := hamax e' hmem hk'
          omega
        · have hT' := hT ha hmem hk'.symm (hlt.trans_le hle)
          exact hTV.eq_of_rank_eq hmem (List.mem_append.mpr (.inl he)) (hk'.trans hk)
            (le_antisymm (hemax e' hT' (hk'.trans hk)) hle)
      rw [hga, hee] at hge
      exact Except.ok.inj hge
    · exact absurd rfl (hnone a (by rw [h.sources_flatten]; exact hin (.inl ha)))
  · intro hsame k
    cases ha : newest k r.state.lastSequence L with
    | none => exact reads_below h hall hTV hs ha
    | some a =>
      obtain ⟨hamem, hak, _, hamax⟩ := hL.newest_eq_some_iff.mp ha
      have hget := get_overlay h hall k
      rw [ha, Option.some_or, Option.bind_some] at hget
      rcases newest_overlay h hall hL hTV hs ha with hnew | ⟨e, hmem, hlt, hnew⟩
      · exact .inl ⟨a, hnew, hget⟩
      · have hk : a.1.userKey = e.1.userKey := hak.trans hnew.2.1.symm
        have hval := hsame a hamem e (hT hamem hmem hk hlt) hk hlt
          (fun b hb hbk => hamax b hb (hbk.trans hak) (hs b (hin (.inl hb))))
          (fun b hb hbk => hnew.2.2 b (h.sources_flatten ▸ hin (.inr (List.mem_append.mpr (.inl hb))))
            (hbk.trans hnew.2.1))
        exact .inl ⟨e, hnew, hget.trans (congrArg Except.ok hval)⟩

section

variable {r : DB} {memtable : MemTable} {source : DBState.FlushSource} {state : DBState} {i : Nat}

theorem LogsMemory.newestFirst_log (h : LogsMemory env options logged db) :
    NewestFirst (OrderedMap.empty.insertAll db.liveLog).entries := by
  refine SortedEntries.newestFirst (OrderedMap.insertAll _ _).sorted fun a ha b hb hk hs => ?_
  refine h.ordered.ok.stateOk.newestFirst.eq_of_rank_eq ?_ ?_ hk hs
  · exact List.mem_append.mpr (.inl (h.inMemory a (h.restorable.mem_insertAll.mp ha)))
  · exact List.mem_append.mpr (.inl (h.inMemory b (h.restorable.mem_insertAll.mp hb)))

theorem LogsMemory.log_above (h : LogsMemory env options logged db) :
    Above (OrderedMap.empty.insertAll db.liveLog).entries
      (db.versions.current.entries db.disk.tables) :=
  (newestFirst_append.mp h.ordered.ok.stateOk.newestFirst).2.2.mono
    (fun e he => h.inMemory e (h.restorable.mem_insertAll.mp he)) (List.Subset.refl _)

theorem LogsMemory.present (h : LogsMemory env options logged db) (hr : r.Readable)
    (htables : ∀ e ∈ db.versions.current.entries db.disk.tables, e ∈ r.allEntries)
    (hlog : ∀ e ∈ db.liveLog, e ∈ r.allEntries) :
    ∀ e ∈ logged.filter (fun e => e ∈ db.sources.flatten), e ∈ r.sources.flatten := by
  intro e he
  obtain ⟨hlogged, hin⟩ := List.mem_filter.mp he
  have hin := of_decide_eq_true hin
  rw [h.ordered.ok.toReadable.sources_flatten] at hin
  rw [hr.sources_flatten]
  exact (h.recoverable e hlogged hin).elim (htables e) (hlog e)

/-- In search order everything follows from the last sequence and the logged records. -/
theorem Consistent.of_newestFirst {kept : List Entry} (hr : r.Readable)
    (hn : NewestFirst r.allEntries) (hs : ∀ e ∈ r.allEntries, e.1.sequence ≤ r.state.lastSequence)
    (hp : ∀ e ∈ kept, e ∈ r.sources.flatten) : r.Consistent kept := by
  have hread := hr.readsNewest hn hs
  refine ⟨by rw [hr.sources_flatten]; exact hs, hp, hread, fun lower upper => ?_⟩
  exact hr.scan_agrees hs (fun a ha b hb hk hseq => hn.eq_of_rank_eq ha hb hk hseq) hread lower upper

theorem FlushStopped.consistent_early (hst : FlushStopped db memtable i r)
    (h : LogsMemory env options logged db) (hi : i < 2) :
    r.Consistent (logged.filter (fun e => e ∈ db.sources.flatten)) := by
  have hreadable := hst.readable h.ordered.ok.toReadable
  have hall := hst.allEntries
  have hlast := hst.lastSequence
  rw [if_pos (by omega), if_pos hi, List.nil_append] at hall
  rw [if_pos (by omega), if_pos (by omega)] at hlast
  have hV := (newestFirst_append.mp h.ordered.ok.stateOk.newestFirst).2.1
  refine .of_newestFirst hreadable ?_ ?_ (h.present hreadable ?_ ?_)
  · rw [hall]
    exact newestFirst_append.mpr ⟨h.newestFirst_log, hV, h.log_above⟩
  · intro e he
    rw [hall, List.mem_append, h.restorable.mem_insertAll] at he
    rw [hlast]
    rcases he with he | he
    · exact sequence_le_lastOf he
    · exact (h.tables_le e he).trans (le_lastOf _ _)
  · intro e he
    rw [hall]
    exact List.mem_append.mpr (.inr he)
  · intro e he
    rw [hall]
    exact List.mem_append.mpr (.inl (h.restorable.mem_insertAll.mpr he))

theorem FlushStopped.consistent_late (hst : FlushStopped db memtable i r)
    (h : LogsMemory env options logged db) (hmem : db.state.memEntries =
      state.memEntries ++ memtable.entries) (hi : 5 ≤ i) :
    r.Consistent (logged.filter (fun e => e ∈ db.sources.flatten)) ↔
      ∀ e ∈ db.liveLog, e ∈ memtable.entries := by
  have hreadable := hst.readable h.ordered.ok.toReadable
  have hall := hst.allEntries
  have hlast := hst.lastSequence
  rw [if_neg (by omega), if_neg (by omega)] at hall
  rw [if_neg (by omega), if_neg (by omega)] at hlast
  have hnil : r.allEntries =
      memtable.entries ++ db.versions.current.entries db.disk.tables := hall
  have hnew := h.ordered.ok.stateOk.newestFirst
  have hTV : NewestFirst (memtable.entries ++ db.versions.current.entries db.disk.tables) := by
    refine hnew.sublist ?_
    rw [hmem, List.append_assoc]
    exact List.sublist_append_right _ _
  constructor
  · intro hc e he
    have hin : e ∈ db.sources.flatten := by
      rw [h.ordered.ok.toReadable.sources_flatten]
      exact List.mem_append.mpr (.inl (h.inMemory e he))
    have hp := hc.present e (List.mem_filter.mpr ⟨h.inLogged e he, decide_eq_true hin⟩)
    rw [hreadable.sources_flatten, hnil, List.mem_append] at hp
    refine hp.resolve_right fun hV => ?_
    exact absurd ((newestFirst_append.mp hnew).2.2 e (h.inMemory e he) e hV rfl) (lt_irrefl _)
  · intro hcov
    refine .of_newestFirst hreadable (hnil ▸ hTV) ?_ (h.present hreadable ?_ ?_)
    · intro e he
      rw [hnil] at he
      rw [hlast]
      refine (h.ordered.ok.stateOk.sequences e ?_).trans (le_lastOf _ _)
      rw [hmem, List.append_assoc]
      exact List.mem_append.mpr (.inr he)
    · intro e he
      rw [hnil]
      exact List.mem_append.mpr (.inr he)
    · intro e he
      rw [hnil]
      exact List.mem_append.mpr (.inl (hcov e he))

theorem FlushStopped.consistent_between (hst : FlushStopped db memtable i r)
    (h : LogsMemory env options logged db) (hmem : db.state.memEntries =
      state.memEntries ++ memtable.entries) (hlo : 2 ≤ i) (hhi : i < 5) :
    r.Consistent (logged.filter (fun e => e ∈ db.sources.flatten)) ↔
      (i = 2 → ∀ e ∈ memtable.entries, e.1.sequence ≤ db.versions.lastSequence ∨
        ∃ a ∈ db.liveLog, e.1.sequence ≤ a.1.sequence) ∧
      ∀ a ∈ db.liveLog, ∀ e ∈ memtable.entries,
        a.1.userKey = e.1.userKey → a.1.sequence < e.1.sequence →
        (∀ b ∈ db.liveLog, b.1.userKey = a.1.userKey → b.1.sequence ≤ a.1.sequence) →
        (∀ b ∈ memtable.entries, b.1.userKey = e.1.userKey → b.1.sequence ≤ e.1.sequence) →
        a.2.intoVisibleValue = e.2.intoVisibleValue := by
  have hreadable := hst.readable h.ordered.ok.toReadable
  have hall := hst.allEntries
  have hlast := hst.lastSequence
  rw [if_pos hhi, if_neg (by omega)] at hall
  rw [if_pos hhi] at hlast
  have hnew := h.ordered.ok.stateOk.newestFirst
  have hTsub : ∀ e ∈ memtable.entries, e ∈ db.state.memEntries := fun e he => by
    rw [hmem]
    exact List.mem_append.mpr (.inr he)
  have hTV : NewestFirst (memtable.entries ++ db.versions.current.entries db.disk.tables) := by
    refine hnew.sublist ?_
    rw [hmem, List.append_assoc]
    exact List.sublist_append_right _ _
  have hsub : ∀ e ∈ r.allEntries, e ∈ db.allEntries := by
    intro e he
    rw [hall, List.mem_append, List.mem_append, h.restorable.mem_insertAll] at he
    rcases he with he | he | he
    · exact List.mem_append.mpr (.inl (h.inMemory e he))
    · exact List.mem_append.mpr (.inl (hTsub e he))
    · exact List.mem_append.mpr (.inr he)
  have hseq : (∀ e ∈ r.allEntries, e.1.sequence ≤ r.state.lastSequence) ↔
      (i = 2 → ∀ e ∈ memtable.entries, e.1.sequence ≤ db.versions.lastSequence ∨
        ∃ a ∈ db.liveLog, e.1.sequence ≤ a.1.sequence) := by
    constructor
    · intro hs hi e he
      have := hs e (by rw [hall]; simp [he])
      rw [hlast, if_pos (by omega)] at this
      exact le_lastOf_iff.mp this
    · intro hs e he
      by_cases hi : i = 2
      · rw [hall, List.mem_append, List.mem_append, h.restorable.mem_insertAll] at he
        rw [hlast, if_pos (by omega)]
        rcases he with he | he | he
        · exact sequence_le_lastOf he
        · exact le_lastOf_iff.mpr (hs hi e he)
        · exact (h.tables_le e he).trans (le_lastOf _ _)
      · rw [hlast, if_neg (by omega)]
        exact (h.ordered.ok.stateOk.sequences e (hsub e he)).trans (le_lastOf _ _)
  have hover := fun hs => readsNewest_overlay_iff hreadable hall h.newestFirst_log hTV h.log_above hs
  simp only [h.restorable.mem_insertAll] at hover
  rw [← hseq]
  constructor
  · intro hc
    have hs := hc.sequences
    rw [hreadable.sources_flatten] at hs
    exact ⟨hs, (hover hs).mp hc.newest⟩
  · rintro ⟨hs, hsame⟩
    have hread := (hover hs).mpr hsame
    refine ⟨by rw [hreadable.sources_flatten]; exact hs, ?_, hread, fun lower upper => ?_⟩
    · refine h.present hreadable (fun e he => ?_) (fun e he => ?_)
      · rw [hall]
        simp [he]
      · rw [hall]
        exact List.mem_append.mpr (.inl (h.restorable.mem_insertAll.mpr he))
    · refine hreadable.scan_agrees hs (fun a ha b hb hk hseq => ?_) hread lower upper
      exact hnew.eq_of_rank_eq (hsub a ha) (hsub b hb) hk hseq

theorem FlushStopped.consistent_iff (hst : FlushStopped db memtable i r)
    (h : LogsMemory env options logged db)
    (htake : db.state.takeOldestFlushableMemtable db.options.memtableKind =
      some (memtable, source, state)) :
    r.Consistent (logged.filter (fun e => e ∈ db.sources.flatten)) ↔ db.FlushSafe i := by
  have hmem := (DBState.takeOldest_spec htake).1
  rw [FlushSafe, htake]
  rcases lt_or_ge i 2 with hi | hlo
  · refine iff_of_true (hst.consistent_early h hi) ⟨?_, ?_, ?_⟩ <;> omega
  · rcases lt_or_ge i 5 with hhi | hhi
    · rw [hst.consistent_between h hmem hlo hhi]
      have h5 : ¬ 5 ≤ i := by omega
      simp [hlo, hhi, h5]
    · rw [hst.consistent_late h hmem hhi]
      have h2 : i ≠ 2 := by omega
      have h5 : ¬ i < 5 := by omega
      simp [h2, h5, hhi]

end

theorem LogsMemory.flush_crashed (h : LogsMemory env options logged db)
    (herr : options.errorIfExists = false) :
    ∃ db', DB.flush db = .ok () db' ∧ ∀ i, (∃ r, DB.open env (db.crashed db' i) options = .ok r ∧
      r.Consistent (logged.filter (fun e => e ∈ db.sources.flatten))) ↔ db.FlushSafe i := by
  obtain ⟨hok, hrec, _⟩ := h.ordered
  rw [← h.options_eq] at herr ⊢
  rw [← h.env_eq]
  cases htake : db.state.takeOldestFlushableMemtable db.options.memtableKind with
  | none =>
    refine ⟨db, run_flush_none hok.isOpen htake, fun i => ?_⟩
    have hsame : db.crashed db i = db.disk := by simp [crashed]
    obtain ⟨r, hopen, hst⟩ := hok.sound.flush_not_begun hrec herr (.new db.options.memtableKind)
    rw [FlushSafe, htake, hsame]
    exact iff_of_true ⟨r, hopen, hst.consistent_early h (by omega)⟩ trivial
  | some taken =>
    obtain ⟨memtable, source, state⟩ := taken
    obtain ⟨db', hrun, hcrash⟩ := hok.sound.flush_crashed hrec herr htake
    refine ⟨db', hrun, fun i => ?_⟩
    obtain ⟨r, hopen, hst⟩ := hcrash i
    rw [← hst.consistent_iff h htake]
    constructor
    · rintro ⟨r', hopen', hc⟩
      obtain rfl : r = r' := Except.ok.inj (hopen.symm.trans hopen')
      exact hc
    · exact fun hc => ⟨r, hopen, hc⟩

end DB

/-- After any run of writes, some of them unlogged, in which no flush gave up a log with
records that it did not write: a flush that stops after `i` operations recovers to a
consistent database exactly if it may stop there. -/
theorem flush_crash_consistent (env : Env) (options : Options) (path : String) {db₀ : DB}
    (hopen : DB.open env (Disk.empty path) options = .ok db₀)
    (herr : options.errorIfExists = false) (steps : List WriteStep)
    (hcovers : Along WriteStep.run WriteStep.Covers steps db₀) :
    ∃ db', DB.flush (runWrites steps db₀).2 = .ok () db' ∧
      ∀ i, (∃ r, DB.open env ((runWrites steps db₀).2.crashed db' i) options = .ok r ∧
        r.Consistent ((runWrites steps db₀).1.filter
          (fun e => e ∈ (runWrites steps db₀).2.sources.flatten))) ↔
        (runWrites steps db₀).2.FlushSafe i := by
  obtain rfl := DB.eq_created hopen
  exact (follow_invariant DB.LogsMemory.step (DB.logsMemory_created env options path)
    hcovers).flush_crashed herr

/-- A logged write of a key, then an unlogged one. -/
def unloggedSteps : List WriteStep :=
  [.locked (.group [⟨⟨[.put [97] [1]]⟩, {}⟩]),
    .locked (.group [⟨⟨[.put [97] [2]]⟩, { disableWal := true }⟩])]

theorem unloggedSteps_reopened :
    (match DB.flush (runWrites unloggedSteps (DB.created .inOrder {} "db")).2 with
    | .error _ _ => none
    | .ok _ db' =>
      match DB.open .inOrder
        ((runWrites unloggedSteps (DB.created .inOrder {} "db")).2.crashed db' 4) {} with
      | .error _ => none
      | .ok r => some (r.get [97], r.scan .unbounded .unbounded)) =
    some (.ok (some [1]), .ok [([97], [2])]) := by
  decide +kernel

theorem flush_crash_reads_stale : ∃ db' r,
    DB.flush (runWrites unloggedSteps (DB.created .inOrder {} "db")).2 = .ok () db' ∧
      DB.open .inOrder
        ((runWrites unloggedSteps (DB.created .inOrder {} "db")).2.crashed db' 4) {} = .ok r ∧
      r.get [97] = .ok (some [1]) ∧ r.scan .unbounded .unbounded = .ok [([97], [2])] ∧
      ∀ logged, ¬ r.Consistent logged := by
  have hread := unloggedSteps_reopened
  split at hread
  · cases hread
  · rename_i db' hflush
    split at hread
    · cases hread
    · rename_i r hopen
      obtain ⟨hget, hscan⟩ := Prod.ext_iff.mp (Option.some.inj hread)
      refine ⟨db', r, hflush, hopen, hget, hscan, fun logged hc => ?_⟩
      obtain ⟨rows, hrows, hagree⟩ := hc.scans .unbounded .unbounded
      obtain rfl : [([97], [2])] = rows := Except.ok.inj (hscan.symm.trans hrows)
      have := ((hagree [97] [2]).mp (by simp)).2
      rw [show r.get [97] = .ok (some [1]) from hget] at this
      cases this

def loggedSteps : List WriteStep := [.locked (.group [⟨⟨[.put [97] [1]]⟩, {}⟩]), .pressure]

theorem loggedSteps_end : DB.FlushesLog (runWrites loggedSteps (DB.created .inOrder {} "db")).2 := by
  decide +kernel

theorem flush_crash_consistent_small :
    ∃ db', DB.flush (runWrites loggedSteps (DB.created .inOrder {} "db")).2 = .ok () db' ∧
      ∀ i, ∃ r, DB.open .inOrder
          ((runWrites loggedSteps (DB.created .inOrder {} "db")).2.crashed db' i) {} = .ok r ∧
        r.Consistent ((runWrites loggedSteps (DB.created .inOrder {} "db")).1.filter (fun e =>
          e ∈ (runWrites loggedSteps (DB.created .inOrder {} "db")).2.sources.flatten)) := by
  obtain ⟨db', hflush, hiff⟩ := flush_crash_consistent .inOrder {} "db" (DB.open_empty _ _ _) rfl
    loggedSteps (by decide +kernel)
  exact ⟨db', hflush, fun i => (hiff i).mpr (loggedSteps_end.flushSafe i)⟩

end TyLsm
