import TyLsm.Calls

/-! Log rotation. A flush writes one memtable and then switches to an empty log,
and recovery reads that log only; the records of the old log must all be in the
memtable that was flushed. -/

namespace TyLsm

/-- What happens in one piece under the state lock. -/
inductive Section where
  | group (requests : List DB.Request)
  | commit (readSeq : Nat) (batch : WriteBatch) (readKeys : List Bytes)
      (readRanges : List ReadRange)
  | flush

namespace Section

def run : Section → DBM Unit
  | group requests => discard (DB.applyWriteGroupToMemtable (.ok ()) requests)
  | commit readSeq batch readKeys readRanges =>
    discard (DB.commitToMemtable (.ok ()) readSeq batch readKeys readRanges)
  | flush => DB.flush

/-- The records that a section applies and logs, as entries. -/
def logged (step : Section) (db : DB) : List Entry :=
  match step.run db with
  | .error _ _ => []
  | .ok _ _ =>
    match step with
    | group requests =>
      ((DB.groupItems (db.state.lastSequence + 1) requests).filter
        (fun item => !item.opts.disableWal)).flatMap
          (fun item => entriesFrom item.startSequence item.batch.records)
    | commit _ batch _ _ => entriesFrom (db.state.lastSequence + 1) batch.records
    | flush => []

end Section

/-- The entries logged along a run, and the database it ends in. A section that fails does
not end the run. -/
def runSections (steps : List Section) (db : DB) : List Entry × DB :=
  follow Section.run (fun step db entries => entries ++ step.logged db) steps [] db

/-- The entries of the records in a log. -/
def walEntries (records : List (Nat × WriteBatch)) : List Entry :=
  records.flatMap (fun record => entriesFrom record.1 record.2.records)

namespace DB

/-- The entries in the log that recovery reads. -/
def liveLog (db : DB) : List Entry := walEntries ((db.disk.wals db.versions.logNumber).getD [])

/-- The next flush, if there is anything to flush, writes every record of the live log. -/
def FlushCoversLog (db : DB) : Prop :=
  match db.state.takeOldestFlushableMemtable db.options.memtableKind with
  | some (memtable, _, _) => ∀ e ∈ db.liveLog, e ∈ memtable.entries
  | none => True

instance (db : DB) : Decidable db.FlushCoversLog :=
  match h : db.state.takeOldestFlushableMemtable db.options.memtableKind with
  | some (memtable, _, _) =>
    decidable_of_iff (∀ e ∈ db.liveLog, e ∈ memtable.entries) (by rw [FlushCoversLog, h])
  | none => isTrue (by rw [FlushCoversLog, h]; trivial)

/-- An entry that opening the directory finds again. -/
def Recoverable (db : DB) (e : Entry) : Prop :=
  e ∈ db.versions.current.entries db.disk.tables ∨ e ∈ db.liveLog

end DB

/-- A flush meets the condition when it writes every record of the live log. -/
def Section.Covers : Section → DB → Prop
  | flush, db => db.FlushCoversLog
  | _, _ => True

instance (step : Section) (db : DB) : Decidable (step.Covers db) :=
  match step with
  | .flush => inferInstanceAs (Decidable db.FlushCoversLog)
  | .group _ | .commit _ _ _ _ => isTrue trivial

namespace DB

/-- Every logged entry is recoverable. -/
structure Keeps (env : Env) (options : Options) (logged : List Entry) (db : DB) : Prop where
  ok : db.Ok
  recorded : db.Recorded
  env_eq : db.env = env
  options_eq : db.options = options
  recoverable : ∀ e ∈ logged, db.Recoverable e

variable {db : DB} {env : Env} {options : Options} {entries : List Entry}

/-- The entries that a group adds to the log. -/
def loggedEntries (db : DB) (requests : List Request) : List Entry :=
  ((groupItems (db.state.lastSequence + 1) requests).filter
    (fun item => !item.opts.disableWal)).flatMap
      (fun item => entriesFrom item.startSequence item.batch.records)

theorem filter_groupItems {requests : List Request}
    (hlog : ∀ request ∈ requests, request.opts.disableWal = false) (sequence : Nat) :
    (groupItems sequence requests).filter (fun item => !item.opts.disableWal) =
      groupItems sequence requests := by
  induction requests generalizing sequence with
  | nil => rfl
  | cons request requests ih =>
    rw [groupItems, List.filter_cons_of_pos (by simp [hlog request (by simp)]),
      ih fun r hr => hlog r (by simp [hr])]

theorem Recorded.liveLog_written (h : db.Recorded) (hwal : db.options.walEnabled = true)
    (requests : List Request) :
    (db.written requests).liveLog = db.liveLog ++ db.loggedEntries requests := by
  obtain ⟨records, hrecords⟩ := h.log
  set items := (groupItems (db.state.lastSequence + 1) requests).filter
    (fun item => !item.opts.disableWal) with hitems
  have hdisk : (db.written requests).disk = (db.disk.applyAll
      (items.map (fun item => .appendWal db.wal item.startSequence item.batch))) := by
    simp [DB.written, performed, groupOps, hwal, hitems]
  have hw : (db.written requests).versions.logNumber = db.wal := h.wal.symm
  have hold : db.liveLog = walEntries records := by
    rw [liveLog, ← h.wal, hrecords]
    rfl
  rw [hold, liveLog, hw, hdisk, Disk.applyAll_appendWal hrecords]
  simp [walEntries, List.flatMap_map, loggedEntries, hitems]

theorem Keeps.written (h : Keeps env options entries db)
    (hwal : options.walEnabled = true) (requests : List Request) :
    Keeps env options (entries ++ db.loggedEntries requests) (db.written requests) := by
  obtain ⟨hok, hrec, _⟩ := h.ok.written h.recorded requests
  have hlog := h.recorded.liveLog_written (h.options_eq ▸ hwal) requests
  refine ⟨hok, hrec, h.env_eq, h.options_eq, fun e he => ?_⟩
  rw [Recoverable, hlog, written_tables, List.mem_append]
  rcases List.mem_append.mp he with he | he
  · exact (h.recoverable e he).imp_right .inl
  · exact .inr (.inr he)

theorem entries_flushed {state : DBState} {memtable : MemTable} {ref : TableRef}
    (hmem : db.state.memEntries = state.memEntries ++ memtable.entries)
    (hall : (db.flushed state ref).allEntries = db.allEntries) :
    (db.flushed state ref).versions.current.entries (db.flushed state ref).disk.tables =
      memtable.entries ++ db.versions.current.entries db.disk.tables := by
  have hlist : state.memEntries ++ (db.flushed state ref).versions.current.entries
      (db.flushed state ref).disk.tables =
      state.memEntries ++ (memtable.entries ++
        db.versions.current.entries db.disk.tables) := by
    rw [← List.append_assoc, ← hmem]
    exact hall
  exact List.append_cancel_left hlist

theorem Keeps.flush (h : Keeps env options entries db) (hcovers : db.FlushCoversLog) :
    ∃ db', DB.flush db = .ok () db' ∧ Keeps env options entries db' := by
  cases htake : db.state.takeOldestFlushableMemtable db.options.memtableKind with
  | none => exact ⟨db, run_flush_none h.ok.isOpen htake, h⟩
  | some taken =>
    obtain ⟨memtable, source, state⟩ := taken
    rw [FlushCoversLog, htake] at hcovers
    obtain ⟨ref, hnum, hent, hrun, hok, hall⟩ := h.ok.flushed htake
    obtain ⟨hmem, hlast, _⟩ := DBState.takeOldest_spec htake
    have hrec := (h.recorded.flushed hnum (h.ok.freshWals _ (Nat.le_succ _)) hlast).1
    have htables := entries_flushed hmem hall
    refine ⟨_, hrun, hok, hrec, h.env_eq, h.options_eq, fun e he => .inl ?_⟩
    rw [htables, List.mem_append]
    rcases h.recoverable e he with he | he
    · exact .inr he
    · exact .inl (hcovers e he)

theorem keeps_created (env : Env) (options : Options) (path : String) :
    Keeps env options [] (created env options path) :=
  ⟨ok_created env options path, (durable_created env options path).toRecorded, rfl, rfl,
    fun _ he => absurd he List.not_mem_nil⟩

theorem Keeps.reopen (h : Keeps env options entries db) (herr : options.errorIfExists = false) :
    ∃ db', DB.open env db.disk options = .ok db' ∧ ∀ e ∈ entries, db'.Recoverable e := by
  have hopen := h.recorded.reopen h.ok.sound.toTabled (h.options_eq ▸ herr)
  rw [h.env_eq, h.options_eq] at hopen
  exact ⟨_, hopen, h.recoverable⟩

end DB

namespace Section

variable {db : DB}

theorem run_group (hopen : db.state.closed = false) (requests : List DB.Request) :
    (group requests).run db = .ok () (db.written requests) :=
  run_discard_ok (DB.run_applyWriteGroupToMemtable hopen requests (.ok ()) (.inl rfl))

/-- A commit is refused, has nothing to write, or does what a group of one batch does. -/
theorem run_commit (hopen : db.state.closed = false) (readSeq : Nat) (batch : WriteBatch)
    (readKeys : List Bytes) (readRanges : List ReadRange) :
    (∃ err, (commit readSeq batch readKeys readRanges).run db = .error err db) ∨
    (batch.records = [] ∧ (commit readSeq batch readKeys readRanges).run db = .ok () db) ∨
    (batch.records ≠ [] ∧
      (commit readSeq batch readKeys readRanges).run db = .ok () (db.written [⟨batch, {}⟩])) := by
  rcases DB.commitToMemtable_cases hopen (.ok ()) readSeq batch readKeys readRanges with
    ⟨err, hrun⟩ | ⟨hempty, hrun⟩ | ⟨hne, hrun⟩
  · exact .inl ⟨err, run_discard_error hrun⟩
  · exact .inr (.inl ⟨hempty, run_discard_ok hrun⟩)
  · rw [DB.run_applyWriteGroupToMemtable hopen _ _ (.inl rfl)] at hrun
    exact .inr (.inr ⟨hne, run_discard_ok hrun⟩)

end Section

theorem Section.after_flush {db : DB} (h : db.Live) :
    after Section.run db .flush = db ∨ ∃ memtable source state ref,
      db.state.takeOldestFlushableMemtable db.options.memtableKind =
        some (memtable, source, state) ∧ ref.1.number = db.versions.nextFileNumber ∧
      ref.1.Describes ref.2 ∧ (db.flushed state ref).Live ∧
      (db.flushed state ref).allEntries = db.allEntries ∧
      after Section.run db .flush = db.flushed state ref := by
  cases htake : db.state.takeOldestFlushableMemtable db.options.memtableKind with
  | none =>
    have hrun := DB.run_flush_none h.isOpen htake
    exact .inl (after_ok (f := Section.run) (i := .flush) hrun)
  | some taken =>
    obtain ⟨memtable, source, state⟩ := taken
    obtain ⟨ref, hnum, _, hdesc, hrun, hlive, hall⟩ := h.flushed htake
    exact .inr ⟨memtable, source, state, ref, rfl, hnum, hdesc, hlive, hall,
      after_ok (f := Section.run) (i := .flush) hrun⟩

theorem Section.after_live {db : DB} (h : db.Live) (step : Section) :
    (after Section.run db step = db ∧ step.logged db = []) ∨
    (∃ requests, after Section.run db step = db.written requests ∧
      step.logged db = db.loggedEntries requests) ∨
    (step = .flush ∧ step.logged db = [] ∧ ∃ memtable source state ref,
      db.state.takeOldestFlushableMemtable db.options.memtableKind =
        some (memtable, source, state) ∧ ref.1.number = db.versions.nextFileNumber ∧
      ref.1.Describes ref.2 ∧ (db.flushed state ref).Live ∧
      (db.flushed state ref).allEntries = db.allEntries ∧
      after Section.run db step = db.flushed state ref) := by
  cases step with
  | group requests =>
    have hrun := run_group h.isOpen requests
    refine .inr (.inl ⟨requests, after_ok hrun, ?_⟩)
    simp only [logged, hrun, DB.loggedEntries]
  | commit readSeq batch readKeys readRanges =>
    rcases run_commit h.isOpen readSeq batch readKeys readRanges with
      ⟨err, hrun⟩ | ⟨hempty, hrun⟩ | ⟨_, hrun⟩
    · exact .inl ⟨after_error hrun, by rw [logged, hrun]⟩
    · refine .inl ⟨after_ok hrun, ?_⟩
      rw [logged, hrun, hempty]
      rfl
    · refine .inr (.inl ⟨[⟨batch, {}⟩], after_ok hrun, ?_⟩)
      rw [logged, hrun]
      simp [DB.loggedEntries, DB.groupItems]
  | flush =>
    have hnil : Section.flush.logged db = [] := by
      unfold logged
      split <;> rfl
    rcases Section.after_flush h with hafter | hflushed
    · exact .inl ⟨hafter, hnil⟩
    · exact .inr (.inr ⟨rfl, hnil, hflushed⟩)

theorem Section.after_cases {db : DB} (h : db.Sound) (step : Section) :
    (after Section.run db step = db ∧ step.logged db = []) ∨
    (∃ requests, after Section.run db step = db.written requests ∧
      step.logged db = db.loggedEntries requests) ∨
    (step = .flush ∧ step.logged db = [] ∧ ∃ memtable source state ref,
      db.state.takeOldestFlushableMemtable db.options.memtableKind =
        some (memtable, source, state) ∧ ref.1.number = db.versions.nextFileNumber ∧
      (db.flushed state ref).Sound ∧ (db.flushed state ref).allEntries = db.allEntries ∧
      after Section.run db step = db.flushed state ref) := by
  rcases step.after_live h.live with hsame | hwritten |
    ⟨hstep, hlogged, memtable, source, state, ref, htake, hnum, hdesc, hlive, hall, hafter⟩
  · exact .inl hsame
  · exact .inr (.inl hwritten)
  · exact .inr (.inr ⟨hstep, hlogged, memtable, source, state, ref, htake, hnum,
      h.of_flushed_live htake hnum hdesc hlive, hall, hafter⟩)

theorem Section.keeps_step {env : Env} {options : Options} (hwal : options.walEnabled = true)
    (step : Section) (entries : List Entry) (db : DB) (h : DB.Keeps env options entries db)
    (hcovers : step.Covers db) :
    DB.Keeps env options (entries ++ step.logged db) (after Section.run db step) := by
  rcases step.after_cases h.ok.sound with ⟨hafter, hlogged⟩ | ⟨requests, hafter, hlogged⟩ |
    ⟨rfl, hlogged, _, _, _, _, _, _, _, _, hafter⟩
  · rw [hafter, hlogged, List.append_nil]
    exact h
  · rw [hafter, hlogged]
    exact h.written hwal requests
  · obtain ⟨db', hrun, hkeeps⟩ := h.flush hcovers
    rw [hlogged, List.append_nil, after_ok (f := Section.run) (i := .flush) hrun]
    exact hkeeps

/-- As long as every flush writes all records of the live log, whenever the process stops,
opening the directory finds every record that was applied and logged. -/
theorem rotation_keeps_logged (env : Env) (options : Options) (path : String) {db₀ : DB}
    (hopen : DB.open env (Disk.empty path) options = .ok db₀) (hwal : options.walEnabled = true)
    (herr : options.errorIfExists = false) (steps : List Section)
    (hcovers : Along Section.run Section.Covers steps db₀) :
    ∃ db', DB.open env (runSections steps db₀).2.disk options = .ok db' ∧
      ∀ e ∈ (runSections steps db₀).1, db'.Recoverable e := by
  obtain rfl := DB.eq_created hopen
  exact (follow_invariant (Section.keeps_step hwal) (DB.keeps_created env options path)
    hcovers).reopen herr

/-- A group of two batches that freezes a memtable after each of them, and the flush that
follows: the second memtable is only in the log that is given up. -/
def losingSteps : List Section :=
  [.group [⟨⟨[.put [97] [1]]⟩, {}⟩, ⟨⟨[.put [98] [2]]⟩, {}⟩], .flush]

theorem losingSteps_logged : ((⟨[98], 2, .put⟩, .put [2]) : Entry) ∈
    (runSections losingSteps (DB.created .inOrder { memtableSize := 1 } "db")).1 := by
  decide +kernel

theorem losingSteps_reopened : (match DB.open .inOrder
      (runSections losingSteps (DB.created .inOrder { memtableSize := 1 } "db")).2.disk
      { memtableSize := 1 } with
    | .ok db' => db'.versions.current.entries db'.disk.tables ++ db'.liveLog
    | .error _ => []) = [(⟨[97], 1, .put⟩, .put [1])] := by
  decide +kernel

theorem rotation_loses_logged :
    (⟨[98], 2, .put⟩, .put [2]) ∈
        (runSections losingSteps (DB.created .inOrder { memtableSize := 1 } "db")).1 ∧
      ∃ db', DB.open .inOrder
          (runSections losingSteps (DB.created .inOrder { memtableSize := 1 } "db")).2.disk
          { memtableSize := 1 } = .ok db' ∧
        ¬ db'.Recoverable (⟨[98], 2, .put⟩, .put [2]) := by
  refine ⟨losingSteps_logged, ?_⟩
  have hlist := losingSteps_reopened
  split at hlist
  · rename_i db' hopen
    refine ⟨db', hopen, fun hrec => ?_⟩
    have hmem := List.mem_append.mpr hrec
    rw [hlist] at hmem
    revert hmem
    decide
  · cases hlist

theorem rotation_keeps_logged_small :
    ∃ db', DB.open .inOrder (runSections [.group [⟨⟨[.put [97] [1]]⟩, {}⟩], .flush,
        .group [⟨⟨[.put [98] [2]]⟩, {}⟩]] (DB.created .inOrder {} "db")).2.disk {} = .ok db' ∧
      ∀ e ∈ (runSections [.group [⟨⟨[.put [97] [1]]⟩, {}⟩], .flush,
        .group [⟨⟨[.put [98] [2]]⟩, {}⟩]] (DB.created .inOrder {} "db")).1, db'.Recoverable e :=
  rotation_keeps_logged .inOrder {} "db" (DB.open_empty _ _ _) rfl rfl
    [.group [⟨⟨[.put [97] [1]]⟩, {}⟩], .flush, .group [⟨⟨[.put [98] [2]]⟩, {}⟩]]
    (by decide +kernel)

end TyLsm
