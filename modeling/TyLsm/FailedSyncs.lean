import TyLsm.Oracle
import TyLsm.Restorable
import TyLsm.Snapshots

/-! Writes whose sync fails. Their records stay in the log, but the sequence numbers that
they took are handed out again; what is written next must not contradict them. -/

namespace TyLsm

/-- A group or a commit under the state lock, where `sync` is what a sync of the log returns. -/
def Section.runSync (sync : Except Error Unit) : Section → DBM Unit
  | group requests => discard (DB.applyWriteGroupToMemtable sync requests)
  | commit readSeq batch readKeys readRanges =>
    discard (DB.commitToMemtable sync readSeq batch readKeys readRanges)
  | flush => DB.flush

def Section.requests : Section → List DB.Request
  | group requests => requests
  | commit _ batch _ _ => [⟨batch, {}⟩]
  | flush => []

/-- The pieces of writes and commits, any of whose syncs may fail, and a restart. -/
inductive SyncStep where
  | locked (step : Section) (sync : Except Error Unit)
  | pressure
  | snapshot
  | cloneSnapshot (readSeq : Nat)
  | dropSnapshot (readSeq : Nat)
  | reopen

def SyncStep.run : SyncStep → DBM Unit
  | locked step sync => step.runSync sync
  | pressure => DB.applyWritePressure
  | snapshot => discard DB.snapshot
  | cloneSnapshot readSeq => DB.cloneSnapshot readSeq
  | dropSnapshot readSeq => DB.dropSnapshot readSeq
  | reopen => DB.reopen

/-- A record that was to be written, and whether its caller was told that it was. -/
structure Attempt where
  record : BatchRecord
  acknowledged : Bool

def succeeds (program : DBM Unit) (db : DB) : Bool :=
  match program db with
  | .ok _ _ => true
  | .error _ _ => false

def SyncStep.attempts : SyncStep → DB → List Attempt
  | locked step sync, db =>
    (DB.groupRecords step.requests).map (fun record => ⟨record, succeeds (step.runSync sync) db⟩)
  | _, _ => []

/-- All attempts of a run in their order, and the database it ends in. -/
def runAttempts (steps : List SyncStep) (db : DB) : List Attempt × DB :=
  follow SyncStep.run (fun step db history => history ++ step.attempts db) steps [] db

/-- What a read of a key may return: the effect of the last acknowledged write to it, or of
one that failed after that. -/
def allowed (k : Bytes) (history : List Attempt) : List (Option Bytes) :=
  history.foldl (fun values attempt =>
    if attempt.record.key = k then
      if attempt.acknowledged then [attempt.record.value.intoVisibleValue]
      else attempt.record.value.intoVisibleValue :: values
    else values) [none]

theorem allowed_append_singleton (k : Bytes) (history : List Attempt) (attempt : Attempt) :
    allowed k (history ++ [attempt]) =
      if attempt.record.key = k then
        if attempt.acknowledged then [attempt.record.value.intoVisibleValue]
        else attempt.record.value.intoVisibleValue :: allowed k history
      else allowed k history := by
  rw [allowed, List.foldl_append]
  rfl

theorem append_map_cons (history : List Attempt) (record : BatchRecord)
    (records : List BatchRecord) (acknowledged : Bool) :
    history ++ (record :: records).map (⟨·, acknowledged⟩) =
      (history ++ [⟨record, acknowledged⟩]) ++ records.map (⟨·, acknowledged⟩) := by
  simp

theorem allowed_of_ne {k : Bytes} {records : List BatchRecord} (hne : ∀ r ∈ records, r.key ≠ k)
    (history : List Attempt) (acknowledged : Bool) :
    allowed k (history ++ records.map (⟨·, acknowledged⟩)) = allowed k history := by
  induction records generalizing history with
  | nil => rw [List.map_nil, List.append_nil]
  | cons record records ih =>
    rw [append_map_cons, ih fun r hr => hne r (List.mem_cons_of_mem _ hr),
      allowed_append_singleton, if_neg (hne record List.mem_cons_self)]

theorem allowed_failed {k : Bytes} {v : Option Bytes} {history : List Attempt}
    (h : v ∈ allowed k history) (records : List BatchRecord) :
    v ∈ allowed k (history ++ records.map (⟨·, false⟩)) := by
  induction records generalizing history with
  | nil =>
    rw [List.map_nil, List.append_nil]
    exact h
  | cons record records ih =>
    rw [append_map_cons]
    apply ih
    rw [allowed_append_singleton]
    by_cases hk : record.key = k
    · rw [if_pos hk, if_neg Bool.false_ne_true]
      exact List.mem_cons_of_mem _ h
    · rw [if_neg hk]
      exact h

theorem allowed_own {record : BatchRecord} {records : List BatchRecord} (hr : record ∈ records)
    (history : List Attempt) : record.value.intoVisibleValue ∈
      allowed record.key (history ++ records.map (⟨·, false⟩)) := by
  induction records generalizing history with
  | nil => cases hr
  | cons first records ih =>
    rw [append_map_cons]
    rcases List.mem_cons.mp hr with rfl | hr
    · apply allowed_failed
      rw [allowed_append_singleton, if_pos rfl, if_neg Bool.false_ne_true]
      exact List.mem_cons_self
    · exact ih hr _

theorem allowed_acknowledged {m : OrderedMap Bytes Bytes} {history : List Attempt}
    (h : ∀ k, m.get? k ∈ allowed k history) (records : List BatchRecord) (k : Bytes) :
    (records.foldl (fun m record => record.applyTo m) m).get? k ∈
      allowed k (history ++ records.map (⟨·, true⟩)) := by
  induction records generalizing m history with
  | nil =>
    rw [List.map_nil, List.append_nil]
    exact h k
  | cons record records ih =>
    rw [append_map_cons, List.foldl_cons]
    apply ih
    intro k'
    rw [allowed_append_singleton, BatchRecord.get?_applyTo]
    by_cases hk : record.key = k'
    · rw [if_pos hk, if_pos hk, if_pos rfl]
      exact List.mem_singleton_self _
    · rw [if_neg hk, if_neg hk]
      exact h k'

namespace DB

variable {db db' : DB} {env : Env} {options : Options} {history : List Attempt}

/-- The records of a group agree with what failed writes left in the live log under their
sequence numbers, and an acknowledged group leaves none of its keys in the log above its own
records. -/
structure Resumes (db : DB) (records : List BatchRecord) (acknowledged : Bool) : Prop where
  agrees : ∀ e ∈ entriesFrom (db.state.lastSequence + 1) records, ∀ f ∈ db.liveLog,
    f.1.sequence = e.1.sequence → f = e
  clears : acknowledged = true → ∀ f ∈ db.liveLog,
    db.state.lastSequence + records.length < f.1.sequence →
      ∀ record ∈ records, record.key ≠ f.1.userKey

/-- The next flush, if there is anything to flush, leaves no record in memory. -/
def FlushesAll (db : DB) : Prop :=
  match db.state.takeOldestFlushableMemtable db.options.memtableKind with
  | some (_, _, state) => state.memEntries = []
  | none => True

/-- Whether a group gets past the sync of the log. -/
def Syncs (db : DB) (requests : List Request) : Except Error Unit → Bool
  | .ok _ => true
  | .error _ =>
    !(db.options.walEnabled && shouldSync db.options
      (groupItems (db.state.lastSequence + 1) requests))

end DB

/-- Groups and commits log all records and resume from what is in the log, flushes leave no
record in memory, and compactions keep the versions of a key together. -/
def SyncStep.Orderly : SyncStep → DB → Prop
  | locked .flush _, db => db.FlushesAll
  | locked step sync, db =>
    (∀ request ∈ step.requests, request.opts.disableWal = false) ∧
      db.Resumes (DB.groupRecords step.requests) (db.Syncs step.requests sync)
  | pressure, db =>
    db.options.level0StopWritesTrigger ≤ db.state.l0Tables.length →
      db.SplitsSafely .unbounded .unbounded
  | _, _ => True

namespace DB

variable {db db' : DB} {env : Env} {options : Options} {history : List Attempt}

/-- What is in memory is in the live log, which holds one record for each sequence number; a
read returns what the history allows, and so would the records beyond the last sequence. -/
structure Honors (env : Env) (options : Options) (history : List Attempt) (db : DB) : Prop where
  ok : db.Ok
  recorded : db.Recorded
  env_eq : db.env = env
  options_eq : db.options = options
  tables_le : ∀ e ∈ db.versions.current.entries db.disk.tables,
    e.1.sequence ≤ db.versions.lastSequence
  inLog : ∀ e ∈ db.state.memEntries, e ∈ db.liveLog
  inMemory : ∀ e ∈ db.liveLog, e.1.sequence ≤ db.state.lastSequence → e ∈ db.state.memEntries
  oneRecord : ∀ a ∈ db.liveLog, ∀ b ∈ db.liveLog, a.1.sequence = b.1.sequence → a = b
  beyond : ∀ e ∈ db.liveLog, db.state.lastSequence < e.1.sequence →
    e.2.intoVisibleValue ∈ allowed e.1.userKey history
  shows : ∃ m, db.Shows m ∧ ∀ k, m.get? k ∈ allowed k history

theorem liveLog_written_all (h : db.Recorded) (hwal : db.options.walEnabled = true)
    {requests : List Request} (hlog : ∀ request ∈ requests, request.opts.disableWal = false) :
    (db.written requests).liveLog =
      db.liveLog ++ entriesFrom (db.state.lastSequence + 1) (groupRecords requests) := by
  rw [h.liveLog_written hwal, loggedEntries, filter_groupItems hlog, flatMap_groupItems]

theorem entriesFrom_unique {sequence : Nat} {records : List BatchRecord} {a b : Entry}
    (ha : a ∈ entriesFrom sequence records) (hb : b ∈ entriesFrom sequence records)
    (hs : a.1.sequence = b.1.sequence) : a = b := by
  induction records generalizing sequence with
  | nil => cases ha
  | cons record records ih =>
    rcases List.mem_cons.mp ha with rfl | ha <;> rcases List.mem_cons.mp hb with rfl | hb
    · rfl
    · have hge := (entriesFrom_sequence hb).1
      rw [← hs] at hge
      exact absurd hge (Nat.not_succ_le_self _)
    · have hge := (entriesFrom_sequence ha).1
      rw [hs] at hge
      exact absurd hge (Nat.not_succ_le_self _)
    · exact ih ha hb

theorem exists_entry_from {sequence n : Nat} {records : List BatchRecord} (hle : sequence ≤ n)
    (hlt : n < sequence + records.length) : ∃ e ∈ entriesFrom sequence records,
      e.1.sequence = n := by
  induction records generalizing sequence with
  | nil =>
    rw [List.length_nil] at hlt
    omega
  | cons record records ih =>
    by_cases hn : n = sequence
    · exact ⟨_, List.mem_cons_self, hn.symm⟩
    · rw [List.length_cons] at hlt
      obtain ⟨e, he, hs⟩ := ih (by omega : sequence + 1 ≤ n) (by omega)
      exact ⟨e, List.mem_cons_of_mem _ he, hs⟩

/-- The log after a group of records that resumes it. -/
theorem Honors.log_resumed (h : Honors env options history db) {records : List BatchRecord}
    {acknowledged : Bool} (hres : db.Resumes records acknowledged) :
    ∀ a ∈ db.liveLog ++ entriesFrom (db.state.lastSequence + 1) records,
      ∀ b ∈ db.liveLog ++ entriesFrom (db.state.lastSequence + 1) records,
        a.1.sequence = b.1.sequence → a = b := by
  intro a ha b hb hs
  rcases List.mem_append.mp ha with ha | ha <;> rcases List.mem_append.mp hb with hb | hb
  · exact h.oneRecord a ha b hb hs
  · exact hres.agrees b hb a ha hs
  · exact (hres.agrees a ha b hb hs.symm).symm
  · exact entriesFrom_unique ha hb hs

theorem Honors.written (h : Honors env options history db)
    (hwal : db.options.walEnabled = true) {requests : List Request}
    (hlog : ∀ request ∈ requests, request.opts.disableWal = false)
    (hres : db.Resumes (groupRecords requests) true) :
    Honors env options (history ++ (groupRecords requests).map (⟨·, true⟩))
      (db.written requests) := by
  obtain ⟨hok, hrec, happ⟩ := h.ok.written h.recorded requests
  have hlive := liveLog_written_all h.recorded hwal hlog
  have hlast : (db.written requests).state.lastSequence =
      db.state.lastSequence + (groupRecords requests).length := happ.lastSequence
  refine ⟨hok, hrec, h.env_eq, h.options_eq, ?_, ?_, ?_, ?_, ?_, ?_⟩
  · rw [written_tables]
    exact h.tables_le
  · intro e he
    rw [hlive]
    exact List.mem_append.mpr (((happ.mem e).mp he).imp_left (h.inLog e))
  · intro e he hle
    apply (happ.mem e).mpr
    rw [hlast] at hle
    rw [hlive] at he
    rcases List.mem_append.mp he with he | he
    · by_cases hold : e.1.sequence ≤ db.state.lastSequence
      · exact .inl (h.inMemory e he hold)
      · -- a failed write left the record there, and the group wrote it again
        obtain ⟨f, hf, hs⟩ := exists_entry_from (not_le.mp hold)
          (by omega : e.1.sequence < _ + (groupRecords requests).length)
        rw [hres.agrees f hf e he hs.symm]
        exact .inr hf
    · exact .inr he
  · rw [hlive]
    exact h.log_resumed hres
  · intro e he hlt
    rw [hlast] at hlt
    rw [hlive] at he
    rcases List.mem_append.mp he with he | he
    · rw [allowed_of_ne (hres.clears rfl e he hlt)]
      exact h.beyond e he (by omega)
    · have := (entriesFrom_sequence he).2
      omega
  · obtain ⟨m, hm, hget⟩ := h.shows
    refine ⟨_, ?_, allowed_acknowledged hget _⟩
    have hshows := happ.shows m hm
    intro k s hs
    rw [written_tables]
    exact hshows k s hs

/-- The database after a group whose sync failed. -/
def appended (db : DB) (requests : List Request) : DB :=
  db.performed (db.groupOps (groupItems (db.state.lastSequence + 1) requests))

theorem Ok.appended (h : db.Ok) (hr : db.Recorded) (requests : List Request) :
    (db.appended requests).Ok ∧ (db.appended requests).Recorded := by
  obtain ⟨hok, hrec, _⟩ := h.written hr requests
  have htables : (db.appended requests).disk.tables = db.disk.tables := db.written_tables requests
  refine ⟨⟨⟨h.isOpen, ?_, h.tables.congr fun f _ => by rw [htables]⟩, ?_, ?_, hok.freshWals⟩,
    ⟨hrec.dirExists, hrec.current, hrec.manifest, hrec.wal, hrec.log, hr.lastSequence⟩⟩
  · rw [htables]
    exact h.stored
  · rw [htables]
    exact h.stateOk
  · rw [htables]
    exact h.freshTables

theorem Honors.appended (h : Honors env options history db)
    (hwal : db.options.walEnabled = true) {requests : List Request}
    (hlog : ∀ request ∈ requests, request.opts.disableWal = false)
    (hres : db.Resumes (groupRecords requests) false) :
    Honors env options (history ++ (groupRecords requests).map (⟨·, false⟩))
      (db.appended requests) := by
  obtain ⟨hok, hrec⟩ := h.ok.appended h.recorded requests
  have htables : (db.appended requests).disk.tables = db.disk.tables := db.written_tables requests
  have hlive : (db.appended requests).liveLog =
      db.liveLog ++ entriesFrom (db.state.lastSequence + 1) (groupRecords requests) :=
    liveLog_written_all h.recorded hwal hlog
  refine ⟨hok, hrec, h.env_eq, h.options_eq, ?_, ?_, ?_, ?_, ?_, ?_⟩
  · rw [htables]
    exact h.tables_le
  · intro e he
    rw [hlive]
    exact List.mem_append.mpr (.inl (h.inLog e he))
  · intro e he hle
    rw [hlive] at he
    rcases List.mem_append.mp he with he | he
    · exact h.inMemory e he hle
    · have hge := (entriesFrom_sequence he).1
      exact absurd (hge.trans hle) (Nat.not_succ_le_self _)
  · rw [hlive]
    exact h.log_resumed hres
  · intro e he hlt
    rw [hlive] at he
    rcases List.mem_append.mp he with he | he
    · exact allowed_failed (h.beyond e he hlt) _
    · obtain ⟨record, hr, heq⟩ := exists_record_of_mem he
      rw [heq]
      exact allowed_own hr history
  · obtain ⟨m, hm, hget⟩ := h.shows
    refine ⟨m, ?_, fun k => allowed_failed (hget k) _⟩
    intro k s hs
    rw [htables]
    exact hm k s hs

theorem Honors.flushed (h : Honors env options history db) (hall : db.FlushesAll) :
    ∃ db', DB.flush db = .ok () db' ∧ Honors env options history db' := by
  cases htake : db.state.takeOldestFlushableMemtable db.options.memtableKind with
  | none => exact ⟨db, run_flush_none h.ok.isOpen htake, h⟩
  | some taken =>
    obtain ⟨memtable, source, state⟩ := taken
    rw [FlushesAll, htake] at hall
    obtain ⟨ref, hnum, _, hrun, hok, hentries⟩ := h.ok.flushed htake
    obtain ⟨hmem, hlast, _⟩ := DBState.takeOldest_spec htake
    have hrec := (h.recorded.flushed hnum (h.ok.freshWals _ (Nat.le_succ _)) hlast).1
    have hlive := liveLog_flushed h.ok.sound state ref
    have hmem' : (db.flushed state ref).state.memEntries = [] := hall
    have hv : (db.flushed state ref).versions.lastSequence =
        max db.versions.lastSequence state.lastSequence := rfl
    refine ⟨_, hrun, hok, hrec, h.env_eq, h.options_eq, ?_, by simp [hmem'], by simp [hlive],
      by simp [hlive], by simp [hlive], ?_⟩
    · intro e he
      rw [entries_flushed hmem hentries, List.mem_append] at he
      rw [hv]
      rcases he with he | he
      · refine le_max_of_le_right (hlast ▸ h.ok.sound.sequences e ?_)
        exact List.mem_append.mpr (.inl (hmem ▸ List.mem_append.mpr (.inr he)))
      · exact le_max_of_le_left (h.tables_le e he)
    · obtain ⟨m, hm, hget⟩ := h.shows
      refine ⟨m, fun k s hs => ?_, hget⟩
      rw [show (db.flushed state ref).state.lastSequence = state.lastSequence from rfl, hlast] at hs
      exact (congrArg (visible k s) hentries).trans (hm k s hs)

theorem Honors.tablesChanged (h : Honors env options history db) (hok : db'.Ok)
    (hc : TablesChanged db db') (hvis : ∀ k s, db.gcWatermark ≤ s →
      visible k s db'.allEntries = visible k s db.allEntries) :
    Honors env options history db' := by
  have hmem : db'.state.memEntries = db.state.memEntries := by
    rw [hc.state]
    rfl
  have hlive : db'.liveLog = db.liveLog := by rw [liveLog, hc.wals, hc.logNumber, liveLog]
  have hlast : db'.state.lastSequence = db.state.lastSequence := by rw [hc.state]
  refine ⟨hok, hc.recorded h.recorded, hc.env.trans h.env_eq, hc.options.trans h.options_eq,
    fun e he => ?_, ?_, ?_, ?_, ?_, ?_⟩
  · rw [hc.lastSequence]
    exact h.tables_le e (hc.entries he)
  · rw [hmem, hlive]
    exact h.inLog
  · rw [hmem, hlive, hlast]
    exact h.inMemory
  · rw [hlive]
    exact h.oneRecord
  · rw [hlive, hlast]
    exact h.beyond
  · obtain ⟨m, hm, hget⟩ := h.shows
    refine ⟨m, fun k s hs => ?_, hget⟩
    rw [hlast] at hs
    -- all sequences are up to the last one, so a read there is one at the watermark too
    have hbound : ∀ e ∈ db'.allEntries, e.1.sequence ≤ s := fun e he =>
      (hok.sound.sequences e he).trans (hlast ▸ hs)
    have hsame := hvis k (max s db.gcWatermark) (le_max_right _ _)
    rw [visible_of_bounded hbound k (le_max_left _ _)] at hsame
    exact hsame.trans (hm k _ (hs.trans (le_max_left _ _)))

theorem Honors.withWatermark (h : Honors env options history db) (w : Watermark) :
    Honors env options history { db with watermark := w } :=
  ⟨⟨⟨h.ok.isOpen, h.ok.stored, h.ok.tables⟩, h.ok.stateOk, h.ok.freshTables, h.ok.freshWals⟩,
    h.recorded.withWatermark w, h.env_eq, h.options_eq, h.tables_le, h.inLog, h.inMemory,
    h.oneRecord, h.beyond, h.shows⟩

theorem Honors.refused (h : Honors env options history db) (records : List BatchRecord) :
    Honors env options (history ++ records.map (⟨·, false⟩)) db := by
  obtain ⟨m, hm, hget⟩ := h.shows
  exact ⟨h.ok, h.recorded, h.env_eq, h.options_eq, h.tables_le, h.inLog, h.inMemory, h.oneRecord,
    fun e he hlt => allowed_failed (h.beyond e he hlt) _, m, hm,
    fun k => allowed_failed (hget k) _⟩

/-- The database that opening the directory of `db` leads to. -/
def restarted (db : DB) : DB := { db with
  journal := [.createDir, .openWal db.wal]
  state := db.recovered
  watermark := .new }

theorem Honors.mem_recovered (h : Honors env options history db) {e : Entry} :
    e ∈ db.recovered.memEntries ↔ e ∈ db.liveLog := by
  rw [h.recorded.memEntries_recovered, OrderedMap.mem_insertAll_of_unique fun a ha b hb hk =>
    h.oneRecord a ha b hb (congrArg InternalKey.sequence hk)]
  simp

theorem Honors.mem_allEntries (h : Honors env options history db) {e : Entry}
    (he : e ∈ db.allEntries) : e ∈ db.restarted.allEntries := by
  rcases List.mem_append.mp he with he | he
  · exact List.mem_append.mpr (.inl (h.mem_recovered.mpr (h.inLog e he)))
  · exact List.mem_append.mpr (.inr he)

theorem Honors.restarted_ok (h : Honors env options history db) : db.restarted.Ok := by
  have hflush := db.flushable_recovered
  have hle : db.versions.lastSequence ≤ db.recovered.lastSequence :=
    h.recorded.lastSequence_recovered ▸ le_lastOf _ _
  have hnew := newestFirst_append.mp h.ok.stateOk.newestFirst
  refine ⟨⟨hflush.isOpen, h.ok.stored, ?_⟩, ⟨?_, ?_, hflush.matched, hflush.frozen⟩,
    h.ok.freshTables, h.ok.freshWals⟩
  · change TablesOf db.disk db.versions.current db.recovered.l0Tables db.recovered.levelTables
    rw [db.recovered_tables.1, db.recovered_tables.2]
    exact h.ok.tables
  · refine newestFirst_append.mpr ⟨?_, hnew.2.1, fun a ha b hb hk => ?_⟩
    · change NewestFirst db.recovered.memEntries
      rw [h.recorded.memEntries_recovered]
      refine SortedEntries.newestFirst (OrderedMap.insertAll _ _).sorted fun a ha b hb _ hs => ?_
      exact h.oneRecord a (mem_of_mem_insertAll ha) b (mem_of_mem_insertAll hb) hs
    · -- a record of the log is in memory or beyond the last sequence
      have ha := h.mem_recovered.mp ha
      by_cases hold : a.1.sequence ≤ db.state.lastSequence
      · exact hnew.2.2 a (h.inMemory a ha hold) b hb hk
      · exact (h.ok.sound.sequences b (List.mem_append.mpr (.inr hb))).trans_lt (not_le.mp hold)
  · intro e he
    rcases List.mem_append.mp he with he | he
    · exact hflush.sequences e he
    · exact (h.tables_le e he).trans hle

theorem Ok.exists_shows (h : db.Ok) : ∃ m, db.Shows m := by
  obtain ⟨rows, _, hsorted, hmem⟩ :=
    h.toReadable.scanOpt_eq h.stateOk.newestFirst .unbounded .unbounded none
  refine ⟨⟨rows, hsorted⟩, fun k s hs => Option.ext fun v => ?_⟩
  rw [visible_of_bounded h.stateOk.sequences k hs, OrderedMap.get?_eq_some_iff, hmem]
  simp [withinBounds, Bound.lowerOk, Bound.upperOk, allEntries]

/-- A read after the restart returns what it returned before, or the effect of a failed write
beyond the last sequence. -/
theorem Honors.restarted_visible (h : Honors env options history db) (k : Bytes) :
    visible k db.recovered.lastSequence db.restarted.allEntries ∈ allowed k history := by
  obtain ⟨m, hm, hget⟩ := h.shows
  have hold := hget k
  rw [← hm k _ le_rfl] at hold
  have hok := h.restarted_ok
  have hbound : ∀ e ∈ db.restarted.allEntries, e.1.sequence ≤ db.recovered.lastSequence :=
    hok.sound.sequences
  cases he : newest k db.recovered.lastSequence db.restarted.allEntries with
  | none =>
    have hnone : newest k db.state.lastSequence db.allEntries = none := by
      refine newest_eq_none_iff.mpr fun a ha hk => ?_
      have hin := h.mem_allEntries ha
      exact absurd (newest_eq_none_iff.mp he a hin hk) (not_lt.mpr (hbound a hin))
    change visible k db.state.lastSequence db.allEntries ∈ _ at hold
    rw [visible, hnone] at hold
    rw [visible, he]
    exact hold
  | some e =>
    obtain ⟨hmem, hk, hs, hmax⟩ := hok.stateOk.newestFirst.newest_eq_some_iff.mp he
    rw [visible, he, Option.bind_some]
    by_cases hlast : e.1.sequence ≤ db.state.lastSequence
    · have hin : e ∈ db.allEntries := by
        rcases List.mem_append.mp hmem with hmem | hmem
        · exact List.mem_append.mpr (.inl (h.inMemory e (h.mem_recovered.mp hmem) hlast))
        · exact List.mem_append.mpr (.inr hmem)
      have hsame : newest k db.state.lastSequence db.allEntries = some e := by
        refine h.ok.stateOk.newestFirst.newest_eq_some_iff.mpr ⟨hin, hk, hlast, ?_⟩
        exact fun b hb hbk _ => hmax b (h.mem_allEntries hb) hbk (hbound b (h.mem_allEntries hb))
      change visible k db.state.lastSequence db.allEntries ∈ _ at hold
      rw [visible, hsame] at hold
      exact hold
    · rcases List.mem_append.mp hmem with hmem | hmem
      · rw [← show e.1.userKey = k from hk]
        exact h.beyond e (h.mem_recovered.mp hmem) (not_le.mp hlast)
      · exact absurd (h.ok.sound.sequences e (List.mem_append.mpr (.inr hmem))) hlast

theorem Honors.restarted (h : Honors env options history db) :
    Honors env options history db.restarted := by
  have hok := h.restarted_ok
  have hlast := h.recorded.lastSequence_recovered
  have hr := h.recorded
  refine ⟨hok, ⟨hr.dirExists, hr.current, hr.manifest, hr.wal, hr.log, hlast ▸ le_lastOf _ _⟩,
    h.env_eq, h.options_eq, h.tables_le, fun e he => h.mem_recovered.mp he,
    fun e he _ => h.mem_recovered.mpr he, h.oneRecord, fun e he hlt => ?_, ?_⟩
  · have hle : e.1.sequence ≤ db.recovered.lastSequence := hlast ▸ sequence_le_lastOf he
    exact absurd hlt (not_lt.mpr hle)
  · obtain ⟨m, hm⟩ := hok.exists_shows
    refine ⟨m, hm, fun k => ?_⟩
    rw [← hm k _ le_rfl]
    exact h.restarted_visible k

end DB

namespace Section

variable {db db' : DB}

theorem runSync_group (hopen : db.state.closed = false) (requests : List DB.Request)
    (sync : Except Error Unit) :
    (db.Syncs requests sync = true ∧
      (group requests).runSync sync db = .ok () (db.written requests)) ∨
    (db.Syncs requests sync = false ∧
      ∃ err, (group requests).runSync sync db = .error err (db.appended requests)) := by
  cases sync with
  | ok u =>
    have hrun := DB.run_applyWriteGroupToMemtable hopen requests (.ok u) (.inl rfl)
    exact .inl ⟨rfl, run_discard_ok hrun⟩
  | error err =>
    cases hs : db.options.walEnabled && DB.shouldSync db.options
        (DB.groupItems (db.state.lastSequence + 1) requests) with
    | false =>
      have hrun := DB.run_applyWriteGroupToMemtable hopen requests (.error err) (.inr hs)
      exact .inl ⟨by rw [DB.Syncs, hs]; rfl, run_discard_ok hrun⟩
    | true =>
      have hrun := DB.run_applyWriteGroupToMemtable_error hopen requests err hs
      exact .inr ⟨by rw [DB.Syncs, hs]; rfl, err, run_discard_error hrun⟩

/-- A group or a commit is written, fails at the sync, has nothing to write, or is refused. -/
theorem runSync_cases (hopen : db.state.closed = false) {step : Section} (hstep : step ≠ flush)
    (sync : Except Error Unit) :
    (db.Syncs step.requests sync = true ∧
      step.runSync sync db = .ok () (db.written step.requests)) ∨
    (db.Syncs step.requests sync = false ∧
      ∃ err, step.runSync sync db = .error err (db.appended step.requests)) ∨
    (DB.groupRecords step.requests = [] ∧ step.runSync sync db = .ok () db) ∨
    (∃ err, step.runSync sync db = .error err db) := by
  cases step with
  | group requests => exact (runSync_group hopen requests sync).imp_right .inl
  | commit readSeq batch readKeys readRanges =>
    rcases DB.commitToMemtable_cases hopen sync readSeq batch readKeys readRanges with
      ⟨err, hrun⟩ | ⟨hempty, hrun⟩ | ⟨_, hrun⟩
    · exact .inr (.inr (.inr ⟨err, run_discard_error hrun⟩))
    · refine .inr (.inr (.inl ⟨?_, run_discard_ok hrun⟩))
      rw [requests, DB.groupRecords_singleton, hempty]
    · have hsame : (commit readSeq batch readKeys readRanges).runSync sync db =
          (group [⟨batch, {}⟩]).runSync sync db := run_discard_congr hrun
      rw [hsame]
      exact (runSync_group hopen [⟨batch, {}⟩] sync).imp_right .inl
  | flush => exact absurd rfl hstep

end Section

namespace SyncStep

variable {db db' : DB} {step : Section} {sync : Except Error Unit}

theorem after_locked_ok (hrun : step.runSync sync db = .ok () db') :
    after SyncStep.run db (.locked step sync) = db' ∧ (locked step sync).attempts db =
      (DB.groupRecords step.requests).map (⟨·, true⟩) := by
  refine ⟨after_ok (f := SyncStep.run) (i := .locked step sync) hrun, ?_⟩
  rw [attempts, succeeds, hrun]

theorem after_locked_error {err : Error} (hrun : step.runSync sync db = .error err db') :
    after SyncStep.run db (.locked step sync) = db' ∧ (locked step sync).attempts db =
      (DB.groupRecords step.requests).map (⟨·, false⟩) := by
  refine ⟨after_error (f := SyncStep.run) (i := .locked step sync) hrun, ?_⟩
  rw [attempts, succeeds, hrun]

end SyncStep

namespace DB

variable {db : DB} {env : Env} {options : Options} {history : List Attempt}

theorem Honors.locked (h : Honors env options history db) (hwal : options.walEnabled = true)
    {step : Section} (hstep : step ≠ .flush) (sync : Except Error Unit)
    (hlog : ∀ request ∈ step.requests, request.opts.disableWal = false)
    (hres : db.Resumes (groupRecords step.requests) (db.Syncs step.requests sync)) :
    Honors env options (history ++ (SyncStep.locked step sync).attempts db)
      (after SyncStep.run db (.locked step sync)) := by
  have hwal' : db.options.walEnabled = true := h.options_eq ▸ hwal
  rcases Section.runSync_cases h.ok.isOpen hstep sync with
    ⟨hs, hrun⟩ | ⟨hs, err, hrun⟩ | ⟨hempty, hrun⟩ | ⟨err, hrun⟩
  · obtain ⟨hafter, hattempts⟩ := SyncStep.after_locked_ok hrun
    rw [hafter, hattempts]
    exact h.written hwal' hlog (hs ▸ hres)
  · obtain ⟨hafter, hattempts⟩ := SyncStep.after_locked_error hrun
    rw [hafter, hattempts]
    exact h.appended hwal' hlog (hs ▸ hres)
  · obtain ⟨hafter, hattempts⟩ := SyncStep.after_locked_ok hrun
    rw [hafter, hattempts, hempty, List.map_nil, List.append_nil]
    exact h
  · obtain ⟨hafter, hattempts⟩ := SyncStep.after_locked_error hrun
    rw [hafter, hattempts]
    exact h.refused _

theorem Honors.step (hwal : options.walEnabled = true) (herr : options.errorIfExists = false)
    (step : SyncStep) (history : List Attempt) (db : DB) (h : Honors env options history db)
    (ho : step.Orderly db) :
    Honors env options (history ++ step.attempts db) (after SyncStep.run db step) := by
  cases step with
  | locked step sync =>
    cases step with
    | group requests => exact h.locked hwal Section.noConfusion sync ho.1 ho.2
    | commit readSeq batch readKeys readRanges =>
      exact h.locked hwal Section.noConfusion sync ho.1 ho.2
    | flush =>
      obtain ⟨db', hrun, hnext⟩ := h.flushed ho
      change Honors env options (history ++ []) _
      rw [after_ok (f := SyncStep.run) (i := .locked .flush sync) hrun, List.append_nil]
      exact hnext
  | pressure =>
    obtain ⟨db', hrun, hok, hc, hvis⟩ := h.ok.applyWritePressure ho
    change Honors env options (history ++ []) _
    rw [after_ok (f := SyncStep.run) (i := .pressure) hrun, List.append_nil]
    exact h.tablesChanged hok hc hvis
  | snapshot => exact (List.append_nil history).symm ▸ h.withWatermark _
  | cloneSnapshot readSeq => exact (List.append_nil history).symm ▸ h.withWatermark _
  | dropSnapshot readSeq => exact (List.append_nil history).symm ▸ h.withWatermark _
  | reopen =>
    have hopen := h.recorded.reopen h.ok.sound.toTabled (h.options_eq ▸ herr)
    have hrun : SyncStep.reopen.run db = .ok () db.restarted := by
      change DB.reopen db = _
      rw [DB.reopen, hopen]
      rfl
    change Honors env options (history ++ []) _
    rw [after_ok hrun, List.append_nil]
    exact h.restarted

theorem Honors.reopen (h : Honors env options history db) (herr : options.errorIfExists = false) :
    ∃ r, DB.open env db.disk options = .ok r ∧ ∀ k, ∃ v ∈ allowed k history, r.get k = .ok v := by
  have hopen := h.recorded.reopen h.ok.sound.toTabled (h.options_eq ▸ herr)
  rw [h.env_eq, h.options_eq] at hopen
  refine ⟨_, hopen, fun k => ⟨_, h.restarted_visible k, ?_⟩⟩
  rw [get, ← h.env_eq, ← h.options_eq]
  exact h.restarted_ok.toReadable.getOpt_eq k none

theorem honors_created (env : Env) (options : Options) (path : String) :
    Honors env options [] (created env options path) := by
  have hlog : (created env options path).liveLog = [] := rfl
  have hmem := memEntries_created env options path
  refine ⟨ok_created env options path, (durable_created env options path).toRecorded, rfl, rfl,
    fun e he => ?_, by simp [hmem], by simp [hlog], by simp [hlog], by simp [hlog],
    _, shows_created env options path, fun k => ?_⟩
  · exact (ok_created env options path).stateOk.sequences e (List.mem_append.mpr (.inr he))
  · exact List.mem_singleton_self _

end DB

/-- As long as what is written agrees with what failed writes left in the log, a restart finds
for each key the last acknowledged write or one that failed after it, and no sequence number
has two records in the log. -/
theorem failed_syncs_yield (env : Env) (options : Options) (path : String) {db₀ : DB}
    (hopen : DB.open env (Disk.empty path) options = .ok db₀) (hwal : options.walEnabled = true)
    (herr : options.errorIfExists = false) (steps : List SyncStep)
    (horderly : Along SyncStep.run SyncStep.Orderly steps db₀) :
    (∃ r, DB.open env (runAttempts steps db₀).2.disk options = .ok r ∧
      ∀ k, ∃ v ∈ allowed k (runAttempts steps db₀).1, r.get k = .ok v) ∧
    ∀ a ∈ (runAttempts steps db₀).2.liveLog, ∀ b ∈ (runAttempts steps db₀).2.liveLog,
      a.1.sequence = b.1.sequence → a = b := by
  obtain rfl := DB.eq_created hopen
  have h : DB.Honors env options (runAttempts steps (DB.created env options path)).1
      (runAttempts steps (DB.created env options path)).2 :=
    follow_invariant (DB.Honors.step hwal herr) (DB.honors_created env options path) horderly
  exact ⟨h.reopen herr, h.oneRecord⟩

/-- A put of `a` whose sync fails, and what is done after it. -/
def afterFailedPut (steps : List SyncStep) : List SyncStep :=
  .locked (.group [⟨⟨[.put [97] [1]]⟩, { sync := true }⟩]) (.error (.io .other "sync failed")) :: steps

/-- The failed put is made once more, and then `a` is deleted. -/
theorem failed_syncs_yield_small :
    ∃ r, DB.open .inOrder (runAttempts (afterFailedPut
        [.locked (.group [⟨⟨[.put [97] [1]]⟩, { sync := true }⟩]) (.ok ()),
          .locked (.commit 1 ⟨[.delete [97]]⟩ [] []) (.ok ())])
        (DB.created .inOrder {} "db")).2.disk {} = .ok r ∧ r.get [97] = .ok none := by
  obtain ⟨⟨r, hopen, hget⟩, -⟩ := failed_syncs_yield .inOrder {} "db" (DB.open_empty _ _ _) rfl rfl
    (afterFailedPut [.locked (.group [⟨⟨[.put [97] [1]]⟩, { sync := true }⟩]) (.ok ()),
      .locked (.commit 1 ⟨[.delete [97]]⟩ [] []) (.ok ())])
    ⟨⟨by decide, by decide +kernel, by decide +kernel⟩,
      ⟨by decide, by decide +kernel, by decide +kernel⟩,
      ⟨by decide, by decide +kernel, by decide +kernel⟩, trivial⟩
  obtain ⟨v, hv, hr⟩ := hget [97]
  have hallowed : allowed [97] (runAttempts (afterFailedPut
      [.locked (.group [⟨⟨[.put [97] [1]]⟩, { sync := true }⟩]) (.ok ()),
        .locked (.commit 1 ⟨[.delete [97]]⟩ [] []) (.ok ())])
      (DB.created .inOrder {} "db")).1 = [none] := by decide +kernel
  rw [hallowed, List.mem_singleton] at hv
  exact ⟨r, hopen, hv ▸ hr⟩

/-- The failed put of `a`, and an acknowledged delete. -/
def overtakenSteps : List SyncStep :=
  afterFailedPut [.locked (.group [⟨⟨[.delete [97]]⟩, { sync := true }⟩]) (.ok ())]

theorem overtakenSteps_allowed :
    allowed [97] (runAttempts overtakenSteps (DB.created .inOrder {} "db")).1 = [none] := by
  decide +kernel

theorem overtakenSteps_reopened : (match DB.open .inOrder
      (runAttempts overtakenSteps (DB.created .inOrder {} "db")).2.disk {} with
    | .ok r => r.get [97]
    | .error err => .error err) = .ok (some [1]) := by
  decide +kernel

theorem overtakenSteps_log : ∃ a ∈ (runAttempts overtakenSteps
      (DB.created .inOrder {} "db")).2.liveLog, ∃ b ∈ (runAttempts overtakenSteps
      (DB.created .inOrder {} "db")).2.liveLog, a.1.sequence = b.1.sequence ∧ a ≠ b := by
  decide +kernel

/-- The delete takes the sequence number of the failed put and loses to it. -/
theorem failed_sync_overtakes :
    (∃ r, DB.open .inOrder (runAttempts overtakenSteps (DB.created .inOrder {} "db")).2.disk {} =
        .ok r ∧ ∃ v, r.get [97] = .ok v ∧
          v ∉ allowed [97] (runAttempts overtakenSteps (DB.created .inOrder {} "db")).1) ∧
      ∃ a ∈ (runAttempts overtakenSteps (DB.created .inOrder {} "db")).2.liveLog,
        ∃ b ∈ (runAttempts overtakenSteps (DB.created .inOrder {} "db")).2.liveLog,
          a.1.sequence = b.1.sequence ∧ a ≠ b := by
  refine ⟨?_, overtakenSteps_log⟩
  have hget := overtakenSteps_reopened
  rw [overtakenSteps_allowed]
  split at hget
  · rename_i r hopen
    exact ⟨r, hopen, some [1], hget, by decide⟩
  · cases hget

end TyLsm
