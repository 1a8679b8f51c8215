import TyLsm.Replay

/-! The live log is a part of the memory. What a process writes to the log since the last
rotation is in its memtables, and the tables hold no sequence that the manifest does not
cover; so opening the directory again finds a sound database, if a smaller one. -/

namespace TyLsm

namespace DB

theorem flatMap_groupItems (sequence : Nat) (requests : List Request) :
    (groupItems sequence requests).flatMap
      (fun item => entriesFrom item.startSequence item.batch.records) =
      entriesFrom sequence (groupRecords requests) := by
  induction requests generalizing sequence with
  | nil => rfl
  | cons request requests ih =>
    have hrecords : groupRecords (request :: requests) =
        request.batch.records ++ groupRecords requests := rfl
    rw [hrecords, entriesFrom_append, groupItems, List.flatMap_cons, ih]

variable {db db' : DB}

/-- The entries that a group adds to the log. -/
def appendedEntries (db : DB) (requests : List Request) : List Entry :=
  if db.options.walEnabled then db.loggedEntries requests else []

theorem appendedEntries_sublist (db : DB) (requests : List Request) :
    (db.appendedEntries requests).Sublist
      (entriesFrom (db.state.lastSequence + 1) (groupRecords requests)) := by
  unfold appendedEntries
  split
  · rw [← flatMap_groupItems]
    exact List.filter_sublist.flatMap _
  · exact List.nil_sublist _

theorem Recorded.liveLog_appended (h : db.Recorded) (requests : List Request) :
    (db.written requests).liveLog = db.liveLog ++ db.appendedEntries requests := by
  cases hwal : db.options.walEnabled with
  | true =>
    rw [appendedEntries, if_pos hwal]
    exact h.liveLog_written hwal requests
  | false =>
    have hdisk : (db.written requests).disk = db.disk := by
      simp [DB.written, performed, groupOps, hwal]
    rw [appendedEntries, hwal, if_neg Bool.false_ne_true, List.append_nil, liveLog, liveLog, hdisk]
    rfl

theorem liveLog_flushed (h : db.Sound) (state : DBState) (ref : TableRef) :
    (db.flushed state ref).liveLog = [] := by
  have hw : (db.flushed state ref).disk.wals (db.flushed state ref).versions.logNumber =
      some ((db.disk.wals (db.versions.nextFileNumber + 1)).getD []) := Function.update_self _ _ _
  rw [liveLog, hw, h.freshWals _ (Nat.le_succ _)]
  rfl

/-- What is in memory can be written as tables, and the next sequence is above it. -/
structure Flushable (state : DBState) : Prop where
  isOpen : state.closed = false
  matched : ∀ e ∈ state.memEntries, Matched e
  frozen : ∀ m ∈ state.immutables, m.entries ≠ []
  sequences : ∀ e ∈ state.memEntries, e.1.sequence ≤ state.lastSequence

theorem matched_walEntries {records : List (Nat × WriteBatch)} {e : Entry}
    (he : e ∈ walEntries records) : Matched e := by
  obtain ⟨record, _, he⟩ := List.mem_flatMap.mp he
  exact entriesFrom_matched he

theorem mem_of_mem_insertAll {l : List Entry} {e : Entry}
    (he : e ∈ (OrderedMap.empty.insertAll l).entries) : e ∈ l := by
  rcases OrderedMap.mem_insertAll.mp he with ⟨_, _, rfl, _⟩ | ⟨he, _⟩
  · simp
  · cases he

theorem flushable_recoverWal (kind : MemTableKind) (l0 : List TableRef)
    (levels : List (List TableRef)) (last : Nat) (records : List (Nat × WriteBatch)) :
    Flushable ((DBState.fresh kind l0 levels last).recoverWal records) := by
  have hmem := DBState.memEntries_recoverWal kind l0 levels last records
  refine ⟨(recoverWal_tables _ records).1, fun e he => ?_, ?_, fun e he => ?_⟩
  · rw [hmem] at he
    exact matched_walEntries (mem_of_mem_insertAll he)
  · rw [DBState.recoverWal_immutables]
    exact fun m hm => absurd hm List.not_mem_nil
  · rw [hmem] at he
    rw [DBState.lastSequence_recoverWal]
    exact sequence_le_lastOf (mem_of_mem_insertAll he)

theorem Flushable.flush_written (h : Flushable db.state)
    (hfree : db.disk.tables db.versions.nextFileNumber = none) (requests : List Request) :
    ∃ db', DB.flush (db.written requests) = .ok () db' := by
  have hadds := groupAdds_items db.options h.sequences requests
  have hopen : (db.written requests).state.closed = false := hadds.closed.trans h.isOpen
  cases htake : (db.written requests).state.takeOldestFlushableMemtable
      (db.written requests).options.memtableKind with
  | none => exact ⟨_, run_flush_none hopen htake⟩
  | some taken =>
    obtain ⟨memtable, source, state⟩ := taken
    have hmatched : ∀ e ∈ (db.written requests).state.memEntries, Matched e := by
      intro e he
      rcases List.mem_append.mp (hadds.perm.mem_iff.mp he) with he | he
      · exact entriesFrom_matched he
      · exact h.matched e he
    have hfree' : (db.written requests).disk.tables (db.written requests).versions.nextFileNumber =
        none := by
      rw [written_tables]
      exact hfree
    obtain ⟨ref, _, _, _, hrun⟩ :=
      run_flush_taken hopen hmatched (hadds.frozen h.frozen) hfree' htake
    exact ⟨_, hrun⟩

theorem flushable_recovered (db : DB) : Flushable db.recovered :=
  flushable_recoverWal _ _ _ _ _

theorem recovered_tables (db : DB) : db.recovered.l0Tables = db.state.l0Tables ∧
    db.recovered.levelTables = db.state.levelTables :=
  (recoverWal_tables (DBState.fresh db.options.memtableKind db.state.l0Tables
    db.state.levelTables db.versions.lastSequence) ((db.disk.wals db.wal).getD [])).2

theorem Recorded.memEntries_recovered (h : db.Recorded) :
    db.recovered.memEntries = (OrderedMap.empty.insertAll db.liveLog).entries := by
  rw [recovered, DBState.memEntries_recoverWal, h.wal]
  rfl

theorem Recorded.lastSequence_recovered (h : db.Recorded) :
    db.recovered.lastSequence = lastOf db.versions.lastSequence db.liveLog := by
  rw [recovered, DBState.lastSequence_recoverWal, h.wal]
  rfl

/-- The live log is in memory, each internal key once, and the manifest covers the tables. -/
structure Restorable (db : DB) : Prop where
  sound : db.Sound
  recorded : db.Recorded
  inMemory : ∀ e ∈ db.liveLog, e ∈ db.state.memEntries
  distinctLog : (db.liveLog.map Prod.fst).Nodup
  tables_le : ∀ e ∈ db.versions.current.entries db.disk.tables,
    e.1.sequence ≤ db.versions.lastSequence

namespace Restorable

theorem written (h : db.Restorable) (requests : List Request) :
    (db.written requests).Restorable := by
  obtain ⟨hs, hrec, hadds⟩ := h.sound.written h.recorded requests
  have hsub := db.appendedEntries_sublist requests
  have hlog := h.recorded.liveLog_appended requests
  refine ⟨hs, hrec, fun e he => ?_, ?_, ?_⟩
  · rw [hlog, List.mem_append] at he
    exact hadds.perm.mem_iff.mpr
      (List.mem_append.mpr (he.symm.imp (fun he => hsub.subset he) (h.inMemory e)))
  · rw [hlog, List.map_append]
    refine List.nodup_append.mpr ⟨h.distinctLog, (entriesFrom_nodup _ _).sublist (hsub.map _), ?_⟩
    intro a ha b hb hab
    obtain ⟨x, hx, rfl⟩ := List.mem_map.mp ha
    obtain ⟨y, hy, rfl⟩ := List.mem_map.mp hb
    have hxle := h.sound.sequences x (List.mem_append.mpr (.inl (h.inMemory x hx)))
    have hyge := (entriesFrom_sequence (hsub.subset hy)).1
    rw [hab] at hxle
    omega
  · rw [written_tables]
    exact h.tables_le

theorem flushed (h : db.Restorable) {memtable : MemTable} {source : DBState.FlushSource}
    {state : DBState} {ref : TableRef}
    (htake : db.state.takeOldestFlushableMemtable db.options.memtableKind =
      some (memtable, source, state)) (hnum : ref.1.number = db.versions.nextFileNumber)
    (hs : (db.flushed state ref).Sound)
    (hall : (db.flushed state ref).allEntries = db.allEntries) :
    (db.flushed state ref).Restorable := by
  obtain ⟨hmem, hlast, _⟩ := DBState.takeOldest_spec htake
  have hlog := liveLog_flushed h.sound state ref
  refine ⟨hs, (h.recorded.flushed hnum (h.sound.freshWals _ (Nat.le_succ _)) hlast).1,
    by simp [hlog], by simp [hlog], fun e he => ?_⟩
  have hv : (db.flushed state ref).versions.lastSequence =
      max db.versions.lastSequence state.lastSequence := rfl
  rw [entries_flushed hmem hall, List.mem_append] at he
  rw [hv]
  rcases he with he | he
  · refine le_max_of_le_right (hlast ▸ h.sound.sequences e (List.mem_append.mpr (.inl ?_)))
    rw [hmem]
    simp [he]
  · exact le_max_of_le_left (h.tables_le e he)

theorem tablesChanged (h : db.Restorable) (hc : TablesChanged db db') (hs : db'.Sound) :
    db'.Restorable := by
  have hmem : db'.state.memEntries = db.state.memEntries := by
    rw [hc.state]
    rfl
  have hlog : db'.liveLog = db.liveLog := by rw [liveLog, hc.wals, hc.logNumber, liveLog]
  refine ⟨hs, hc.recorded h.recorded, ?_, ?_, fun e he => ?_⟩
  · rw [hlog, hmem]
    exact h.inMemory
  · rw [hlog]
    exact h.distinctLog
  · rw [hc.lastSequence]
    exact h.tables_le e (hc.entries he)

theorem mem_insertAll (h : db.Restorable) {e : Entry} :
    e ∈ (OrderedMap.empty.insertAll db.liveLog).entries ↔ e ∈ db.liveLog := by
  rw [OrderedMap.mem_insertAll_of_nodup h.distinctLog]
  simp

theorem reopened (h : db.Restorable) : ({ db with
    journal := [.createDir, .openWal db.wal]
    state := db.recovered
    watermark := .new } : DB).Restorable := by
  have hmem := h.recorded.memEntries_recovered
  have hflush := db.flushable_recovered
  have hle : db.versions.lastSequence ≤ db.recovered.lastSequence :=
    h.recorded.lastSequence_recovered ▸ le_lastOf _ _
  have hr := h.recorded
  refine ⟨⟨⟨hflush.isOpen, h.sound.listed, ?_⟩, ?_, ?_, hflush.matched, hflush.frozen,
    h.sound.freshTables, h.sound.freshWals⟩,
    ⟨hr.dirExists, hr.current, hr.manifest, hr.wal, hr.log, hle⟩, ?_, h.distinctLog, h.tables_le⟩
  · rw [db.recovered_tables.1, db.recovered_tables.2]
    exact h.sound.tables
  · -- the log is a part of the memory, whose keys are not those of the tables
    have hd := h.sound.distinct
    rw [allEntries, List.map_append] at hd ⊢
    obtain ⟨_, htables, hne⟩ := List.nodup_append.mp hd
    refine List.nodup_append.mpr ⟨?_, htables, fun a ha b hb => ?_⟩
    · rw [hmem]
      exact (OrderedMap.insertAll _ _).keys_nodup
    · rw [hmem] at ha
      obtain ⟨e, he, rfl⟩ := List.mem_map.mp ha
      exact hne _ (List.mem_map.mpr ⟨e, h.inMemory e (mem_of_mem_insertAll he), rfl⟩) b hb
  · intro e he
    rcases List.mem_append.mp he with he | he
    · exact hflush.sequences e he
    · exact (h.tables_le e he).trans hle
  · intro e he
    change e ∈ db.recovered.memEntries
    rw [hmem]
    exact h.mem_insertAll.mpr he

end Restorable

end DB

end TyLsm
