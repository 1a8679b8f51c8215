import TyLsm.Invariant
import TyLsm.Transaction

/-! Write groups and commits: the log records they append, and the entries they
add to the memtables. Both end in the same state. -/

namespace TyLsm

/-- The entries of records that take consecutive sequence numbers. -/
def entriesFrom : Nat → List BatchRecord → List Entry
  | _, [] => []
  | sequence, record :: records => record.toEntry sequence :: entriesFrom (sequence + 1) records

theorem entriesFrom_append (sequence : Nat) (l r : List BatchRecord) :
    entriesFrom sequence (l ++ r) =
      entriesFrom sequence l ++ entriesFrom (sequence + l.length) r := by
  induction l generalizing sequence with
  | nil => rfl
  | cons record l ih => simp [entriesFrom, ih, Nat.add_assoc, Nat.add_comm 1]

theorem entriesFrom_sequence {sequence : Nat} {records : List BatchRecord} {e : Entry}
    (h : e ∈ entriesFrom sequence records) :
    sequence ≤ e.1.sequence ∧ e.1.sequence < sequence + records.length := by
  induction records generalizing sequence with
  | nil => cases h
  | cons record records ih =>
    rcases List.mem_cons.mp h with rfl | h
    · simp
    · have := ih h
      simp only [List.length_cons]
      omega

theorem entriesFrom_nodup (sequence : Nat) (records : List BatchRecord) :
    ((entriesFrom sequence records).map Prod.fst).Nodup := by
  induction records generalizing sequence with
  | nil => exact List.nodup_nil
  | cons record records ih =>
    refine List.nodup_cons.mpr ⟨fun hmem => ?_, ih (sequence + 1)⟩
    obtain ⟨e, he, hk⟩ := List.mem_map.mp hmem
    have := (entriesFrom_sequence he).1
    rw [hk] at this
    simp at this

theorem exists_record_of_mem {sequence : Nat} {records : List BatchRecord} {e : Entry}
    (h : e ∈ entriesFrom sequence records) :
    ∃ record ∈ records, e = record.toEntry e.1.sequence := by
  induction records generalizing sequence with
  | nil => cases h
  | cons record records ih =>
    rcases List.mem_cons.mp h with rfl | h
    · exact ⟨record, by simp, rfl⟩
    · obtain ⟨r, hr, he⟩ := ih h
      exact ⟨r, by simp [hr], he⟩

theorem entriesFrom_matched {sequence : Nat} {records : List BatchRecord} {e : Entry}
    (h : e ∈ entriesFrom sequence records) : Matched e := by
  obtain ⟨record, _, he⟩ := exists_record_of_mem h
  rw [he]
  exact batchRecord_matched record _

/-- What a map of keys to values becomes by one record. -/
def BatchRecord.applyTo (record : BatchRecord) (m : OrderedMap Bytes Bytes) :
    OrderedMap Bytes Bytes :=
  match record with
  | .put key value => m.insert key value
  | .delete key => m.erase key

theorem BatchRecord.get?_applyTo (record : BatchRecord) (m : OrderedMap Bytes Bytes) (k : Bytes) :
    (record.applyTo m).get? k =
      if record.key = k then record.value.intoVisibleValue else m.get? k := by
  cases record with
  | put key value' =>
    by_cases hk : key = k <;>
      simp [applyTo, OrderedMap.get?_insert, BatchRecord.key, value, hk,
        ValueRecord.intoVisibleValue]
  | delete key =>
    by_cases hk : key = k <;>
      simp [applyTo, OrderedMap.get?_erase, BatchRecord.key, value, hk,
        ValueRecord.intoVisibleValue]

/-- The map that a state shows to reads at its last sequence or later. -/
def Shows (state : DBState) (below : List Entry) (m : OrderedMap Bytes Bytes) : Prop :=
  ∀ k s, state.lastSequence ≤ s → visible k s (state.memEntries ++ below) = m.get? k

namespace StateOk

variable {state : DBState} {below : List Entry}

theorem shows_applyRecords (h : StateOk state below) {m : OrderedMap Bytes Bytes}
    (hm : Shows state below m) (records : List BatchRecord) :
    Shows (state.applyRecords (state.lastSequence + 1) records) below
      (records.foldl (fun m record => record.applyTo m) m) := by
  induction records generalizing state m with
  | nil => exact hm
  | cons record records ih =>
    have hseq : state.lastSequence < state.lastSequence + 1 := Nat.lt_succ_self _
    have hlast : (state.putRecord (state.lastSequence + 1) record).lastSequence =
        state.lastSequence + 1 := max_eq_right hseq.le
    have hnext := ih (h.putRecord hseq record) (m := record.applyTo m) (by
      intro k s hs
      rw [hlast] at hs
      rw [h.visible_putRecord hseq record, BatchRecord.get?_applyTo, hm k s (by omega)]
      simp [hs])
    rw [hlast] at hnext
    exact hnext

theorem visible_applyRecords (h : StateOk state below) (records : List BatchRecord) {k : Bytes}
    {s sequence : Nat} (hseq : state.lastSequence < sequence) (hs : s < sequence) :
    visible k s ((state.applyRecords sequence records).memEntries ++ below) =
      visible k s (state.memEntries ++ below) := by
  induction records generalizing state sequence with
  | nil => rfl
  | cons record records ih =>
    have hlast : (state.putRecord sequence record).lastSequence = sequence := max_eq_right hseq.le
    rw [DBState.applyRecords, ih (h.putRecord hseq record) (by omega) (by omega),
      h.visible_putRecord hseq record]
    simp [not_le.mpr hs]

theorem mem_applyRecords (h : StateOk state below) (records : List BatchRecord) {sequence : Nat}
    (hseq : state.lastSequence < sequence) {e : Entry} :
    e ∈ (state.applyRecords sequence records).memEntries ↔
      e ∈ state.memEntries ∨ e ∈ entriesFrom sequence records := by
  induction records generalizing state sequence with
  | nil => simp [DBState.applyRecords, entriesFrom]
  | cons record records ih =>
    have hlast : (state.putRecord sequence record).lastSequence = sequence := max_eq_right hseq.le
    rw [DBState.applyRecords, ih (h.putRecord hseq record) (by omega),
      DBState.mem_memEntries_putRecord fun e he =>
        lt_of_le_of_lt (h.sequences e (List.mem_append.mpr (.inl he))) hseq,
      entriesFrom, List.mem_cons]
    tauto

end StateOk

namespace DB

/-- All records of a group, in order. -/
def groupRecords (requests : List Request) : List BatchRecord :=
  requests.flatMap (fun request => request.batch.records)

/-- Between the states before and after a group: the tables are the same, and the
records of the group took the next sequence numbers. -/
structure GroupApplied (state state' : DBState) (below : List Entry)
    (records : List BatchRecord) : Prop where
  ok : StateOk state' below
  closed : state'.closed = state.closed
  l0Tables : state'.l0Tables = state.l0Tables
  levelTables : state'.levelTables = state.levelTables
  lastSequence : state'.lastSequence = state.lastSequence + records.length
  mem : ∀ e, e ∈ state'.memEntries ↔
    e ∈ state.memEntries ∨ e ∈ entriesFrom (state.lastSequence + 1) records
  shows : ∀ m, Shows state below m →
    Shows state' below (records.foldl (fun m record => record.applyTo m) m)
  older : ∀ k s, s ≤ state.lastSequence →
    visible k s (state'.memEntries ++ below) = visible k s (state.memEntries ++ below)

theorem applyRecords_tables (state : DBState) (sequence : Nat) (records : List BatchRecord) :
    (state.applyRecords sequence records).closed = state.closed ∧
    (state.applyRecords sequence records).l0Tables = state.l0Tables ∧
    (state.applyRecords sequence records).levelTables = state.levelTables ∧
    (state.applyRecords sequence records).immutables = state.immutables := by
  induction records generalizing state sequence with
  | nil => exact ⟨rfl, rfl, rfl, rfl⟩
  | cons record records ih => exact ih (state.putRecord sequence record) (sequence + 1)

theorem freezeMutableIfNeeded_tables (state : DBState) (size : Nat) (kind : MemTableKind) :
    (state.freezeMutableIfNeeded size kind).1.closed = state.closed ∧
    (state.freezeMutableIfNeeded size kind).1.l0Tables = state.l0Tables ∧
    (state.freezeMutableIfNeeded size kind).1.levelTables = state.levelTables := by
  unfold DBState.freezeMutableIfNeeded
  split <;> exact ⟨rfl, rfl, rfl⟩

/-- What a group adds to the state, in whatever order its memtables are searched. -/
structure GroupAdds (state state' : DBState) (records : List BatchRecord) : Prop where
  closed : state'.closed = state.closed
  l0Tables : state'.l0Tables = state.l0Tables
  levelTables : state'.levelTables = state.levelTables
  lastSequence : state'.lastSequence = state.lastSequence + records.length
  perm : state'.memEntries.Perm (entriesFrom (state.lastSequence + 1) records ++ state.memEntries)
  frozen : (∀ m ∈ state.immutables, m.entries ≠ []) → ∀ m ∈ state'.immutables, m.entries ≠ []

theorem memEntries_putRecord_perm {state : DBState} {sequence : Nat} (record : BatchRecord)
    (hfresh : ∀ e ∈ state.memEntries, e.1.sequence < sequence) :
    (state.putRecord sequence record).memEntries.Perm
      (record.toEntry sequence :: state.memEntries) := by
  have hne : ∀ p ∈ state.mutable.entries, p.1 ≠ (record.toEntry sequence).1 := by
    intro p hp heq
    have := hfresh p (by rw [DBState.memEntries_eq]; exact List.mem_append.mpr (.inl hp))
    rw [heq] at this
    exact Nat.lt_irrefl _ this
  have hinsert : (state.putRecord sequence record).mutable.entries =
      (state.mutable.map.insert (record.toEntry sequence).1 (record.toEntry sequence).2).entries := by
    cases record with
    | put key value => exact congrArg OrderedMap.entries (MemTable.map_put _ _ _ _)
    | delete key => exact congrArg OrderedMap.entries (MemTable.map_delete _ _ _)
  rw [DBState.memEntries_eq, DBState.memEntries_eq, hinsert, ← List.cons_append]
  exact (OrderedMap.insert_perm hne).append_right _

theorem memEntries_applyRecords_perm {state : DBState} {sequence : Nat}
    (records : List BatchRecord) (hfresh : ∀ e ∈ state.memEntries, e.1.sequence < sequence) :
    (state.applyRecords sequence records).memEntries.Perm
      (entriesFrom sequence records ++ state.memEntries) := by
  induction records generalizing state sequence with
  | nil => exact List.Perm.refl _
  | cons record records ih =>
    have hput := memEntries_putRecord_perm record hfresh
    have hfresh' : ∀ e ∈ (state.putRecord sequence record).memEntries,
        e.1.sequence < sequence + 1 := by
      intro e he
      rcases List.mem_cons.mp (hput.mem_iff.mp he) with rfl | he
      · exact Nat.lt_succ_self _
      · exact (hfresh e he).trans (Nat.lt_succ_self _)
    refine (ih hfresh').trans ((hput.append_left _).trans ?_)
    exact List.perm_middle

theorem groupAdds_batch {state : DBState}
    (h : ∀ e ∈ state.memEntries, e.1.sequence ≤ state.lastSequence) (size : Nat)
    (kind : MemTableKind) (batch : WriteBatch) :
    GroupAdds state ((state.applyBatch (state.lastSequence + 1) batch).freezeMutableIfNeeded
      size kind).1 batch.records := by
  obtain ⟨hc, h0, hl, himm⟩ := applyRecords_tables state (state.lastSequence + 1) batch.records
  obtain ⟨hc', h0', hl'⟩ := freezeMutableIfNeeded_tables
    (state.applyRecords (state.lastSequence + 1) batch.records) size kind
  refine ⟨hc'.trans hc, h0'.trans h0, hl'.trans hl, ?_, ?_, fun hfrozen => ?_⟩
  · rw [DBState.lastSequence_freezeMutableIfNeeded]
    exact DBState.lastSequence_applyRecords _ _ _ rfl
  · rw [DBState.memEntries_freezeMutableIfNeeded]
    exact memEntries_applyRecords_perm batch.records fun e he => Nat.lt_succ_of_le (h e he)
  · unfold DBState.freezeMutableIfNeeded
    split
    · rw [show (state.applyBatch (state.lastSequence + 1) batch).immutables = _ from himm]
      exact hfrozen
    · rename_i hno
      intro m hm
      rcases List.mem_append.mp hm with hm | hm
      · rw [show (state.applyBatch (state.lastSequence + 1) batch).immutables = _ from himm] at hm
        exact hfrozen m hm
      · rw [List.mem_singleton.mp hm]
        rw [Bool.or_eq_true, not_or, MemTable.isEmpty_iff] at hno
        exact hno.1

theorem groupAdds_items (options : Options) {state : DBState}
    (h : ∀ e ∈ state.memEntries, e.1.sequence ≤ state.lastSequence) (requests : List Request) :
    GroupAdds state (applyItems options state (groupItems (state.lastSequence + 1) requests)).1
      (groupRecords requests) := by
  induction requests generalizing state with
  | nil => exact ⟨rfl, rfl, rfl, rfl, List.Perm.refl _, fun hf => hf⟩
  | cons request requests ih =>
    have hfirst := groupAdds_batch h options.memtableSize options.memtableKind request.batch
    set mid := ((state.applyBatch (state.lastSequence + 1) request.batch).freezeMutableIfNeeded
      options.memtableSize options.memtableKind).1 with hmid
    have hnext : mid.lastSequence + 1 =
        state.lastSequence + 1 + request.batch.records.length := by
      rw [hfirst.lastSequence, Nat.add_right_comm]
    have hle : ∀ e ∈ mid.memEntries, e.1.sequence ≤ mid.lastSequence := by
      intro e he
      rw [hfirst.lastSequence]
      rcases List.mem_append.mp (hfirst.perm.mem_iff.mp he) with he | he
      · have := (entriesFrom_sequence he).2
        omega
      · exact (h e he).trans (Nat.le_add_right _ _)
    have hrest := ih hle
    have hperm := hrest.perm
    rw [hnext] at hrest hperm
    have hrecords : groupRecords (request :: requests) =
        request.batch.records ++ groupRecords requests := rfl
    refine ⟨hrest.closed.trans hfirst.closed, hrest.l0Tables.trans hfirst.l0Tables,
      hrest.levelTables.trans hfirst.levelTables, ?_, ?_, fun hf => hrest.frozen (hfirst.frozen hf)⟩
    · rw [hrecords, List.length_append, ← Nat.add_assoc, ← hfirst.lastSequence]
      exact hrest.lastSequence
    · rw [hrecords, entriesFrom_append]
      refine hperm.trans ((hfirst.perm.append_left _).trans ?_)
      rw [← List.append_assoc]
      exact List.perm_append_comm.append_right _

theorem groupApplied_batch {state : DBState} {below : List Entry} (h : StateOk state below)
    (size : Nat) (kind : MemTableKind) (batch : WriteBatch) :
    GroupApplied state ((state.applyBatch (state.lastSequence + 1) batch).freezeMutableIfNeeded
      size kind).1 below batch.records := by
  have hseq : state.lastSequence < state.lastSequence + 1 := Nat.lt_succ_self _
  obtain ⟨hc, h0, hl, _⟩ := applyRecords_tables state (state.lastSequence + 1) batch.records
  obtain ⟨hc', h0', hl'⟩ := freezeMutableIfNeeded_tables
    (state.applyRecords (state.lastSequence + 1) batch.records) size kind
  refine ⟨(h.applyRecords hseq _).freezeMutableIfNeeded size kind, hc'.trans hc, h0'.trans h0,
    hl'.trans hl, ?_, ?_, ?_, ?_⟩
  · rw [DBState.lastSequence_freezeMutableIfNeeded]
    exact DBState.lastSequence_applyRecords _ _ _ rfl
  · intro e
    rw [DBState.memEntries_freezeMutableIfNeeded]
    exact h.mem_applyRecords batch.records hseq
  · intro m hm k s hs
    rw [DBState.lastSequence_freezeMutableIfNeeded] at hs
    rw [DBState.memEntries_freezeMutableIfNeeded]
    exact h.shows_applyRecords hm batch.records k s hs
  · intro k s hs
    rw [DBState.memEntries_freezeMutableIfNeeded]
    exact h.visible_applyRecords batch.records hseq (by omega)

theorem groupApplied_items (options : Options) {state : DBState} {below : List Entry}
    (h : StateOk state below) (requests : List Request) :
    GroupApplied state (applyItems options state (groupItems (state.lastSequence + 1) requests)).1
      below (groupRecords requests) := by
  induction requests generalizing state with
  | nil => exact ⟨h, rfl, rfl, rfl, rfl, by simp [groupItems, applyItems, groupRecords, entriesFrom],
      fun m hm => hm, fun _ _ _ => rfl⟩
  | cons request requests ih =>
    have hfirst := groupApplied_batch h options.memtableSize options.memtableKind request.batch
    set mid := ((state.applyBatch (state.lastSequence + 1) request.batch).freezeMutableIfNeeded
      options.memtableSize options.memtableKind).1 with hmid
    have hnext : mid.lastSequence + 1 =
        state.lastSequence + 1 + request.batch.records.length := by
      rw [hfirst.lastSequence, Nat.add_right_comm]
    have hrest := ih hfirst.ok
    rw [hnext] at hrest
    have hrecords : groupRecords (request :: requests) =
        request.batch.records ++ groupRecords requests := rfl
    refine ⟨hrest.ok, hrest.closed.trans hfirst.closed, hrest.l0Tables.trans hfirst.l0Tables,
      hrest.levelTables.trans hfirst.levelTables, ?_, ?_, ?_, ?_⟩
    · rw [hrecords, List.length_append, ← Nat.add_assoc, ← hfirst.lastSequence]
      exact hrest.lastSequence
    · intro e
      rw [hrecords, entriesFrom_append, List.mem_append, ← or_assoc, ← hfirst.mem e]
      have hmem := hrest.mem e
      rw [hnext] at hmem
      exact hmem
    · intro m hm
      rw [hrecords, List.foldl_append]
      exact hrest.shows _ (hfirst.shows m hm)
    · intro k s hs
      rw [← hfirst.older k s hs]
      refine hrest.older k s ?_
      rw [hfirst.lastSequence]
      omega

/-- The log records that a group appends. -/
def groupOps (db : DB) (items : List GroupWriteItem) : List DiskOp :=
  if db.options.walEnabled then
    (items.filter (fun item => !item.opts.disableWal)).map
      (fun item => .appendWal db.wal item.startSequence item.batch)
  else []

/-- The database after a group that succeeded. -/
def written (db : DB) (requests : List Request) : DB :=
  let items := groupItems (db.state.lastSequence + 1) requests
  { db.performed (db.groupOps items) with state := (applyItems db.options db.state items).1 }

/-- Whether a group freezes a memtable. -/
def freezes (db : DB) (requests : List Request) : Bool :=
  (applyItems db.options db.state (groupItems (db.state.lastSequence + 1) requests)).2

theorem run_appendItems (db : DB) (items : List GroupWriteItem) :
    appendItems items db = .ok () (db.performed
      ((items.filter (fun item => !item.opts.disableWal)).map
        (fun item => .appendWal db.wal item.startSequence item.batch))) := by
  induction items generalizing db with
  | nil => simp [appendItems, performed]
  | cons item items ih =>
    rw [appendItems, run_bind_ok (run_get db)]
    cases hd : item.opts.disableWal with
    | true =>
      simp only [Bool.not_true, Bool.false_eq_true, if_false]
      refine (ih db).trans ?_
      simp [hd]
    | false =>
      simp only [Bool.not_false, if_true]
      rw [run_bind_ok (run_act _ _), ih]
      simp [hd, performed]

theorem run_applyWriteGroupToMemtable {db : DB} (hopen : db.state.closed = false)
    (requests : List Request) (sync : Except Error Unit)
    (hsync : sync = .ok () ∨ (db.options.walEnabled && shouldSync db.options
      (groupItems (db.state.lastSequence + 1) requests)) = false) :
    applyWriteGroupToMemtable sync requests db =
      .ok (db.freezes requests) (db.written requests) := by
  rw [applyWriteGroupToMemtable, run_bind_ok (run_get db)]
  simp only [hopen, Bool.false_eq_true, if_false]
  cases hw : db.options.walEnabled with
  | false =>
    simp only [Bool.false_eq_true, if_false]
    rw [run_bind_ok (run_modify _ _), run_pure]
    simp [written, freezes, groupOps, hw, performed]
  | true =>
    simp only [if_true]
    rw [run_bind_ok (run_appendItems _ _)]
    cases hs : shouldSync db.options (groupItems (db.state.lastSequence + 1) requests) with
    | false =>
      simp only [Bool.false_eq_true, if_false]
      rw [run_bind_ok (run_modify _ _), run_pure]
      simp [written, freezes, groupOps, hw, performed]
    | true =>
      obtain rfl : sync = .ok () := hsync.resolve_right (by simp [hw, hs])
      simp only [if_true]
      rw [run_bind_ok (run_ofExcept_ok _ _), run_bind_ok (run_modify _ _), run_pure]
      simp [written, freezes, groupOps, hw, performed]

theorem run_applyWriteGroupToMemtable_error {db : DB} (hopen : db.state.closed = false)
    (requests : List Request) (err : Error)
    (hsync : (db.options.walEnabled && shouldSync db.options
      (groupItems (db.state.lastSequence + 1) requests)) = true) :
    applyWriteGroupToMemtable (.error err) requests db = .error err
      (db.performed (db.groupOps (groupItems (db.state.lastSequence + 1) requests))) := by
  rw [Bool.and_eq_true] at hsync
  rw [applyWriteGroupToMemtable, run_bind_ok (run_get db)]
  simp only [hopen, Bool.false_eq_true, if_false, hsync.1, hsync.2, if_true]
  rw [run_bind_ok (run_appendItems _ _), run_bind_error (run_ofExcept_error _ _)]
  simp [groupOps, hsync.1]

/-- A commit without conflicts is a group of one batch with the default write options. -/
theorem run_commitToMemtable {db : DB} (hopen : db.state.closed = false) (readSeq : Nat)
    {batch : WriteBatch} (hne : batch.isEmpty = false) (readKeys : List Bytes)
    (readRanges : List ReadRange)
    (hok : db.ensureNoTransactionConflicts readSeq readKeys readRanges (batchWriteKeys batch) =
      .ok ()) (sync : Except Error Unit) :
    commitToMemtable sync readSeq batch readKeys readRanges db =
      applyWriteGroupToMemtable sync [⟨batch, {}⟩] db := by
  rw [commitToMemtable, applyWriteGroupToMemtable, run_bind_ok (run_get db),
    run_bind_ok (run_get db)]
  simp only [hopen, Bool.false_eq_true, if_false, hok]
  rw [run_bind_ok (run_ofExcept_ok _ _)]
  have hshould : shouldSync db.options (groupItems (db.state.lastSequence + 1) [⟨batch, {}⟩]) =
      (db.options.walSync == .perWrite) := by
    simp [shouldSync, groupItems]
  simp only [hne, Bool.false_eq_true, if_false, hshould]
  cases hw : db.options.walEnabled with
  | false => simp [groupItems, applyItems]
  | true =>
    simp only [if_true]
    rw [run_bind_ok (run_act _ _), run_bind_ok (run_appendItems _ _)]
    cases hs : db.options.walSync == .perWrite <;>
      simp [groupItems, applyItems, performed, Disk.apply]

theorem commitToMemtable_cases {db : DB} (hopen : db.state.closed = false)
    (sync : Except Error Unit) (readSeq : Nat) (batch : WriteBatch) (readKeys : List Bytes)
    (readRanges : List ReadRange) :
    (∃ err, commitToMemtable sync readSeq batch readKeys readRanges db = .error err db) ∨
    (batch.records = [] ∧
      commitToMemtable sync readSeq batch readKeys readRanges db = .ok false db) ∨
    (batch.records ≠ [] ∧ commitToMemtable sync readSeq batch readKeys readRanges db =
      applyWriteGroupToMemtable sync [⟨batch, {}⟩] db) := by
  cases hconf : db.ensureNoTransactionConflicts readSeq readKeys readRanges
      (batchWriteKeys batch) with
  | error err =>
    refine .inl ⟨err, ?_⟩
    rw [commitToMemtable, run_bind_ok (run_get db)]
    simp only [hopen, Bool.false_eq_true, if_false, hconf]
    exact run_bind_error (run_ofExcept_error _ _)
  | ok u =>
    cases hempty : batch.isEmpty with
    | true =>
      refine .inr (.inl ⟨List.isEmpty_iff.mp hempty, ?_⟩)
      rw [commitToMemtable, run_bind_ok (run_get db)]
      simp only [hopen, Bool.false_eq_true, if_false, hconf]
      rw [run_bind_ok (run_ofExcept_ok _ _)]
      simp only [hempty, if_true]
      rfl
    | false =>
      refine .inr (.inr ⟨fun he => ?_, run_commitToMemtable hopen readSeq hempty readKeys
        readRanges hconf sync⟩)
      simp [WriteBatch.isEmpty, he] at hempty

end DB

theorem Disk.applyAll_appendWal {d : Disk} {number : Nat} {old : List (Nat × WriteBatch)}
    (h : d.wals number = some old) (items : List DB.GroupWriteItem) :
    d.applyAll (items.map (fun item => .appendWal number item.startSequence item.batch)) =
      let records := old ++ items.map (fun item => (item.startSequence, item.batch))
      { d with wals := Function.update d.wals number (some records) } := by
  induction items generalizing d old with
  | nil => simp [← h]
  | cons item items ih =>
    rw [List.map_cons, applyAll_cons, @ih _ (old ++ [(item.startSequence, item.batch)])
      (by simp [apply, h])]
    simp [apply, h]

end TyLsm
