import TyLsm.Triples
import TyLsm.Serializable

/-! What the calls do to the directory. Every call, whether it fails or not, changes it only
by operations that it journals, and a table that it writes is one that the builder makes. -/

namespace TyLsm

/-- The table that the builder makes from entries that carry the type of their record. -/
structure Table.Built (blockSize : Nat) (table : Table) : Prop where
  build : table = buildTable blockSize table.entries
  matched : ∀ e ∈ table.entries, Matched e

theorem built_buildTable (blockSize : Nat) {es : List Entry} (h : ∀ e ∈ es, Matched e) :
    (buildTable blockSize es).Built blockSize := by
  have hentries : (buildTable blockSize es).entries = es := entries_buildTable h
  exact ⟨by rw [hentries], by rwa [hentries]⟩

/-- An operation of a database that is open already. -/
def DiskOp.Ordinary (blockSize : Nat) : DiskOp → Prop
  | createManifest => False
  | setCurrent => False
  | renameTable _ table => table.Built blockSize
  | _ => True

namespace DB

/-- What is in memory carries the type of its record, and every table is built. -/
structure Typed (db : DB) : Prop where
  memory : ∀ e ∈ db.state.memEntries, Matched e
  tables : ∀ n table, db.disk.tables n = some table → table.Built db.options.blockSize

/-- A call can lead from `db` to `db'`. -/
structure Journals (db db' : DB) : Prop where
  ops : ∃ ops, db'.journal = db.journal ++ ops ∧ db'.disk = db.disk.applyAll ops ∧
    ∀ op ∈ ops, op.Ordinary db.options.blockSize
  options : db'.options = db.options
  typed : db.Typed → db'.Typed

variable {db db' db'' : DB}

theorem Journals.refl (db : DB) : Journals db db :=
  ⟨⟨[], (List.append_nil _).symm, rfl, by simp⟩, rfl, id⟩

theorem Journals.trans (h : Journals db db') (h' : Journals db' db'') : Journals db db'' := by
  obtain ⟨ops, hjournal, hdisk, hops⟩ := h.ops
  obtain ⟨ops', hjournal', hdisk', hops'⟩ := h'.ops
  refine ⟨⟨ops ++ ops', ?_, ?_, ?_⟩, h'.options.trans h.options, fun ht => h'.typed (h.typed ht)⟩
  · rw [hjournal', hjournal, List.append_assoc]
  · rw [hdisk', hdisk, Disk.applyAll_append]
  · intro op hop
    rcases List.mem_append.mp hop with hop | hop
    · exact hops op hop
    · exact h.options ▸ hops' op hop

/-- A change of the memory. -/
theorem Journals.of_state (hdisk : db'.disk = db.disk) (hjournal : db'.journal = db.journal)
    (hoptions : db'.options = db.options)
    (hmemory : (∀ e ∈ db.state.memEntries, Matched e) → ∀ e ∈ db'.state.memEntries, Matched e) :
    Journals db db' := by
  refine ⟨⟨[], ?_, hdisk, by simp⟩, hoptions, fun h => ⟨hmemory h.memory, ?_⟩⟩
  · rw [hjournal, List.append_nil]
  · rw [hdisk, hoptions]
    exact h.tables

theorem Journals.of_op {op : DiskOp} (hop : op.Ordinary db.options.blockSize) :
    Journals db { db with disk := db.disk.apply op, journal := db.journal ++ [op] } := by
  refine ⟨⟨[op], rfl, rfl, by simpa using hop⟩, rfl, fun h => ⟨h.memory, fun n table htable => ?_⟩⟩
  cases op with
  | renameTable number table' =>
    by_cases hn : n = number
    · subst hn
      have heq : some table' = some table := by simpa [Disk.apply] using htable
      rw [← Option.some.inj heq]
      exact hop
    · exact h.tables n table (by simpa [Disk.apply, Function.update_of_ne hn] using htable)
  | removeTable number =>
    by_cases hn : n = number
    · subst hn
      simp [Disk.apply] at htable
    · exact h.tables n table (by simpa [Disk.apply, Function.update_of_ne hn] using htable)
  | createDir => exact h.tables n table htable
  | createManifest => exact h.tables n table htable
  | appendManifest edit => exact h.tables n table htable
  | setCurrent => exact h.tables n table htable
  | openWal number => exact h.tables n table htable
  | appendWal number startSequence batch => exact h.tables n table htable

variable {α β : Type} {P : α → Prop} {Q : β → Prop}

theorem journals_pure {a : α} (ha : P a) : Triple Journals (pure a : DBM α) db P :=
  Triple.pure (.refl db) ha

theorem journals_throw (err : Error) : Triple Journals (throw err : DBM α) db P :=
  Triple.throw (.refl db) err

theorem journals_bind {x : DBM α} {f : α → DBM β} (hx : Triple Journals x db P)
    (hf : ∀ a db', Journals db db' → P a → Triple Journals (f a) db' Q) :
    Triple Journals (x >>= f) db Q :=
  hx.bind (fun h h' => h.trans h') hf

theorem journals_throw_bind (err : Error) (f : α → DBM β) :
    Triple Journals (throw err >>= f) db Q :=
  journals_bind (P := fun _ => False) (journals_throw err) fun _ _ _ hno => absurd hno id

theorem journals_tryCatch {x : DBM α} {handle : Error → DBM α} (hx : Triple Journals x db P)
    (hf : ∀ err db', Journals db db' → Triple Journals (handle err) db' P) :
    Triple Journals (tryCatch x handle) db P :=
  hx.tryCatch (fun h h' => h.trans h') hf

theorem journals_ofExcept {r : Except Error α} (h : ∀ a, r = .ok a → P a) :
    Triple Journals (ofExcept r) db P := by
  cases r with
  | ok a => exact journals_pure (h a rfl)
  | error err => exact journals_throw err

theorem journals_act {op : DiskOp} (hop : op.Ordinary db.options.blockSize) :
    Triple Journals (act op) db fun _ => True := Triple.modify (.of_op hop)

/-- A program that leaves the memory, the directory and the journal alone. -/
theorem journals_modify {f : DB → DB} (hdisk : (f db).disk = db.disk)
    (hjournal : (f db).journal = db.journal) (hoptions : (f db).options = db.options)
    (hmemory : (∀ e ∈ db.state.memEntries, Matched e) → ∀ e ∈ (f db).state.memEntries, Matched e) :
    Triple Journals (modify f : DBM PUnit) db fun _ => True :=
  Triple.modify (.of_state hdisk hjournal hoptions hmemory)

theorem journals_set {db' : DB} (hdisk : db'.disk = db.disk) (hjournal : db'.journal = db.journal)
    (hoptions : db'.options = db.options)
    (hmemory : (∀ e ∈ db.state.memEntries, Matched e) → ∀ e ∈ db'.state.memEntries, Matched e) :
    Triple Journals (set db' : DBM PUnit) db fun _ => True :=
  Triple.set (.of_state hdisk hjournal hoptions hmemory)

theorem journals_allocateFileNumber : Triple Journals allocateFileNumber db fun _ => True :=
  Triple.get_bind (journals_bind (journals_set rfl rfl rfl id) fun _ _ _ _ => journals_pure trivial)

theorem journals_logAndApply (edit : VersionEdit) :
    Triple Journals (logAndApply edit) db fun _ => True :=
  journals_bind (journals_act trivial) fun _ _ _ _ => Triple.get_bind
    (journals_bind (journals_set rfl rfl rfl id) fun _ _ _ _ =>
      journals_ofExcept fun _ _ => trivial)

theorem journals_logAndApplyAll (edits : List VersionEdit) :
    Triple Journals (logAndApplyAll edits) db fun _ => True := by
  induction edits generalizing db with
  | nil => exact journals_pure trivial
  | cons edit edits ih => exact journals_bind (journals_logAndApply edit) fun _ _ _ _ => ih

theorem journals_writeTable {entries : List Entry} (h : ∀ e ∈ entries, Matched e) (number : Nat) :
    Triple Journals (writeTable entries number) db fun _ => True :=
  Triple.get_bind (journals_bind (journals_act (built_buildTable _ h)) fun _ _ _ _ =>
    journals_bind (journals_ofExcept fun _ _ => trivial) fun _ _ _ _ => journals_pure trivial)

theorem journals_writeL0Table {memtable : MemTable} (h : ∀ e ∈ memtable.entries, Matched e)
    (fileNumber : Nat) : Triple Journals (writeL0Table memtable fileNumber) db fun _ => True := by
  refine Triple.get_bind ?_
  split
  · exact journals_throw_bind _ _
  · exact journals_writeTable h fileNumber

theorem journals_publishL0Table (file : FileMeta) (lastSequence : Nat) :
    Triple Journals (publishL0Table file lastSequence) db fun _ => True :=
  journals_bind (journals_logAndApply _) fun _ _ _ _ =>
    journals_bind (journals_logAndApply _) fun _ _ _ _ =>
    journals_bind journals_allocateFileNumber fun _ _ _ _ =>
    journals_bind (journals_act trivial) fun _ _ _ _ =>
    journals_bind (journals_logAndApply _) fun _ _ _ _ => journals_modify rfl rfl rfl id

theorem memEntries_restoreFlushMemtable {state : DBState} {memtable : MemTable}
    {source : DBState.FlushSource} {e : Entry}
    (he : e ∈ (state.restoreFlushMemtable memtable source).memEntries) :
    e ∈ state.memEntries ∨ e ∈ memtable.entries := by
  cases source with
  | mutable =>
    by_cases hempty : state.mutable.isEmpty = true
    · rw [DBState.restoreFlushMemtable, if_pos hempty] at he
      rcases List.mem_append.mp he with he | he
      · exact .inr he
      · exact .inl (List.mem_append.mpr (.inr he))
    · rw [DBState.restoreFlushMemtable, if_neg hempty] at he
      simp only [DBState.memEntries, DBState.memtables, List.reverse_append, List.reverse_cons,
        List.reverse_nil, List.nil_append, List.cons_append, List.flatMap_cons,
        List.mem_append] at he ⊢
      grind
  | immutableOldest =>
    simp only [DBState.restoreFlushMemtable, DBState.memEntries, DBState.memtables,
      List.reverse_cons, List.flatMap_append, List.flatMap_cons, List.flatMap_nil, List.append_nil,
      List.mem_append] at he ⊢
    grind

theorem journals_flush (h : db.Typed) : Triple Journals flush db fun _ => True := by
  refine Triple.get_bind ?_
  dsimp only
  by_cases hclosed : db.state.closed = true
  · rw [if_pos hclosed]
    exact journals_throw_bind _ _
  · rw [if_neg hclosed]
    cases htake : db.state.takeOldestFlushableMemtable db.options.memtableKind with
    | none => exact journals_pure trivial
    | some taken =>
      obtain ⟨memtable, source, state⟩ := taken
      have hmem := (DBState.takeOldest_spec htake).1
      have hstate : ∀ e ∈ state.memEntries, Matched e := fun e he =>
        h.memory e (by rw [hmem]; exact List.mem_append_left _ he)
      have hmemtable : ∀ e ∈ memtable.entries, Matched e := fun e he =>
        h.memory e (by rw [hmem]; exact List.mem_append_right _ he)
      have hset : Triple Journals (set { db with state := state } : DBM PUnit) db fun _ => True :=
        journals_set rfl rfl rfl fun _ => hstate
      refine journals_bind hset fun _ _ _ _ => journals_bind journals_allocateFileNumber
        fun fileNumber _ _ _ => journals_bind (P := fun _ => True)
          (journals_tryCatch ?_ fun err db' _ => ?_)
          fun ref db' _ _ => journals_modify rfl rfl rfl id
      · exact journals_bind (journals_writeL0Table hmemtable fileNumber) fun ref _ _ _ =>
          journals_bind (journals_publishL0Table _ _) fun _ _ _ _ => journals_pure trivial
      · refine journals_bind (journals_modify rfl rfl rfl fun hold e he => ?_) fun _ _ _ _ =>
          journals_throw err
        rcases memEntries_restoreFlushMemtable he with he | he
        · exact hold e he
        · exact hmemtable e he

theorem journals_readEntries (h : db.Typed) (files : List FileMeta) :
    Triple Journals (readEntries files) db fun entries => ∀ e ∈ entries, Matched e := by
  induction files generalizing db with
  | nil => exact journals_pure (by simp)
  | cons file files ih =>
    refine Triple.get_bind (journals_bind (P := fun table => ∀ e ∈ table.entries, Matched e)
      (journals_ofExcept fun table htable => ?_) fun table db' hj htable => ?_)
    · have hfile : db.disk.tables file.number = some table := by
        unfold Disk.openTable at htable
        cases hopen : db.disk.tables file.number with
        | none => simp [hopen] at htable
        | some t =>
          rw [hopen] at htable
          exact congrArg some (Except.ok.inj htable)
      exact (h.tables _ table hfile).matched
    · refine journals_bind (ih (hj.typed h)) fun rest _ _ hrest => journals_pure fun e he => ?_
      rcases List.mem_append.mp he with he | he
      · exact htable e he
      · exact hrest e he

theorem journals_trivialMoveNeedsRewrite (h : db.Typed) (file : FileMeta) (gcWatermark : Nat)
    (dropTombstones : Bool) :
    Triple Journals (trivialMoveNeedsRewrite file gcWatermark dropTombstones) db fun _ => True :=
  journals_bind (journals_readEntries h [file]) fun _ _ _ _ => journals_pure trivial

theorem journals_writeOutputs {chunks : List (List Entry × Nat)}
    (h : ∀ chunk ∈ chunks, ∀ e ∈ chunk.1, Matched e) :
    Triple Journals (writeOutputs chunks) db fun _ => True := by
  induction chunks generalizing db with
  | nil => exact journals_pure trivial
  | cons chunk chunks ih =>
    exact journals_bind (journals_writeTable (h chunk (by simp)) chunk.2) fun _ _ _ _ =>
      journals_bind (ih fun c hc => h c (by simp [hc])) fun _ _ _ _ => journals_pure trivial

theorem journals_writeCompactionOutputs {entries : List Entry} (h : ∀ e ∈ entries, Matched e) :
    Triple Journals (writeCompactionOutputs entries) db fun _ => True := by
  unfold writeCompactionOutputs
  split
  · exact journals_pure trivial
  · refine Triple.get_bind (journals_bind (journals_set rfl rfl rfl id) fun _ _ _ _ =>
      journals_writeOutputs fun chunk hchunk e he => h e ?_)
    rw [← splitCompactionEntries_flatten entries db.options.targetFileSizeBase
      db.options.maxSubcompactions]
    exact List.mem_flatten.mpr ⟨chunk.1, (List.of_mem_zip hchunk).1, he⟩

theorem journals_refreshTablesFromVersion :
    Triple Journals refreshTablesFromVersion db fun _ => True := by
  refine Triple.get_bind ?_
  cases hopen : openVersionTables db.disk db.versions.current with
  | ok tables => exact journals_set rfl rfl rfl id
  | error err => exact journals_throw_bind _ _

theorem journals_deleteObsoleteFiles (numbers : List Nat) :
    Triple Journals (deleteObsoleteFiles numbers) db fun _ => True := by
  induction numbers generalizing db with
  | nil => exact journals_pure trivial
  | cons number numbers ih => exact journals_bind (journals_act trivial) fun _ _ _ _ => ih

theorem journals_moveTrivially (task : CompactionTask) (file : FileMeta) :
    Triple Journals (moveTrivially task file) db fun _ => True :=
  journals_bind (journals_logAndApplyAll _) fun _ _ _ _ => journals_refreshTablesFromVersion

theorem journals_rewrite (h : db.Typed) (task : CompactionTask) (gcWatermark : Nat)
    (dropTombstones : Bool) :
    Triple Journals (rewrite task gcWatermark dropTombstones) db fun _ => True :=
  journals_bind (journals_readEntries h _) fun _ _ _ hentries =>
    journals_bind
      (journals_writeCompactionOutputs fun e he => hentries e (mem_compactEntries.mp he).1)
      fun _ _ _ _ => journals_bind (journals_logAndApplyAll _) fun _ _ _ _ =>
        journals_bind journals_refreshTablesFromVersion fun _ _ _ _ =>
          journals_deleteObsoleteFiles _

theorem journals_executeCompaction (h : db.Typed) (task : CompactionTask) :
    Triple Journals (executeCompaction task) db fun _ => True := by
  unfold executeCompaction
  cases task.inputFiles with
  | nil => exact journals_pure trivial
  | cons file files =>
    refine Triple.get_bind ?_
    have hrest : ∀ needsRewrite db', Journals db db' → True → Triple Journals (do
        if needsRewrite = true then
          rewrite task db.gcWatermark (canDropTombstones db.versions.current task)
        else moveTrivially task file
        return true) db' fun _ => True := by
      intro needsRewrite db' hj _
      cases needsRewrite with
      | true =>
        exact journals_bind (journals_rewrite (hj.typed h) _ _ _) fun _ _ _ _ =>
          journals_pure trivial
      | false =>
        exact journals_bind (journals_moveTrivially _ _) fun _ _ _ _ => journals_pure trivial
    cases task.isTrivialMove with
    | true => exact journals_bind (journals_trivialMoveNeedsRewrite h _ _ _) hrest
    | false => exact journals_bind (journals_pure trivial) hrest

theorem journals_compactRange (h : db.Typed) (lower upper : Bound) :
    Triple Journals (compactRange lower upper) db fun _ => True := by
  refine Triple.get_bind ?_
  cases CompactionPicker.pickManual db.versions.current lower upper with
  | none => exact journals_pure trivial
  | some task =>
    exact journals_bind (journals_executeCompaction h task) fun _ _ _ _ => journals_pure trivial

theorem journals_applyWritePressure (h : db.Typed) :
    Triple Journals applyWritePressure db fun _ => True := by
  refine Triple.get_bind ?_
  split
  · exact journals_compactRange h _ _
  · exact journals_pure trivial

theorem journals_appendItems (items : List GroupWriteItem) :
    Triple Journals (appendItems items) db fun _ => True := by
  induction items generalizing db with
  | nil => exact journals_pure trivial
  | cons item items ih =>
    refine Triple.get_bind ?_
    split
    · exact journals_bind (journals_act trivial) fun _ _ _ _ => ih
    · exact ih

theorem memEntries_putRecord_subset {state : DBState} {sequence : Nat} {record : BatchRecord}
    {e : Entry} (he : e ∈ (state.putRecord sequence record).memEntries) :
    e = record.toEntry sequence ∨ e ∈ state.memEntries := by
  have hinsert : (state.putRecord sequence record).mutable.entries =
      (state.mutable.map.insert (record.toEntry sequence).1
        (record.toEntry sequence).2).entries := by
    cases record with
    | put key value => exact congrArg OrderedMap.entries (MemTable.map_put _ _ _ _)
    | delete key => exact congrArg OrderedMap.entries (MemTable.map_delete _ _ _)
  rw [DBState.memEntries_eq, List.mem_append, hinsert, OrderedMap.mem_entries_insert] at he
  rw [DBState.memEntries_eq, List.mem_append]
  rcases he with (he | ⟨he, -⟩) | he
  · exact .inl he
  · exact .inr (.inl he)
  · exact .inr (.inr he)

theorem matched_applyRecords {state : DBState} (h : ∀ e ∈ state.memEntries, Matched e)
    (sequence : Nat) (records : List BatchRecord) :
    ∀ e ∈ (state.applyRecords sequence records).memEntries, Matched e := by
  induction records generalizing state sequence with
  | nil => exact h
  | cons record records ih =>
    refine ih (fun e he => ?_) _
    rcases memEntries_putRecord_subset he with rfl | he
    · exact batchRecord_matched record sequence
    · exact h e he

theorem matched_applyItems {state : DBState} (h : ∀ e ∈ state.memEntries, Matched e)
    (options : Options) (items : List GroupWriteItem) :
    ∀ e ∈ (applyItems options state items).1.memEntries, Matched e := by
  induction items generalizing state with
  | nil => exact h
  | cons item items ih =>
    have hstate : ∀ e ∈ ((state.applyBatch item.startSequence item.batch).freezeMutableIfNeeded
        options.memtableSize options.memtableKind).1.memEntries, Matched e := by
      intro e he
      rw [DBState.memEntries_freezeMutableIfNeeded] at he
      exact matched_applyRecords h _ _ e he
    exact ih hstate

theorem journals_applyWriteGroupToMemtable (h : db.Typed) (sync : Except Error Unit)
    (requests : List Request) :
    Triple Journals (applyWriteGroupToMemtable sync requests) db fun _ => True := by
  refine Triple.get_bind ?_
  dsimp only
  have hmemory : ∀ db', Triple Journals (do
      modify fun old : DB => { old with
        state := (applyItems db.options db.state
          (groupItems (db.state.lastSequence + 1) requests)).1 }
      return (applyItems db.options db.state
        (groupItems (db.state.lastSequence + 1) requests)).2) db' fun _ => True :=
    fun db' => journals_bind (journals_modify rfl rfl rfl fun _ => matched_applyItems h.memory _ _)
      fun _ _ _ _ => journals_pure trivial
  by_cases hclosed : db.state.closed = true
  · rw [if_pos hclosed]
    exact journals_throw_bind _ _
  · rw [if_neg hclosed]
    split
    · refine journals_bind (journals_appendItems _) fun _ db' _ _ => ?_
      split
      · exact journals_bind (journals_ofExcept fun _ _ => trivial) fun _ _ _ _ => hmemory _
      · exact hmemory db'
    · exact hmemory db

theorem journals_flush_if (h : db.Typed) (frozen : Bool) :
    Triple Journals (if frozen then flush else pure ()) db fun _ => True := by
  cases frozen with
  | false => exact journals_pure trivial
  | true => exact journals_flush h

theorem journals_applyWriteGroup (h : db.Typed) (sync : Except Error Unit)
    (requests : List Request) : Triple Journals (applyWriteGroup sync requests) db fun _ => True :=
  journals_tryCatch (journals_bind (journals_applyWritePressure h) fun _ _ hj _ =>
    journals_bind (journals_applyWriteGroupToMemtable (hj.typed h) sync requests) fun _ _ hj' _ =>
      journals_flush_if ((hj.trans hj').typed h) _) fun _ _ _ => journals_throw _

theorem journals_write (h : db.Typed) (sync : Except Error Unit) (batch : WriteBatch)
    (opts : WriteOptions) : Triple Journals (write sync batch opts) db fun _ => True := by
  unfold write
  split
  · exact journals_pure trivial
  · exact journals_applyWriteGroup h sync _

theorem journals_commitToMemtable (h : db.Typed) (sync : Except Error Unit) (readSeq : Nat)
    (batch : WriteBatch) (readKeys : List Bytes) (readRanges : List ReadRange) :
    Triple Journals (commitToMemtable sync readSeq batch readKeys readRanges) db fun _ => True := by
  refine Triple.get_bind ?_
  dsimp only
  have hmatched : ∀ e ∈ ((db.state.applyBatch (db.state.lastSequence + 1)
      batch).freezeMutableIfNeeded db.options.memtableSize db.options.memtableKind).1.memEntries,
      Matched e := by
    intro e he
    rw [DBState.memEntries_freezeMutableIfNeeded] at he
    exact matched_applyRecords h.memory _ _ e he
  have hmemory : ∀ db', Triple Journals (do
      modify fun old : DB => { old with
        state := ((db.state.applyBatch (db.state.lastSequence + 1) batch).freezeMutableIfNeeded
          db.options.memtableSize db.options.memtableKind).1 }
      return ((db.state.applyBatch (db.state.lastSequence + 1) batch).freezeMutableIfNeeded
        db.options.memtableSize db.options.memtableKind).2) db' fun _ => True :=
    fun db' => journals_bind (journals_modify rfl rfl rfl fun _ => hmatched)
      fun _ _ _ _ => journals_pure trivial
  by_cases hclosed : db.state.closed = true
  · rw [if_pos hclosed]
    exact journals_throw_bind _ _
  · rw [if_neg hclosed]
    refine journals_bind (P := fun _ => True) (journals_ofExcept fun _ _ => trivial)
      fun _ db' _ _ => ?_
    split
    · exact journals_pure trivial
    · split
      · refine journals_bind (journals_act trivial) fun _ db'' _ _ => ?_
        split
        · exact journals_bind (journals_ofExcept fun _ _ => trivial) fun _ _ _ _ => hmemory _
        · exact hmemory db''
      · exact hmemory db'

theorem journals_commitTransaction (h : db.Typed) (sync : Except Error Unit) (readSeq : Nat)
    (batch : WriteBatch) (readKeys : List Bytes) (readRanges : List ReadRange) :
    Triple Journals (commitTransaction sync readSeq batch readKeys readRanges) db fun _ => True :=
  journals_bind (journals_applyWritePressure h) fun _ _ hj _ =>
    journals_bind (journals_commitToMemtable (hj.typed h) sync readSeq batch readKeys readRanges)
      fun _ _ hj' _ => journals_flush_if ((hj.trans hj').typed h) _

theorem journals_commit (h : db.Typed) (sync : Except Error Unit) (txn : Transaction) :
    Triple Journals (txn.commit sync) db fun _ => True :=
  journals_bind (P := fun _ => True) (journals_tryCatch (journals_commitTransaction h sync _ _ _ _)
    fun _ _ _ => journals_bind (journals_modify rfl rfl rfl id) fun _ _ _ _ => journals_throw _)
    fun _ _ _ _ => journals_modify rfl rfl rfl id

theorem journals_snapshot : Triple Journals snapshot db fun _ => True :=
  Triple.get_bind (journals_bind (journals_set rfl rfl rfl id) fun _ _ _ _ => journals_pure trivial)

theorem journals_transaction (readOnly : Bool) :
    Triple Journals (DB.transaction readOnly) db fun _ => True := by
  refine Triple.get_bind ?_
  dsimp only
  by_cases hclosed : db.state.closed = true
  · rw [if_pos hclosed]
    exact journals_throw_bind _ _
  · rw [if_neg hclosed]
    exact journals_bind journals_snapshot fun _ _ _ _ => journals_pure trivial

end DB

/-- A call other than `reopen`. -/
theorem Call.journals {db : DB} (h : db.Typed) (call : Call) (hopen : call ≠ .reopen) :
    Triple DB.Journals call.run db fun _ => True := by
  cases call with
  | put key value => exact DB.journals_write h (.ok ()) ⟨[.put key value]⟩ {}
  | delete key => exact DB.journals_write h (.ok ()) ⟨[.delete key]⟩ {}
  | write batch opts => exact DB.journals_write h _ _ _
  | flush => exact DB.journals_flush h
  | compactRange lower upper => exact DB.journals_compactRange h lower upper
  | reopen => exact absurd rfl hopen

theorem TxnClient.after_lift {α : Type} {program : DBM α} {c : TxnClient}
    (h : Triple DB.Journals program c.db fun _ => True) {txns : List (Option Transaction)}
    {done : α → List (Option Transaction)} {call : TxnCall}
    (hrun : call.run c = TxnClient.lift program txns done c) :
    DB.Journals c.db (after TxnCall.run c call).db := by
  cases hp : program c.db with
  | ok a db' =>
    rw [TxnClient.lift, hp] at hrun
    rw [after_ok hrun]
    exact (h.ok a db' hp).1
  | error err db' =>
    rw [TxnClient.lift, hp] at hrun
    rw [after_error hrun]
    exact h.error err db' hp

/-- A call on a transaction that ended changes nothing. -/
theorem TxnClient.after_onTxn {c : TxnClient} {slot : Nat} {call : TxnCall}
    {f : Transaction → TxnClient → EStateM.Result Error TxnClient Unit}
    (hrun : call.run c = TxnClient.onTxn slot f c)
    (h : ∀ txn, call.run c = f txn c → DB.Journals c.db (after TxnCall.run c call).db) :
    DB.Journals c.db (after TxnCall.run c call).db := by
  by_cases hlive : ∃ txn, c.txns[slot]? = some (some txn)
  · obtain ⟨txn, hslot⟩ := hlive
    exact h txn (hrun.trans (TxnClient.run_onTxn_live hslot f))
  · have hended : call.run c = .ok () c :=
      hrun.trans (TxnClient.run_onTxn_ended (fun txn hslot => hlive ⟨txn, hslot⟩) f)
    rw [after_ok hended]
    exact .refl c.db

/-- A call of a run, whether it fails or not. -/
theorem TxnCall.journals {c : TxnClient} (h : c.db.Typed) (call : TxnCall)
    (hopen : call ≠ .call .reopen) : DB.Journals c.db (after TxnCall.run c call).db := by
  cases call with
  | call inner => exact TxnClient.after_lift (inner.journals h fun he => hopen (he ▸ rfl)) rfl
  | begin readOnly => exact TxnClient.after_lift (DB.journals_transaction readOnly) rfl
  | get slot key =>
    refine TxnClient.after_onTxn rfl fun txn hrun => ?_
    rw [TxnClient.after_store hrun]
    exact .refl c.db
  | scan slot lower upper =>
    refine TxnClient.after_onTxn rfl fun txn hrun => ?_
    rw [TxnClient.after_store hrun]
    exact .refl c.db
  | write slot record =>
    by_cases hlive : ∃ txn, c.txns[slot]? = some (some txn)
    · obtain ⟨txn, hslot⟩ := hlive
      rw [after, TxnCall.run, TxnClient.run_onTxn_live hslot]
      cases txn.write record <;> exact .refl c.db
    · rw [after, TxnCall.run, TxnClient.run_onTxn_ended fun txn hslot => hlive ⟨txn, hslot⟩]
      exact .refl c.db
  | commit slot =>
    exact TxnClient.after_onTxn rfl fun txn hrun =>
      TxnClient.after_lift (DB.journals_commit h (.ok ()) txn) hrun
  | rollback slot =>
    exact TxnClient.after_onTxn rfl fun txn hrun =>
      TxnClient.after_lift (DB.journals_modify rfl rfl rfl id) hrun

end TyLsm
