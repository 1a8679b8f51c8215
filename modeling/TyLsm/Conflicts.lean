import TyLsm.Histories

/-! Conflicts of transactions. A commit looks for records above its read sequence; as every
live transaction holds the watermark down, these are exactly the records that others wrote
since it began. -/

namespace TyLsm

namespace DB

variable {db db' : DB} {readSeq : Nat}

/-- There is a record after `readSeq` whose user key satisfies `p`. -/
def ChangedAfter (db : DB) (readSeq : Nat) (p : Bytes → Prop) : Prop :=
  ∃ e ∈ db.allEntries, readSeq < e.1.sequence ∧ p e.1.userKey

theorem anyTableEntryAfter_ok {d : Disk} {refs : List TableRef} (h : Opened d refs) (readSeq : Nat)
    (predicate : InternalKey → Bool) :
    anyTableEntryAfter d readSeq predicate refs =
      .ok ((refs.flatMap (fun ref => ref.2.entries)).any
        (fun e => decide (readSeq < e.1.sequence) && predicate e.1)) := by
  induction refs with
  | nil => rfl
  | cons ref refs ih =>
    obtain ⟨ht, hd⟩ := h ref (by simp)
    have hrest := ih fun r hr => h r (by simp [hr])
    rw [anyTableEntryAfter, List.flatMap_cons, List.any_append]
    split
    · rename_i hle
      have hnone : ref.2.entries.any
          (fun e => decide (readSeq < e.1.sequence) && predicate e.1) = false := by
        refine List.any_eq_false.mpr fun e he => ?_
        have := (hd.sequences e he).2
        simp only [Bool.and_eq_true, decide_eq_true_eq, not_and]
        omega
      rw [hrest, hnone, Bool.false_or]
    · simp only [Disk.openTable, ht, bind, Except.bind]
      split
      · rename_i hany
        rw [hany, Bool.true_or]
        rfl
      · rename_i hany
        rw [hrest, Bool.eq_false_iff.mpr hany, Bool.false_or]

theorem Tabled.anyEntryAfter_ok (h : db.Tabled) (readSeq : Nat) (predicate : InternalKey → Bool) :
    ∃ found, db.anyEntryAfter readSeq predicate = .ok found ∧
      (found = true ↔ ∃ e ∈ db.allEntries, readSeq < e.1.sequence ∧ predicate e.1 = true) := by
  have hmem : ∀ e, e ∈ (db.state.mutable :: db.state.immutables).flatMap MemTable.entries ↔
      e ∈ db.state.memEntries := by
    intro e
    simp [DBState.memEntries, DBState.memtables]
  have htables := anyTableEntryAfter_ok h.tables.opened readSeq predicate
  have hsplit : (∃ e ∈ db.allEntries, readSeq < e.1.sequence ∧ predicate e.1 = true) ↔
      ((db.state.mutable :: db.state.immutables).flatMap MemTable.entries).any
        (fun e => decide (readSeq < e.1.sequence) && predicate e.1) = true ∨
      ((db.state.l0Tables ++ db.state.levelTables.flatten).flatMap
        (fun ref => ref.2.entries)).any
          (fun e => decide (readSeq < e.1.sequence) && predicate e.1) = true := by
    simp only [allEntries, ← h.entries_eq, List.mem_append, or_and_right, exists_or,
      List.any_eq_true, hmem, Bool.and_eq_true, decide_eq_true_eq]
  rw [anyEntryAfter]
  split
  · rename_i hany
    exact ⟨true, rfl, iff_of_true rfl (hsplit.mpr (.inl hany))⟩
  · rename_i hany
    exact ⟨_, htables, by rw [hsplit, or_iff_right hany]⟩

theorem Tabled.ensureKeysUnchanged_cases (h : db.Tabled) (readSeq : Nat) (describe : String)
    (keys : List Bytes) :
    (db.ensureKeysUnchanged readSeq describe keys = .ok () ∧
      ∀ key ∈ keys, ¬ db.ChangedAfter readSeq (· = key)) ∨
    ∃ message, db.ensureKeysUnchanged readSeq describe keys =
        .error (.transactionConflict message) ∧
      ∃ key ∈ keys, db.ChangedAfter readSeq (· = key) := by
  induction keys with
  | nil => exact .inl ⟨rfl, by simp⟩
  | cons key keys ih =>
    obtain ⟨found, hrun, hiff⟩ := h.anyEntryAfter_ok readSeq (fun k => k.userKey == key)
    have hchanged : found = true ↔ db.ChangedAfter readSeq (· = key) := by
      simpa [ChangedAfter] using hiff
    rw [ensureKeysUnchanged, keyChangedAfter, hrun]
    cases found with
    | true => exact .inr ⟨_, rfl, key, by simp, hchanged.mp rfl⟩
    | false =>
      have hno : ¬ db.ChangedAfter readSeq (· = key) := fun hc => absurd (hchanged.mpr hc) (by simp)
      rcases ih with ⟨hok, hkeys⟩ | ⟨message, herr, k, hk, hc⟩
      · refine .inl ⟨hok, fun k hk => ?_⟩
        rcases List.mem_cons.mp hk with rfl | hk
        · exact hno
        · exact hkeys k hk
      · exact .inr ⟨message, herr, k, by simp [hk], hc⟩

theorem Tabled.ensureRangesUnchanged_cases (h : db.Tabled) (readSeq : Nat)
    (ranges : List ReadRange) :
    (db.ensureRangesUnchanged readSeq ranges = .ok () ∧
      ∀ range ∈ ranges, ¬ db.ChangedAfter readSeq (withinBounds · range.1 range.2 = true)) ∨
    ∃ message, db.ensureRangesUnchanged readSeq ranges = .error (.transactionConflict message) ∧
      ∃ range ∈ ranges, db.ChangedAfter readSeq (withinBounds · range.1 range.2 = true) := by
  induction ranges with
  | nil => exact .inl ⟨rfl, by simp⟩
  | cons range ranges ih =>
    obtain ⟨found, hrun, hchanged⟩ := h.anyEntryAfter_ok readSeq
      (fun k => withinBounds k.userKey range.1 range.2)
    rw [ensureRangesUnchanged, rangeChangedAfter, hrun]
    cases found with
    | true => exact .inr ⟨_, rfl, range, by simp, hchanged.mp rfl⟩
    | false =>
      have hno : ¬ db.ChangedAfter readSeq (withinBounds · range.1 range.2 = true) :=
        fun hc => absurd (hchanged.mpr hc) (by simp)
      rcases ih with ⟨hok, hranges⟩ | ⟨message, herr, r, hr, hc⟩
      · refine .inl ⟨hok, fun r hr => ?_⟩
        rcases List.mem_cons.mp hr with rfl | hr
        · exact hno
        · exact hranges r hr
      · exact .inr ⟨message, herr, r, by simp [hr], hc⟩

/-- Whether a record after the read sequence concerns the keys and ranges of a commit. -/
def Conflicting (db : DB) (readSeq : Nat) (batch : WriteBatch) (readKeys : List Bytes)
    (readRanges : List ReadRange) : Prop :=
  db.ChangedAfter readSeq fun key => key ∈ readKeys ∨ key ∈ batch.records.map BatchRecord.key ∨
    ∃ range ∈ readRanges, withinBounds key range.1 range.2 = true

theorem Tabled.ensureNoTransactionConflicts_cases (h : db.Tabled) (readSeq : Nat)
    (batch : WriteBatch) (readKeys : List Bytes) (readRanges : List ReadRange) :
    (db.ensureNoTransactionConflicts readSeq readKeys readRanges (batchWriteKeys batch) = .ok () ∧
      ¬ db.Conflicting readSeq batch readKeys readRanges) ∨
    ∃ message, db.ensureNoTransactionConflicts readSeq readKeys readRanges
        (batchWriteKeys batch) = .error (.transactionConflict message) ∧
      db.Conflicting readSeq batch readKeys readRanges := by
  have hkeys : ∀ key, key ∈ batchWriteKeys batch ↔ key ∈ batch.records.map BatchRecord.key := by
    intro key
    rw [batchWriteKeys, (List.perm_insertionSort _ _).mem_iff, List.mem_dedup]
  simp only [ensureNoTransactionConflicts, bind, Except.bind]
  rcases h.ensureKeysUnchanged_cases readSeq "read" readKeys with ⟨hread, hnoread⟩ |
    ⟨message, hread, key, hkey, e, he, hlt, rfl⟩
  swap
  · exact .inr ⟨message, by rw [hread], e, he, hlt, .inl hkey⟩
  rcases h.ensureKeysUnchanged_cases readSeq "write" (batchWriteKeys batch) with
    ⟨hwrite, hnowrite⟩ | ⟨message, hwrite, key, hkey, e, he, hlt, rfl⟩
  swap
  · exact .inr ⟨message, by rw [hread, hwrite], e, he, hlt, .inr (.inl ((hkeys _).mp hkey))⟩
  rcases h.ensureRangesUnchanged_cases readSeq readRanges with ⟨hrange, hnorange⟩ |
    ⟨message, hrange, range, hmem, e, he, hlt, hin⟩
  swap
  · exact .inr ⟨message, by rw [hread, hwrite, hrange], e, he, hlt, .inr (.inr ⟨range, hmem, hin⟩)⟩
  refine .inl ⟨by rw [hread, hwrite, hrange], ?_⟩
  rintro ⟨e, he, hlt, hkey | hkey | ⟨range, hmem, hin⟩⟩
  · exact hnoread _ hkey ⟨e, he, hlt, rfl⟩
  · exact hnowrite _ ((hkeys _).mpr hkey) ⟨e, he, hlt, rfl⟩
  · exact hnorange range hmem ⟨e, he, hlt, hin⟩

theorem Sound.commitTransaction (h : db.Sound) (hr : db.Recorded) (hmark : db.gcWatermark ≤ readSeq)
    (batch : WriteBatch) (readKeys : List Bytes) (readRanges : List ReadRange) :
    (∃ db', DB.commitTransaction (.ok ()) readSeq batch readKeys readRanges db = .ok () db' ∧
      ¬ db.Conflicting readSeq batch readKeys readRanges ∧ Evolves db db' batch.records) ∨
    ∃ message db', DB.commitTransaction (.ok ()) readSeq batch readKeys readRanges db =
        .error (.transactionConflict message) db' ∧
      db.Conflicting readSeq batch readKeys readRanges ∧ Evolves db db' [] := by
  obtain ⟨db₁, hpressure, hev₁, _⟩ := h.applyWritePressure hr
  have hsame : db₁.Conflicting readSeq batch readKeys readRanges ↔
      db.Conflicting readSeq batch readKeys readRanges := by
    constructor
    · rintro ⟨e, he, hlt, hp⟩
      exact ⟨e, (hev₁.gained e he).resolve_left List.not_mem_nil, hlt, hp⟩
    · rintro ⟨e, he, hlt, hp⟩
      exact ⟨e, hev₁.kept e he (hmark.trans_lt hlt), hlt, hp⟩
  rw [DB.commitTransaction, run_bind_ok hpressure]
  rcases hev₁.sound.toTabled.ensureNoTransactionConflicts_cases readSeq batch readKeys readRanges
    with ⟨hok, hno⟩ | ⟨message, herr, hconf⟩
  · refine .inl ?_
    rw [hsame] at hno
    cases hempty : batch.isEmpty with
    | true =>
      have hmem : commitToMemtable (.ok ()) readSeq batch readKeys readRanges db₁ =
          .ok false db₁ := by
        rw [commitToMemtable, run_bind_ok (run_get db₁)]
        simp only [hev₁.sound.isOpen, Bool.false_eq_true, if_false, hok]
        rw [run_bind_ok (run_ofExcept_ok _ _)]
        simp only [hempty, if_true]
        rfl
      rw [run_bind_ok hmem]
      rw [List.isEmpty_iff.mp hempty]
      exact ⟨db₁, rfl, hno, hev₁⟩
    | false =>
      have hmem := run_commitToMemtable hev₁.sound.isOpen readSeq hempty readKeys readRanges hok
        (.ok ())
      rw [run_applyWriteGroupToMemtable hev₁.sound.isOpen _ _ (.inl rfl)] at hmem
      obtain ⟨db₂, hfinish, hev₂, _⟩ := hev₁.sound.finishGroup hev₁.recorded [⟨batch, {}⟩]
      rw [groupRecords_singleton] at hev₂
      rw [run_bind_ok hmem]
      exact ⟨db₂, hfinish, hno, hev₁.andThen hev₂⟩
  · refine .inr ⟨message, db₁, ?_, hsame.mp hconf, hev₁⟩
    have hmem : commitToMemtable (.ok ()) readSeq batch readKeys readRanges db₁ =
        .error (.transactionConflict message) db₁ := by
      rw [commitToMemtable, run_bind_ok (run_get db₁)]
      simp only [hev₁.sound.isOpen, Bool.false_eq_true, if_false, herr]
      exact run_bind_error (run_ofExcept_error _ _)
    exact run_bind_error hmem

end DB

/-- A client with transactions. A slot without a transaction stands for one that ended. -/
structure TxnClient where
  db : DB
  txns : List (Option Transaction)

inductive TxnCall where
  /-- A direct write, a flush or a compaction. -/
  | call (inner : Call)
  | begin (readOnly : Bool)
  | get (slot : Nat) (key : Bytes)
  | scan (slot : Nat) (lower upper : Bound)
  | write (slot : Nat) (record : BatchRecord)
  | commit (slot : Nat)
  | rollback (slot : Nat)

namespace TxnClient

/-- A call on a transaction that ended does nothing. -/
def onTxn (slot : Nat) (f : Transaction → TxnClient → EStateM.Result Error TxnClient Unit) :
    EStateM Error TxnClient Unit := fun c =>
  match c.txns[slot]? with
  | some (some txn) => f txn c
  | _ => .ok () c

/-- Run a program of the database and put what it returns into the list of transactions. -/
def lift {α : Type} (program : DBM α) (txns : List (Option Transaction))
    (done : α → List (Option Transaction)) (c : TxnClient) : EStateM.Result Error TxnClient Unit :=
  match program c.db with
  | .ok a db => .ok () ⟨db, done a⟩
  | .error err db => .error err ⟨db, txns⟩

/-- The result of a read, after which the transaction has changed. -/
def store {α : Type} (slot : Nat) (result : Transaction × Except Error α) (c : TxnClient) :
    EStateM.Result Error TxnClient Unit :=
  match result.2 with
  | .ok _ => .ok () ⟨c.db, c.txns.set slot (some result.1)⟩
  | .error err => .error err ⟨c.db, c.txns.set slot (some result.1)⟩

end TxnClient

/-- `commit` and `rollback` end the transaction, whatever they return. -/
def TxnCall.run : TxnCall → EStateM Error TxnClient Unit
  | call inner => fun c => TxnClient.lift inner.run c.txns (fun _ => c.txns) c
  | begin readOnly => fun c =>
    TxnClient.lift (DB.transaction readOnly) c.txns (fun txn => c.txns ++ [some txn]) c
  | get slot key => TxnClient.onTxn slot fun txn c => TxnClient.store slot (txn.get c.db key) c
  | scan slot lower upper =>
    TxnClient.onTxn slot fun txn c => TxnClient.store slot (txn.scan c.db lower upper) c
  | write slot record => TxnClient.onTxn slot fun txn c =>
    match txn.write record with
    | .ok txn => .ok () ⟨c.db, c.txns.set slot (some txn)⟩
    | .error err => .error err c
  | commit slot => TxnClient.onTxn slot fun txn c =>
    let ended := c.txns.set slot none
    TxnClient.lift (txn.commit (.ok ())) ended (fun _ => ended) c
  | rollback slot => TxnClient.onTxn slot fun txn c =>
    let ended := c.txns.set slot none
    TxnClient.lift txn.rollback ended (fun _ => ended) c

/-- What an observer notes about a transaction: the keys it read from the snapshot, the
ranges it scanned, the records it wrote, and those acknowledged to others since it began. -/
structure Seen where
  reads : List Bytes := []
  ranges : List ReadRange := []
  writes : List BatchRecord := []
  others : List BatchRecord := []

namespace Seen

def hear (seen : Seen) (records : List BatchRecord) : Seen :=
  { seen with others := seen.others ++ records }

/-- A read of a key that the transaction wrote is answered by its own writes. -/
def get (seen : Seen) (key : Bytes) : Seen :=
  if key ∈ seen.writes.map BatchRecord.key then seen else { seen with reads := seen.reads ++ [key] }

/-- Some record of others has a key that the transaction read or writes, or one within the
bounds of a scan. -/
def Conflicts (seen : Seen) : Prop :=
  ∃ record ∈ seen.others, record.key ∈ seen.reads ∨
    record.key ∈ seen.writes.map BatchRecord.key ∨
    ∃ range ∈ seen.ranges, withinBounds record.key range.1 range.2 = true

instance (seen : Seen) : Decidable seen.Conflicts :=
  inferInstanceAs (Decidable (∃ record ∈ seen.others, _ ∨ _ ∨
    ∃ range ∈ seen.ranges, withinBounds record.key range.1 range.2 = true))

end Seen

/-- The notes after a call, if it was acknowledged. Reads are noted in any case. -/
def TxnCall.note (call : TxnCall) (c : TxnClient) (notes : Nat → Seen) : Nat → Seen :=
  let acknowledged := match call.run c with
    | .ok _ _ => true
    | .error _ _ => false
  match call with
  | .call inner =>
    if acknowledged then fun slot => (notes slot).hear inner.records else notes
  | begin _ => if acknowledged then Function.update notes c.txns.length {} else notes
  | get slot key => Function.update notes slot ((notes slot).get key)
  | scan slot lower upper => Function.update notes slot
    { notes slot with ranges := (notes slot).ranges ++ [(lower, upper)] }
  | write slot record =>
    if acknowledged then Function.update notes slot
      { notes slot with writes := (notes slot).writes ++ [record] }
    else notes
  | commit slot =>
    if acknowledged && (c.txns[slot]?.join).isSome then
      fun other => (notes other).hear (notes slot).writes
    else notes
  | rollback _ => notes

/-- The notes and the client after some calls. A call that fails does not end the run. -/
def runTxns (calls : List TxnCall) (db : DB) : (Nat → Seen) × TxnClient :=
  follow TxnCall.run TxnCall.note calls (fun _ => {}) ⟨db, []⟩

/-- A commit returns a conflict exactly when the notes say so, and then changes nothing;
otherwise it applies its records under the next sequence numbers. -/
structure CommitExact (db : DB) (txn : Transaction) (seen : Seen) : Prop where
  conflict_iff : (∃ message db',
    txn.commit (.ok ()) db = .error (.transactionConflict message) db') ↔ seen.Conflicts
  result : (∃ db', txn.commit (.ok ()) db = .ok () db') ∨
    ∃ message db', txn.commit (.ok ()) db = .error (.transactionConflict message) db'
  unchanged : ∀ err db', txn.commit (.ok ()) db = .error err db' →
    db'.state.lastSequence = db.state.lastSequence ∧ db'.allEntries ⊆ db.allEntries
  applied : ∀ db', txn.commit (.ok ()) db = .ok () db' →
    db'.state.lastSequence = db.state.lastSequence + seen.writes.length ∧
    entriesFrom (db.state.lastSequence + 1) seen.writes ⊆ db'.allEntries ∧
    db'.allEntries ⊆ entriesFrom (db.state.lastSequence + 1) seen.writes ++ db.allEntries

theorem exists_entriesFrom_key {sequence : Nat} {records : List BatchRecord} {key : Bytes} :
    (∃ e ∈ entriesFrom sequence records, e.1.userKey = key) ↔
      ∃ record ∈ records, record.key = key := by
  induction records generalizing sequence with
  | nil => simp [entriesFrom]
  | cons record records ih => simp [entriesFrom, ih]

/-- The notes about a transaction agree with what it recorded itself, and the keys of the
records after its read sequence are those that others wrote. -/
structure Tracks (db : DB) (txn : Transaction) (seen : Seen) : Prop where
  le : txn.readSeq ≤ db.state.lastSequence
  writes : txn.writes.records = seen.writes
  readKeys : ∀ key, key ∈ txn.readKeys.entries.map Prod.fst ↔ key ∈ seen.reads
  ranges : txn.readRanges = seen.ranges
  newer : ∀ key, (∃ e ∈ db.allEntries, txn.readSeq < e.1.sequence ∧ e.1.userKey = key) ↔
    ∃ record ∈ seen.others, record.key = key

theorem Tracks.evolves {db db' : DB} {txn : Transaction} {seen : Seen} (h : Tracks db txn seen)
    {records : List BatchRecord} (hev : DB.Evolves db db' records)
    (hmark : db.gcWatermark ≤ txn.readSeq) : Tracks db' txn (seen.hear records) := by
  refine ⟨h.le.trans (hev.lastSequence ▸ Nat.le_add_right _ _), h.writes, h.readKeys, h.ranges,
    fun key => ?_⟩
  have hor : (∃ record ∈ (seen.hear records).others, record.key = key) ↔
      (∃ record ∈ seen.others, record.key = key) ∨ ∃ record ∈ records, record.key = key := by
    simp only [Seen.hear, List.mem_append, or_and_right, exists_or]
  rw [hor, ← h.newer key, ← exists_entriesFrom_key]
  constructor
  · rintro ⟨e, he, hlt, hk⟩
    rcases hev.gained e he with he | he
    · exact .inr ⟨e, he, hk⟩
    · exact .inl ⟨e, he, hlt, hk⟩
  · rintro (⟨e, he, hlt, hk⟩ | ⟨e, he, hk⟩)
    · exact ⟨e, hev.kept e he (hmark.trans_lt hlt), hlt, hk⟩
    · have := (entriesFrom_sequence he).1
      have := h.le
      exact ⟨e, hev.added e he, by omega, hk⟩

theorem Tracks.conflicting_iff {db : DB} {txn : Transaction} {seen : Seen} (h : Tracks db txn seen) :
    db.Conflicting txn.readSeq txn.writes (txn.readKeys.entries.map Prod.fst) txn.readRanges ↔
      seen.Conflicts := by
  rw [DB.Conflicting, h.writes, h.ranges]
  simp only [h.readKeys]
  constructor
  · rintro ⟨e, he, hlt, hp⟩
    obtain ⟨record, hr, hk⟩ := (h.newer e.1.userKey).mp ⟨e, he, hlt, rfl⟩
    exact ⟨record, hr, hk ▸ hp⟩
  · rintro ⟨record, hr, hp⟩
    obtain ⟨e, he, hlt, hk⟩ := (h.newer record.key).mpr ⟨record, hr, rfl⟩
    exact ⟨e, he, hlt, hk ▸ hp⟩

theorem DB.Sound.commit {db : DB} (h : db.Sound) (hr : db.Recorded) (txn : Transaction)
    (hmark : db.gcWatermark ≤ txn.readSeq) :
    (∃ db', txn.commit (.ok ()) db =
        .ok () { db' with watermark := db.watermark.remove txn.readSeq } ∧
      ¬ db.Conflicting txn.readSeq txn.writes (txn.readKeys.entries.map Prod.fst) txn.readRanges ∧
      DB.Evolves db db' txn.writes.records) ∨
    ∃ message db', txn.commit (.ok ()) db = .error (.transactionConflict message)
        { db' with watermark := db.watermark.remove txn.readSeq } ∧
      db.Conflicting txn.readSeq txn.writes (txn.readKeys.entries.map Prod.fst) txn.readRanges ∧
      DB.Evolves db db' [] := by
  rcases h.commitTransaction hr hmark txn.writes (txn.readKeys.entries.map Prod.fst)
    txn.readRanges with ⟨db', hrun, hno, hev⟩ | ⟨message, db', hrun, hconf, hev⟩
  · refine .inl ⟨db', ?_, hno, hev⟩
    rw [Transaction.commit, run_bind_ok (run_tryCatch_ok hrun), ← hev.watermark]
    rfl
  · refine .inr ⟨message, db', ?_, hconf, hev⟩
    rw [Transaction.commit, ← hev.watermark]
    exact run_bind_error (run_tryCatch_error hrun)

namespace TxnClient

/-- The read sequences that the live transactions hold. -/
def held (txns : List (Option Transaction)) : List (Option Nat) :=
  txns.map (Option.map Transaction.readSeq)

/-- The notes keep track of every live transaction, and each holds the watermark down. -/
structure Observed (notes : Nat → Seen) (c : TxnClient) : Prop where
  sound : c.db.Sound
  recorded : c.db.Recorded
  counts : c.db.watermark.Counts (held c.txns)
  tracks : ∀ slot txn, c.txns[slot]? = some (some txn) → Tracks c.db txn (notes slot)

variable {notes : Nat → Seen} {c : TxnClient}

theorem Observed.gcWatermark_le (h : Observed notes c) {slot : Nat} {txn : Transaction}
    (hslot : c.txns[slot]? = some (some txn)) : c.db.gcWatermark ≤ txn.readSeq := by
  have hmem : some txn.readSeq ∈ held c.txns :=
    List.mem_map.mpr ⟨some txn, List.mem_of_getElem? hslot, rfl⟩
  obtain ⟨oldest, ho, hle⟩ := h.counts.oldest_le hmem
  rw [DB.gcWatermark, ho]
  exact hle

theorem Observed.evolved (h : Observed notes c) {db' : DB} {records : List BatchRecord}
    (hev : DB.Evolves c.db db' records) :
    Observed (fun slot => (notes slot).hear records) ⟨db', c.txns⟩ :=
  ⟨hev.sound, hev.recorded, hev.watermark ▸ h.counts,
    fun slot txn hslot => (h.tracks slot txn hslot).evolves hev (h.gcWatermark_le hslot)⟩

theorem hear_nil (notes : Nat → Seen) : (fun slot => (notes slot).hear []) = notes := by
  funext slot
  simp [Seen.hear]

theorem Observed.ended (h : Observed notes c) {slot : Nat} {txn : Transaction}
    (hslot : c.txns[slot]? = some (some txn)) :
    Observed notes ⟨{ c.db with watermark := c.db.watermark.remove txn.readSeq },
      c.txns.set slot none⟩ := by
  refine ⟨h.sound.withWatermark _, h.recorded.withWatermark _, ?_, fun other txn' hother => ?_⟩
  · have hheld : (held c.txns)[slot]? = some (some txn.readSeq) := by simp [held, hslot]
    have hset : held (c.txns.set slot none) = (held c.txns).set slot none := List.map_set
    change (c.db.watermark.remove txn.readSeq).Counts (held (c.txns.set slot none))
    rw [hset]
    exact h.counts.remove hheld
  · have hne : slot ≠ other := by
      rintro rfl
      rw [List.getElem?_set_self'] at hother
      simp [hslot] at hother
    rw [List.getElem?_set_ne hne] at hother
    have ht := h.tracks other txn' hother
    exact ⟨ht.le, ht.writes, ht.readKeys, ht.ranges, ht.newer⟩

theorem Observed.touched (h : Observed notes c) {slot : Nat} {txn txn' : Transaction} {seen : Seen}
    (hslot : c.txns[slot]? = some (some txn)) (hseq : txn'.readSeq = txn.readSeq)
    (ht : Tracks c.db txn' seen) :
    Observed (Function.update notes slot seen) ⟨c.db, c.txns.set slot (some txn')⟩ := by
  refine ⟨h.sound, h.recorded, ?_, fun other txn'' hother => ?_⟩
  · have hheld : held (c.txns.set slot (some txn')) = held c.txns := by
      refine List.ext_getElem? fun i => ?_
      by_cases hi : slot = i
      · subst hi
        simp [held, hslot, hseq, List.getElem?_set_self']
      · simp [held, List.getElem?_set_ne hi]
    rw [hheld]
    exact h.counts
  · by_cases hi : slot = other
    · subst hi
      rw [List.getElem?_set_self', hslot] at hother
      obtain rfl : txn' = txn'' := by simpa using hother
      rw [Function.update_self]
      exact ht
    · rw [List.getElem?_set_ne hi] at hother
      rw [Function.update_of_ne (Ne.symm hi)]
      exact h.tracks other txn'' hother

theorem Observed.begun (h : Observed notes c) (readOnly : Bool) :
    Observed (Function.update notes c.txns.length {})
      ⟨{ c.db with watermark := c.db.watermark.add c.db.state.lastSequence },
        c.txns ++ [some ⟨c.db.state.lastSequence, readOnly, ⟨[]⟩, .empty, []⟩]⟩ := by
  refine ⟨h.sound.withWatermark _, h.recorded.withWatermark _, ?_, fun slot txn hslot => ?_⟩
  · have := h.counts.add c.db.state.lastSequence
    simpa [held] using this
  · by_cases hi : slot < c.txns.length
    · rw [List.getElem?_append_left hi] at hslot
      rw [Function.update_of_ne hi.ne]
      have ht := h.tracks slot txn hslot
      exact ⟨ht.le, ht.writes, ht.readKeys, ht.ranges, ht.newer⟩
    · obtain rfl : slot = c.txns.length := by
        have := (List.getElem?_eq_some_iff.mp hslot).1
        simp only [List.length_append, List.length_singleton] at this
        omega
      obtain rfl : _ = txn := by simpa using hslot
      rw [Function.update_self]
      -- nothing is newer than the last sequence
      refine ⟨le_rfl, rfl, by simp [OrderedMap.empty], rfl, fun key => ?_⟩
      refine iff_of_false ?_ (by simp)
      rintro ⟨e, he, hlt, _⟩
      exact absurd (h.sound.sequences e he) (not_le.mpr hlt)

theorem Observed.noted (h : Observed notes c) {slot : Nat}
    (hslot : ∀ txn, c.txns[slot]? ≠ some (some txn)) (seen : Seen) :
    Observed (Function.update notes slot seen) c := by
  refine ⟨h.sound, h.recorded, h.counts, fun other txn hother => ?_⟩
  have hne : other ≠ slot := fun he => hslot txn (he ▸ hother)
  rw [Function.update_of_ne hne]
  exact h.tracks other txn hother

theorem run_onTxn_live {slot : Nat} {txn : Transaction} (hslot : c.txns[slot]? = some (some txn))
    (f : Transaction → TxnClient → EStateM.Result Error TxnClient Unit) :
    onTxn slot f c = f txn c := by
  rw [onTxn, hslot]

theorem run_onTxn_ended {slot : Nat} (hslot : ∀ txn, c.txns[slot]? ≠ some (some txn))
    (f : Transaction → TxnClient → EStateM.Result Error TxnClient Unit) :
    onTxn slot f c = .ok () c := by
  unfold onTxn
  split
  · rename_i txn htxn
    exact absurd htxn (hslot txn)
  · rfl

theorem localValue_eq_none {txn : Transaction} {key : Bytes} :
    txn.localValue key = none ↔ key ∉ txn.writes.records.map BatchRecord.key := by
  simp [Transaction.localValue, List.find?_eq_none]

theorem Tracks.get {db : DB} {txn : Transaction} {seen : Seen} (h : Tracks db txn seen)
    (key : Bytes) :
    (txn.get db key).1.readSeq = txn.readSeq ∧ Tracks db (txn.get db key).1 (seen.get key) := by
  have hkeys : key ∈ seen.writes.map BatchRecord.key ↔ txn.localValue key ≠ none := by
    rw [ne_eq, localValue_eq_none, h.writes, not_not]
  cases hv : txn.localValue key with
  | some value =>
    rw [Transaction.get, hv, Seen.get, if_pos (hkeys.mpr (by simp [hv]))]
    exact ⟨rfl, h⟩
  | none =>
    rw [Transaction.get, hv, Seen.get, if_neg fun hin => hkeys.mp hin hv]
    refine ⟨rfl, h.le, h.writes, fun k => ?_, h.ranges, h.newer⟩
    have hinsert : k ∈ ((txn.readKeys.insert key ()).entries.map Prod.fst) ↔
        k = key ∨ k ∈ txn.readKeys.entries.map Prod.fst := by
      simp only [List.mem_map, Prod.exists, OrderedMap.mem_entries_insert]
      constructor
      · rintro ⟨a, u, hmem | ⟨hmem, _⟩, rfl⟩
        · exact .inl (congrArg Prod.fst hmem)
        · exact .inr ⟨a, u, hmem, rfl⟩
      · rintro (rfl | ⟨a, u, hmem, rfl⟩)
        · exact ⟨k, (), .inl rfl, rfl⟩
        · by_cases ha : a = key
          · exact ⟨a, (), .inl (by rw [ha]), rfl⟩
          · exact ⟨a, u, .inr ⟨hmem, ha⟩, rfl⟩
    rw [hinsert, h.readKeys, List.mem_append, List.mem_singleton, or_comm]

theorem after_store {α : Type} {call : TxnCall} {slot : Nat} {result : Transaction × Except Error α}
    (hrun : call.run c = store slot result c) :
    after TxnCall.run c call = ⟨c.db, c.txns.set slot (some result.1)⟩ := by
  rw [after, hrun, store]
  cases result.2 <;> rfl

theorem run_begin (hopen : c.db.state.closed = false) (readOnly : Bool) :
    (TxnCall.begin readOnly).run c = .ok () ⟨{ c.db with
      watermark := c.db.watermark.add c.db.state.lastSequence },
      c.txns ++ [some ⟨c.db.state.lastSequence, readOnly, ⟨[]⟩, .empty, []⟩]⟩ := by
  have hbegin : DB.transaction readOnly c.db = .ok
      ⟨c.db.state.lastSequence, readOnly, ⟨[]⟩, .empty, []⟩
      { c.db with watermark := c.db.watermark.add c.db.state.lastSequence } := by
    rw [DB.transaction, run_bind_ok (run_get c.db)]
    simp only [hopen, Bool.false_eq_true, if_false]
    rfl
  simp only [TxnCall.run, lift, hbegin]

theorem live_or_ended (c : TxnClient) (slot : Nat) :
    (∃ txn : Transaction, c.txns[slot]? = some (some txn)) ∨
      ∀ txn : Transaction, c.txns[slot]? ≠ some (some txn) := by
  by_cases hl : ∃ txn : Transaction, c.txns[slot]? = some (some txn)
  · exact .inl hl
  · exact .inr fun txn ht => hl ⟨txn, ht⟩

section

variable {slot : Nat} {txn : Transaction}

theorem after_get (hslot : c.txns[slot]? = some (some txn)) (key : Bytes) :
    after TxnCall.run c (.get slot key) =
      ⟨c.db, c.txns.set slot (some (txn.get c.db key).1)⟩ :=
  after_store (show (TxnCall.get slot key).run c = store slot (txn.get c.db key) c by
    rw [TxnCall.run, run_onTxn_live hslot])

theorem after_scan (hslot : c.txns[slot]? = some (some txn)) (lower upper : Bound) :
    after TxnCall.run c (.scan slot lower upper) =
      ⟨c.db, c.txns.set slot (some (txn.scan c.db lower upper).1)⟩ :=
  after_store (show (TxnCall.scan slot lower upper).run c =
      store slot (txn.scan c.db lower upper) c by
    rw [TxnCall.run, run_onTxn_live hslot])

theorem run_write_readOnly (hslot : c.txns[slot]? = some (some txn))
    (hro : txn.readOnly = true) (record : BatchRecord) :
    (TxnCall.write slot record).run c =
      .error (.invalidArgument "read-only transaction cannot write") c := by
  rw [TxnCall.run, run_onTxn_live hslot]
  simp [Transaction.write, Transaction.ensureWritable, hro, bind, Except.bind]

theorem run_write (hslot : c.txns[slot]? = some (some txn))
    (hro : txn.readOnly = false) (record : BatchRecord) :
    (TxnCall.write slot record).run c = .ok () ⟨c.db, c.txns.set slot
      (some { txn with writes := ⟨txn.writes.records ++ [record]⟩ })⟩ := by
  rw [TxnCall.run, run_onTxn_live hslot]
  simp [Transaction.write, Transaction.ensureWritable, hro, bind, Except.bind, pure, Except.pure]

theorem run_rollback (hslot : c.txns[slot]? = some (some txn)) :
    (TxnCall.rollback slot).run c = .ok () ⟨{ c.db with
      watermark := c.db.watermark.remove txn.readSeq }, c.txns.set slot none⟩ := by
  rw [TxnCall.run, run_onTxn_live hslot]
  rfl

end

theorem Observed.call (h : Observed notes c) {inner : Call} (hinner : inner ≠ .reopen) :
    Observed ((TxnCall.call inner).note c notes) (after TxnCall.run c (.call inner)) := by
  obtain ⟨db', hrun, hev, _⟩ := h.sound.call h.recorded hinner
  have hrun' : (TxnCall.call inner).run c = .ok () ⟨db', c.txns⟩ := by
    simp only [TxnCall.run, lift, hrun]
  rw [after_ok hrun', TxnCall.note, hrun']
  exact h.evolved hev

theorem Observed.get (h : Observed notes c) (slot : Nat) (key : Bytes) :
    Observed ((TxnCall.get slot key).note c notes) (after TxnCall.run c (.get slot key)) := by
  rcases c.live_or_ended slot with ⟨txn, hslot⟩ | hended
  · obtain ⟨hseq, ht⟩ := Tracks.get (h.tracks slot txn hslot) key
    rw [after_get hslot]
    exact h.touched hslot hseq ht
  · have hrun : (TxnCall.get slot key).run c = .ok () c := by
      rw [TxnCall.run, run_onTxn_ended hended]
    rw [after_ok hrun]
    exact h.noted hended _

theorem Observed.scan (h : Observed notes c) (slot : Nat) (lower upper : Bound) :
    Observed ((TxnCall.scan slot lower upper).note c notes)
      (after TxnCall.run c (.scan slot lower upper)) := by
  rcases c.live_or_ended slot with ⟨txn, hslot⟩ | hended
  · have ht := h.tracks slot txn hslot
    rw [after_scan hslot]
    refine h.touched hslot rfl ⟨ht.le, ht.writes, ht.readKeys, ?_, ht.newer⟩
    exact congrArg (· ++ [(lower, upper)]) ht.ranges
  · have hrun : (TxnCall.scan slot lower upper).run c = .ok () c := by
      rw [TxnCall.run, run_onTxn_ended hended]
    rw [after_ok hrun]
    exact h.noted hended _

theorem Observed.write (h : Observed notes c) (slot : Nat) (record : BatchRecord) :
    Observed ((TxnCall.write slot record).note c notes)
      (after TxnCall.run c (.write slot record)) := by
  rcases c.live_or_ended slot with ⟨txn, hslot⟩ | hended
  · have ht := h.tracks slot txn hslot
    cases hro : txn.readOnly with
    | true =>
      have hrun := run_write_readOnly hslot hro record
      rw [after_error hrun, TxnCall.note, hrun]
      exact h
    | false =>
      have hrun := run_write hslot hro record
      rw [after_ok hrun, TxnCall.note, hrun]
      refine h.touched hslot rfl ⟨ht.le, ?_, ht.readKeys, ht.ranges, ht.newer⟩
      exact congrArg (· ++ [record]) ht.writes
  · have hrun : (TxnCall.write slot record).run c = .ok () c := by
      rw [TxnCall.run, run_onTxn_ended hended]
    rw [after_ok hrun, TxnCall.note, hrun]
    exact h.noted hended _

/-- A commit ends the transaction. Only if it succeeds do the others hear of its writes. -/
theorem Observed.commit_live (h : Observed notes c) {slot : Nat} {txn : Transaction}
    (hslot : c.txns[slot]? = some (some txn)) :
    Observed ((TxnCall.commit slot).note c notes) (after TxnCall.run c (.commit slot)) := by
  have hwrites := (h.tracks slot txn hslot).writes
  rcases h.sound.commit h.recorded txn (h.gcWatermark_le hslot) with
    ⟨db', hcommit, _, hev⟩ | ⟨message, db', hcommit, _, hev⟩
  · have hrun : (TxnCall.commit slot).run c = .ok () ⟨{ db' with
        watermark := c.db.watermark.remove txn.readSeq }, c.txns.set slot none⟩ := by
      rw [TxnCall.run, run_onTxn_live hslot]
      simp only [lift, hcommit]
    have hend := (h.evolved hev).ended hslot
    rw [hev.watermark, hwrites] at hend
    rw [after_ok hrun, TxnCall.note, hrun]
    simpa [hslot] using hend
  · have hrun : (TxnCall.commit slot).run c = .error (.transactionConflict message) ⟨{ db' with
        watermark := c.db.watermark.remove txn.readSeq }, c.txns.set slot none⟩ := by
      rw [TxnCall.run, run_onTxn_live hslot]
      simp only [lift, hcommit]
    have hend := (h.evolved hev).ended hslot
    rw [hev.watermark, hear_nil] at hend
    rw [after_error hrun, TxnCall.note, hrun]
    simpa using hend

theorem Observed.commit (h : Observed notes c) (slot : Nat) :
    Observed ((TxnCall.commit slot).note c notes) (after TxnCall.run c (.commit slot)) := by
  rcases c.live_or_ended slot with ⟨txn, hslot⟩ | hended
  · exact h.commit_live hslot
  · have hrun : (TxnCall.commit slot).run c = .ok () c := by
      rw [TxnCall.run, run_onTxn_ended hended]
    have hnone : (c.txns[slot]?.join).isSome = false := by
      cases hs : c.txns[slot]? with
      | none => rfl
      | some handle =>
        cases handle with
        | none => rfl
        | some txn => exact absurd hs (hended txn)
    rw [after_ok hrun, TxnCall.note, hrun]
    simpa [hnone] using h

theorem Observed.rollback (h : Observed notes c) (slot : Nat) :
    Observed ((TxnCall.rollback slot).note c notes) (after TxnCall.run c (.rollback slot)) := by
  rcases c.live_or_ended slot with ⟨txn, hslot⟩ | hended
  · rw [after_ok (run_rollback hslot)]
    exact h.ended hslot
  · have hrun : (TxnCall.rollback slot).run c = .ok () c := by
      rw [TxnCall.run, run_onTxn_ended hended]
    rw [after_ok hrun]
    exact h

theorem Observed.step (call : TxnCall) (notes : Nat → Seen) (c : TxnClient)
    (h : Observed notes c) (hcall : call ≠ .call .reopen) :
    Observed (call.note c notes) (after TxnCall.run c call) := by
  cases call with
  | call inner => exact h.call fun he => hcall (by rw [he])
  | begin readOnly =>
    have hrun := run_begin h.sound.isOpen readOnly
    rw [after_ok hrun, TxnCall.note, hrun]
    exact h.begun readOnly
  | get slot key => exact h.get slot key
  | scan slot lower upper => exact h.scan slot lower upper
  | write slot record => exact h.write slot record
  | commit slot => exact h.commit slot
  | rollback slot => exact h.rollback slot

theorem observed_created (env : Env) (options : Options) (path : String) (notes : Nat → Seen) :
    Observed notes ⟨DB.created env options path, []⟩ := by
  have h := Client.keeps_created env options path
  exact ⟨h.sound, h.recorded, h.counts, fun slot txn hslot => by simp at hslot⟩

theorem Observed.commitExact (h : Observed notes c) {slot : Nat} {txn : Transaction}
    (hslot : c.txns[slot]? = some (some txn)) : CommitExact c.db txn (notes slot) := by
  have ht := h.tracks slot txn hslot
  rcases h.sound.commit h.recorded txn (h.gcWatermark_le hslot) with
    ⟨db', hcommit, hno, hev⟩ | ⟨message, db', hcommit, hconf, hev⟩
  · rw [ht.conflicting_iff] at hno
    rw [ht.writes] at hev
    refine ⟨iff_of_false ?_ hno, .inl ⟨_, hcommit⟩, fun err db'' herr => ?_, fun db'' hok => ?_⟩
    · rintro ⟨message, db'', herr⟩
      rw [hcommit] at herr
      cases herr
    · rw [hcommit] at herr
      cases herr
    · rw [hcommit] at hok
      obtain rfl : _ = db'' := by injection hok
      exact ⟨hev.lastSequence, hev.added, fun e he => List.mem_append.mpr (hev.gained e he)⟩
  · rw [ht.conflicting_iff] at hconf
    refine ⟨iff_of_true ⟨message, _, hcommit⟩ hconf, .inr ⟨message, _, hcommit⟩,
      fun err db'' herr => ?_, fun db'' hok => ?_⟩
    · rw [hcommit] at herr
      obtain ⟨-, rfl⟩ : _ ∧ _ = db'' := by injection herr with h₁ h₂; exact ⟨h₁, h₂⟩
      exact ⟨hev.lastSequence, fun e he => (hev.gained e he).resolve_left List.not_mem_nil⟩
    · rw [hcommit] at hok
      cases hok

end TxnClient

/-- Whatever transactions, direct writes, flushes and compactions came before, a live
transaction's commit fails exactly for a conflict with what was acknowledged since. -/
theorem commit_conflicts_exact (env : Env) (options : Options) (path : String) {db₀ : DB}
    (hopen : DB.open env (Disk.empty path) options = .ok db₀) (calls : List TxnCall)
    (hcalls : ∀ call ∈ calls, call ≠ .call .reopen) (slot : Nat) {txn : Transaction}
    (hlive : (runTxns calls db₀).2.txns[slot]? = some (some txn)) :
    CommitExact (runTxns calls db₀).2.db txn ((runTxns calls db₀).1 slot) := by
  obtain rfl := DB.eq_created hopen
  have h : TxnClient.Observed (runTxns calls (DB.created env options path)).1
      (runTxns calls (DB.created env options path)).2 :=
    follow_invariant TxnClient.Observed.step
      (TxnClient.observed_created env options path _)
      (along_of_forall (fun call hc _ => hcalls call hc) _)
  exact h.commitExact hlive

theorem overwritten_read :
    ((runTxns [.begin false, .get 0 [97], .call (.put [97] [1]), .write 0 (.put [98] [2])]
        (DB.created .inOrder {} "db")).2.txns[0]?.join).isSome = true ∧
    ((runTxns [.begin false, .get 0 [97], .call (.put [97] [1]), .write 0 (.put [98] [2])]
        (DB.created .inOrder {} "db")).1 0).Conflicts := by
  decide +kernel

theorem commit_conflicts_exact_small :
    ∃ txn message db', (runTxns [.begin false, .get 0 [97], .call (.put [97] [1]),
        .write 0 (.put [98] [2])] (DB.created .inOrder {} "db")).2.txns[0]? = some (some txn) ∧
      txn.commit (.ok ()) (runTxns [.begin false, .get 0 [97], .call (.put [97] [1]),
        .write 0 (.put [98] [2])] (DB.created .inOrder {} "db")).2.db =
          .error (.transactionConflict message) db' := by
  obtain ⟨txn, hjoin⟩ := Option.isSome_iff_exists.mp overwritten_read.1
  have hlive := Option.join_eq_some_iff.mp hjoin
  obtain ⟨message, db', hcommit⟩ := (commit_conflicts_exact .inOrder {} "db"
    (DB.open_empty _ _ _) _ (by simp) 0 hlive).conflict_iff.mpr overwritten_read.2
  exact ⟨txn, message, db', hlive, hcommit⟩

end TyLsm
