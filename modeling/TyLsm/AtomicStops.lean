import TyLsm.ByteRuns
import TyLsm.Closed
import TyLsm.FlushCrash

/-! Stopping at any byte of a call that starts no compaction. The log record of a write is
its commit point; a flush changes what is stored where, but no read. -/

namespace TyLsm

namespace DB

variable {db db' : DB}

/-- Opening the directory leads to the reads of `db`. -/
def Recalls (db : DB) (disk : Disk) : Prop :=
  ∃ r, DB.open db.env disk db.options = .ok r ∧ ∀ k, r.get k = db.get k

/-- A stop between two operations of a call leaves what was there before it, or all of it. -/
def Atomic (db db' : DB) : Prop :=
  ∀ i, db.Recalls (db.crashed db' i) ∨ db'.Recalls (db.crashed db' i)

theorem Durable.recalls (h : db.Durable) (ht : db.Tabled)
    (herr : db.options.errorIfExists = false) : db.Recalls db.disk := by
  have hopen := h.reopen ht herr
  rw [← h.state_eq] at hopen
  exact ⟨_, hopen, fun k => rfl⟩

theorem Atomic.of_idle (h : db.Recalls db.disk) (hjournal : db'.journal = db.journal) :
    Atomic db db' := by
  intro i
  rw [crashed, hjournal, List.drop_length, List.take_nil]
  exact .inl h

/-- Memory and log agree, although the memtable may be frozen. -/
structure InLog (db : DB) : Prop extends db.Recorded where
  memEntries_eq : db.state.memEntries = (OrderedMap.empty.insertAll db.liveLog).entries
  lastSequence_eq : db.state.lastSequence = lastOf db.versions.lastSequence db.liveLog

theorem Durable.inLog (h : db.Durable) : db.InLog := by
  refine ⟨h.toRecorded, ?_, ?_⟩
  · rw [← h.memEntries_recovered, ← h.state_eq]
  · rw [← h.lastSequence_recovered, ← h.state_eq]

theorem Durable.inLog_written (h : db.Durable) (hok : db.Ok) (hwal : db.options.walEnabled = true)
    {request : Request} (hlog : request.opts.disableWal = false) :
    (db.written [request]).InLog := by
  have hrec := (hok.written h.toRecorded [request]).2.1
  have hstate : (db.written [request]).state = ((db.state.applyBatch (db.state.lastSequence + 1)
      request.batch).freezeMutableIfNeeded db.options.memtableSize db.options.memtableKind).1 := rfl
  have hwals : (db.written [request]).disk.wals (db.written [request]).wal =
      some ((db.disk.wals db.wal).getD [] ++ [(db.state.lastSequence + 1, request.batch)]) := by
    obtain ⟨records, hrecords⟩ := h.log
    have hdisk := Disk.applyAll_appendWal hrecords
      [⟨request.batch, request.opts, db.state.lastSequence + 1⟩]
    have hgroup : (db.written [request]).disk = { db.disk with
        wals := Function.update db.disk.wals db.wal
          (some (records ++ [(db.state.lastSequence + 1, request.batch)])) } := by
      simpa [DB.written, performed, groupOps, hwal, groupItems, hlog] using hdisk
    rw [hgroup, hrecords]
    exact Function.update_self _ _ _
  -- replaying the longer log repeats the batch
  have hreplay : ∃ l0 levels, (db.written [request]).recovered =
      { db.state.applyBatch (db.state.lastSequence + 1) request.batch with
        l0Tables := l0
        levelTables := levels } := by
    refine ⟨(db.written [request]).state.l0Tables, (db.written [request]).state.levelTables, ?_⟩
    have hsame := DBState.recoverWal_withTables (DBState.fresh db.options.memtableKind
      db.state.l0Tables db.state.levelTables db.versions.lastSequence)
      (db.written [request]).state.l0Tables (db.written [request]).state.levelTables
      ((db.disk.wals db.wal).getD [] ++ [(db.state.lastSequence + 1, request.batch)])
    have happend := DBState.recoverWal_append (DBState.fresh db.options.memtableKind
      db.state.l0Tables db.state.levelTables db.versions.lastSequence)
      ((db.disk.wals db.wal).getD []) [(db.state.lastSequence + 1, request.batch)]
    change _ = db.recovered.recoverWal _ at happend
    rw [happend, ← h.state_eq] at hsame
    rw [recovered, hwals]
    exact hsame
  obtain ⟨l0, levels, hreplay⟩ := hreplay
  refine ⟨hrec, ?_, ?_⟩
  · rw [← hrec.memEntries_recovered, hreplay, hstate, DBState.memEntries_freezeMutableIfNeeded]
    rfl
  · rw [← hrec.lastSequence_recovered, hreplay, hstate, DBState.lastSequence_freezeMutableIfNeeded]

/-- While the old log is still the live one, reopening finds what is flushed twice. -/
theorem FlushStopped.get_eq {memtable : MemTable} {i : Nat} {r : DB}
    (hst : FlushStopped db memtable i r) (h : db.Ok) (hlog : db.InLog)
    (hmem : db.state.memEntries = memtable.entries) (k : Bytes) : r.get k = db.get k := by
  have hsequences : ∀ e ∈ db.liveLog, e.1.sequence ≤ db.state.lastSequence := by
    intro e he
    rw [hlog.lastSequence_eq]
    exact sequence_le_lastOf he
  have hlast : r.state.lastSequence = db.state.lastSequence := by
    rw [hst.lastSequence]
    by_cases h5 : i < 5
    · rw [if_pos h5]
      by_cases h3 : i < 3
      · rw [if_pos h3, hlog.lastSequence_eq]
      · rw [if_neg h3]
        refine le_antisymm ?_ (le_lastOf _ _)
        rcases le_lastOf_iff.mp (le_refl (lastOf db.state.lastSequence db.liveLog)) with
          hle | ⟨e, he, hle⟩
        · exact hle
        · exact hle.trans (hsequences e he)
    · rw [if_neg h5, if_neg (by omega)]
      rfl
  have hvisible : visible k db.state.lastSequence r.allEntries =
      visible k db.state.lastSequence db.allEntries := by
    have hall := hst.allEntries
    by_cases h5 : i < 5
    · rw [if_pos h5, ← hlog.memEntries_eq] at hall
      by_cases h2 : i < 2
      · rw [hall, if_pos h2, List.nil_append]
        rfl
      · rw [hall, if_neg h2, ← hmem]
        simp only [DB.allEntries, visible, newest_append]
        cases newest k db.state.lastSequence db.state.memEntries <;> rfl
    · rw [if_neg h5, if_neg (by omega), ← hmem] at hall
      rw [hall]
      rfl
  rw [get, get, (hst.readable h.toReadable).getOpt_eq, h.toReadable.getOpt_eq, Option.getD_none,
    Option.getD_none, hlast, hvisible]

/-- A stop in a flush that empties the memory changes no read. -/
theorem Ok.flush_recalls (h : db.Ok) (hlog : db.InLog) (herr : db.options.errorIfExists = false)
    {memtable : MemTable} {source : DBState.FlushSource} {state : DBState}
    (htake : db.state.takeOldestFlushableMemtable db.options.memtableKind =
      some (memtable, source, state)) (hempty : state.memEntries = [])
    (hrun : flush db = .ok () db') (i : Nat) : db.Recalls (db.crashed db' i) := by
  obtain ⟨db'', hrun', hcrash⟩ := h.sound.flush_crashed hlog.toRecorded herr htake
  obtain rfl : db' = db'' :=
        (EStateM.Result.ok.inj (hrun.symm.trans hrun')).2
  obtain ⟨r, hopen, hst⟩ := hcrash i
  have hmem := (DBState.takeOldest_spec htake).1
  rw [hempty, List.nil_append] at hmem
  exact ⟨r, hopen, hst.get_eq h hlog hmem⟩

theorem Flushed.get_eq (hf : Flushed db db') (h : db.Ok) (k : Bytes) : db'.get k = db.get k := by
  rw [get, get, hf.ok.toReadable.getOpt_eq, h.toReadable.getOpt_eq, hf.allEntries, hf.lastSequence]

theorem Recalls.of_get_eq {disk : Disk} (h : db.Recalls disk) (henv : db'.env = db.env)
    (hoptions : db'.options = db.options) (hget : ∀ k, db'.get k = db.get k) :
    db'.Recalls disk := by
  obtain ⟨r, hopen, hr⟩ := h
  rw [← henv, ← hoptions] at hopen
  exact ⟨r, hopen, fun k => (hr k).trans (hget k).symm⟩

theorem Durable.flush_atomic (h : db.Durable) (hok : db.Ok)
    (herr : db.options.errorIfExists = false) (hrun : DB.flush db = .ok () db') :
    Atomic db db' := by
  by_cases hempty : db.state.mutable.isEmpty = true
  · have hnone := run_flush_none hok.isOpen (show db.state.takeOldestFlushableMemtable
      db.options.memtableKind = none by
        simp [DBState.takeOldestFlushableMemtable, h.immutables, hempty])
    obtain rfl : db' = db :=
      (EStateM.Result.ok.inj (hrun.symm.trans hnone)).2
    exact .of_idle (h.recalls hok.sound.toTabled herr) rfl
  · have htake : db.state.takeOldestFlushableMemtable db.options.memtableKind =
        some (db.state.mutable, .mutable,
          { db.state with mutable := .new db.options.memtableKind }) := by
      simp [DBState.takeOldestFlushableMemtable, h.immutables, hempty]
    refine fun i => .inl (hok.flush_recalls h.inLog herr htake ?_ hrun i)
    simp [DBState.memEntries, DBState.memtables, h.immutables]

theorem crashed_succ {db₁ : DB} {op : DiskOp} {more : List DiskOp}
    (hjournal : db₁.journal = db.journal ++ [op]) (hdisk : db₁.disk = db.disk.apply op)
    (hmore : db'.journal = db₁.journal ++ more) (i : Nat) :
    db.crashed db' (i + 1) = db₁.crashed db' i := by
  have hdrop : db'.journal.drop db.journal.length = op :: more := by
    rw [hmore, hjournal, List.append_assoc, List.drop_left, List.singleton_append]
  rw [crashed, crashed, hdrop, hmore, List.drop_left, hdisk, List.take_succ_cons,
    Disk.applyAll_cons]

/-- The log record is the commit point. -/
theorem Durable.group_atomic (h : db.Durable) (hok : db.Ok) (hidle : db.PressureIdle)
    (herr : db.options.errorIfExists = false) (hwal : db.options.walEnabled = true)
    {request : Request} (hlog : request.opts.disableWal = false)
    (hrun : DB.applyWriteGroup (.ok ()) [request] db = .ok () db') : Atomic db db' := by
  obtain ⟨hok₁, hrec₁, -⟩ := hok.written h.toRecorded [request]
  have hlog₁ := h.inLog_written hok hwal hlog
  have hops : db.groupOps (groupItems (db.state.lastSequence + 1) [request]) =
      [.appendWal db.wal (db.state.lastSequence + 1) request.batch] := by
    simp [groupOps, hwal, groupItems, hlog]
  have hjournal : (db.written [request]).journal = db.journal ++
      [.appendWal db.wal (db.state.lastSequence + 1) request.batch] := by
    rw [← hops]
    rfl
  have hdisk : (db.written [request]).disk =
      db.disk.apply (.appendWal db.wal (db.state.lastSequence + 1) request.batch) := by
    change db.disk.applyAll _ = _
    rw [hops]
    rfl
  have hfirst : db.crashed db' 0 = db.disk := rfl
  intro i
  cases i with
  | zero =>
    rw [hfirst]
    exact .inl (h.recalls hok.sound.toTabled herr)
  | succ i =>
    cases hfreeze : db.freezes [request] with
    | false =>
      have hwhole : DB.applyWriteGroup (.ok ()) [request] db = .ok () (db.written [request]) :=
        run_applyWriteGroup hidle.run hok.isOpen (.inl rfl) (by simp [hfreeze])
      obtain rfl : db' = db.written [request] :=
        (EStateM.Result.ok.inj (hrun.symm.trans hwhole)).2
      rw [crashed_succ hjournal hdisk (List.append_nil _).symm i, crashed, List.drop_length,
        List.take_nil]
      exact .inr ((h.written hok hwal hlog hfreeze).recalls hok₁.sound.toTabled herr)
    | true =>
      obtain ⟨memtable, state, htake, hmutable, himm⟩ := takeOldest_written h.immutables hfreeze
      obtain ⟨ref, hnum, hent, hflush, hok₂, hall⟩ := hok₁.flushed htake
      have hwhole : DB.applyWriteGroup (.ok ()) [request] db =
          .ok () ((db.written [request]).flushed state ref) :=
        run_applyWriteGroup hidle.run hok.isOpen (.inl rfl) (by simp [hfreeze, hflush])
      obtain rfl : db' = (db.written [request]).flushed state ref :=
        (EStateM.Result.ok.inj (hrun.symm.trans hwhole)).2
      have hempty : state.memEntries = [] := by
        simp [DBState.memEntries, DBState.memtables, hmutable, himm]
      obtain ⟨db'', hflush', hf⟩ := hok₁.flush_recorded hrec₁
      obtain rfl : (db.written [request]).flushed state ref = db'' :=
        (EStateM.Result.ok.inj (hflush.symm.trans hflush')).2
      rw [crashed_succ hjournal hdisk (show _ = (db.written [request]).journal ++ _ from rfl) i]
      exact .inr ((hok₁.flush_recalls hlog₁ herr htake hempty hflush i).of_get_eq rfl rfl
        (hf.get_eq hok₁))

theorem Atomic.withWatermark (h : Atomic db db') (w : Watermark) :
    Atomic db { db' with watermark := w } :=
  fun i => (h i).imp id fun hr => hr.of_get_eq rfl rfl fun _ => rfl

theorem Durable.write_atomic (h : db.Durable) (hok : db.Ok) (hidle : db.PressureIdle)
    (herr : db.options.errorIfExists = false) (hwal : db.options.walEnabled = true)
    {batch : WriteBatch} {opts : WriteOptions} (hlog : opts.disableWal = false)
    (hrun : DB.write (.ok ()) batch opts db = .ok () db') : Atomic db db' := by
  rw [DB.write] at hrun
  by_cases hempty : batch.isEmpty = true
  · rw [if_pos hempty] at hrun
    obtain rfl : db = db' := (EStateM.Result.ok.inj hrun).2
    exact .of_idle (h.recalls hok.sound.toTabled herr) rfl
  · rw [if_neg hempty] at hrun
    exact h.group_atomic hok hidle herr hwal hlog hrun

theorem Durable.commitTransaction_atomic (h : db.Durable) (hok : db.Ok) (hidle : db.PressureIdle)
    (hsplit : db.SplitsSafely .unbounded .unbounded)
    (hmark : db.gcWatermark ≤ db.state.lastSequence) (herr : db.options.errorIfExists = false)
    (hwal : db.options.walEnabled = true) (readSeq : Nat) (batch : WriteBatch)
    (readKeys : List Bytes) (readRanges : List ReadRange) :
    ∃ db', Atomic db db' ∧
      (DB.commitTransaction (.ok ()) readSeq batch readKeys readRanges db = .ok () db' ∨
      ∃ err, DB.commitTransaction (.ok ()) readSeq batch readKeys readRanges db =
        .error err db') := by
  have hsame : Atomic db db := .of_idle (h.recalls hok.sound.toTabled herr) rfl
  rcases commitToMemtable_cases hok.isOpen (.ok ()) readSeq batch readKeys readRanges with
    ⟨err, hconflict⟩ | ⟨-, hrun⟩ | ⟨-, hrun⟩
  · refine ⟨db, hsame, .inr ⟨err, ?_⟩⟩
    rw [DB.commitTransaction, run_bind_ok hidle.run, run_bind_error hconflict]
  · refine ⟨db, hsame, .inl ?_⟩
    rw [DB.commitTransaction, run_bind_ok hidle.run, run_bind_ok hrun]
    rfl
  · obtain ⟨db', hgroup⟩ := hok.group_succeeds h.toRecorded hsplit hmark ⟨batch, {}⟩
    exact ⟨db', h.group_atomic hok hidle herr hwal rfl hgroup.run,
      .inl (commitTransaction_of_group hidle.run hrun hgroup.run)⟩

end DB

/-- The step starts no compaction. -/
def TxnStep.Quiet : TxnStep → TxnClient → Prop
  | call (.call (.compactRange _ _)), _ => False
  | call (.call .flush), _ => True
  | call (.call _), c => c.db.PressureIdle
  | call (.commit _), c => c.db.PressureIdle
  | _, _ => True

namespace Serial

variable {options : Options} {l : Ledger} {c : TxnClient}

theorem recalls (h : Serial options True l c) (herr : options.errorIfExists = false) :
    c.db.Recalls c.db.disk :=
  (h.durable trivial).recalls h.ok.sound.toTabled (h.options_eq ▸ herr)

theorem idle (h : Serial options True l c) (herr : options.errorIfExists = false) {step : TxnStep}
    (hjournal : (after TxnStep.run c step).db.journal = c.db.journal) :
    DB.Atomic c.db (after TxnStep.run c step).db := .of_idle (h.recalls herr) hjournal

theorem call_atomic (h : Serial options True l c) (herr : options.errorIfExists = false)
    {inner : Call} (hfits : (TxnStep.call (.call inner)).Fits options True)
    (hquiet : (TxnStep.call (.call inner)).Quiet c) :
    DB.Atomic c.db (after TxnStep.run c (.call (.call inner))).db := by
  obtain ⟨notes, hobserved⟩ := h.observed
  obtain ⟨db', hs⟩ := h.ok.call_succeeds hobserved.recorded (h.splitsSafely hfits.oneOutput)
    hobserved.gcWatermark_le_last hfits.sequential
  have hrun : (TxnStep.call (.call inner)).run c = .ok () ⟨db', c.txns⟩ := by
    simp only [TxnStep.run, TxnCall.run, TxnClient.lift, hs.run]
  rw [after_ok hrun]
  have hd := h.durable trivial
  have herr' : c.db.options.errorIfExists = false := h.options_eq ▸ herr
  obtain ⟨hwal, hlogs⟩ := hfits.logged trivial
  rw [← h.options_eq] at hwal
  cases inner with
  | put key value =>
    have hwrite : DB.write (.ok ()) ⟨[.put key value]⟩ {} c.db = .ok () db' := hs.run
    exact hd.write_atomic h.ok hquiet herr' hwal rfl hwrite
  | delete key =>
    have hwrite : DB.write (.ok ()) ⟨[.delete key]⟩ {} c.db = .ok () db' := hs.run
    exact hd.write_atomic h.ok hquiet herr' hwal rfl hwrite
  | write batch opts => exact hd.write_atomic h.ok hquiet herr' hwal (hlogs _ rfl) hs.run
  | flush => exact hd.flush_atomic h.ok herr' hs.run
  | compactRange lower upper => exact absurd hquiet id
  | reopen => exact absurd hfits.sequential id

theorem commit_atomic (h : Serial options True l c) (herr : options.errorIfExists = false)
    {slot : Nat} {txn : Transaction} (hslot : c.txns[slot]? = some (some txn))
    (hfits : (TxnStep.call (.commit slot)).Fits options True)
    (hquiet : (TxnStep.call (.commit slot)).Quiet c) :
    DB.Atomic c.db (after TxnStep.run c (.call (.commit slot))).db := by
  obtain ⟨notes, hobserved⟩ := h.observed
  obtain ⟨db', hatomic, hrun⟩ := (h.durable trivial).commitTransaction_atomic h.ok hquiet
    (h.splitsSafely hfits.oneOutput) hobserved.gcWatermark_le_last (h.options_eq ▸ herr)
    (h.options_eq ▸ (hfits.logged trivial).1) txn.readSeq txn.writes
    (txn.readKeys.entries.map Prod.fst) txn.readRanges
  have hafter : (after TxnStep.run c (.call (.commit slot))).db =
      { db' with watermark := db'.watermark.remove txn.readSeq } := by
    rw [after, TxnStep.run, TxnCall.run, TxnClient.run_onTxn_live hslot]
    rcases hrun with hrun | ⟨err, hrun⟩
    · have hcommit : txn.commit (.ok ()) c.db =
          .ok () { db' with watermark := db'.watermark.remove txn.readSeq } := by
        rw [Transaction.commit, run_bind_ok (run_tryCatch_ok hrun)]
        rfl
      simp only [TxnClient.lift, hcommit]
    · have hcommit : txn.commit (.ok ()) c.db =
          .error err { db' with watermark := db'.watermark.remove txn.readSeq } := by
        rw [Transaction.commit]
        exact run_bind_error (run_tryCatch_error hrun)
      simp only [TxnClient.lift, hcommit]
  rw [hafter]
  exact hatomic.withWatermark _

/-- A stop in a step that starts no compaction leaves all of it or nothing. -/
theorem atomic (h : Serial options True l c) (herr : options.errorIfExists = false)
    (call : TxnCall) (hfits : (TxnStep.call call).Fits options True)
    (hquiet : (TxnStep.call call).Quiet c) :
    DB.Atomic c.db (after TxnStep.run c (.call call)).db := by
  obtain ⟨notes, hobserved⟩ := h.observed
  cases call with
  | call inner => exact h.call_atomic herr hfits hquiet
  | begin readOnly =>
    have hrun : (TxnStep.call (.begin readOnly)).run c = _ :=
      TxnClient.run_begin hobserved.sound.isOpen readOnly
    exact h.idle herr (by rw [after_ok hrun])
  | get slot key =>
    rcases c.live_or_ended slot with ⟨txn, hslot⟩ | hended
    · have hafter := TxnClient.after_get hslot key
      change after TxnStep.run c (.call (.get slot key)) = _ at hafter
      exact h.idle herr (by rw [hafter])
    · have hrun : (TxnStep.call (.get slot key)).run c = .ok () c := by
        rw [TxnStep.run, TxnCall.run, TxnClient.run_onTxn_ended hended]
      exact h.idle herr (by rw [after_ok hrun])
  | scan slot lower upper =>
    rcases c.live_or_ended slot with ⟨txn, hslot⟩ | hended
    · have hafter := TxnClient.after_scan hslot lower upper
      change after TxnStep.run c (.call (.scan slot lower upper)) = _ at hafter
      exact h.idle herr (by rw [hafter])
    · have hrun : (TxnStep.call (.scan slot lower upper)).run c = .ok () c := by
        rw [TxnStep.run, TxnCall.run, TxnClient.run_onTxn_ended hended]
      exact h.idle herr (by rw [after_ok hrun])
  | write slot record =>
    refine h.idle herr ?_
    rcases c.live_or_ended slot with ⟨txn, hslot⟩ | hended
    · rw [after, TxnStep.run, TxnCall.run, TxnClient.run_onTxn_live hslot]
      cases txn.write record <;> rfl
    · rw [after, TxnStep.run, TxnCall.run, TxnClient.run_onTxn_ended hended]
  | commit slot =>
    rcases c.live_or_ended slot with ⟨txn, hslot⟩ | hended
    · exact h.commit_atomic herr hslot hfits hquiet
    · refine h.idle herr ?_
      rw [after, TxnStep.run, TxnCall.run, TxnClient.run_onTxn_ended hended]
  | rollback slot =>
    refine h.idle herr ?_
    rcases c.live_or_ended slot with ⟨txn, hslot⟩ | hended
    · rw [after, TxnStep.run, TxnCall.run, TxnClient.run_onTxn_live hslot]
      rfl
    · rw [after, TxnStep.run, TxnCall.run, TxnClient.run_onTxn_ended hended]

theorem restart_recalls (h : Serial options True l c) (herr : options.errorIfExists = false)
    (i : Nat) : c.db.Recalls (c.db.disk.applyAll ((TxnStep.restart.ops c).take i)) := by
  have hrun := h.run_restart trivial herr
  have hops : TxnStep.restart.ops c = [.createDir, .openWal c.db.wal] := by
    simp only [TxnStep.ops, hrun, after_ok hrun]
  obtain ⟨notes, hobserved⟩ := h.observed
  obtain ⟨records, hrecords⟩ := hobserved.recorded.log
  have hmake : c.db.disk.apply .createDir = c.db.disk := by
    simp [Disk.apply, ← hobserved.recorded.dirExists]
  have hopen : c.db.disk.apply (.openWal c.db.wal) = c.db.disk := by
    simp only [Disk.apply, hrecords, Option.getD_some]
    simp [← hrecords]
  have hsame : c.db.disk.applyAll ((TxnStep.restart.ops c).take i) = c.db.disk := by
    rw [hops]
    rcases i with _ | _ | i
    · rfl
    · exact hmake
    · rw [List.take_of_length_le (by simp), Disk.applyAll_cons, Disk.applyAll_cons, hmake, hopen]
      rfl
  rw [hsame]
  exact h.recalls herr

/-- A stop in a step that starts no compaction leaves all of it or nothing. -/
theorem step_atomic (h : Serial options True l c) (herr : options.errorIfExists = false)
    {step : TxnStep} (hfits : step.Fits options True) (hquiet : step.Quiet c) (i : Nat) :
    c.db.Recalls (c.db.disk.applyAll ((step.ops c).take i)) ∨
      (after TxnStep.run c step).db.Recalls (c.db.disk.applyAll ((step.ops c).take i)) := by
  cases step with
  | call inner => exact h.atomic herr inner hfits hquiet i
  | restart => exact .inl (h.restart_recalls herr i)

end Serial

theorem runOps_append (steps : List TxnStep) (last : TxnStep) (db : DB) :
    (runOps (steps ++ [last]) db).1 =
      (runOps steps db).1 ++ last.ops (runTxnSteps steps db).2 := by
  rw [← runOps_snd, runOps, follow_append]
  rfl

theorem runTxnSteps_append (steps : List TxnStep) (last : TxnStep) (db : DB) :
    (runTxnSteps (steps ++ [last]) db).2 = after TxnStep.run (runTxnSteps steps db).2 last := by
  rw [runTxnSteps, follow_append]
  rfl

theorem WrittenBy.applyAll_eq {env : Env} {options : Options} {path : String}
    {ops : List DiskOp} {c : TxnClient}
    (h : WrittenBy options (DB.created env options path).disk
      (DB.created env options path).journal ops c) :
    (Disk.empty path).applyAll ops = c.db.disk := by
  obtain ⟨-, -, rest, rfl, hdisk, -⟩ := h
  rw [Disk.applyAll_append, hdisk]
  rfl

theorem Serial.read_of_recalls {options : Options} {l : Ledger} {c : TxnClient}
    (h : Serial options True l c) {F : FileFormat} {disk : Disk} (hrecalls : c.db.Recalls disk)
    {x : Except Error ByteDB} (halike : ∀ env,
      Alike (fun b db => ∀ key snapshot, b.getOpt F key snapshot = db.getOpt key snapshot) x
        (DB.open env disk options)) :
    ∃ b, x = .ok b ∧ ∀ k, b.get F k = .ok (l.map.get? k) := by
  obtain ⟨r, hopen, hr⟩ := hrecalls
  rw [h.options_eq] at hopen
  obtain ⟨b, hb, hget⟩ := (halike c.db.env).of_ok hopen
  refine ⟨b, hb, fun k => ?_⟩
  rw [ByteDB.get, hget, ← h.ok.get_of_shows h.shows, ← hr, DB.get]

/-- A process that stops at any byte of a call that starts no compaction: opening its
directory finds the map before the call or the one after it, and the latter once the call has
returned. Calls before it may have compacted, and the directory may have been opened again. -/
theorem byte_stops_are_atomic (env : Env) {options : Options} (path : String) {db₀ : DB}
    (hopen : DB.open env (Disk.empty path) options = .ok db₀)
    (hsub : options.maxSubcompactions = 1) (hwal : options.walEnabled = true)
    (herr : options.errorIfExists = false) {F : FileFormat} (hz : F.zstd.Lossless)
    (steps : List TxnStep) (last : TxnStep)
    (hsteps : ∀ step ∈ steps ++ [last], step.Sequential ∧ step.Logs)
    (hquiet : last.Quiet (runTxnSteps steps db₀).2)
    (hsized : ∀ op ∈ (runOps (steps ++ [last]) db₀).1, op.Sized F options.blockSize)
    (chunks : String → Nat → Nat) (i n : Nat)
    (hi : (diskFileOps F options.blockSize (runOps steps db₀).1).length ≤ i) :
    ∃ b, ByteDB.openPath F chunks path (Directory.empty.stopped
        (diskFileOps F options.blockSize (runOps (steps ++ [last]) db₀).1) i n) options = .ok b ∧
      ((i < (diskFileOps F options.blockSize (runOps (steps ++ [last]) db₀).1).length ∧
          ∀ k, b.get F k = .ok ((runTxnSteps steps db₀).1.map.get? k)) ∨
        ∀ k, b.get F k = .ok ((runTxnSteps (steps ++ [last]) db₀).1.map.get? k)) := by
  obtain rfl := DB.eq_created hopen
  have hfits : ∀ step ∈ steps ++ [last], step.Fits options True := fun step hstep =>
    ⟨(hsteps step hstep).1, hsub, fun _ => ⟨hwal, (hsteps step hstep).2⟩, fun _ => ⟨trivial, herr⟩⟩
  obtain ⟨hbefore, hfirst⟩ := serial_known env path herr fun step hstep =>
    hfits step (List.mem_append_left _ hstep)
  obtain ⟨hafter, hwritten⟩ := serial_known env path herr hfits
  rw [runOps_snd] at hfirst hwritten
  obtain ⟨j, hj, hdone, -, halike⟩ := hwritten.stopped hz hsized i n
  by_cases hlt : i < (diskFileOps F options.blockSize
      (runOps (steps ++ [last]) (DB.created env options path)).1).length
  · -- the first `j` operations are all of the earlier calls and some of the last
    have hops := runOps_append steps last (DB.created env options path)
    have hle : (runOps steps (DB.created env options path)).1.length ≤ j := by
      refine hdone _ ?_ ?_
      · rw [hops, List.length_append]
        exact Nat.le_add_right _ _
      · rwa [hops, List.take_left]
    rw [hops, List.take_append, List.take_of_length_le hle, Disk.applyAll_append,
      hfirst.applyAll_eq] at halike
    have hstep := hbefore.step_atomic herr (hfits last (by simp)) hquiet
      (j - (runOps steps (DB.created env options path)).1.length)
    rw [← runTxnSteps_append] at hstep
    rw [← hops] at halike
    rcases hstep with hrecalls | hrecalls
    · obtain ⟨b, hb, hget⟩ := hbefore.read_of_recalls hrecalls fun env' => halike env' chunks
      exact ⟨b, hb, .inl ⟨hlt, hget⟩⟩
    · obtain ⟨b, hb, hget⟩ := hafter.read_of_recalls hrecalls fun env' => halike env' chunks
      exact ⟨b, hb, .inr hget⟩
  · have hall : (runOps (steps ++ [last]) (DB.created env options path)).1.length ≤ j :=
      hdone _ le_rfl (by rw [List.take_length]; exact not_lt.mp hlt)
    rw [List.take_of_length_le hall, hwritten.applyAll_eq] at halike
    obtain ⟨b, hb, hget⟩ := hafter.read_of_recalls (hafter.recalls herr) fun env' =>
      halike env' chunks
    exact ⟨b, hb, .inr hget⟩

/-- A stop in the log record of the last write. -/
theorem byte_stops_are_atomic_small :
    ∃ b, ByteDB.openPath rawFormat (fun _ _ => 0) "db" (Directory.empty.stopped
        (diskFileOps rawFormat 4096 (runOps (flushedSteps ++ [.call (.call (.put [99] [3]))])
          (DB.created .inOrder {} "db")).1) 20 5) {} = .ok b ∧
      b.get rawFormat [97] = .ok (some [1]) := by
  have hsteps : ∀ step ∈ flushedSteps ++ [.call (.call (.put [99] [3]))],
      step.Sequential ∧ step.Logs := by
    simp [flushedSteps, TxnStep.Sequential, Call.Sequential, TxnStep.Logs, Call.Logs, Call.request]
  obtain ⟨b, hb, hget⟩ := @byte_stops_are_atomic .inOrder {} "db" _ (DB.open_empty _ _ _) rfl rfl
    rfl rawFormat TableFile.rawFrames_lossless flushedSteps _ hsteps (.inl (by decide +kernel))
    (by decide +kernel) (fun _ _ => 0) 20 5 (by decide +kernel)
  refine ⟨b, hb, ?_⟩
  rcases hget with ⟨-, hget⟩ | hget
  · rw [hget]
    decide +kernel
  · rw [hget]
    decide +kernel

end TyLsm
