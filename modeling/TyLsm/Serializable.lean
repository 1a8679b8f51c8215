import TyLsm.MapTraces
import TyLsm.Oracle
import TyLsm.OwnReads

/-! Serializability. The transactions that commit, and the writes outside of transactions,
could have run one after the other in the order in which they were acknowledged, on a plain
map; also when the process ends in between and the directory is opened again. -/

namespace TyLsm

theorem get?_foldl_applyTo (records : List BatchRecord) (m : OrderedMap Bytes Bytes) (k : Bytes) :
    (records.foldl (fun m record => record.applyTo m) m).get? k =
      ((lastWrite records k).map ValueRecord.intoVisibleValue).getD (m.get? k) := by
  induction records using List.reverseRecOn with
  | nil => rfl
  | append_singleton records record ih =>
    rw [List.foldl_append, List.foldl_cons, List.foldl_nil, BatchRecord.get?_applyTo,
      lastWrite_append_singleton, ih]
    by_cases hk : record.key = k <;> simp [hk]

/-- Reads of a key do not depend on the read sequence where nothing newer is stored. -/
theorem visible_of_unchanged {l : List Entry} {k : Bytes} {s s' : Nat} (hs : s ≤ s')
    (h : ∀ e ∈ l, e.1.userKey = k → e.1.sequence ≤ s) : visible k s' l = visible k s l := by
  rw [visible, visible, newest, newest]
  congr 1
  refine List.find?_congr fun e he => ?_
  by_cases hk : e.1.userKey = k
  · have hle := h e he hk
    simp only [entry_key, entry_rank, hle, hle.trans hs, and_true]
  · simp [entry_key, hk]

namespace DB

variable {db : DB}

theorem Ok.answers (h : db.Ok) : db.Answers db.allEntries := by
  refine ⟨fun k s => h.toReadable.getOpt_eq k (some s), fun lower upper s => ?_⟩
  exact h.toReadable.scanOpt_eq h.stateOk.newestFirst lower upper (some s)

/-- A call that succeeds and keeps what is recorded, if the call is logged. -/
structure Succeeds (call : DBM Unit) (db : DB) (records : List BatchRecord) (logs : Prop)
    (db' : DB) : Prop where
  run : call db = .ok () db'
  advanced : Advanced db db' records
  durable : db.Durable → logs → db'.Durable

theorem Ok.group_succeeds (h : db.Ok) (hr : db.Recorded)
    (hsplit : db.SplitsSafely .unbounded .unbounded)
    (hmark : db.gcWatermark ≤ db.state.lastSequence) (request : Request) :
    ∃ db', Succeeds (DB.applyWriteGroup (.ok ()) [request]) db request.batch.records
      (db.options.walEnabled = true ∧ request.opts.disableWal = false) db' := by
  obtain ⟨db', hrun, hadv⟩ := h.applyWriteGroup hr hsplit hmark [request]
  rw [groupRecords_singleton] at hadv
  refine ⟨db', hrun, hadv, fun hd hlog => ?_⟩
  obtain ⟨db'', hrun', -, hd'⟩ := hd.applyWriteGroup h hsplit hmark hlog.1 hlog.2
  obtain rfl : db' = db'' := by
    have := hrun.symm.trans hrun'
    injection this
  exact hd'

theorem Ok.write_succeeds (h : db.Ok) (hr : db.Recorded)
    (hsplit : db.SplitsSafely .unbounded .unbounded)
    (hmark : db.gcWatermark ≤ db.state.lastSequence) (batch : WriteBatch) (opts : WriteOptions) :
    ∃ db', Succeeds (DB.write (.ok ()) batch opts) db batch.records
      (db.options.walEnabled = true ∧ opts.disableWal = false) db' := by
  by_cases hempty : batch.isEmpty = true
  · refine ⟨db, by rw [DB.write, if_pos hempty]; rfl, ?_, fun hd _ => hd⟩
    rw [List.isEmpty_iff.mp hempty]
    exact Advanced.refl h hr
  · obtain ⟨db', hgroup⟩ := h.group_succeeds hr hsplit hmark ⟨batch, opts⟩
    refine ⟨db', ?_, hgroup.advanced, hgroup.durable⟩
    rw [DB.write, if_neg hempty]
    exact hgroup.run

theorem Ok.compactRange_succeeds (h : db.Ok) (hr : db.Recorded)
    (hsplit : db.SplitsSafely .unbounded .unbounded)
    (hmark : db.gcWatermark ≤ db.state.lastSequence) :
    ∃ db', Succeeds (DB.compactRange .unbounded .unbounded) db [] True db' := by
  obtain ⟨db', hrun, hok, hc, hvis⟩ := h.compactRange db.keepsOrder_unbounded hsplit
  exact ⟨db', hrun, hc.advanced hok hr hmark (hvis db.leavesNoOlder_unbounded),
    fun hd _ => hc.durable hd⟩

theorem Ok.flush_succeeds (h : db.Ok) (hr : db.Recorded) :
    ∃ db', Succeeds DB.flush db [] True db' := by
  obtain ⟨db', hrun, hf⟩ := h.flush_recorded hr
  refine ⟨db', hrun, hf.advanced, fun hd _ => ?_⟩
  obtain ⟨db'', hrun', -, hd'⟩ := hd.flush h
  obtain rfl : db' = db'' := by
    have := hrun.symm.trans hrun'
    injection this
  exact hd'

end DB

/-- Writes, flushes and compactions of everything. -/
def Call.Sequential : Call → Prop
  | compactRange lower upper => lower = .unbounded ∧ upper = .unbounded
  | reopen => False
  | _ => True

/-- If the call writes, it writes to the log. -/
def Call.Logs (call : Call) : Prop := ∀ request ∈ call.request, request.opts.disableWal = false

theorem DB.Ok.call_succeeds {db : DB} (h : db.Ok) (hr : db.Recorded)
    (hsplit : db.SplitsSafely .unbounded .unbounded)
    (hmark : db.gcWatermark ≤ db.state.lastSequence) {call : Call} (hcall : call.Sequential) :
    ∃ db', Succeeds call.run db call.records (db.options.walEnabled = true ∧ call.Logs) db' := by
  have hlogs : ∀ {request : Request}, call.request = some request → call.Logs →
      request.opts.disableWal = false := fun heq hl => hl _ heq
  cases call with
  | put key value =>
    obtain ⟨db', hs⟩ := h.write_succeeds hr hsplit hmark ⟨[.put key value]⟩ {}
    exact ⟨db', hs.run, hs.advanced, fun hd hl => hs.durable hd ⟨hl.1, rfl⟩⟩
  | delete key =>
    obtain ⟨db', hs⟩ := h.write_succeeds hr hsplit hmark ⟨[.delete key]⟩ {}
    exact ⟨db', hs.run, hs.advanced, fun hd hl => hs.durable hd ⟨hl.1, rfl⟩⟩
  | write batch opts =>
    obtain ⟨db', hs⟩ := h.write_succeeds hr hsplit hmark batch opts
    exact ⟨db', hs.run, hs.advanced, fun hd hl => hs.durable hd ⟨hl.1, hlogs rfl hl.2⟩⟩
  | flush =>
    obtain ⟨db', hs⟩ := h.flush_succeeds hr
    exact ⟨db', hs.run, hs.advanced, fun hd _ => hs.durable hd trivial⟩
  | compactRange lower upper =>
    obtain ⟨rfl, rfl⟩ := hcall
    obtain ⟨db', hs⟩ := h.compactRange_succeeds hr hsplit hmark
    exact ⟨db', hs.run, hs.advanced, fun hd _ => hs.durable hd trivial⟩
  | reopen => exact absurd hcall id

theorem run_ok_of_rethrow {α : Type} {x : DBM α} {f : Error → Error} {a : α} {db db' : DB}
    (h : (tryCatch x (fun err => throw (f err))) db = .ok a db') : x db = .ok a db' := by
  cases hx : x db with
  | ok b db'' => rw [← h, run_tryCatch_ok hx]
  | error err db'' =>
    rw [run_tryCatch_error hx] at h
    cases h

namespace DB

variable {db : DB}

/-- After the conflict check a commit goes on as a group of its own would. -/
theorem commitTransaction_of_group {db₁ db' : DB} {readSeq : Nat} {batch : WriteBatch}
    {readKeys : List Bytes} {readRanges : List ReadRange}
    (hpressure : DB.applyWritePressure db = .ok () db₁)
    (hrun : commitToMemtable (.ok ()) readSeq batch readKeys readRanges db₁ =
      applyWriteGroupToMemtable (.ok ()) [⟨batch, {}⟩] db₁)
    (hgroup : DB.applyWriteGroup (.ok ()) [⟨batch, {}⟩] db = .ok () db') :
    DB.commitTransaction (.ok ()) readSeq batch readKeys readRanges db = .ok () db' := by
  have hinner := run_ok_of_rethrow hgroup
  rw [run_bind_ok hpressure] at hinner
  rw [DB.commitTransaction, run_bind_ok hpressure, ← hinner]
  change EStateM.bind _ _ _ = EStateM.bind _ _ _
  rw [EStateM.bind, EStateM.bind, hrun]

theorem Ok.commitTransaction_cases (h : db.Ok) (hr : db.Recorded)
    (hsplit : db.SplitsSafely .unbounded .unbounded)
    (hmark : db.gcWatermark ≤ db.state.lastSequence) (readSeq : Nat) (batch : WriteBatch)
    (readKeys : List Bytes) (readRanges : List ReadRange) :
    (∃ db', Succeeds (DB.commitTransaction (.ok ()) readSeq batch readKeys readRanges) db
      batch.records (db.options.walEnabled = true) db') ∨
    ∃ err db', DB.commitTransaction (.ok ()) readSeq batch readKeys readRanges db =
      .error err db' ∧ Advanced db db' [] ∧ (db.Durable → db'.Durable) := by
  obtain ⟨db₁, hpressure, hok₁, hc, hvis⟩ := h.applyWritePressure fun _ => hsplit
  have hadv := hc.advanced hok₁ hr hmark hvis
  rcases commitToMemtable_cases hok₁.isOpen (.ok ()) readSeq batch readKeys readRanges with
    ⟨err, herr⟩ | ⟨hempty, hrun⟩ | ⟨-, hrun⟩
  · refine .inr ⟨err, db₁, ?_, hadv, hc.durable⟩
    rw [DB.commitTransaction, run_bind_ok hpressure, run_bind_error herr]
  · refine .inl ⟨db₁, ?_, hempty ▸ hadv, fun hd _ => hc.durable hd⟩
    rw [DB.commitTransaction, run_bind_ok hpressure, run_bind_ok hrun]
    rfl
  · obtain ⟨db', hgroup⟩ := h.group_succeeds hr hsplit hmark ⟨batch, {}⟩
    refine .inl ⟨db', ?_, hgroup.advanced, fun hd hwal => hgroup.durable hd ⟨hwal, rfl⟩⟩
    exact commitTransaction_of_group hpressure hrun hgroup.run

/-- What a commit does: it applies its writes, if nothing it read or writes has changed
since its snapshot, or nothing. -/
theorem Ok.commit_cases (h : db.Ok) (hr : db.Recorded)
    (hsplit : db.SplitsSafely .unbounded .unbounded) (txn : Transaction)
    (hmark : db.gcWatermark ≤ txn.readSeq) (hle : txn.readSeq ≤ db.state.lastSequence) :
    (∃ db', txn.commit (.ok ()) db =
        .ok () { db' with watermark := db.watermark.remove txn.readSeq } ∧
      ¬ db.Conflicting txn.readSeq txn.writes (txn.readKeys.entries.map Prod.fst) txn.readRanges ∧
      Advanced db db' txn.writes.records ∧
      (db.Durable → db.options.walEnabled = true → db'.Durable)) ∨
    ∃ err db', txn.commit (.ok ()) db =
        .error err { db' with watermark := db.watermark.remove txn.readSeq } ∧
      Advanced db db' [] ∧ (db.Durable → db'.Durable) := by
  have hsound := h.sound.commitTransaction hr hmark txn.writes (txn.readKeys.entries.map Prod.fst)
    txn.readRanges
  rcases h.commitTransaction_cases hr hsplit (hmark.trans hle) txn.readSeq txn.writes
    (txn.readKeys.entries.map Prod.fst) txn.readRanges with ⟨db', hs⟩ | ⟨err, db', hrun, hadv, hd⟩
  · refine .inl ⟨db', ?_, ?_, hs.advanced, hs.durable⟩
    · rw [Transaction.commit, run_bind_ok (run_tryCatch_ok hs.run), ← hs.advanced.watermark]
      rfl
    · rcases hsound with ⟨_, _, hno, _⟩ | ⟨message, db'', herr, _⟩
      · exact hno
      · rw [hs.run] at herr
        cases herr
  · refine .inr ⟨err, db', ?_, hadv, hd⟩
    rw [Transaction.commit, ← hadv.watermark]
    exact run_bind_error (run_tryCatch_error hrun)

end DB

/-- A call of a client with transactions, or the end of the process: its transactions end
with it, and the directory is opened again. -/
inductive TxnStep where
  | call (inner : TxnCall)
  | restart

def TxnStep.run : TxnStep → EStateM Error TxnClient Unit
  | call inner => inner.run
  | restart => fun c => TxnClient.lift DB.reopen c.txns (fun _ => c.txns.map fun _ => none) c

abbrev Trace := List (TraceOp Bytes Bytes Error)

def BatchRecord.traceOp (record : BatchRecord) : TraceOp Bytes Bytes Error :=
  .update record.key record.value.intoVisibleValue

/-- What an observer of a run notes. -/
structure Ledger where
  /-- The traces of the committed transactions and of the writes outside of transactions, in
  the order in which they were acknowledged. -/
  history : List Trace := []
  /-- How many of them there were when the transaction of a slot began. -/
  begun : Nat → Nat := fun _ => 0
  trace : Nat → Trace := fun _ => []

namespace Ledger

def acknowledge (l : Ledger) (trace : Trace) : Ledger := { l with history := l.history ++ [trace] }

def start (l : Ledger) (slot : Nat) : Ledger :=
  { l with
    begun := Function.update l.begun slot l.history.length
    trace := Function.update l.trace slot [] }

def add (l : Ledger) (slot : Nat) (op : TraceOp Bytes Bytes Error) : Ledger :=
  { l with trace := Function.update l.trace slot (l.trace slot ++ [op]) }

/-- The map after the acknowledged traces. -/
def map (l : Ledger) : OrderedMap Bytes Bytes := effect l.history.flatten .empty

/-- The map at the start of the transaction of a slot. -/
def base (l : Ledger) (slot : Nat) : OrderedMap Bytes Bytes :=
  effect (l.history.take (l.begun slot)).flatten .empty

end Ledger

def TxnClient.live? (c : TxnClient) (slot : Nat) : Option Transaction := c.txns[slot]?.join

/-- The ledger after a call. A read is noted with what it returned. -/
def TxnStep.note (step : TxnStep) (c : TxnClient) (l : Ledger) : Ledger :=
  let acknowledged := match step.run c with
    | .ok _ _ => true
    | .error _ _ => false
  match step with
  | call (.call inner) =>
    if acknowledged then l.acknowledge (inner.records.map BatchRecord.traceOp) else l
  | call (.begin _) => if acknowledged then l.start c.txns.length else l
  | call (.get slot key) =>
    match c.live? slot with
    | some txn => l.add slot (.get key (txn.get c.db key).2)
    | none => l
  | call (.scan slot lower upper) =>
    match c.live? slot with
    | some txn => l.add slot (.scan (withinBounds · lower upper) (txn.scan c.db lower upper).2)
    | none => l
  | call (.write slot record) =>
    if acknowledged && (c.live? slot).isSome then l.add slot record.traceOp else l
  | call (.commit slot) =>
    if acknowledged && (c.live? slot).isSome then l.acknowledge (l.trace slot) else l
  | call (.rollback _) => l
  | restart => l

def runTxnSteps (steps : List TxnStep) (db : DB) : Ledger × TxnClient :=
  follow TxnStep.run TxnStep.note steps {} ⟨db, []⟩

theorem effect_traceOps (records : List BatchRecord) (m : OrderedMap Bytes Bytes) :
    effect (records.map BatchRecord.traceOp) m =
      records.foldl (fun m record => record.applyTo m) m := by
  rw [effect, List.foldl_map]
  congr 1
  funext m record
  cases record <;> rfl

theorem replays_traceOps (records : List BatchRecord) (m : OrderedMap Bytes Bytes) :
    Replays (records.map BatchRecord.traceOp) m := by
  induction records generalizing m with
  | nil => trivial
  | cons record records ih => exact ⟨trivial, ih _⟩

/-- A transaction goes by its trace: it saw the map `base`, all through its snapshot, and
has recorded what it read first and what it wrote. -/
structure GoesBy (db : DB) (txn : Transaction) (base : OrderedMap Bytes Bytes) (ops : Trace) :
    Prop where
  le : txn.readSeq ≤ db.state.lastSequence
  view : ∀ k, visible k txn.readSeq db.allEntries = base.get? k
  replays : Replays ops base
  updated : ∀ k, k ∈ updatedKeys ops ↔ k ∈ txn.writes.records.map BatchRecord.key
  effect : ∀ m, effect ops m = txn.writes.records.foldl (fun m record => record.applyTo m) m
  reads : ∀ k, ReadsFirst k ops → k ∈ txn.readKeys.entries.map Prod.fst ∨
    ∃ range ∈ txn.readRanges, withinBounds k range.1 range.2 = true

namespace GoesBy

variable {db db' : DB} {txn : Transaction} {base : OrderedMap Bytes Bytes} {ops : Trace}

theorem advanced (h : GoesBy db txn base ops) {records : List BatchRecord}
    (hadv : DB.Advanced db db' records) (hmark : db.gcWatermark ≤ txn.readSeq) :
    GoesBy db' txn base ops :=
  ⟨h.le.trans (hadv.lastSequence ▸ Nat.le_add_right _ _),
    fun k => (hadv.older k txn.readSeq hmark h.le).trans (h.view k),
    h.replays, h.updated, h.effect, h.reads⟩

theorem replays_add (h : GoesBy db txn base ops) {op : TraceOp Bytes Bytes Error}
    (hop : op.AnswersAs (txn.writes.records.foldl (fun m record => record.applyTo m) base)) :
    Replays (ops ++ [op]) base :=
  replays_append.mpr ⟨h.replays, by rw [h.effect]; exact ⟨hop, trivial⟩⟩

theorem updatedKeys_add {op : TraceOp Bytes Bytes Error} :
    updatedKeys (ops ++ [op]) = updatedKeys ops ++ op.updated := by
  simp [updatedKeys]

theorem get?_written (h : GoesBy db txn base ops) (hok : db.Ok) (k : Bytes) :
    (txn.get db k).2 =
      .ok ((txn.writes.records.foldl (fun m record => record.applyTo m) base).get? k) := by
  rw [hok.answers.txnGet, get?_foldl_applyTo, h.view]
  cases lastWrite txn.writes.records k <;> rfl

theorem get (h : GoesBy db txn base ops) (hok : db.Ok) (k : Bytes) :
    (txn.get db k).1.readSeq = txn.readSeq ∧
      GoesBy db (txn.get db k).1 base (ops ++ [.get k (txn.get db k).2]) := by
  have hreplays : Replays (ops ++ [.get k (txn.get db k).2]) base :=
    h.replays_add (h.get?_written hok k)
  have heffect : ∀ m, TyLsm.effect (ops ++ [.get k (txn.get db k).2]) m = TyLsm.effect ops m :=
    fun m => effect_append ops _ m
  have hupdated : updatedKeys (ops ++ [.get k (txn.get db k).2]) = updatedKeys ops := by
    rw [updatedKeys_add]
    exact List.append_nil _
  cases hv : txn.localValue k with
  | some value =>
    have htxn : (txn.get db k).1 = txn := by rw [Transaction.get, hv]
    rw [htxn]
    refine ⟨rfl, h.le, h.view, hreplays, fun k' => ?_, fun m => ?_, fun k' hk' => ?_⟩
    · rw [hupdated]
      exact h.updated k'
    · rw [heffect]
      exact h.effect m
    · -- a key that the transaction wrote itself is not read first
      rcases readsFirst_append_singleton.mp hk' with hk' | ⟨hno, rfl⟩
      · exact h.reads k' hk'
      · rw [h.updated, ← TxnClient.localValue_eq_none] at hno
        rw [hno] at hv
        cases hv
  | none =>
    have htxn : (txn.get db k).1 = { txn with readKeys := txn.readKeys.insert k () } := by
      rw [Transaction.get, hv]
    rw [htxn]
    refine ⟨rfl, h.le, h.view, hreplays, fun k' => ?_, fun m => ?_, fun k' hk' => ?_⟩
    · rw [hupdated]
      exact h.updated k'
    · rw [heffect]
      exact h.effect m
    · have hinsert : ∀ k', k' = k ∨ k' ∈ txn.readKeys.entries.map Prod.fst →
          k' ∈ (txn.readKeys.insert k ()).entries.map Prod.fst := by
        intro k' hor
        simp only [List.mem_map, Prod.exists, OrderedMap.mem_entries_insert] at hor ⊢
        by_cases hk : k' = k
        · exact ⟨k', (), .inl (by rw [hk]), rfl⟩
        · obtain ⟨a, u, hmem, rfl⟩ := hor.resolve_left hk
          exact ⟨a, u, .inr ⟨hmem, hk⟩, rfl⟩
      rcases readsFirst_append_singleton.mp hk' with hk' | ⟨-, rfl⟩
      · exact (h.reads k' hk').imp_left fun hmem => hinsert k' (.inr hmem)
      · exact .inl (hinsert _ (.inl rfl))

theorem scan (h : GoesBy db txn base ops) (hok : db.Ok) (lower upper : Bound) :
    GoesBy db (txn.scan db lower upper).1 base
      (ops ++ [.scan (withinBounds · lower upper) (txn.scan db lower upper).2]) := by
  obtain ⟨rows, hscan, hsorted, hmem⟩ := hok.answers.txnScan txn lower upper
  set m := txn.writes.records.foldl (fun m record => record.applyTo m) base with hm
  have hrows : rows = m.entries.filter (fun e => withinBounds e.1 lower upper) := by
    refine OrderedMap.entries_eq_of_mem_iff hsorted (m.sorted.sublist List.filter_sublist)
      fun row => ?_
    rw [hmem row.1 row.2, h.get?_written hok, List.mem_filter, ← OrderedMap.get?_eq_some_iff,
      and_comm, Except.ok.injEq]
  refine ⟨h.le, h.view, h.replays_add (by rw [hscan, hrows]; rfl), fun k => ?_, fun m => ?_,
    fun k hk => ?_⟩
  · rw [updatedKeys_add]
    exact (List.append_nil (updatedKeys ops)).symm ▸ h.updated k
  · rw [effect_append]
    exact h.effect m
  · have hranges : (txn.scan db lower upper).1.readRanges =
        txn.readRanges ++ [(lower, upper)] := rfl
    rw [hranges]
    rcases readsFirst_append_singleton.mp hk with hk | ⟨-, hk⟩
    · refine (h.reads k hk).imp_right fun ⟨range, hr, hin⟩ => ?_
      exact ⟨range, List.mem_append_left _ hr, hin⟩
    · exact .inr ⟨(lower, upper), by simp, hk⟩

theorem write (h : GoesBy db txn base ops) (record : BatchRecord) :
    GoesBy db { txn with writes := ⟨txn.writes.records ++ [record]⟩ } base
      (ops ++ [record.traceOp]) := by
  refine ⟨h.le, h.view, h.replays_add trivial, fun k => ?_, fun m => ?_, fun k hk => ?_⟩
  · rw [updatedKeys_add, List.mem_append, h.updated, List.map_append, List.mem_append]
    rfl
  · rw [effect_append, List.foldl_append, h.effect, ← effect_traceOps [record]]
    rfl
  · rcases readsFirst_append_singleton.mp hk with hk | ⟨-, hk⟩
    · exact h.reads k hk
    · exact absurd hk id

/-- Where a commit finds no conflict, the transaction would do the same if it ran now. -/
theorem commits (h : GoesBy db txn base ops) {m : OrderedMap Bytes Bytes} (hm : db.Shows m)
    (hno : ¬ db.Conflicting txn.readSeq txn.writes (txn.readKeys.entries.map Prod.fst)
      txn.readRanges) : Replays ops m := by
  refine h.replays.frame fun k hk => ?_
  rw [← h.view k, ← hm k _ le_rfl]
  refine visible_of_unchanged h.le fun e he hek => not_lt.mp fun hlt => hno ⟨e, he, hlt, ?_⟩
  rw [hek]
  rcases h.reads k hk with hkey | hrange
  · exact .inl hkey
  · exact .inr (.inr hrange)

end GoesBy

theorem GoesBy.withWatermark {db : DB} {txn : Transaction} {base : OrderedMap Bytes Bytes}
    {ops : Trace} (h : GoesBy db txn base ops) (w : Watermark) :
    GoesBy { db with watermark := w } txn base ops :=
  ⟨h.le, h.view, h.replays, h.updated, h.effect, h.reads⟩

theorem TxnClient.Observed.gcWatermark_le_last {notes : Nat → Seen} {c : TxnClient}
    (h : Observed notes c) : c.db.gcWatermark ≤ c.db.state.lastSequence := by
  rw [DB.gcWatermark]
  cases ho : c.db.watermark.oldest with
  | none => exact le_rfl
  | some oldest =>
    obtain ⟨handle, hmem, heq⟩ := List.mem_map.mp (h.counts.oldest_mem ho)
    cases handle with
    | none => cases heq
    | some txn =>
      obtain rfl : txn.readSeq = oldest := Option.some.inj heq
      obtain ⟨slot, hslot⟩ := List.getElem?_of_mem hmem
      exact (h.tracks slot txn hslot).le

namespace Ledger

variable {l : Ledger}

@[simp] theorem map_acknowledge (trace : Trace) :
    (l.acknowledge trace).map = effect trace l.map := by
  rw [map, acknowledge, List.flatten_append, List.flatten_singleton, effect_append, map]

theorem base_acknowledge (trace : Trace) {slot : Nat} (h : l.begun slot ≤ l.history.length) :
    (l.acknowledge trace).base slot = l.base slot := by
  rw [base, acknowledge, List.take_append_of_le_length h, base]

end Ledger

/-- The invariant of a run: the ledger replays, the database shows the map after it, and
each transaction goes by its trace. -/
structure Serial (options : Options) (logs : Prop) (l : Ledger) (c : TxnClient) : Prop where
  observed : ∃ notes, TxnClient.Observed notes c
  ok : c.db.Ok
  durable : logs → c.db.Durable
  options_eq : c.db.options = options
  replays : Replays l.history.flatten .empty
  shows : c.db.Shows l.map
  begun : ∀ slot, l.begun slot ≤ l.history.length
  sees : ∀ slot, Replays (l.trace slot) (l.base slot)
  goes : ∀ slot txn, c.txns[slot]? = some (some txn) →
    GoesBy c.db txn (l.base slot) (l.trace slot)

namespace Serial

variable {options : Options} {logs : Prop} {l : Ledger} {c : TxnClient}

theorem goes_advanced (h : Serial options logs l c) {db' : DB} {records : List BatchRecord}
    (hadv : DB.Advanced c.db db' records) {slot : Nat} {txn : Transaction}
    (hslot : c.txns[slot]? = some (some txn)) :
    GoesBy db' txn (l.base slot) (l.trace slot) := by
  obtain ⟨notes, hobs⟩ := h.observed
  exact (h.goes slot txn hslot).advanced hadv (hobs.gcWatermark_le hslot)

/-- A step that writes nothing and adds nothing to the ledger. -/
theorem kept (h : Serial options logs l c) {db' : DB} (hadv : DB.Advanced c.db db' [])
    (hd : logs → db'.Durable) {w : Watermark} {txns : List (Option Transaction)}
    (hsub : ∀ (slot : Nat) (txn : Transaction), txns[slot]? = some (some txn) →
      c.txns[slot]? = some (some txn))
    (hobs : ∃ notes, TxnClient.Observed notes ⟨{ db' with watermark := w }, txns⟩) :
    Serial options logs l ⟨{ db' with watermark := w }, txns⟩ where
  observed := hobs
  ok := hadv.ok.withWatermark w
  durable hl := ⟨(hd hl).toRecorded.withWatermark w, (hd hl).state_eq⟩
  options_eq := hadv.options.trans h.options_eq
  replays := h.replays
  shows := hadv.shows l.map h.shows
  begun := h.begun
  sees := h.sees
  goes slot txn hslot := (h.goes_advanced hadv (hsub slot txn hslot)).withWatermark w

/-- A step that was acknowledged and wrote what its trace says. -/
theorem acknowledged (h : Serial options logs l c) {db' : DB} {records : List BatchRecord}
    (hadv : DB.Advanced c.db db' records) (hd : logs → db'.Durable) {trace : Trace}
    (htrace : Replays trace l.map)
    (heffect : effect trace l.map = records.foldl (fun m record => record.applyTo m) l.map)
    {w : Watermark} {txns : List (Option Transaction)}
    (hsub : ∀ (slot : Nat) (txn : Transaction), txns[slot]? = some (some txn) →
      c.txns[slot]? = some (some txn))
    (hobs : ∃ notes, TxnClient.Observed notes ⟨{ db' with watermark := w }, txns⟩) :
    Serial options logs (l.acknowledge trace) ⟨{ db' with watermark := w }, txns⟩ where
  observed := hobs
  ok := hadv.ok.withWatermark w
  durable hl := ⟨(hd hl).toRecorded.withWatermark w, (hd hl).state_eq⟩
  options_eq := hadv.options.trans h.options_eq
  replays := by
    have hflatten : (l.acknowledge trace).history.flatten = l.history.flatten ++ trace := by
      simp [Ledger.acknowledge]
    rw [hflatten]
    exact replays_append.mpr ⟨h.replays, htrace⟩
  shows := by
    rw [Ledger.map_acknowledge, heffect]
    exact hadv.shows l.map h.shows
  begun slot := (h.begun slot).trans (by simp [Ledger.acknowledge])
  sees slot := by
    rw [Ledger.base_acknowledge trace (h.begun slot)]
    exact h.sees slot
  goes slot txn hslot := by
    rw [Ledger.base_acknowledge trace (h.begun slot)]
    exact (h.goes_advanced hadv (hsub slot txn hslot)).withWatermark w

theorem touched (h : Serial options logs l c) {slot : Nat} {txn txn' : Transaction}
    {op : TraceOp Bytes Bytes Error} (hslot : c.txns[slot]? = some (some txn))
    (hg : GoesBy c.db txn' (l.base slot) (l.trace slot ++ [op]))
    (hobs : ∃ notes, TxnClient.Observed notes ⟨c.db, c.txns.set slot (some txn')⟩) :
    Serial options logs (l.add slot op) ⟨c.db, c.txns.set slot (some txn')⟩ := by
  have hself : (l.add slot op).trace slot = l.trace slot ++ [op] := Function.update_self _ _ _
  have hne : ∀ other, slot ≠ other → (l.add slot op).trace other = l.trace other :=
    fun other hi => Function.update_of_ne (Ne.symm hi) _ _
  refine ⟨hobs, h.ok, h.durable, h.options_eq, h.replays, h.shows, h.begun, fun other => ?_,
    fun other txn'' hother => ?_⟩
  · by_cases hi : slot = other
    · subst hi
      rw [hself]
      exact hg.replays
    · rw [hne other hi]
      exact h.sees other
  · by_cases hi : slot = other
    · subst hi
      rw [List.getElem?_set_self', hslot] at hother
      obtain rfl : txn' = txn'' := by simpa using hother
      rw [hself]
      exact hg
    · rw [List.getElem?_set_ne hi] at hother
      rw [hne other hi]
      exact h.goes other txn'' hother

theorem begin (h : Serial options logs l c) (readOnly : Bool)
    (hobs : ∃ notes, TxnClient.Observed notes
      ⟨{ c.db with watermark := c.db.watermark.add c.db.state.lastSequence },
        c.txns ++ [some ⟨c.db.state.lastSequence, readOnly, ⟨[]⟩, .empty, []⟩]⟩) :
    Serial options logs (l.start c.txns.length)
      ⟨{ c.db with watermark := c.db.watermark.add c.db.state.lastSequence },
        c.txns ++ [some ⟨c.db.state.lastSequence, readOnly, ⟨[]⟩, .empty, []⟩]⟩ := by
  have hself : (l.start c.txns.length).trace c.txns.length = [] := Function.update_self _ _ _
  have hbase : (l.start c.txns.length).base c.txns.length = l.map := by
    have hbegun : (l.start c.txns.length).begun c.txns.length = l.history.length :=
      Function.update_self _ _ _
    rw [Ledger.base, hbegun, Ledger.start, List.take_length, Ledger.map]
  have hne : ∀ slot, slot ≠ c.txns.length → (l.start c.txns.length).begun slot = l.begun slot ∧
      (l.start c.txns.length).base slot = l.base slot ∧
      (l.start c.txns.length).trace slot = l.trace slot := by
    intro slot hi
    have hbegun : (l.start c.txns.length).begun slot = l.begun slot :=
      Function.update_of_ne hi _ _
    refine ⟨hbegun, ?_, Function.update_of_ne hi _ _⟩
    rw [Ledger.base, hbegun, Ledger.start, Ledger.base]
  refine ⟨hobs, h.ok.withWatermark _, fun hl => ⟨(h.durable hl).toRecorded.withWatermark _,
    (h.durable hl).state_eq⟩, h.options_eq, h.replays, h.shows, fun slot => ?_, fun slot => ?_,
    fun slot txn hslot => ?_⟩
  · by_cases hi : slot = c.txns.length
    · subst hi
      exact (Function.update_self (f := l.begun) _ _).le
    · rw [(hne slot hi).1]
      exact h.begun slot
  · by_cases hi : slot = c.txns.length
    · subst hi
      rw [hself]
      trivial
    · rw [(hne slot hi).2.1, (hne slot hi).2.2]
      exact h.sees slot
  · by_cases hi : slot < c.txns.length
    · rw [List.getElem?_append_left hi] at hslot
      rw [(hne slot hi.ne).2.1, (hne slot hi.ne).2.2]
      exact (h.goes slot txn hslot).withWatermark _
    · obtain rfl : slot = c.txns.length := by
        have := (List.getElem?_eq_some_iff.mp hslot).1
        simp only [List.length_append, List.length_singleton] at this
        omega
      obtain rfl : _ = txn := by simpa using hslot
      rw [hbase, hself]
      exact ⟨le_rfl, fun k => h.shows k _ le_rfl, trivial, by simp [updatedKeys], fun m => rfl,
        fun k hk => absurd hk id⟩

end Serial

/-- Writes of any kind, flushes, compactions of everything, transactions and restarts. -/
def TxnStep.Sequential : TxnStep → Prop
  | call (.call inner) => inner.Sequential
  | _ => True

def TxnStep.Logs : TxnStep → Prop
  | call (.call inner) => inner.Logs
  | _ => True

/-- What a step may be where `logs` says whether the run keeps everything in the log. -/
structure TxnStep.Fits (options : Options) (logs : Prop) (step : TxnStep) : Prop where
  sequential : step.Sequential
  oneOutput : options.maxSubcompactions = 1
  logged : logs → options.walEnabled = true ∧ step.Logs
  restart : step = .restart → logs ∧ options.errorIfExists = false

namespace Serial

variable {options : Options} {logs : Prop} {l : Ledger} {c : TxnClient}

theorem splitsSafely (h : Serial options logs l c) (hsub : options.maxSubcompactions = 1) :
    c.db.SplitsSafely .unbounded .unbounded :=
  h.ok.splitsSafely (.inl (h.options_eq ▸ hsub.le)) _ _

theorem live?_eq {slot : Nat} {txn : Transaction} (h : c.txns[slot]? = some (some txn)) :
    c.live? slot = some txn := by
  rw [TxnClient.live?, h]
  rfl

theorem live?_eq_none {slot : Nat} (h : ∀ txn, c.txns[slot]? ≠ some (some txn)) :
    c.live? slot = none := by
  rw [TxnClient.live?, Option.join_eq_none_iff]
  by_contra hno
  rw [not_or] at hno
  obtain ⟨handle, hslot⟩ := Option.ne_none_iff_exists'.mp hno.1
  cases handle with
  | none => exact hno.2 hslot
  | some txn => exact h txn hslot

theorem call (h : Serial options logs l c) {inner : Call}
    (hfits : (TxnStep.call (.call inner)).Fits options logs)
    (hobs : ∃ notes, TxnClient.Observed notes (after TxnStep.run c (.call (.call inner)))) :
    Serial options logs ((TxnStep.call (.call inner)).note c l)
      (after TxnStep.run c (.call (.call inner))) := by
  obtain ⟨notes, hobserved⟩ := h.observed
  obtain ⟨db', hs⟩ := h.ok.call_succeeds hobserved.recorded (h.splitsSafely hfits.oneOutput)
    hobserved.gcWatermark_le_last hfits.sequential
  have hrun : (TxnStep.call (.call inner)).run c = .ok () ⟨db', c.txns⟩ := by
    simp only [TxnStep.run, TxnCall.run, TxnClient.lift, hs.run]
  rw [after_ok hrun] at hobs ⊢
  have hnote : (TxnStep.call (.call inner)).note c l =
      l.acknowledge (inner.records.map BatchRecord.traceOp) := by
    rw [TxnStep.note, hrun]
    rfl
  rw [hnote]
  refine h.acknowledged (w := db'.watermark) hs.advanced (fun hl => ?_) (replays_traceOps _ _)
    (effect_traceOps _ _) (fun _ _ hslot => hslot) hobs
  exact hs.durable (h.durable hl) ⟨h.options_eq ▸ (hfits.logged hl).1, (hfits.logged hl).2⟩

theorem ended_slot {txns : List (Option Transaction)} {slot other : Nat} {txn txn' : Transaction}
    (hslot : txns[slot]? = some (some txn))
    (hother : (txns.set slot none)[other]? = some (some txn')) :
    txns[other]? = some (some txn') := by
  have hne : slot ≠ other := by
    rintro rfl
    rw [List.getElem?_set_self'] at hother
    simp [hslot] at hother
  rwa [List.getElem?_set_ne hne] at hother

theorem commit (h : Serial options logs l c) {slot : Nat} {txn : Transaction}
    (hslot : c.txns[slot]? = some (some txn))
    (hfits : (TxnStep.call (.commit slot)).Fits options logs)
    (hobs : ∃ notes, TxnClient.Observed notes (after TxnStep.run c (.call (.commit slot)))) :
    Serial options logs ((TxnStep.call (.commit slot)).note c l)
      (after TxnStep.run c (.call (.commit slot))) := by
  obtain ⟨notes, hobserved⟩ := h.observed
  have hgoes := h.goes slot txn hslot
  have hsub : ∀ (other : Nat) (txn' : Transaction),
      (c.txns.set slot none)[other]? = some (some txn') → c.txns[other]? = some (some txn') :=
    fun other txn' hother => ended_slot hslot hother
  rcases h.ok.commit_cases hobserved.recorded (h.splitsSafely hfits.oneOutput) txn
    (hobserved.gcWatermark_le hslot) hgoes.le with
    ⟨db', hcommit, hno, hadv, hd⟩ | ⟨err, db', hcommit, hadv, hd⟩
  · have hrun : (TxnStep.call (.commit slot)).run c = .ok () ⟨{ db' with
        watermark := c.db.watermark.remove txn.readSeq }, c.txns.set slot none⟩ := by
      rw [TxnStep.run, TxnCall.run, TxnClient.run_onTxn_live hslot]
      simp only [TxnClient.lift, hcommit]
    rw [after_ok hrun] at hobs ⊢
    have hnote : (TxnStep.call (.commit slot)).note c l = l.acknowledge (l.trace slot) := by
      rw [TxnStep.note, hrun, live?_eq hslot]
      rfl
    rw [hnote]
    exact h.acknowledged hadv (fun hl => hd (h.durable hl) (h.options_eq ▸ (hfits.logged hl).1))
      (hgoes.commits h.shows hno) (hgoes.effect _) hsub hobs
  · have hrun : (TxnStep.call (.commit slot)).run c = .error err ⟨{ db' with
        watermark := c.db.watermark.remove txn.readSeq }, c.txns.set slot none⟩ := by
      rw [TxnStep.run, TxnCall.run, TxnClient.run_onTxn_live hslot]
      simp only [TxnClient.lift, hcommit]
    rw [after_error hrun] at hobs ⊢
    have hnote : (TxnStep.call (.commit slot)).note c l = l := by
      rw [TxnStep.note, hrun]
      rfl
    rw [hnote]
    exact h.kept hadv (fun hl => hd (h.durable hl)) hsub hobs

/-- A restart loses nothing but the transactions. -/
theorem run_restart (h : Serial options logs l c) (hlogs : logs)
    (herr : options.errorIfExists = false) :
    TxnStep.restart.run c = .ok () ⟨{ c.db with
      journal := [.createDir, .openWal c.db.wal]
      watermark := .new }, c.txns.map fun _ => none⟩ := by
  have hd := h.durable hlogs
  have hopen := hd.reopen h.ok.sound.toTabled (h.options_eq ▸ herr)
  rw [← hd.state_eq] at hopen
  simp only [TxnStep.run, TxnClient.lift, DB.reopen, hopen]

theorem restart (h : Serial options logs l c) (hlogs : logs)
    (herr : options.errorIfExists = false) :
    Serial options logs l (after TxnStep.run c .restart) := by
  have hd := h.durable hlogs
  rw [after_ok (h.run_restart hlogs herr)]
  have hnone : ∀ (slot : Nat) (txn : Transaction),
      (c.txns.map fun _ => (none : Option Transaction))[slot]? ≠ some (some txn) := by
    intro slot txn hslot
    obtain ⟨handle, -, heq⟩ := List.mem_map.mp (List.mem_of_getElem? hslot)
    cases heq
  have hok : ({ c.db with
      journal := [.createDir, .openWal c.db.wal]
      watermark := .new } : DB).Ok :=
    ⟨⟨h.ok.isOpen, h.ok.stored, h.ok.tables⟩, h.ok.stateOk, h.ok.freshTables, h.ok.freshWals⟩
  have hdurable : ({ c.db with
      journal := [.createDir, .openWal c.db.wal]
      watermark := .new } : DB).Durable :=
    ⟨⟨hd.dirExists, hd.current, hd.manifest, hd.wal, hd.log, hd.lastSequence⟩, hd.state_eq⟩
  refine ⟨⟨fun _ => {}, hok.sound, hdurable.toRecorded, fun n => ⟨?_, ?_⟩,
    fun slot txn hslot => absurd hslot (hnone slot txn)⟩, hok, fun _ => hdurable, h.options_eq,
    h.replays, h.shows, h.begun, h.sees, fun slot txn hslot => absurd hslot (hnone slot txn)⟩
  · -- no transaction is left that would hold a read sequence
    have hzero : some n ∉ TxnClient.held (c.txns.map fun _ => none) := by
      simp [TxnClient.held]
    rw [List.count_eq_zero_of_not_mem hzero]
    rfl
  · simp [Watermark.new, OrderedMap.get?]

theorem get (h : Serial options logs l c) (slot : Nat) (key : Bytes)
    (hobs : ∃ notes, TxnClient.Observed notes (after TxnStep.run c (.call (.get slot key)))) :
    Serial options logs ((TxnStep.call (.get slot key)).note c l)
      (after TxnStep.run c (.call (.get slot key))) := by
  rcases c.live_or_ended slot with ⟨txn, hslot⟩ | hended
  · have hafter := TxnClient.after_get hslot key
    change after TxnStep.run c (.call (.get slot key)) = _ at hafter
    rw [hafter] at hobs ⊢
    simp only [TxnStep.note, live?_eq hslot]
    exact h.touched hslot ((h.goes slot txn hslot).get h.ok key).2 hobs
  · have hrun : (TxnStep.call (.get slot key)).run c = .ok () c := by
      rw [TxnStep.run, TxnCall.run, TxnClient.run_onTxn_ended hended]
    rw [after_ok hrun]
    simp only [TxnStep.note, live?_eq_none hended]
    exact h

theorem scan (h : Serial options logs l c) (slot : Nat) (lower upper : Bound)
    (hobs : ∃ notes, TxnClient.Observed notes
      (after TxnStep.run c (.call (.scan slot lower upper)))) :
    Serial options logs ((TxnStep.call (.scan slot lower upper)).note c l)
      (after TxnStep.run c (.call (.scan slot lower upper))) := by
  rcases c.live_or_ended slot with ⟨txn, hslot⟩ | hended
  · have hafter := TxnClient.after_scan hslot lower upper
    change after TxnStep.run c (.call (.scan slot lower upper)) = _ at hafter
    rw [hafter] at hobs ⊢
    simp only [TxnStep.note, live?_eq hslot]
    exact h.touched hslot ((h.goes slot txn hslot).scan h.ok lower upper) hobs
  · have hrun : (TxnStep.call (.scan slot lower upper)).run c = .ok () c := by
      rw [TxnStep.run, TxnCall.run, TxnClient.run_onTxn_ended hended]
    rw [after_ok hrun]
    simp only [TxnStep.note, live?_eq_none hended]
    exact h

theorem write (h : Serial options logs l c) (slot : Nat) (record : BatchRecord)
    (hobs : ∃ notes, TxnClient.Observed notes (after TxnStep.run c (.call (.write slot record)))) :
    Serial options logs ((TxnStep.call (.write slot record)).note c l)
      (after TxnStep.run c (.call (.write slot record))) := by
  rcases c.live_or_ended slot with ⟨txn, hslot⟩ | hended
  · cases hro : txn.readOnly with
    | true =>
      have hrun : (TxnStep.call (.write slot record)).run c = _ :=
        TxnClient.run_write_readOnly hslot hro record
      rw [after_error hrun, TxnStep.note, hrun]
      exact h
    | false =>
      have hrun : (TxnStep.call (.write slot record)).run c = _ :=
        TxnClient.run_write hslot hro record
      rw [after_ok hrun] at hobs ⊢
      rw [TxnStep.note, hrun, live?_eq hslot]
      exact h.touched hslot ((h.goes slot txn hslot).write record) hobs
  · have hrun : (TxnStep.call (.write slot record)).run c = .ok () c := by
      rw [TxnStep.run, TxnCall.run, TxnClient.run_onTxn_ended hended]
    rw [after_ok hrun, TxnStep.note, hrun, live?_eq_none hended]
    exact h

theorem rollback (h : Serial options logs l c) (slot : Nat)
    (hobs : ∃ notes, TxnClient.Observed notes (after TxnStep.run c (.call (.rollback slot)))) :
    Serial options logs ((TxnStep.call (.rollback slot)).note c l)
      (after TxnStep.run c (.call (.rollback slot))) := by
  obtain ⟨notes, hobserved⟩ := h.observed
  rcases c.live_or_ended slot with ⟨txn, hslot⟩ | hended
  · have hrun : (TxnStep.call (.rollback slot)).run c = _ := TxnClient.run_rollback hslot
    rw [after_ok hrun] at hobs ⊢
    exact h.kept (DB.Advanced.refl h.ok hobserved.recorded) h.durable
      (fun other txn' hother => ended_slot hslot hother) hobs
  · have hrun : (TxnStep.call (.rollback slot)).run c = .ok () c := by
      rw [TxnStep.run, TxnCall.run, TxnClient.run_onTxn_ended hended]
    rw [after_ok hrun]
    exact h

theorem step (step : TxnStep) (l : Ledger) (c : TxnClient) (h : Serial options logs l c)
    (hfits : step.Fits options logs) :
    Serial options logs (step.note c l) (after TxnStep.run c step) := by
  obtain ⟨notes, hobserved⟩ := h.observed
  cases step with
  | restart =>
    obtain ⟨hlogs, herr⟩ := hfits.restart rfl
    exact h.restart hlogs herr
  | call call =>
    have hcall : call ≠ .call .reopen := by
      rintro rfl
      exact hfits.sequential
    have hobs : ∃ notes, TxnClient.Observed notes (after TxnStep.run c (.call call)) :=
      ⟨_, TxnClient.Observed.step call notes c hobserved hcall⟩
    cases call with
    | call inner => exact h.call hfits hobs
    | begin readOnly =>
      have hrun : (TxnStep.call (.begin readOnly)).run c = _ :=
        TxnClient.run_begin hobserved.sound.isOpen readOnly
      rw [after_ok hrun] at hobs ⊢
      rw [TxnStep.note, hrun]
      exact h.begin readOnly hobs
    | get slot key => exact h.get slot key hobs
    | scan slot lower upper => exact h.scan slot lower upper hobs
    | write slot record => exact h.write slot record hobs
    | commit slot =>
      rcases c.live_or_ended slot with ⟨txn, hslot⟩ | hended
      · exact h.commit hslot hfits hobs
      · have hrun : (TxnStep.call (.commit slot)).run c = .ok () c := by
          rw [TxnStep.run, TxnCall.run, TxnClient.run_onTxn_ended hended]
        rw [after_ok hrun, TxnStep.note, hrun, live?_eq_none hended]
        exact h
    | rollback slot => exact h.rollback slot hobs

end Serial

theorem serial_created (env : Env) (options : Options) (path : String) (logs : Prop) :
    Serial options logs {} ⟨DB.created env options path, []⟩ :=
  ⟨⟨fun _ => {}, TxnClient.observed_created env options path _⟩, DB.ok_created env options path,
    fun _ => DB.durable_created env options path, rfl, trivial, DB.shows_created env options path,
    fun _ => le_rfl, fun _ => trivial, fun slot txn hslot => by simp at hslot⟩

theorem serial_run (env : Env) {options : Options} (path : String)
    (hsub : options.maxSubcompactions = 1) {steps : List TxnStep}
    (hsteps : ∀ step ∈ steps, step.Sequential)
    (hrestart : .restart ∈ steps → options.walEnabled = true ∧ options.errorIfExists = false ∧
      ∀ step ∈ steps, step.Logs) :
    Serial options (.restart ∈ steps) (runTxnSteps steps (DB.created env options path)).1
      (runTxnSteps steps (DB.created env options path)).2 := by
  refine follow_invariant (C := fun step _ => step.Fits options (.restart ∈ steps)) Serial.step
    (serial_created env options path _) (along_of_forall (fun step hstep _ => ?_) _)
  refine ⟨hsteps step hstep, hsub, fun hl => ⟨(hrestart hl).1, (hrestart hl).2.2 step hstep⟩, ?_⟩
  rintro rfl
  exact ⟨hstep, (hrestart hstep).2.1⟩

/-- Whatever transactions, writes, flushes, compactions and restarts a client makes, the
traces acknowledged so far replay in this order on a plain map: each committed transaction
would have read the same if it had run alone at its commit. The database shows that map. -/
theorem transactions_serializable (env : Env) {options : Options} (path : String) {db₀ : DB}
    (hopen : DB.open env (Disk.empty path) options = .ok db₀)
    (hsub : options.maxSubcompactions = 1) (steps : List TxnStep)
    (hsteps : ∀ step ∈ steps, step.Sequential)
    (hrestart : .restart ∈ steps → options.walEnabled = true ∧ options.errorIfExists = false ∧
      ∀ step ∈ steps, step.Logs) :
    Replays (runTxnSteps steps db₀).1.history.flatten .empty ∧
      (∀ k, (runTxnSteps steps db₀).2.db.get k = .ok ((runTxnSteps steps db₀).1.map.get? k)) ∧
      ∀ lower upper, (runTxnSteps steps db₀).2.db.scan lower upper =
        .ok ((runTxnSteps steps db₀).1.map.entries.filter
          (fun e => withinBounds e.1 lower upper)) := by
  obtain rfl := DB.eq_created hopen
  have h := serial_run env path hsub hsteps hrestart
  exact ⟨h.replays, h.ok.get_of_shows h.shows, h.ok.scan_of_shows h.shows⟩

/-- Two transactions that overlap; the second one ends in a conflict. -/
def overlapping : List TxnStep :=
  [.call (.call (.put [97] [1])), .call (.begin false), .call (.begin false),
    .call (.get 0 [97]), .call (.scan 1 .unbounded .unbounded), .call (.write 0 (.put [98] [2])),
    .call (.write 1 (.delete [97])), .call (.commit 0), .call (.commit 1), .restart]

theorem overlapping_fits : (∀ step ∈ overlapping, step.Sequential) ∧
    ∀ step ∈ overlapping, step.Logs := by
  constructor
  · simp [overlapping, TxnStep.Sequential, Call.Sequential]
  · simp [overlapping, TxnStep.Logs, Call.Logs, Call.request]

theorem transactions_serializable_small :
    (runTxnSteps overlapping (DB.created .inOrder {} "db")).1.history =
      [[.update [97] (some [1])], [.get [97] (.ok (some [1])), .update [98] (some [2])]] ∧
    (runTxnSteps overlapping (DB.created .inOrder {} "db")).2.db.get [98] = .ok (some [2]) := by
  refine ⟨by rfl, ?_⟩
  have hget := (@transactions_serializable .inOrder {} "db" _ (DB.open_empty _ _ _) rfl overlapping
    overlapping_fits.1 fun _ => ⟨rfl, rfl, overlapping_fits.2⟩).2.1 [98]
  rw [hget]
  decide +kernel

/-- Every transaction, whether it is live, committed, failed or was given up, has read what
it would have read alone on one state of the map: the one at its start. -/
theorem transactions_see_one_state (env : Env) {options : Options} (path : String) {db₀ : DB}
    (hopen : DB.open env (Disk.empty path) options = .ok db₀)
    (hsub : options.maxSubcompactions = 1) (steps : List TxnStep)
    (hsteps : ∀ step ∈ steps, step.Sequential)
    (hrestart : .restart ∈ steps → options.walEnabled = true ∧ options.errorIfExists = false ∧
      ∀ step ∈ steps, step.Logs) (slot : Nat) :
    (runTxnSteps steps db₀).1.begun slot ≤ (runTxnSteps steps db₀).1.history.length ∧
      Replays ((runTxnSteps steps db₀).1.trace slot) ((runTxnSteps steps db₀).1.base slot) := by
  obtain rfl := DB.eq_created hopen
  have h := serial_run env path hsub hsteps hrestart
  exact ⟨h.begun slot, h.sees slot⟩

theorem transactions_see_one_state_small :
    ((runTxnSteps overlapping (DB.created .inOrder {} "db")).1.trace 1).length = 2 ∧
      Replays ((runTxnSteps overlapping (DB.created .inOrder {} "db")).1.trace 1)
        ((runTxnSteps overlapping (DB.created .inOrder {} "db")).1.base 1) :=
  ⟨by decide +kernel, (@transactions_see_one_state .inOrder {} "db" _ (DB.open_empty _ _ _) rfl
    overlapping overlapping_fits.1 (fun _ => ⟨rfl, rfl, overlapping_fits.2⟩) 1).2⟩

end TyLsm
