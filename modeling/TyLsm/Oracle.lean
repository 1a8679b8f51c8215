import TyLsm.Calls

/-! A database without snapshots is a map: reads answer as a plain ordered map
would that receives the same puts and deletes, across flushes, compactions and
reopening. -/

namespace TyLsm

/-- The effect of a call on the map. -/
def Call.oracle (call : Call) (m : OrderedMap Bytes Bytes) : OrderedMap Bytes Bytes :=
  call.records.foldl (fun m record => record.applyTo m) m

def oracle (calls : List Call) : OrderedMap Bytes Bytes :=
  calls.foldl (fun m call => call.oracle m) .empty

/-- Logged writes, flushes, compactions of everything, and reopening. -/
def Call.Plain : Call → Prop
  | put _ _ => True
  | delete _ => True
  | write _ opts => opts.disableWal = false
  | flush => True
  | compactRange lower upper => lower = .unbounded ∧ upper = .unbounded
  | reopen => True

namespace DB

variable {db : DB} {m : OrderedMap Bytes Bytes}

theorem Ok.get_of_shows (h : db.Ok) (hm : db.Shows m) (k : Bytes) : db.get k = .ok (m.get? k) := by
  rw [get, h.toReadable.getOpt_eq, ← hm k _ le_rfl]
  rfl

theorem Ok.scan_of_shows (h : db.Ok) (hm : db.Shows m) (lower upper : Bound) :
    db.scan lower upper = .ok (m.entries.filter (fun e => withinBounds e.1 lower upper)) := by
  obtain ⟨rows, hrows, hsorted, hmem⟩ := h.toReadable.scanOpt_eq h.stateOk.newestFirst lower upper
    none
  rw [scan, hrows]
  refine congrArg Except.ok (OrderedMap.entries_eq_of_mem_iff hsorted
    (m.sorted.sublist List.filter_sublist) fun row => ?_)
  rw [hmem row.1 row.2, List.mem_filter, ← OrderedMap.get?_eq_some_iff, ← hm row.1 _ le_rfl,
    and_comm]
  rfl

/-- The database behaves as the map `m` and would still do so after being opened again. -/
structure Refines (options : Options) (m : OrderedMap Bytes Bytes) (db : DB) : Prop where
  ok : db.Ok
  durable : db.Durable
  shows : db.Shows m
  options_eq : db.options = options
  noSnapshot : db.watermark.oldest = none

theorem Refines.gcWatermark_eq {options : Options} (h : Refines options m db) :
    db.gcWatermark = db.state.lastSequence := by
  rw [gcWatermark, h.noSnapshot]
  rfl

theorem Refines.splitsSafely {options : Options} (h : Refines options m db) (lower upper : Bound) :
    db.SplitsSafely lower upper :=
  h.ok.splitsSafely (.inr h.noSnapshot) lower upper

theorem Refines.write {options : Options} (h : Refines options m db)
    (hwal : options.walEnabled = true) (batch : WriteBatch) {opts : WriteOptions}
    (hlog : opts.disableWal = false) :
    ∃ db', DB.write (.ok ()) batch opts db = .ok () db' ∧
      Refines options (batch.records.foldl (fun m record => record.applyTo m) m) db' := by
  obtain ⟨db', hrun, hadv, hd⟩ := h.durable.write h.ok (h.splitsSafely _ _)
    h.gcWatermark_eq.le (h.options_eq ▸ hwal) batch hlog
  exact ⟨db', hrun, hadv.ok, hd, hadv.shows m h.shows, hadv.options.trans h.options_eq,
    hadv.watermark ▸ h.noSnapshot⟩

theorem Refines.compactRange {options : Options} (h : Refines options m db) :
    ∃ db', DB.compactRange .unbounded .unbounded db = .ok () db' ∧ Refines options m db' := by
  obtain ⟨db', hrun, hok, hc, hvis⟩ := h.ok.compactRange db.keepsOrder_unbounded
    (h.splitsSafely _ _)
  have hadv := hc.advanced hok h.durable.toRecorded h.gcWatermark_eq.le
    (hvis db.leavesNoOlder_unbounded)
  exact ⟨db', hrun, hok, hc.durable h.durable, hadv.shows m h.shows,
    hadv.options.trans h.options_eq, hadv.watermark ▸ h.noSnapshot⟩

theorem Refines.flush {options : Options} (h : Refines options m db) :
    ∃ db', DB.flush db = .ok () db' ∧ Refines options m db' := by
  obtain ⟨db', hrun, hf, hd⟩ := h.durable.flush h.ok
  exact ⟨db', hrun, hf.ok, hd, hf.advanced.shows m h.shows, hf.options.trans h.options_eq,
    hf.watermark ▸ h.noSnapshot⟩

theorem Refines.reopen {options : Options} (h : Refines options m db)
    (herr : options.errorIfExists = false) :
    ∃ db', DB.reopen db = .ok () db' ∧ Refines options m db' := by
  have hopen := h.durable.reopen h.ok.sound.toTabled (h.options_eq ▸ herr)
  rw [← h.durable.state_eq] at hopen
  refine ⟨{ db with
    journal := [.createDir, .openWal db.wal]
    watermark := .new }, by rw [DB.reopen, hopen], ?_, ?_, h.shows, h.options_eq, rfl⟩
  · exact ⟨⟨h.ok.isOpen, h.ok.stored, h.ok.tables⟩, h.ok.stateOk, h.ok.freshTables, h.ok.freshWals⟩
  · have hd := h.durable
    exact ⟨⟨hd.dirExists, hd.current, hd.manifest, hd.wal, hd.log, hd.lastSequence⟩, hd.state_eq⟩

theorem Refines.step {options : Options} (hwal : options.walEnabled = true) (call : Call)
    (m : OrderedMap Bytes Bytes) (db : DB) (h : Refines options m db)
    (hcall : call.Plain ∧ (call = .reopen → options.errorIfExists = false)) :
    ∃ db', call.run db = .ok () db' ∧ Refines options (call.oracle m) db' := by
  obtain ⟨hplain, hreopen⟩ := hcall
  cases call with
  | put key value => exact h.write hwal ⟨[.put key value]⟩ rfl
  | delete key => exact h.write hwal ⟨[.delete key]⟩ rfl
  | write batch opts => exact h.write hwal batch hplain
  | flush => exact h.flush
  | compactRange lower upper =>
    obtain ⟨rfl, rfl⟩ := hplain
    exact h.compactRange
  | reopen => exact h.reopen (hreopen rfl)

theorem refines_created (env : Env) (options : Options) (path : String) :
    Refines options .empty (created env options path) :=
  ⟨ok_created env options path, durable_created env options path, shows_created env options path,
    rfl, rfl⟩

end DB

/-- Whatever plain calls a client makes on a fresh database, they succeed, and `get` and
`scan` then answer as the ordered map does. -/
theorem run_refines_oracle (env : Env) (options : Options) (path : String) {db₀ : DB}
    (hopen : DB.open env (Disk.empty path) options = .ok db₀) (hwal : options.walEnabled = true)
    (calls : List Call) (hplain : ∀ call ∈ calls, call.Plain)
    (hreopen : Call.reopen ∈ calls → options.errorIfExists = false) :
    ∃ db, runAll Call.run calls db₀ = .ok () db ∧
      (∀ k, db.get k = .ok ((oracle calls).get? k)) ∧
      ∀ lower upper, db.scan lower upper =
        .ok ((oracle calls).entries.filter (fun e => withinBounds e.1 lower upper)) := by
  obtain rfl := DB.eq_created hopen
  have halong : Along Call.run (fun call _ => call.Plain ∧
      (call = .reopen → options.errorIfExists = false)) calls (DB.created env options path) :=
    along_of_forall (fun call hc _ => ⟨hplain call hc, fun he => hreopen (he ▸ hc)⟩) _
  obtain ⟨db, hrun, hdb⟩ := runAll_invariant (DB.Refines.step hwal)
    (DB.refines_created env options path) halong
  exact ⟨db, hrun, hdb.ok.get_of_shows hdb.shows, hdb.ok.scan_of_shows hdb.shows⟩

theorem run_refines_oracle_small :
    ∃ db, runAll Call.run [.put [97] [1], .put [] [2], .flush, .delete [97],
        .compactRange .unbounded .unbounded, .put [98] [3], .reopen]
        (DB.created .inOrder { memtableSize := 100, maxLevels := 3 } "db") = .ok () db ∧
      db.get [97] = .ok none ∧ db.scan .unbounded .unbounded = .ok [([], [2]), ([98], [3])] := by
  obtain ⟨db, hrun, hget, hscan⟩ := run_refines_oracle .inOrder
    { memtableSize := 100, maxLevels := 3 } "db" (DB.open_empty _ _ _) rfl
    [.put [97] [1], .put [] [2], .flush, .delete [97], .compactRange .unbounded .unbounded,
      .put [98] [3], .reopen] (by simp [Call.Plain]) (fun _ => rfl)
  exact ⟨db, hrun, hget [97], hscan .unbounded .unbounded⟩

end TyLsm
