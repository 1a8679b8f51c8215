import TyLsm.Recovery
import TyLsm.Runs

/-! The public calls of a sequential client, and what each of them does to a
database that satisfies the invariant. -/

namespace TyLsm

inductive Call where
  | put (key value : Bytes)
  | delete (key : Bytes)
  | write (batch : WriteBatch) (opts : WriteOptions)
  | flush
  | compactRange (lower upper : Bound)
  /-- Drop the database and open its directory again. -/
  | reopen

/-- Open the directory of the database again with the same options. -/
def DB.reopen : DBM Unit := fun db =>
  match DB.open db.env db.disk db.options with
  | .ok db' => .ok () db'
  | .error err => .error err db

def Call.run : Call → DBM Unit
  | put key value => DB.put key value
  | delete key => DB.delete key
  | write batch opts => DB.write (.ok ()) batch opts
  | flush => DB.flush
  | compactRange lower upper => DB.compactRange lower upper
  | reopen => DB.reopen

/-- The request of a call that writes. -/
def Call.request : Call → Option DB.Request
  | put key value => some ⟨⟨[.put key value]⟩, {}⟩
  | delete key => some ⟨⟨[.delete key]⟩, {}⟩
  | write batch opts => some ⟨batch, opts⟩
  | _ => none

def Call.records (call : Call) : List BatchRecord :=
  (call.request.map (fun request => request.batch.records)).getD []

namespace DB

variable {db : DB}

/-- The map of keys to values that reads without a snapshot see. -/
def Shows (db : DB) (m : OrderedMap Bytes Bytes) : Prop :=
  TyLsm.Shows db.state (db.versions.current.entries db.disk.tables) m

/-- A call that wrote `records`, or nothing, and kept what older reads see. -/
structure Advanced (db db' : DB) (records : List BatchRecord) : Prop where
  ok : db'.Ok
  recorded : db'.Recorded
  env : db'.env = db.env
  options : db'.options = db.options
  watermark : db'.watermark = db.watermark
  lastSequence : db'.state.lastSequence = db.state.lastSequence + records.length
  shows : ∀ m, db.Shows m → db'.Shows (records.foldl (fun m record => record.applyTo m) m)
  older : ∀ k s, db.gcWatermark ≤ s → s ≤ db.state.lastSequence →
    visible k s db'.allEntries = visible k s db.allEntries

theorem TablesChanged.advanced {db' : DB} (hc : TablesChanged db db') (hok : db'.Ok)
    (hr : db.Recorded) (hmark : db.gcWatermark ≤ db.state.lastSequence)
    (hvis : ∀ k s, db.gcWatermark ≤ s → visible k s db'.allEntries = visible k s db.allEntries) :
    Advanced db db' [] := by
  have hlast : db'.state.lastSequence = db.state.lastSequence := by rw [hc.state]
  refine ⟨hok, hc.recorded hr, hc.env, hc.options, hc.watermark, hlast, ?_,
    fun k s hs _ => hvis k s hs⟩
  intro m hm k s hs
  rw [hlast] at hs
  exact (hvis k s (hmark.trans hs)).trans (hm k s hs)

theorem Flushed.advanced {db' : DB} (hf : Flushed db db') : Advanced db db' [] := by
  refine ⟨hf.ok, hf.recorded, hf.env, hf.options, hf.watermark, hf.lastSequence, ?_, ?_⟩
  · intro m hm k s hs
    rw [hf.lastSequence] at hs
    exact (congrArg (visible k s) hf.allEntries).trans (hm k s hs)
  · intro k s _ _
    rw [hf.allEntries]

theorem Ok.applyWritePressure (h : db.Ok)
    (hsplit : db.options.level0StopWritesTrigger ≤ db.state.l0Tables.length →
      db.SplitsSafely .unbounded .unbounded) :
    ∃ db', applyWritePressure db = .ok () db' ∧ db'.Ok ∧ TablesChanged db db' ∧
      ∀ k s, db.gcWatermark ≤ s → visible k s db'.allEntries = visible k s db.allEntries := by
  rw [DB.applyWritePressure, run_bind_ok (run_get db)]
  split
  · rename_i htrigger
    obtain ⟨db', hrun, hok, hframe, hvis⟩ :=
      h.compactRange db.keepsOrder_unbounded (hsplit htrigger)
    exact ⟨db', hrun, hok, hframe, hvis db.leavesNoOlder_unbounded⟩
  · exact ⟨db, rfl, h, TablesChanged.refl db, fun _ _ _ => rfl⟩

/-- Compaction where L0 has grown too large, then the group, then a flush if it froze a
memtable. -/
theorem Ok.advanced_group {db₁ db₂ : DB} (hok₁ : db₁.Ok) (hr : db.Recorded)
    (hmark : db.gcWatermark ≤ db.state.lastSequence) (hc : TablesChanged db db₁)
    (hvis : ∀ k s, db.gcWatermark ≤ s → visible k s db₁.allEntries = visible k s db.allEntries)
    (requests : List Request)
    (hflush : Flushed (db₁.written requests) db₂ ∨ db₂ = db₁.written requests) :
    Advanced db db₂ (groupRecords requests) := by
  have hfirst := hc.advanced hok₁ hr hmark hvis
  obtain ⟨hok, hrec, happ⟩ := hok₁.written hfirst.recorded requests
  have hlast₁ : db₁.state.lastSequence = db.state.lastSequence := hfirst.lastSequence
  have hmid : Advanced db (db₁.written requests) (groupRecords requests) := by
    refine ⟨hok, hrec, hfirst.env, hfirst.options, hfirst.watermark, ?_, ?_, ?_⟩
    · exact happ.lastSequence.trans (by rw [hlast₁])
    · intro m hm
      have hm₁ := hfirst.shows m hm
      intro k s hs
      rw [← happ.shows m hm₁ k s hs]
      rw [written_tables]
      rfl
    · intro k s hs hle
      rw [← hvis k s hs, allEntries, allEntries, ← happ.older k s (by rw [hlast₁]; exact hle)]
      rw [written_tables]
      rfl
  rcases hflush with hf | rfl
  · have hlast := hf.advanced
    refine ⟨hf.ok, hf.recorded, hf.env.trans hmid.env, hf.options.trans hmid.options,
      hf.watermark.trans hmid.watermark, hf.lastSequence.trans hmid.lastSequence, ?_, ?_⟩
    · exact fun m hm => hlast.shows _ (hmid.shows m hm)
    · intro k s hs hle
      rw [hf.allEntries]
      exact hmid.older k s hs hle
  · exact hmid

theorem run_applyWriteGroup {db₁ db₂ : DB} {requests : List Request} {sync : Except Error Unit}
    (hpressure : applyWritePressure db = .ok () db₁) (hopen : db₁.state.closed = false)
    (hsync : sync = .ok () ∨ (db₁.options.walEnabled && shouldSync db₁.options
      (groupItems (db₁.state.lastSequence + 1) requests)) = false)
    (hflush : (if db₁.freezes requests then flush else pure ()) (db₁.written requests) =
      .ok () db₂) : applyWriteGroup sync requests db = .ok () db₂ := by
  rw [applyWriteGroup]
  refine run_tryCatch_ok ?_
  rw [run_bind_ok hpressure, run_bind_ok (run_applyWriteGroupToMemtable hopen requests sync hsync)]
  exact hflush

theorem Ok.applyWriteGroup (h : db.Ok) (hr : db.Recorded)
    (hsplit : db.SplitsSafely .unbounded .unbounded)
    (hmark : db.gcWatermark ≤ db.state.lastSequence) (requests : List Request) :
    ∃ db', applyWriteGroup (.ok ()) requests db = .ok () db' ∧
      Advanced db db' (groupRecords requests) := by
  obtain ⟨db₁, hpressure, hok₁, hc, hvis⟩ := h.applyWritePressure fun _ => hsplit
  obtain ⟨hok, hrec, _⟩ := hok₁.written (hc.recorded hr) requests
  cases hfreeze : db₁.freezes requests with
  | false =>
    exact ⟨_, run_applyWriteGroup hpressure hok₁.isOpen (.inl rfl) (by simp [hfreeze]),
      hok₁.advanced_group hr hmark hc hvis requests (.inr rfl)⟩
  | true =>
    obtain ⟨db₂, hflush, hf⟩ := hok.flush_recorded hrec
    exact ⟨db₂, run_applyWriteGroup hpressure hok₁.isOpen (.inl rfl) (by simp [hfreeze, hflush]),
      hok₁.advanced_group hr hmark hc hvis requests (.inl hf)⟩

/-- A batch that freezes the memtable of a database without frozen ones leaves nothing in
memory but the memtable that is flushed next. -/
theorem takeOldest_written {request : Request} (himm : db.state.immutables = [])
    (hfreeze : db.freezes [request] = true) :
    ∃ memtable state, (db.written [request]).state.takeOldestFlushableMemtable
        (db.written [request]).options.memtableKind = some (memtable, .immutableOldest, state) ∧
      state.mutable = .new (db.written [request]).options.memtableKind ∧
      state.immutables = [] := by
  set applied := db.state.applyBatch (db.state.lastSequence + 1) request.batch with happlied
  have himm' : applied.immutables = [] :=
    (applyRecords_tables db.state (db.state.lastSequence + 1) request.batch.records).2.2.2.trans himm
  have hf : (applied.freezeMutableIfNeeded db.options.memtableSize
      db.options.memtableKind).2 = true := by
    simpa [freezes, groupItems, applyItems] using hfreeze
  have hs : (db.written [request]).state = (applied.freezeMutableIfNeeded
      db.options.memtableSize db.options.memtableKind).1 := rfl
  have hk : (db.written [request]).options.memtableKind = db.options.memtableKind := rfl
  rw [hs, hk]
  unfold DBState.freezeMutableIfNeeded at hf ⊢
  split
  · rename_i hyes
    rw [if_pos hyes] at hf
    cases hf
  · refine ⟨applied.mutable, { applied with mutable := .new db.options.memtableKind }, ?_, rfl, himm'⟩
    simp [DBState.takeOldestFlushableMemtable, himm']

theorem Durable.applyWriteGroup (h : db.Durable) (hok : db.Ok)
    (hsplit : db.SplitsSafely .unbounded .unbounded)
    (hmark : db.gcWatermark ≤ db.state.lastSequence) (hwal : db.options.walEnabled = true)
    {request : Request} (hlog : request.opts.disableWal = false) :
    ∃ db', DB.applyWriteGroup (.ok ()) [request] db = .ok () db' ∧
      Advanced db db' (groupRecords [request]) ∧ db'.Durable := by
  obtain ⟨db₁, hpressure, hok₁, hc, hvis⟩ := hok.applyWritePressure fun _ => hsplit
  have hd₁ := hc.durable h
  obtain ⟨hok₂, hrec, _⟩ := hok₁.written hd₁.toRecorded [request]
  cases hfreeze : db₁.freezes [request] with
  | false =>
    refine ⟨_, run_applyWriteGroup hpressure hok₁.isOpen (.inl rfl) (by simp [hfreeze]),
      hok₁.advanced_group h.toRecorded hmark hc hvis [request] (.inr rfl), ?_⟩
    exact hd₁.written hok₁ (by rw [hc.options]; exact hwal) hlog hfreeze
  | true =>
    obtain ⟨memtable, state, htake, hmutable, himm⟩ := takeOldest_written hd₁.immutables hfreeze
    obtain ⟨db₂, hflush, hf, hd⟩ := hok₂.flush_durable hrec htake hmutable himm
    exact ⟨db₂, run_applyWriteGroup hpressure hok₁.isOpen (.inl rfl) (by simp [hfreeze, hflush]),
      hok₁.advanced_group h.toRecorded hmark hc hvis [request] (.inl hf), hd⟩

theorem Advanced.refl (h : db.Ok) (hr : db.Recorded) : Advanced db db [] :=
  ⟨h, hr, rfl, rfl, rfl, rfl, fun _ hm => hm, fun _ _ _ _ => rfl⟩

theorem groupRecords_singleton (request : Request) :
    groupRecords [request] = request.batch.records := by
  simp [groupRecords]

theorem Ok.write (h : db.Ok) (hr : db.Recorded) (hsplit : db.SplitsSafely .unbounded .unbounded)
    (hmark : db.gcWatermark ≤ db.state.lastSequence) (batch : WriteBatch) (opts : WriteOptions) :
    ∃ db', DB.write (.ok ()) batch opts db = .ok () db' ∧ Advanced db db' batch.records := by
  by_cases hempty : batch.isEmpty = true
  · refine ⟨db, by rw [DB.write, if_pos hempty]; rfl, ?_⟩
    rw [List.isEmpty_iff.mp hempty]
    exact Advanced.refl h hr
  · obtain ⟨db', hrun, hadv⟩ := h.applyWriteGroup hr hsplit hmark [⟨batch, opts⟩]
    rw [groupRecords_singleton] at hadv
    exact ⟨db', by rw [DB.write, if_neg hempty, hrun], hadv⟩

theorem Durable.write (h : db.Durable) (hok : db.Ok)
    (hsplit : db.SplitsSafely .unbounded .unbounded)
    (hmark : db.gcWatermark ≤ db.state.lastSequence) (hwal : db.options.walEnabled = true)
    (batch : WriteBatch) {opts : WriteOptions} (hlog : opts.disableWal = false) :
    ∃ db', DB.write (.ok ()) batch opts db = .ok () db' ∧ Advanced db db' batch.records ∧
      db'.Durable := by
  by_cases hempty : batch.isEmpty = true
  · refine ⟨db, by rw [DB.write, if_pos hempty]; rfl, ?_, h⟩
    rw [List.isEmpty_iff.mp hempty]
    exact Advanced.refl hok h.toRecorded
  · obtain ⟨db', hrun, hadv, hd⟩ := h.applyWriteGroup hok hsplit hmark hwal
      (show (Request.mk batch opts).opts.disableWal = false from hlog)
    rw [groupRecords_singleton] at hadv
    exact ⟨db', by rw [DB.write, if_neg hempty, hrun], hadv, hd⟩

/-- The database that opening a path without files creates. -/
def created (env : Env) (options : Options) (path : String) : DB where
  env := env
  options := options
  disk := (Disk.empty path).applyAll ([.createDir] ++ createOps ++ [.openWal 1])
  journal := [.createDir] ++ createOps ++ [.openWal 1]
  state := .fresh options.memtableKind [] (List.replicate options.maxLevels []) 0
  versions := .newEmpty options.maxLevels
  watermark := .new
  wal := 1

theorem openLevels_replicate (d : Disk) (n : Nat) :
    openLevels d (List.replicate n []) = .ok (List.replicate n []) := by
  induction n with
  | zero => rfl
  | succ n ih =>
    simp [List.replicate_succ, openLevels, openFiles, ih, bind, Except.bind, pure, Except.pure]

theorem open_empty (env : Env) (options : Options) (path : String) :
    DB.open env (Disk.empty path) options =
      if options.createIfMissing then .ok (created env options path)
      else .error (.invalidArgument ("database does not exist: " ++ path)) := by
  cases hc : options.createIfMissing with
  | false =>
    simp [DB.open, Disk.empty, hc, throw, throwThe, MonadExceptOf.throw, bind, Except.bind]
  | true =>
    have hopen : ∀ d, openVersionTables d (VersionSet.newEmpty options.maxLevels).current =
        .ok ([], List.replicate options.maxLevels []) := by
      intro d
      simp [openVersionTables, VersionSet.newEmpty, Version.new, openFiles, openLevels_replicate,
        bind, Except.bind, pure, Except.pure]
    simp only [DB.open, hc, hopen, bind, Except.bind, pure, Except.pure]
    rfl

theorem Version.files_new (n : Nat) : (Version.new n).files = [] := by
  simp [Version.files, Version.new]

theorem wals_created (env : Env) (options : Options) (path : String) :
    (created env options path).disk.wals = Function.update (fun _ : Nat => none) 1 (some []) :=
  rfl

theorem entries_created (env : Env) (options : Options) (path : String) :
    (created env options path).versions.current.entries (created env options path).disk.tables =
      [] := by
  rw [Version.entries, show (created env options path).versions.current.files = [] from
    Version.files_new options.maxLevels]
  rfl

theorem memEntries_created (env : Env) (options : Options) (path : String) :
    (created env options path).state.memEntries = [] := by
  simp [DBState.memEntries, DBState.memtables, created, DBState.fresh]

theorem ok_created (env : Env) (options : Options) (path : String) :
    (created env options path).Ok := by
  have hfiles : (created env options path).versions.current.files = [] :=
    Version.files_new options.maxLevels
  have hentries := entries_created env options path
  have hmem := memEntries_created env options path
  refine ⟨⟨rfl, ⟨⟨?_, ?_, ?_⟩, ?_⟩, ⟨rfl, ?_, ?_⟩⟩, ⟨?_, ?_, ?_, ?_⟩, ?_, ?_⟩
  · rw [hfiles]
    exact fun f hf => absurd hf List.not_mem_nil
  · rw [hfiles]
    exact List.nodup_nil
  · intro level hlevel
    exact List.eq_of_mem_replicate (List.mem_of_head? hlevel)
  · intro level hlevel
    rw [List.eq_of_mem_replicate hlevel]
    exact List.Pairwise.nil
  · exact List.map_replicate
  · intro ref href
    simp [created, DBState.fresh] at href
  · rw [hmem, hentries]
    exact newestFirst_nil
  · rw [hmem, hentries]
    exact fun e he => absurd he List.not_mem_nil
  · rw [hmem]
    exact fun e he => absurd he List.not_mem_nil
  · exact fun m hm => absurd hm List.not_mem_nil
  · exact fun _ _ => rfl
  · intro n hn
    have hn' : 2 ≤ n := hn
    rw [wals_created, Function.update_of_ne (by omega)]

theorem durable_created (env : Env) (options : Options) (path : String) :
    (created env options path).Durable := by
  have hwals : (created env options path).disk.wals (created env options path).wal = some [] := by
    rw [wals_created]
    exact Function.update_self 1 _ _
  refine ⟨⟨rfl, rfl, rfl, rfl, ⟨[], hwals⟩, le_rfl⟩, ?_⟩
  rw [recovered, hwals]
  rfl

theorem shows_created (env : Env) (options : Options) (path : String) :
    (created env options path).Shows .empty := by
  intro k s _
  rw [entries_created, memEntries_created]
  rfl

theorem eq_created {env : Env} {options : Options} {path : String} {db : DB}
    (h : DB.open env (Disk.empty path) options = .ok db) : db = created env options path := by
  rw [open_empty] at h
  split at h
  · exact (Except.ok.inj h).symm
  · cases h

end DB

end TyLsm
