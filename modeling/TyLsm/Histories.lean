import TyLsm.Snapshots

/-! What every call does to the records, whatever the bounds of its compactions and
whatever snapshots are held: the records above the watermark stay, and no others
appear than those written. -/

namespace TyLsm

theorem pickManual_stages {v : Version} {tables : Nat → Option Table} (h : v.Stored tables)
    {lower upper : Bound} {task : CompactionTask}
    (hpick : CompactionPicker.pickManual v lower upper = some task) :
    (∃ above source target below, Stage v task above source target below ∧
      task.outputLevel ≠ 0) ∨ Front v task := by
  rcases pickManual_some hpick with ⟨rfl, _⟩ | ⟨pre, source, target, post, file, hl, hpre, hfile, rfl⟩
  · by_cases hlen : 2 ≤ v.levels.length
    · obtain ⟨zero, one, post, hl⟩ : ∃ zero one post, v.levels = zero :: one :: post := by
        match hlev : v.levels, hlen with
        | zero :: one :: post, _ => exact ⟨zero, one, post, rfl⟩
      refine .inl ⟨_, _, _, _, stage_l0 h hl _ List.filter_sublist, ?_⟩
      simp [CompactionPicker.taskForFiles, hl]
    · exact .inr (front_l0 h.toListed (by omega) _ List.filter_sublist)
  · refine .inl ⟨_, _, _, _, stage_level h hl hpre hfile, ?_⟩
    rw [(taskForFiles_level hl hpre file).1]
    exact Nat.succ_ne_zero _

namespace DB

variable {db db' : DB}

/-- A call that wrote `records`, or nothing, and kept every record above the watermark. -/
structure Evolves (db db' : DB) (records : List BatchRecord) : Prop where
  sound : db'.Sound
  recorded : db'.Recorded
  env : db'.env = db.env
  options : db'.options = db.options
  watermark : db'.watermark = db.watermark
  lastSequence : db'.state.lastSequence = db.state.lastSequence + records.length
  added : ∀ e ∈ entriesFrom (db.state.lastSequence + 1) records, e ∈ db'.allEntries
  gained : ∀ e ∈ db'.allEntries,
    e ∈ entriesFrom (db.state.lastSequence + 1) records ∨ e ∈ db.allEntries
  kept : ∀ e ∈ db.allEntries, db.gcWatermark < e.1.sequence → e ∈ db'.allEntries

theorem Evolves.refl (h : db.Sound) (hr : db.Recorded) : Evolves db db [] :=
  ⟨h, hr, rfl, rfl, rfl, rfl, fun _ he => absurd he List.not_mem_nil, fun _ he => .inr he,
    fun _ he _ => he⟩

theorem gcWatermark_congr (hw : db'.watermark = db.watermark)
    (hl : db'.state.lastSequence = db.state.lastSequence) : db'.gcWatermark = db.gcWatermark := by
  rw [gcWatermark, gcWatermark, hw, hl]

theorem Evolves.andThen {db₁ db₂ : DB} {records : List BatchRecord} (h₁ : Evolves db db₁ [])
    (h₂ : Evolves db₁ db₂ records) : Evolves db db₂ records := by
  have hlast : db₁.state.lastSequence = db.state.lastSequence := h₁.lastSequence
  have hadded := h₂.added
  have hgained := h₂.gained
  have hcount := h₂.lastSequence
  rw [hlast] at hadded hgained hcount
  refine ⟨h₂.sound, h₂.recorded, h₂.env.trans h₁.env, h₂.options.trans h₁.options,
    h₂.watermark.trans h₁.watermark, hcount, hadded, fun e he => ?_, fun e he hw => ?_⟩
  · rcases hgained e he with he | he
    · exact .inl he
    · exact .inr ((h₁.gained e he).resolve_left List.not_mem_nil)
  · refine h₂.kept e (h₁.kept e he hw) ?_
    rw [gcWatermark_congr h₁.watermark hlast]
    exact hw

theorem Evolves.thenSame {db₁ db₂ : DB} {records : List BatchRecord}
    (h₁ : Evolves db db₁ records) (h₂ : Evolves db₁ db₂ [])
    (hall : db₂.allEntries = db₁.allEntries) : Evolves db db₂ records := by
  refine ⟨h₂.sound, h₂.recorded, h₂.env.trans h₁.env, h₂.options.trans h₁.options,
    h₂.watermark.trans h₁.watermark, h₂.lastSequence.trans h₁.lastSequence, ?_, ?_, ?_⟩
  all_goals rw [hall]
  · exact h₁.added
  · exact h₁.gained
  · exact h₁.kept

theorem Sound.flush (h : db.Sound) (hr : db.Recorded) :
    ∃ db', DB.flush db = .ok () db' ∧ Evolves db db' [] ∧ db'.allEntries = db.allEntries ∧
      db'.versions.current.levels = db.versions.current.levels := by
  cases htake : db.state.takeOldestFlushableMemtable db.options.memtableKind with
  | none => exact ⟨db, run_flush_none h.isOpen htake, Evolves.refl h hr, rfl, rfl⟩
  | some taken =>
    obtain ⟨memtable, source, state⟩ := taken
    obtain ⟨ref, hnum, _, hrun, hs, hall⟩ := h.flushed htake
    have hlast := (DBState.takeOldest_spec htake).2.1
    refine ⟨_, hrun, ⟨hs, (hr.flushed hnum (h.freshWals _ (Nat.le_succ _)) hlast).1, rfl, rfl, rfl,
      hlast, fun _ he => absurd he List.not_mem_nil, ?_, ?_⟩, hall, rfl⟩
    · rw [hall]
      exact fun _ he => .inr he
    · rw [hall]
      exact fun _ he _ => he

theorem Sound.evolves_written (h : db.Sound) (hr : db.Recorded) (requests : List Request) :
    Evolves db (db.written requests) (groupRecords requests) := by
  obtain ⟨hs, hrec, hadds⟩ := h.written hr requests
  have hall : ∀ e, e ∈ (db.written requests).allEntries ↔
      e ∈ entriesFrom (db.state.lastSequence + 1) (groupRecords requests) ∨ e ∈ db.allEntries := by
    intro e
    rw [allEntries, db.written_tables requests, allEntries, List.mem_append, hadds.perm.mem_iff,
      List.mem_append, List.mem_append, or_assoc]
    rfl
  exact ⟨hs, hrec, rfl, rfl, rfl, hadds.lastSequence, fun e he => (hall e).mpr (.inl he),
    fun e he => (hall e).mp he, fun e he _ => (hall e).mpr (.inr he)⟩

/-- The key ranges of the files of each level rise. -/
def Leveled (db : DB) : Prop := ∀ level ∈ db.versions.current.levels, Ranges level

/-- The task does not tear the versions of a key apart in a level below L0. -/
def CutsBetweenKeys (db : DB) (task : CompactionTask) : Prop :=
  task.outputLevel = 0 ∨ db.EmptyKeyFits task

theorem Sound.leveled_performed (h : db.Sound) (hl : db.Leveled) {lower upper : Bound}
    {task : CompactionTask} {refs : List TableRef} {outs : List FileMeta} {removed : List Nat}
    (hpick : CompactionPicker.pickManual db.versions.current lower upper = some task)
    (hp : Performs db db' task refs outs removed) (hcuts : db.CutsBetweenKeys task) :
    db'.Leveled := by
  have hst : db.versions.current.Stored db.disk.tables := ⟨h.listed, hl⟩
  have hin := (h.listed.allInputFiles_sublist hpick).subset
  rcases pickManual_stages hst hpick with ⟨_, _, _, _, st, hlevel⟩ | fr
  · have hout := hp.outputs h hin (hcuts.resolve_left hlevel)
    have hst' := hst.congr fun f hf => hp.tables_agree h (f := f) hf
    obtain ⟨v', hpub, hreplay⟩ := st.published hst'.toListed outs
    obtain rfl := hp.current_eq hreplay
    exact (hpub.stored st hst' hout).ranges
  · have hcur := hp.current_eq fun vs hvs => fr.publish vs hvs outs
    rw [Leveled, hcur]
    exact hl

/-- `CutsBetweenKeys` for the task that a compaction of the range would run. -/
def RangeCuts (db : DB) (lower upper : Bound) : Prop :=
  ∀ task ∈ CompactionPicker.pickManual db.versions.current lower upper, db.CutsBetweenKeys task

theorem Sound.compactRange (h : db.Sound) (hr : db.Recorded) (lower upper : Bound) :
    ∃ db', DB.compactRange lower upper db = .ok () db' ∧ Evolves db db' [] ∧
      TablesChanged db db' ∧ (db.Leveled → db.RangeCuts lower upper → db'.Leveled) := by
  rw [DB.compactRange, run_bind_ok (run_get db)]
  cases hpick : CompactionPicker.pickManual db.versions.current lower upper with
  | none => exact ⟨db, rfl, Evolves.refl h hr, TablesChanged.refl db, fun hl _ => hl⟩
  | some task =>
    obtain ⟨db', refs, outs, removed, hrun, hp⟩ := h.execute hpick
    have hsub := h.listed.allInputFiles_sublist hpick
    have hc := hp.tablesChanged h hsub
    refine ⟨db', run_discard_ok hrun, ⟨hp.sound h hsub, hc.recorded hr, hc.env, hc.options,
      hc.watermark, by rw [hc.state]; rfl, fun _ he => absurd he List.not_mem_nil, ?_,
      fun e he hw => hp.keeps h hsub he hw⟩, hc,
      fun hl hcuts => h.leveled_performed hl hpick hp (hcuts task hpick)⟩
    intro e he
    rw [allEntries, hp.memEntries] at he
    rcases List.mem_append.mp he with he | he
    · exact .inr (List.mem_append.mpr (.inl he))
    · exact .inr (List.mem_append.mpr (.inr (hc.entries he)))

/-- `RangeCuts` where L0 has grown so large that a write compacts first. -/
def PressureCuts (db : DB) : Prop :=
  db.options.level0StopWritesTrigger ≤ db.state.l0Tables.length →
    db.RangeCuts .unbounded .unbounded

theorem Sound.applyWritePressure (h : db.Sound) (hr : db.Recorded) :
    ∃ db', DB.applyWritePressure db = .ok () db' ∧ Evolves db db' [] ∧
      (db.Leveled → db.PressureCuts → db'.Leveled) := by
  rw [DB.applyWritePressure, run_bind_ok (run_get db)]
  split
  · rename_i htrigger
    obtain ⟨db', hrun, hev, _, hlev⟩ := h.compactRange hr .unbounded .unbounded
    exact ⟨db', hrun, hev, fun hl hcuts => hlev hl (hcuts htrigger)⟩
  · exact ⟨db, rfl, Evolves.refl h hr, fun hl _ => hl⟩

theorem Sound.finishGroup (h : db.Sound) (hr : db.Recorded) (requests : List Request) :
    ∃ db', (if db.freezes requests then DB.flush else pure ()) (db.written requests) =
        .ok () db' ∧ Evolves db db' (groupRecords requests) ∧
      db'.versions.current.levels = db.versions.current.levels := by
  have hev := h.evolves_written hr requests
  cases hfreeze : db.freezes requests with
  | false => exact ⟨_, rfl, hev, rfl⟩
  | true =>
    obtain ⟨db', hflush, hev', hall, hlevels⟩ := hev.sound.flush hev.recorded
    exact ⟨db', hflush, hev.thenSame hev' hall, hlevels⟩

theorem Sound.applyWriteGroup (h : db.Sound) (hr : db.Recorded) (requests : List Request) :
    ∃ db', DB.applyWriteGroup (.ok ()) requests db = .ok () db' ∧
      Evolves db db' (groupRecords requests) ∧ (db.Leveled → db.PressureCuts → db'.Leveled) := by
  obtain ⟨db₁, hpressure, hev₁, hlev⟩ := h.applyWritePressure hr
  obtain ⟨db₂, hfinish, hev₂, hlevels⟩ := hev₁.sound.finishGroup hev₁.recorded requests
  refine ⟨db₂, run_applyWriteGroup hpressure hev₁.sound.isOpen (.inl rfl) hfinish,
    hev₁.andThen hev₂, fun hl hcuts => ?_⟩
  rw [Leveled, hlevels]
  exact hlev hl hcuts

theorem Sound.write (h : db.Sound) (hr : db.Recorded) (batch : WriteBatch) (opts : WriteOptions) :
    ∃ db', DB.write (.ok ()) batch opts db = .ok () db' ∧ Evolves db db' batch.records ∧
      (db.Leveled → (batch.records ≠ [] → db.PressureCuts) → db'.Leveled) := by
  by_cases hempty : batch.isEmpty = true
  · refine ⟨db, by rw [DB.write, if_pos hempty]; rfl, ?_, fun hl _ => hl⟩
    rw [List.isEmpty_iff.mp hempty]
    exact Evolves.refl h hr
  · obtain ⟨db', hrun, hev, hlev⟩ := h.applyWriteGroup hr [⟨batch, opts⟩]
    rw [groupRecords_singleton] at hev
    exact ⟨db', by rw [DB.write, if_neg hempty, hrun], hev,
      fun hl hcuts => hlev hl (hcuts fun hnil => hempty (List.isEmpty_iff.mpr hnil))⟩

/-- `CutsBetweenKeys` for the compaction that a call would run. -/
def CallCuts (db : DB) : Call → Prop
  | .compactRange lower upper => db.RangeCuts lower upper
  | call => call.records ≠ [] → db.PressureCuts

theorem Sound.call (h : db.Sound) (hr : db.Recorded) {call : Call} (hcall : call ≠ .reopen) :
    ∃ db', call.run db = .ok () db' ∧ Evolves db db' call.records ∧
      (db.Leveled → db.CallCuts call → db'.Leveled) := by
  cases call with
  | put key value => exact h.write hr ⟨[.put key value]⟩ {}
  | delete key => exact h.write hr ⟨[.delete key]⟩ {}
  | write batch opts => exact h.write hr batch opts
  | flush =>
    obtain ⟨db', hrun, hev, _, hlevels⟩ := h.flush hr
    refine ⟨db', hrun, hev, fun hl _ => ?_⟩
    rw [Leveled, hlevels]
    exact hl
  | compactRange lower upper =>
    obtain ⟨db', hrun, hev, _, hlev⟩ := h.compactRange hr lower upper
    exact ⟨db', hrun, hev, hlev⟩
  | reopen => exact absurd rfl hcall

theorem Sound.withWatermark (h : db.Sound) (w : Watermark) :
    ({ db with watermark := w } : DB).Sound :=
  ⟨⟨h.isOpen, h.listed, h.tables⟩, h.distinct, h.sequences, h.matched, h.frozen, h.freshTables,
    h.freshWals⟩

end DB

namespace Client

/-- The invariant of a client whose compactions have any bounds. -/
structure Keeps (c : Client) : Prop where
  sound : c.db.Sound
  recorded : c.db.Recorded
  counts : c.db.watermark.Counts c.handles
  bounded : ∀ s, some s ∈ c.handles → s ≤ c.db.state.lastSequence

/-- `CutsBetweenKeys` for the compaction that a call of the client would run. -/
def CallCuts (c : Client) : ClientCall → Prop
  | .call inner => c.db.CallCuts inner
  | _ => True

theorem Keeps.step {c : Client} (h : c.Keeps) {call : ClientCall} (hcall : call ≠ .call .reopen) :
    ∃ c', call.run c = .ok () c' ∧ c'.Keeps ∧
      (c.db.Leveled → c.CallCuts call → c'.db.Leveled) := by
  by_cases hinner : ∃ inner, call = .call inner
  · obtain ⟨inner, rfl⟩ := hinner
    have hinner : inner ≠ .reopen := fun he => hcall (by rw [he])
    obtain ⟨db', hrun, hev, hlev⟩ := h.sound.call h.recorded hinner
    refine ⟨⟨db', c.handles⟩, by simp only [ClientCall.run, ClientCall.lift, hrun],
      ⟨hev.sound, hev.recorded, hev.watermark ▸ h.counts, fun s hs => ?_⟩, hlev⟩
    refine (h.bounded s hs).trans ?_
    rw [hev.lastSequence]
    exact Nat.le_add_right _ _
  · obtain ⟨w, handles, hrun, hcounts, hhandles⟩ :=
      run_handles (fun inner he => hinner ⟨inner, he⟩) c
    refine ⟨_, hrun, ⟨h.sound.withWatermark w, h.recorded.withWatermark w, hcounts h.counts,
      fun s hs => ?_⟩, fun hl _ => hl⟩
    rcases hhandles s hs with hs | rfl
    · exact h.bounded s hs
    · exact le_rfl

theorem keeps_created (env : Env) (options : Options) (path : String) :
    Keeps ⟨DB.created env options path, []⟩ := by
  refine ⟨(DB.ok_created env options path).sound, (DB.durable_created env options path).toRecorded,
    fun n => ?_, fun s hs => absurd hs List.not_mem_nil⟩
  exact ⟨rfl, by simp [DB.created, Watermark.new, OrderedMap.get?]⟩

end Client

end TyLsm
