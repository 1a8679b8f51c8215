import TyLsm.CompactRange
import TyLsm.Write

/-! Opening a directory. The manifest leads back to the version set and the live
log to the memtable, as long as every record of the memtables is in that log. -/

namespace TyLsm

/-- The state before the log is replayed. -/
def DBState.fresh (kind : MemTableKind) (l0Tables : List TableRef)
    (levelTables : List (List TableRef)) (lastSequence : Nat) : DBState where
  mutable := .new kind
  immutables := []
  l0Tables := l0Tables
  levelTables := levelTables
  lastSequence := lastSequence
  closed := false

namespace DB

/-- The database that opening a directory leads to. -/
def reopened (env : Env) (options : Options) (disk : Disk) (versions : VersionSet)
    (l0Tables : List TableRef) (levelTables : List (List TableRef)) : DB where
  env := env
  options := options
  disk := disk.applyAll [.createDir, .openWal versions.logNumber]
  journal := [.createDir, .openWal versions.logNumber]
  state := (DBState.fresh options.memtableKind l0Tables levelTables
    versions.lastSequence).recoverWal ((disk.wals versions.logNumber).getD [])
  versions := versions
  watermark := .new
  wal := versions.logNumber

theorem open_ok (env : Env) {options : Options} {disk : Disk} {versions : VersionSet}
    (hdir : disk.dirExists = true) (herr : options.errorIfExists = false)
    (hcurrent : disk.current = true)
    (hreplay : (VersionSet.newEmpty options.maxLevels).replay disk.manifest = .ok versions)
    (hlisted : versions.current.Listed disk.tables) :
    ∃ l0 levels, TablesOf disk versions.current l0 levels ∧
      DB.open env disk options = .ok (reopened env options disk versions l0 levels) := by
  obtain ⟨l0, levels, hopen, htables⟩ := openVersionTables_ok hlisted
  refine ⟨l0, levels, htables, ?_⟩
  have hsame : disk.applyAll [.createDir] = disk := by
    simp [Disk.apply, ← hdir]
  simp only [DB.open, hdir, herr, hsame, hcurrent, hreplay, hopen, bind, Except.bind, pure,
    Except.pure, Bool.and_false, Bool.not_true, Bool.false_and, Bool.false_eq_true, if_false, if_true,
    Disk.applyAll_nil]
  rw [reopened]
  cases disk.wals versions.logNumber with
  | none =>
    congr 2
    simp [Disk.apply, ← hdir]
  | some records =>
    congr 2
    simp [Disk.apply, ← hdir]

end DB

theorem TablesOf.unique {d : Disk} {v : Version} {l0 l0' : List TableRef}
    {levels levels' : List (List TableRef)} (h : TablesOf d v l0 levels)
    (h' : TablesOf d v l0' levels') : l0 = l0' ∧ levels = levels' := by
  -- a reference is determined by its file, whose table is the one on disk
  have href : ∀ {r r' : List TableRef}, Opened d r → Opened d r' →
      r.map Prod.fst = r'.map Prod.fst → r = r' := by
    intro r
    induction r with
    | nil =>
      intro r' _ _ hm
      exact (List.map_eq_nil_iff.mp hm.symm).symm
    | cons a r ih =>
      intro r' ho ho' hm
      cases r' with
      | nil => cases hm
      | cons b r' =>
        obtain ⟨hab, hm⟩ := List.cons.inj hm
        have ha := (ho a (by simp)).1
        have hb := (ho' b (by simp)).1
        rw [hab, hb] at ha
        rw [Prod.ext hab (Option.some.inj ha).symm, ih (fun x hx => ho x (by simp [hx]))
          (fun x hx => ho' x (by simp [hx])) hm]
  refine ⟨href (fun x hx => h.opened x (by simp [hx])) (fun x hx => h'.opened x (by simp [hx]))
    (h.l0_eq.trans h'.l0_eq.symm), ?_⟩
  have hlevels := h.levels_eq.trans h'.levels_eq.symm
  have ho : ∀ level ∈ levels, Opened d level := fun level hl x hx => h.opened x
    (List.mem_append.mpr (.inr (List.mem_flatten.mpr ⟨level, hl, hx⟩)))
  have ho' : ∀ level ∈ levels', Opened d level := fun level hl x hx => h'.opened x
    (List.mem_append.mpr (.inr (List.mem_flatten.mpr ⟨level, hl, hx⟩)))
  clear h h'
  induction levels generalizing levels' with
  | nil => exact (List.map_eq_nil_iff.mp hlevels.symm).symm
  | cons level levels ih =>
    cases levels' with
    | nil => cases hlevels
    | cons level' levels' =>
      obtain ⟨hm, hlevels⟩ := List.cons.inj hlevels
      rw [href (ho level (by simp)) (ho' level' (by simp)) hm,
        ih hlevels (fun l hl => ho l (by simp [hl])) fun l hl => ho' l (by simp [hl])]

namespace DB

/-- The directory describes the version set, and the log that the writer appends to is
the one that recovery reads. -/
structure Recorded (db : DB) : Prop where
  dirExists : db.disk.dirExists = true
  current : db.disk.current = true
  manifest : (VersionSet.newEmpty db.options.maxLevels).replay db.disk.manifest = .ok db.versions
  wal : db.wal = db.versions.logNumber
  log : ∃ records, db.disk.wals db.wal = some records
  lastSequence : db.versions.lastSequence ≤ db.state.lastSequence

/-- The state that opening the directory again leads to. -/
def recovered (db : DB) : DBState :=
  (DBState.fresh db.options.memtableKind db.state.l0Tables db.state.levelTables
    db.versions.lastSequence).recoverWal ((db.disk.wals db.wal).getD [])

/-- Nothing but snapshots would be lost by opening the directory again. -/
structure Durable (db : DB) : Prop extends db.Recorded where
  state_eq : db.state = db.recovered

variable {db : DB}

theorem Recorded.reopen (hr : db.Recorded) (h : db.Tabled)
    (herr : db.options.errorIfExists = false) :
    DB.open db.env db.disk db.options = .ok { db with
      journal := [.createDir, .openWal db.wal]
      state := db.recovered
      watermark := .new } := by
  obtain ⟨l0, levels, htables, hopen⟩ := open_ok db.env hr.dirExists herr hr.current hr.manifest
    h.listed
  obtain ⟨rfl, rfl⟩ := htables.unique h.tables
  obtain ⟨records, hrecords⟩ := hr.log
  have hdisk : db.disk.applyAll [.createDir, .openWal db.versions.logNumber] = db.disk := by
    simp only [Disk.applyAll_cons, Disk.apply, ← hr.wal, hrecords, Option.getD_some,
      Disk.applyAll_nil]
    simp [← hr.dirExists, ← hrecords]
  rw [hopen, reopened, hdisk, recovered, hr.wal]

theorem recoverWal_tables (state : DBState) (records : List (Nat × WriteBatch)) :
    (state.recoverWal records).closed = state.closed ∧
    (state.recoverWal records).l0Tables = state.l0Tables ∧
    (state.recoverWal records).levelTables = state.levelTables := by
  induction records generalizing state with
  | nil => exact ⟨rfl, rfl, rfl⟩
  | cons record records ih =>
    obtain ⟨hc, h0, hl⟩ := ih (state.applyBatch record.1 record.2)
    obtain ⟨hc', h0', hl', _⟩ := applyRecords_tables state record.1 record.2.records
    exact ⟨hc.trans hc', h0.trans h0', hl.trans hl'⟩

end DB

namespace DBState

theorem recoverWal_append (state : DBState) (l r : List (Nat × WriteBatch)) :
    state.recoverWal (l ++ r) = (state.recoverWal l).recoverWal r :=
  List.foldl_append

theorem applyRecords_withTables (state : DBState) (l0 : List TableRef)
    (levels : List (List TableRef)) (sequence : Nat) (records : List BatchRecord) :
    ({ state with l0Tables := l0, levelTables := levels } : DBState).applyRecords sequence records =
      { state.applyRecords sequence records with l0Tables := l0, levelTables := levels } := by
  induction records generalizing state sequence with
  | nil => rfl
  | cons record records ih => exact ih (state.putRecord sequence record) (sequence + 1)

theorem recoverWal_withTables (state : DBState) (l0 : List TableRef)
    (levels : List (List TableRef)) (records : List (Nat × WriteBatch)) :
    ({ state with l0Tables := l0, levelTables := levels } : DBState).recoverWal records =
      { state.recoverWal records with l0Tables := l0, levelTables := levels } := by
  induction records generalizing state with
  | nil => rfl
  | cons record records ih =>
    have hstep := applyRecords_withTables state l0 levels record.1 record.2.records
    rw [recoverWal, List.foldl_cons, applyBatch, hstep]
    exact ih (state.applyBatch record.1 record.2)

theorem recoverWal_immutables (state : DBState) (records : List (Nat × WriteBatch)) :
    (state.recoverWal records).immutables = state.immutables := by
  induction records generalizing state with
  | nil => rfl
  | cons record records ih =>
    refine (ih (state.applyBatch record.1 record.2)).trans ?_
    exact (DB.applyRecords_tables state record.1 record.2.records).2.2.2

end DBState

namespace DB

variable {db db' : DB}

theorem Durable.immutables (h : db.Durable) : db.state.immutables = [] := by
  rw [h.state_eq, recovered, DBState.recoverWal_immutables]
  rfl

theorem TablesChanged.wals (hc : TablesChanged db db') : db'.disk.wals = db.disk.wals := by
  rw [hc.disk]

theorem TablesChanged.recorded (hc : TablesChanged db db') (h : db.Recorded) : db'.Recorded := by
  obtain ⟨edits, hmanifest, hreplay⟩ := hc.edits
  refine ⟨?_, ?_, ?_, ?_, ?_, ?_⟩
  · rw [hc.disk]
    exact h.dirExists
  · rw [hc.disk]
    exact h.current
  · rw [hc.options, hmanifest, VersionSet.replay_append, h.manifest]
    exact hreplay
  · rw [hc.wal, hc.logNumber]
    exact h.wal
  · rw [hc.wal, hc.wals]
    exact h.log
  · rw [hc.lastSequence, hc.state]
    exact h.lastSequence

theorem TablesChanged.recovered_eq (hc : TablesChanged db db') :
    db'.recovered = { db.recovered with
      l0Tables := db'.state.l0Tables
      levelTables := db'.state.levelTables } := by
  rw [recovered, recovered, hc.options, hc.lastSequence, hc.wal, hc.wals,
    ← DBState.recoverWal_withTables]
  rfl

theorem TablesChanged.durable (hc : TablesChanged db db') (h : db.Durable) : db'.Durable := by
  refine ⟨hc.recorded h.toRecorded, ?_⟩
  rw [hc.recovered_eq, ← h.state_eq]
  exact hc.state

theorem applyAll_groupOps_tables (d : Disk) (db : DB) (items : List GroupWriteItem) :
    (d.applyAll (db.groupOps items)).tables = d.tables := by
  unfold groupOps
  split
  · generalize items.filter (fun item => !item.opts.disableWal) = logged
    induction logged generalizing d with
    | nil => rfl
    | cons item logged ih => exact ih (d.apply _)
  · rfl

@[simp] theorem written_tables (db : DB) (requests : List Request) :
    (db.written requests).disk.tables = db.disk.tables :=
  applyAll_groupOps_tables db.disk db _

theorem Live.written (h : db.Live) (requests : List Request) :
    (db.written requests).Live ∧
      GroupAdds db.state (db.written requests).state (groupRecords requests) := by
  have hadds := groupAdds_items db.options
    (fun e he => h.sequences e (List.mem_append.mpr (.inl he))) requests
  have htables := db.written_tables requests
  have hlast : (db.written requests).state.lastSequence =
      db.state.lastSequence + (groupRecords requests).length := hadds.lastSequence
  have hperm : (db.written requests).allEntries.Perm
      (entriesFrom (db.state.lastSequence + 1) (groupRecords requests) ++ db.allEntries) := by
    rw [allEntries, htables, allEntries, ← List.append_assoc]
    exact hadds.perm.append_right _
  refine ⟨⟨hadds.closed.trans h.isOpen, ?_, ?_, ?_, ?_, hadds.frozen h.frozen, ?_⟩, hadds⟩
  · rw [htables]
    exact h.listed
  · -- the new sequence numbers are above all others
    rw [(hperm.map Prod.fst).nodup_iff, List.map_append]
    refine List.nodup_append.mpr ⟨entriesFrom_nodup _ _, h.distinct, ?_⟩
    intro a ha b hb hab
    obtain ⟨x, hx, rfl⟩ := List.mem_map.mp ha
    obtain ⟨y, hy, rfl⟩ := List.mem_map.mp hb
    have hge := (entriesFrom_sequence hx).1
    have hle := h.sequences y hy
    rw [hab] at hge
    omega
  · intro e he
    rw [hlast]
    rcases List.mem_append.mp (hperm.mem_iff.mp he) with he | he
    · have := (entriesFrom_sequence he).2
      omega
    · exact (h.sequences e he).trans (Nat.le_add_right _ _)
  · intro e he
    rcases List.mem_append.mp (hadds.perm.mem_iff.mp he) with he | he
    · exact entriesFrom_matched he
    · exact h.matched e he
  · rw [htables]
    exact h.freshTables

theorem tablesOf_written
    (h : TablesOf db.disk db.versions.current db.state.l0Tables db.state.levelTables)
    {requests : List Request}
    (hadds : GroupAdds db.state (db.written requests).state (groupRecords requests)) :
    TablesOf (db.written requests).disk (db.written requests).versions.current
      (db.written requests).state.l0Tables (db.written requests).state.levelTables := by
  have hold : TablesOf (db.written requests).disk db.versions.current db.state.l0Tables
      db.state.levelTables := h.congr fun f _ => by rw [db.written_tables requests]
  rw [← hadds.l0Tables, ← hadds.levelTables] at hold
  exact hold

theorem Sound.written (h : db.Sound) (hr : db.Recorded) (requests : List Request) :
    (db.written requests).Sound ∧ (db.written requests).Recorded ∧
      GroupAdds db.state (db.written requests).state (groupRecords requests) := by
  obtain ⟨hlive, hadds⟩ := h.live.written requests
  obtain ⟨records, hrecords⟩ := hr.log
  obtain ⟨wals, hdisk, hwals⟩ : ∃ wals, db.disk.applyAll
      (db.groupOps (groupItems (db.state.lastSequence + 1) requests)) =
      { db.disk with wals := wals } ∧ ∃ records, wals = Function.update db.disk.wals db.wal
        (some records) := by
    unfold groupOps
    split
    · exact ⟨_, Disk.applyAll_appendWal hrecords _, _, rfl⟩
    · exact ⟨db.disk.wals, rfl, records, by simp [← hrecords]⟩
  obtain ⟨records', hrecords'⟩ := hwals
  have hd : (db.written requests).disk = { db.disk with wals := wals } := hdisk
  refine ⟨hlive.sound (tablesOf_written h.tables hadds) ?_, ⟨?_, ?_, ?_, hr.wal, ?_, ?_⟩, hadds⟩
  · intro n hn
    have hne : n ≠ db.wal := by
      rintro rfl
      rw [h.freshWals _ hn] at hrecords
      cases hrecords
    rw [hd, hrecords']
    exact (Function.update_of_ne hne _ _).trans (h.freshWals n hn)
  · rw [hd]
    exact hr.dirExists
  · rw [hd]
    exact hr.current
  · rw [hd]
    exact hr.manifest
  · rw [hd, hrecords']
    exact ⟨records', Function.update_self _ _ _⟩
  · have hlast : (db.written requests).state.lastSequence =
        db.state.lastSequence + (groupRecords requests).length := hadds.lastSequence
    rw [hlast]
    exact hr.lastSequence.trans (Nat.le_add_right _ _)

theorem Ok.written (h : db.Ok) (hr : db.Recorded) (requests : List Request) :
    (db.written requests).Ok ∧ (db.written requests).Recorded ∧
      GroupApplied db.state (db.written requests).state
        (db.versions.current.entries db.disk.tables) (groupRecords requests) := by
  have happ := groupApplied_items db.options h.stateOk requests
  obtain ⟨hs, hrec, _⟩ := h.sound.written hr requests
  refine ⟨⟨⟨hs.isOpen, ⟨hs.listed, h.stored.ranges⟩, hs.tables⟩, ?_, hs.freshTables,
    hs.freshWals⟩, hrec, happ⟩
  rw [db.written_tables requests]
  exact happ.ok

theorem Durable.written (h : db.Durable) (hok : db.Ok) (hwal : db.options.walEnabled = true)
    {request : Request} (hlog : request.opts.disableWal = false)
    (hfreeze : db.freezes [request] = false) : (db.written [request]).Durable := by
  refine ⟨(hok.written h.toRecorded [request]).2.1, ?_⟩
  obtain ⟨records, hrecords⟩ := h.log
  have hdisk : (db.written [request]).disk = { db.disk with
      wals := Function.update db.disk.wals db.wal
        (some (records ++ [(db.state.lastSequence + 1, request.batch)])) } := by
    have := Disk.applyAll_appendWal hrecords
      [⟨request.batch, request.opts, db.state.lastSequence + 1⟩]
    simpa [DB.written, performed, groupOps, hwal, groupItems, hlog] using this
  have hstate : (db.written [request]).state =
      db.state.applyBatch (db.state.lastSequence + 1) request.batch := by
    have hf : ((db.state.applyBatch (db.state.lastSequence + 1)
        request.batch).freezeMutableIfNeeded db.options.memtableSize
          db.options.memtableKind).2 = false := by
      simpa [freezes, groupItems, applyItems] using hfreeze
    have hs : (db.written [request]).state = ((db.state.applyBatch (db.state.lastSequence + 1)
        request.batch).freezeMutableIfNeeded db.options.memtableSize
          db.options.memtableKind).1 := rfl
    rw [hs]
    unfold DBState.freezeMutableIfNeeded at hf ⊢
    split
    · rfl
    · rename_i hno
      rw [if_neg hno] at hf
      cases hf
  have htables := applyRecords_tables db.state (db.state.lastSequence + 1) request.batch.records
  have hrec : (db.written [request]).recovered =
      db.recovered.applyBatch (db.state.lastSequence + 1) request.batch := by
    have hw : (db.written [request]).disk.wals (db.written [request]).wal =
        some (records ++ [(db.state.lastSequence + 1, request.batch)]) := by
      rw [hdisk]
      exact Function.update_self _ _ _
    rw [recovered, hw, hstate, DBState.applyBatch, htables.2.1, htables.2.2.1, Option.getD_some,
      DBState.recoverWal_append, recovered, hrecords]
    rfl
  rw [hstate, hrec, ← h.state_eq]

theorem Recorded.flushed (h : db.Recorded) {state : DBState} {ref : TableRef}
    (hnum : ref.1.number = db.versions.nextFileNumber)
    (hfresh : db.disk.wals (db.versions.nextFileNumber + 1) = none)
    (hlast : state.lastSequence = db.state.lastSequence) :
    (db.flushed state ref).Recorded ∧
      (db.flushed state ref).disk.wals (db.flushed state ref).wal = some [] := by
  have hwals : (db.flushed state ref).disk.wals (db.flushed state ref).wal = some [] := by
    have hupd : (db.flushed state ref).disk.wals = Function.update db.disk.wals
        (db.versions.nextFileNumber + 1)
        (some ((db.disk.wals (db.versions.nextFileNumber + 1)).getD [])) := rfl
    rw [hupd, hfresh]
    exact Function.update_self _ _ _
  refine ⟨⟨h.dirExists, h.current, ?_, rfl, ⟨[], hwals⟩, ?_⟩, hwals⟩
  · have hmanifest : (db.flushed state ref).disk.manifest = db.disk.manifest ++
        [.addFile 0 ref.1, .lastSequence state.lastSequence,
          .logNumber (db.versions.nextFileNumber + 1)] := by
      simp [DB.flushed, performed, flushOps, Disk.apply]
    rw [hmanifest, VersionSet.replay_append]
    have hopt : (db.flushed state ref).options = db.options := rfl
    rw [hopt, h.manifest]
    simp [Except.bind, VersionSet.replay, VersionSet.applyEdit, Version.addFile, hnum, DB.flushed]
  · have hv : (db.flushed state ref).versions.lastSequence =
        max db.versions.lastSequence state.lastSequence := rfl
    have hs : (db.flushed state ref).state.lastSequence = state.lastSequence := rfl
    rw [hv, hs, hlast, max_eq_right h.lastSequence]

/-- What a flush does to a recorded database. -/
structure Flushed (db db' : DB) : Prop where
  ok : db'.Ok
  recorded : db'.Recorded
  allEntries : db'.allEntries = db.allEntries
  lastSequence : db'.state.lastSequence = db.state.lastSequence
  env : db'.env = db.env
  options : db'.options = db.options
  watermark : db'.watermark = db.watermark

theorem Ok.flush_recorded (h : db.Ok) (hr : db.Recorded) :
    ∃ db', flush db = .ok () db' ∧ Flushed db db' := by
  cases htake : db.state.takeOldestFlushableMemtable db.options.memtableKind with
  | none => exact ⟨db, run_flush_none h.isOpen htake, h, hr, rfl, rfl, rfl, rfl, rfl⟩
  | some taken =>
    obtain ⟨memtable, source, state⟩ := taken
    obtain ⟨ref, hnum, _, hrun, hok, hall⟩ := h.flushed htake
    have hlast := (DBState.takeOldest_spec htake).2.1
    exact ⟨_, hrun, hok, (hr.flushed hnum (h.freshWals _ (Nat.le_succ _)) hlast).1, hall, hlast,
      rfl, rfl, rfl⟩

theorem Ok.flush_durable (h : db.Ok) (hr : db.Recorded) {memtable : MemTable}
    {source : DBState.FlushSource} {state : DBState}
    (htake : db.state.takeOldestFlushableMemtable db.options.memtableKind =
      some (memtable, source, state)) (hmutable : state.mutable = .new db.options.memtableKind)
    (himm : state.immutables = []) :
    ∃ db', flush db = .ok () db' ∧ Flushed db db' ∧ db'.Durable := by
  obtain ⟨ref, hnum, _, hrun, hok, hall⟩ := h.flushed htake
  obtain ⟨_, hlast, hclosed, _⟩ := DBState.takeOldest_spec htake
  obtain ⟨hrec, hwals⟩ := hr.flushed hnum (h.freshWals _ (Nat.le_succ _)) hlast
  refine ⟨_, hrun, ⟨hok, hrec, hall, hlast, rfl, rfl, rfl⟩, hrec, ?_⟩
  have hv : (db.flushed state ref).versions.lastSequence = state.lastSequence := by
    change max db.versions.lastSequence state.lastSequence = _
    rw [hlast, max_eq_right hr.lastSequence]
  rw [recovered, hwals, hv]
  have hs : (db.flushed state ref).state = { state with l0Tables := ref :: state.l0Tables } := rfl
  rw [hs]
  change _ = DBState.fresh _ _ _ _
  have hc : state.closed = false := hclosed.trans h.isOpen
  obtain ⟨mutable, immutables, l0, levels, last, closed⟩ := state
  simp only at hmutable himm hc
  subst hmutable himm hc
  rfl

theorem Durable.flush (h : db.Durable) (hok : db.Ok) :
    ∃ db', DB.flush db = .ok () db' ∧ Flushed db db' ∧ db'.Durable := by
  have himm := h.immutables
  by_cases hempty : db.state.mutable.isEmpty = true
  · refine ⟨db, run_flush_none hok.isOpen (by
      simp [DBState.takeOldestFlushableMemtable, himm, hempty]), ?_, h⟩
    exact ⟨hok, h.toRecorded, rfl, rfl, rfl, rfl, rfl⟩
  · have htake : db.state.takeOldestFlushableMemtable db.options.memtableKind =
        some (db.state.mutable, .mutable,
          { db.state with mutable := .new db.options.memtableKind }) := by
      simp [DBState.takeOldestFlushableMemtable, himm, hempty]
    exact hok.flush_durable h.toRecorded htake rfl himm

end DB

end TyLsm
