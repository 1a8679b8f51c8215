import TyLsm.FlushCrash
import TyLsm.Histories

/-! File numbers across crashes. Numbers are handed out in memory and recovered from the
edits that mention them, so a table that has its name before an edit mentions it is in the
way of the next one with its number. -/

namespace TyLsm

/-- What the threads of a process do, piece by piece, and a restart. A write is the
compaction that it may start, its group, and the flush that may follow. A compaction is a
piece from its start to its end, although `execute_compaction` releases the locks between
its steps: nothing else runs meanwhile. -/
inductive Piece where
  | locked (step : Section)
  | compactRange (lower upper : Bound)
  | snapshot
  | cloneSnapshot (readSeq : Nat)
  | dropSnapshot (readSeq : Nat)
  | reopen

def Piece.run : Piece → DBM Unit
  | locked step => step.run
  | compactRange lower upper => DB.compactRange lower upper
  | snapshot => discard DB.snapshot
  | cloneSnapshot readSeq => DB.cloneSnapshot readSeq
  | dropSnapshot readSeq => DB.dropSnapshot readSeq
  | reopen => DB.reopen

/-- The database after some pieces. One that fails does not end the run. -/
def runPieces (pieces : List Piece) (db : DB) : DB := pieces.foldl (after Piece.run) db

namespace DB

variable {db db' : DB}

theorem Restorable.withWatermark (h : db.Restorable) (w : Watermark) :
    ({ db with watermark := w } : DB).Restorable :=
  ⟨h.sound.withWatermark w, h.recorded.withWatermark w, h.inMemory, h.distinctLog, h.tables_le⟩

/-- The environment and the options stay those of the beginning. -/
structure RestorableIn (env : Env) (options : Options) (db : DB) : Prop
    extends db.Restorable where
  env_eq : db.env = env
  options_eq : db.options = options

variable {env : Env} {options : Options}

theorem RestorableIn.locked (h : RestorableIn env options db) (step : Section) :
    RestorableIn env options (after Section.run db step) := by
  rcases step.after_cases h.sound with ⟨hafter, _⟩ | ⟨requests, hafter, _⟩ |
    ⟨_, _, _, _, _, _, htake, hnum, hs, hall, hafter⟩
  · rw [hafter]
    exact h
  · rw [hafter]
    exact ⟨h.toRestorable.written requests, h.env_eq, h.options_eq⟩
  · rw [hafter]
    exact ⟨h.toRestorable.flushed htake hnum hs hall, h.env_eq, h.options_eq⟩

theorem RestorableIn.after_reopen (h : RestorableIn env options db) :
    after Piece.run db .reopen = { db with
      journal := [.createDir, .openWal db.wal]
      state := db.recovered
      watermark := .new } ∨ after Piece.run db .reopen = db := by
  cases herr : db.options.errorIfExists with
  | false =>
    have hopen := h.recorded.reopen h.sound.toTabled herr
    have hrun : Piece.reopen.run db = .ok () { db with
        journal := [.createDir, .openWal db.wal]
        state := db.recovered
        watermark := .new } := by
      change DB.reopen db = _
      rw [DB.reopen, hopen]
    exact .inl (after_ok hrun)
  | true =>
    have hopen : DB.open db.env db.disk db.options =
        .error (.invalidArgument ("database already exists: " ++ db.disk.path)) := by
      simp [DB.open, h.recorded.dirExists, herr, throw, throwThe, MonadExceptOf.throw, bind,
        Except.bind]
    have hrun : Piece.reopen.run db =
        .error (.invalidArgument ("database already exists: " ++ db.disk.path)) db := by
      change DB.reopen db = _
      rw [DB.reopen, hopen]
    exact .inr (after_error hrun)

theorem RestorableIn.reopen (h : RestorableIn env options db) :
    RestorableIn env options (after Piece.run db .reopen) := by
  rcases h.after_reopen with hafter | hafter
  · rw [hafter]
    exact ⟨h.toRestorable.reopened, h.env_eq, h.options_eq⟩
  · rw [hafter]
    exact h

theorem RestorableIn.piece (h : RestorableIn env options db) (piece : Piece) :
    RestorableIn env options (after Piece.run db piece) := by
  have hmark : ∀ w, RestorableIn env options { db with watermark := w } := fun w =>
    ⟨h.toRestorable.withWatermark w, h.env_eq, h.options_eq⟩
  cases piece with
  | locked step => exact h.locked step
  | compactRange lower upper =>
    obtain ⟨db', hrun, hev, hc, _⟩ := h.sound.compactRange h.recorded lower upper
    have hrun' : (Piece.compactRange lower upper).run db = .ok () db' := hrun
    rw [after_ok hrun']
    exact ⟨h.toRestorable.tablesChanged hc hev.sound, hc.env.trans h.env_eq,
      hc.options.trans h.options_eq⟩
  | snapshot => exact hmark _
  | cloneSnapshot readSeq => exact hmark _
  | dropSnapshot readSeq => exact hmark _
  | reopen => exact h.reopen

theorem restorableIn_created (env : Env) (options : Options) (path : String) :
    RestorableIn env options (created env options path) := by
  have hlog : (created env options path).liveLog = [] := rfl
  refine ⟨⟨(ok_created env options path).sound, (durable_created env options path).toRecorded,
    by simp [hlog], by simp [hlog], fun e he => ?_⟩, rfl, rfl⟩
  exact (ok_created env options path).stateOk.sequences e (List.mem_append.mpr (.inr he))

theorem restorableIn_runPieces (env : Env) (options : Options) (path : String)
    (pieces : List Piece) :
    RestorableIn env options (runPieces pieces (created env options path)) :=
  List.foldlRecOn pieces _ (restorableIn_created env options path)
    fun _ h piece _ => h.piece piece

/-- No table is in the way of the numbers to come, so that a flush succeeds whatever is
written before it. -/
structure NumbersFresh (r : DB) : Prop where
  unused : ∀ n, r.versions.nextFileNumber ≤ n → r.disk.tables n = none
  flushes : ∀ requests, ∃ r', DB.flush (r.written requests) = .ok () r'

theorem numbersFresh_iff {r : DB} (h : Flushable r.state) :
    r.NumbersFresh ↔ ∀ n, r.versions.nextFileNumber ≤ n → r.disk.tables n = none :=
  ⟨NumbersFresh.unused, fun hu => ⟨hu, h.flush_written (hu _ le_rfl)⟩⟩

/-- The directory when the process stops after the first `i` operations of a program. -/
def stopped (program : DBM Unit) (db : DB) (i : Nat) : Disk :=
  match program db with
  | .ok _ db' => db.crashed db' i
  | .error _ db' => db.crashed db' i

theorem stopped_ok {program : DBM Unit} (h : program db = .ok () db') (i : Nat) :
    db.stopped program i = db.crashed db' i := by
  rw [stopped, h]

/-- A flush does not stop between the naming of its table and the edit that lists it. -/
def FlushNumbersSafe (db : DB) (i : Nat) : Prop :=
  db.state.takeOldestFlushableMemtable db.options.memtableKind = none ∨ i ≠ 1

theorem FlushStopped.numbersFresh_iff {memtable : MemTable} {i : Nat} {r : DB}
    (hst : FlushStopped db memtable i r) : r.NumbersFresh ↔ i ≠ 1 := by
  have hnext := hst.nextFileNumber
  rw [DB.numbersFresh_iff hst.flushable]
  constructor
  · rintro hu rfl
    have hnone := hu db.versions.nextFileNumber (by simp [hnext])
    exact (hst.tables _ le_rfl).mpr ⟨Nat.one_pos, rfl⟩ hnone
  · intro hi n hn
    by_contra hsome
    have hle : db.versions.nextFileNumber ≤ n := by
      refine le_trans ?_ hn
      rw [hnext]
      split
      · exact le_rfl
      · split <;> omega
    obtain ⟨hpos, rfl⟩ := (hst.tables n hle).mp hsome
    rw [hnext, if_neg (by omega)] at hn
    split at hn <;> omega

theorem Restorable.flush_numbers (h : db.Restorable) (herr : db.options.errorIfExists = false)
    (i : Nat) : ∃ r, DB.open db.env (db.stopped DB.flush i) db.options = .ok r ∧
      (r.NumbersFresh ↔ db.FlushNumbersSafe i) := by
  cases htake : db.state.takeOldestFlushableMemtable db.options.memtableKind with
  | none =>
    obtain ⟨r, hopen, hst⟩ := h.sound.flush_not_begun h.recorded herr (.new db.options.memtableKind)
    have hsame : db.crashed db i = db.disk := by simp [crashed]
    rw [stopped_ok (run_flush_none h.sound.isOpen htake), hsame]
    exact ⟨r, hopen, hst.numbersFresh_iff.trans (iff_of_true Nat.zero_ne_one (.inl htake))⟩
  | some taken =>
    obtain ⟨memtable, source, state⟩ := taken
    obtain ⟨db', hrun, hcrash⟩ := h.sound.flush_crashed h.recorded herr htake
    obtain ⟨r, hopen, hst⟩ := hcrash i
    rw [stopped_ok hrun]
    refine ⟨r, hopen, hst.numbersFresh_iff.trans ?_⟩
    rw [FlushNumbersSafe, htake]
    simp

/-- Where a compaction stops, either no output has its name yet, or the edit is logged that
lists the output with the largest number. -/
def OutputsNamed (db : DB) (task : CompactionTask) (i : Nat) : Prop :=
  db.outputTables task = 0 ∨ i = 0 ∨
    db.outputTables task - 1 ∈
      (db.env.workerOrder db.versions.nextFileNumber (db.outputTables task)).take
        (i - db.outputTables task - task.numbers.length)

def CompactionNumbersSafe (db : DB) (lower upper : Bound) (i : Nat) : Prop :=
  ∀ task ∈ CompactionPicker.pickManual db.versions.current lower upper, db.OutputsNamed task i

section

variable {task : CompactionTask} {refs : List TableRef} {outs : List FileMeta} {removed : List Nat}

theorem Performs.crashed_tables (hp : Performs db db' task refs outs removed) (h : db.Sound)
    (hin : ∀ f ∈ task.allInputFiles, f ∈ db.versions.current.files) {n : Nat}
    (hn : db.versions.nextFileNumber ≤ n) (i : Nat) :
    (db.crashed db' i).tables n ≠ none ↔ ∃ ref ∈ refs.take i, ref.1.number = n := by
  have hnot : n ∉ task.numbers := by
    intro hmem
    obtain ⟨f, hf, rfl⟩ := List.mem_map.mp hmem
    exact absurd (h.file_number_lt (hin f hf)) (not_lt.mpr hn)
  rw [hp.crashed_eq]
  simp only
  rw [if_neg fun hmem => hnot (hp.removed.1 (List.mem_of_mem_take hmem))]
  have hnodup : (refs.map (fun ref => ref.1.number)).Nodup := by
    rw [hp.order]
    exact ((db.env.workerOrder_perm _ _).nodup_iff.mpr List.nodup_range).map
      fun a b h => Nat.add_left_cancel h
  constructor
  · intro hsome
    by_contra hno
    refine hsome ?_
    rw [Disk.withTables_of_ne _ fun ref href he => hno ⟨ref, href, he⟩]
    exact h.freshTables n hn
  · rintro ⟨ref, href, rfl⟩
    rw [Disk.withTables_of_mem _ (hnodup.sublist ((List.take_sublist i refs).map _)) href]
    simp

/-- The numbers to come after the first `k` outputs are listed are above all outputs exactly
when the last number is among them. -/
theorem Performs.nextAfter_take (hp : Performs db db' task refs outs removed) (hne : refs ≠ [])
    (k : Nat) :
    db.versions.nextFileNumber + refs.length ≤
        Version.nextAfter db.versions.nextFileNumber (outs.take k) ↔
      refs.length - 1 ∈
        (db.env.workerOrder db.versions.nextFileNumber refs.length).take k := by
  have hpos : 0 < refs.length := List.length_pos_iff.mpr hne
  have houts : outs.map FileMeta.number =
      (db.env.workerOrder db.versions.nextFileNumber refs.length).map
        (db.versions.nextFileNumber + ·) := by
    rw [← hp.order, hp.written.resolve_right fun hw => hne hw.1, List.map_map]
    rfl
  have hmem : ∀ m, db.versions.nextFileNumber + m ∈ (outs.take k).map FileMeta.number ↔
      m ∈ (db.env.workerOrder db.versions.nextFileNumber refs.length).take k := by
    intro m
    rw [List.map_take, houts, ← List.map_take, List.mem_map]
    simp
  rw [← hmem]
  constructor
  · intro hle
    by_contra hno
    have hbound : ∀ f ∈ outs.take k,
        f.number < db.versions.nextFileNumber + (refs.length - 1) := by
      intro f hf
      have hfm : f.number ∈ outs.map FileMeta.number :=
        List.mem_map.mpr ⟨f, List.mem_of_mem_take hf, rfl⟩
      rw [houts] at hfm
      obtain ⟨m, hm, he⟩ := List.mem_map.mp hfm
      have hlt := List.mem_range.mp ((db.env.workerOrder_perm _ _).mem_iff.mp hm)
      have hne' : f.number ≠ db.versions.nextFileNumber + (refs.length - 1) := fun heq =>
        hno (List.mem_map.mpr ⟨f, hf, heq⟩)
      omega
    have := Version.nextAfter_le (Nat.le_add_right db.versions.nextFileNumber _) hbound
    omega
  · intro hin
    obtain ⟨f, hf, he⟩ := List.mem_map.mp hin
    have hlt : f.number < Version.nextAfter db.versions.nextFileNumber (outs.take k) :=
      Version.lt_nextAfter hf
    omega

theorem Restorable.compaction_numbers (h : db.Restorable)
    (herr : db.options.errorIfExists = false) {lower upper : Bound}
    (hpick : CompactionPicker.pickManual db.versions.current lower upper = some task)
    (hp : Performs db db' task refs outs removed) (i : Nat) :
    ∃ r, DB.open db.env (db.crashed db' i) db.options = .ok r ∧
      (r.NumbersFresh ↔ db.OutputsNamed task i) := by
  have hin := (h.sound.listed.allInputFiles_sublist hpick).subset
  obtain ⟨v, hreplay, hlisted, hfiles, _⟩ := h.sound.logged hpick
    (fun f hf => hp.tables_agree h.sound hf) hp.placed (i - refs.length)
  obtain ⟨l0, levels, _, _, hopen⟩ := hp.reopens h.sound h.recorded herr hreplay hlisted
    fun f hf => (hfiles f).mp hf
  refine ⟨_, hopen, (numbersFresh_iff (flushable_recoverWal _ _ _ _ _)).trans ?_⟩
  set k := i - refs.length - task.numbers.length with hk
  set next := Version.nextAfter db.versions.nextFileNumber (outs.take k) with hnext
  have hle : db.versions.nextFileNumber ≤ next := Version.le_nextAfter _ _
  change (∀ n, next ≤ n → (db.crashed db' i).tables n = none) ↔ _
  have htables : ∀ n, next ≤ n → ((db.crashed db' i).tables n = none ↔
      ∀ ref ∈ refs.take i, ref.1.number ≠ n) := by
    intro n hn
    rw [← not_iff_not, ← ne_eq, hp.crashed_tables h.sound (fun f hf => hin hf) (hle.trans hn)]
    simp
  rw [OutputsNamed, ← hp.count]
  by_cases hnone : refs = []
  · refine iff_of_true (fun n hn => (htables n hn).mpr ?_) (.inl (by simp [hnone]))
    simp [hnone]
  have hpos : 0 < refs.length := List.length_pos_iff.mpr hnone
  rw [← hk, ← hp.nextAfter_take hnone, ← hnext, or_iff_right hpos.ne']
  constructor
  · intro hu
    refine or_iff_not_imp_left.mpr fun hi => ?_
    by_contra hlt
    by_cases hall : refs.length ≤ i
    · -- all outputs have their names, one of them the last number
      have hmem : refs.length - 1 ∈
          db.env.workerOrder db.versions.nextFileNumber refs.length :=
        (db.env.workerOrder_perm _ _).mem_iff.mpr (List.mem_range.mpr (by omega))
      have hlast : db.versions.nextFileNumber + (refs.length - 1) ∈
          refs.map (fun ref => ref.1.number) := by
        rw [hp.order]
        exact List.mem_map.mpr ⟨_, hmem, rfl⟩
      obtain ⟨ref, href, he⟩ := List.mem_map.mp hlast
      have hn : next ≤ ref.1.number := by omega
      exact (htables _ hn).mp (hu _ hn) ref (by rw [List.take_of_length_le hall]; exact href) rfl
    · -- no edit is logged
      have hsame : next = db.versions.nextFileNumber := by
        rw [hnext, show k = 0 by omega, List.take_zero]
        rfl
      obtain ⟨ref, rest, hrefs⟩ := List.exists_cons_of_ne_nil hnone
      have hn : next ≤ ref.1.number := hsame ▸ (hp.numbers ref (by simp [hrefs])).1
      refine (htables _ hn).mp (hu _ hn) ref ?_ rfl
      obtain ⟨j, rfl⟩ := Nat.exists_eq_succ_of_ne_zero hi
      simp [hrefs]
  · rintro (rfl | hlast) n hn
    · exact (htables n hn).mpr (by simp)
    · refine (htables n hn).mpr fun ref href he => ?_
      have := (hp.numbers ref (List.mem_of_mem_take href)).2
      omega

theorem Restorable.compactRange_numbers (h : db.Restorable)
    (herr : db.options.errorIfExists = false) (lower upper : Bound) (i : Nat) :
    ∃ r, DB.open db.env (db.stopped (DB.compactRange lower upper) i) db.options = .ok r ∧
      (r.NumbersFresh ↔ db.CompactionNumbersSafe lower upper i) := by
  cases hpick : CompactionPicker.pickManual db.versions.current lower upper with
  | none =>
    have hrun : DB.compactRange lower upper db = .ok () db := by
      rw [DB.compactRange, run_bind_ok (run_get db), hpick]
      rfl
    obtain ⟨r, hopen, hst⟩ := h.sound.flush_not_begun h.recorded herr (.new db.options.memtableKind)
    have hsame : db.crashed db i = db.disk := by simp [crashed]
    rw [stopped_ok hrun, hsame]
    refine ⟨r, hopen, hst.numbersFresh_iff.trans (iff_of_true Nat.zero_ne_one ?_)⟩
    simp [CompactionNumbersSafe, hpick]
  | some task =>
    obtain ⟨db', refs, outs, removed, hrun, hp⟩ := h.sound.execute hpick
    have hrun' : DB.compactRange lower upper db = .ok () db' := by
      rw [DB.compactRange, run_bind_ok (run_get db), hpick]
      exact run_discard_ok hrun
    obtain ⟨r, hopen, hiff⟩ := h.compaction_numbers herr hpick hp i
    rw [stopped_ok hrun']
    refine ⟨r, hopen, hiff.trans ?_⟩
    simp [CompactionNumbersSafe, hpick]

end

instance (db : DB) (i : Nat) : Decidable (db.FlushNumbersSafe i) :=
  match h : db.state.takeOldestFlushableMemtable db.options.memtableKind with
  | none => isTrue (.inl h)
  | some _ => decidable_of_iff (i ≠ 1) (by simp [FlushNumbersSafe, h])

instance (db : DB) (task : CompactionTask) (i : Nat) : Decidable (db.OutputsNamed task i) :=
  inferInstanceAs (Decidable (_ ∨ _ ∨ _))

instance (db : DB) (lower upper : Bound) (i : Nat) :
    Decidable (db.CompactionNumbersSafe lower upper i) :=
  match h : CompactionPicker.pickManual db.versions.current lower upper with
  | none => isTrue (by simp [CompactionNumbersSafe, h])
  | some task => decidable_of_iff (db.OutputsNamed task i) (by simp [CompactionNumbersSafe, h])

end DB

/-- Wherever a flush or a compaction stops, opening the directory again finds all numbers to
come unused exactly when no table is left whose number no edit mentions. -/
theorem file_numbers_fresh (env : Env) (options : Options) (path : String) {db₀ : DB}
    (hopen : DB.open env (Disk.empty path) options = .ok db₀)
    (herr : options.errorIfExists = false) (pieces : List Piece) :
    (∀ i, ∃ r, DB.open env ((runPieces pieces db₀).stopped DB.flush i) options = .ok r ∧
      (r.NumbersFresh ↔ (runPieces pieces db₀).FlushNumbersSafe i)) ∧
    ∀ lower upper i, ∃ r, DB.open env
        ((runPieces pieces db₀).stopped (DB.compactRange lower upper) i) options = .ok r ∧
      (r.NumbersFresh ↔ (runPieces pieces db₀).CompactionNumbersSafe lower upper i) := by
  obtain rfl := DB.eq_created hopen
  have h := DB.restorableIn_runPieces env options path pieces
  have herr' : (runPieces pieces (DB.created env options path)).options.errorIfExists = false := by
    rw [h.options_eq]
    exact herr
  have hflush := h.toRestorable.flush_numbers herr'
  have hcompact := h.toRestorable.compactRange_numbers herr'
  rw [h.env_eq, h.options_eq] at hflush hcompact
  exact ⟨hflush, hcompact⟩

/-- A write that freezes nothing. -/
def putPieces : List Piece := [.locked (.group [⟨⟨[.put [97] [1]]⟩, {}⟩])]

theorem file_numbers_fresh_small :
    ∃ r, DB.open .inOrder ((runPieces putPieces (DB.created .inOrder {} "db")).stopped
      DB.flush 4) {} = .ok r ∧ r.NumbersFresh := by
  obtain ⟨r, hopen, hiff⟩ := (file_numbers_fresh .inOrder {} "db" (DB.open_empty _ _ _) rfl
    putPieces).1 4
  exact ⟨r, hopen, hiff.mpr (.inr (by decide))⟩

theorem putPieces_stopped : (match DB.open .inOrder
      ((runPieces putPieces (DB.created .inOrder {} "db")).stopped DB.flush 1) {} with
    | .error _ => false
    | .ok r => (r.disk.tables r.versions.nextFileNumber).isSome &&
      match DB.flush r with
      | .ok _ _ => false
      | .error err _ => err == .corruption "table file already exists: db/000002.sst") = true := by
  decide +kernel

/-- The table has its name and no edit mentions it when the process stops; the first flush
after opening the directory draws its number again and fails. -/
theorem orphan_table_blocks_flush : ∃ r, DB.open .inOrder
      ((runPieces putPieces (DB.created .inOrder {} "db")).stopped DB.flush 1) {} = .ok r ∧
    ¬ r.NumbersFresh ∧
    ∃ r', DB.flush r = .error (.corruption "table file already exists: db/000002.sst") r' := by
  have h := putPieces_stopped
  split at h
  · cases h
  · rename_i r hopen
    rw [Bool.and_eq_true] at h
    obtain ⟨hsome, hflush⟩ := h
    refine ⟨r, hopen, fun hfresh => ?_, ?_⟩
    · rw [hfresh.unused _ le_rfl] at hsome
      cases hsome
    · split at hflush
      · cases hflush
      · rename_i err r' hrun
        exact ⟨r', by rw [hrun, eq_of_beq hflush]⟩

end TyLsm
