import TyLsm.ByteReads

/-! The files that a run leaves, and the database that is opened from their bytes. -/

namespace TyLsm

/-- The operations on the directory in a step. A restart begins a new journal; one that
fails is not followed. -/
def TxnStep.ops (step : TxnStep) (c : TxnClient) : List DiskOp :=
  let journal := (after TxnStep.run c step).db.journal
  match step, step.run c with
  | restart, .ok _ _ => journal
  | restart, .error _ _ => []
  | call _, _ => journal.drop c.db.journal.length

/-- Every operation on the directory from its creation on. -/
def runOps (steps : List TxnStep) (db : DB) : List DiskOp × TxnClient :=
  follow TxnStep.run (fun step c ops => ops ++ step.ops c) steps db.journal ⟨db, []⟩

def runFiles (F : FileFormat) (steps : List TxnStep) (db : DB) : Directory :=
  Directory.empty.applyAll (diskFileOps F db.options.blockSize (runOps steps db).1)

variable {F : FileFormat} {blockSize : Nat} {options : Options}

/-- The directory of a run is what its operations make of the directory `disk`. -/
structure WrittenBy (options : Options) (disk : Disk) (first ops : List DiskOp) (c : TxnClient) :
    Prop where
  options_eq : c.db.options = options
  typed : c.db.Typed
  ops : ∃ rest, ops = first ++ rest ∧ c.db.disk = disk.applyAll rest ∧
    ∀ op ∈ rest, op.Ordinary options.blockSize

namespace WrittenBy

variable {disk : Disk} {first ops : List DiskOp} {c : TxnClient}

theorem journals (h : WrittenBy options disk first ops c) {db' : DB} (hj : DB.Journals c.db db')
    {txns : List (Option Transaction)} :
    WrittenBy options disk first (ops ++ db'.journal.drop c.db.journal.length) ⟨db', txns⟩ := by
  obtain ⟨rest, rfl, hdisk, hrest⟩ := h.ops
  obtain ⟨more, hjournal, hdisk', hmore⟩ := hj.ops
  refine ⟨hj.options.trans h.options_eq, hj.typed h.typed, rest ++ more, ?_, ?_, fun op hop => ?_⟩
  · rw [hjournal, List.drop_left, List.append_assoc]
  · rw [hdisk', hdisk, Disk.applyAll_append]
  · rcases List.mem_append.mp hop with hop | hop
    · exact hrest op hop
    · exact h.options_eq ▸ hmore op hop

theorem restart (h : WrittenBy options disk first ops c) (hr : c.db.Recorded) :
    WrittenBy options disk first (ops ++ [.createDir, .openWal c.db.wal])
      ⟨{ c.db with
        journal := [.createDir, .openWal c.db.wal]
        watermark := .new }, c.txns.map fun _ => none⟩ := by
  obtain ⟨rest, rfl, hdisk, hrest⟩ := h.ops
  obtain ⟨log, hlog⟩ := hr.log
  refine ⟨h.options_eq, ⟨h.typed.memory, h.typed.tables⟩,
    rest ++ [.createDir, .openWal c.db.wal], ?_, ?_, fun op hop => ?_⟩
  · rw [List.append_assoc]
  · rw [Disk.applyAll_append, ← hdisk]
    simp only [Disk.applyAll_cons, Disk.applyAll_nil, Disk.apply, hlog, Option.getD_some]
    simp [← hr.dirExists, ← hlog]
  · rcases List.mem_append.mp hop with hop | hop
    · exact hrest op hop
    · simp only [List.mem_cons, List.not_mem_nil, or_false] at hop
      rcases hop with rfl | rfl <;> trivial

/-- What keeps the directory known: a restart has to find all that was written. -/
def Known (options : Options) (step : TxnStep) (c : TxnClient) : Prop :=
  step ≠ .call (.call .reopen) ∧
    (step = .restart → ∃ l, Serial options True l c ∧ options.errorIfExists = false)

theorem step (step : TxnStep) (ops : List DiskOp) (c : TxnClient)
    (h : WrittenBy options disk first ops c) (hknown : Known options step c) :
    WrittenBy options disk first (ops ++ step.ops c) (after TxnStep.run c step) := by
  cases step with
  | call call => exact h.journals (call.journals h.typed fun he => hknown.1 (he ▸ rfl))
  | restart =>
    obtain ⟨l, hserial, herr⟩ := hknown.2 rfl
    obtain ⟨notes, hobserved⟩ := hserial.observed
    have hrun := hserial.run_restart trivial herr
    have hops : TxnStep.restart.ops c = [.createDir, .openWal c.db.wal] := by
      simp only [TxnStep.ops, hrun, after_ok hrun]
    rw [hops, after_ok hrun]
    exact h.restart hobserved.recorded

theorem run {db : DB} (h : WrittenBy options disk first db.journal ⟨db, []⟩) {steps : List TxnStep}
    (hsteps : Along TxnStep.run (Known options) steps ⟨db, []⟩) :
    WrittenBy options disk first (runOps steps db).1 (runOps steps db).2 :=
  @follow_invariant _ _ _ _ TxnStep.run (fun step c ops => ops ++ step.ops c)
    (WrittenBy options disk first) (Known options) step steps _ _ h hsteps

end WrittenBy

theorem typed_created (env : Env) (options : Options) (path : String) :
    (DB.created env options path).Typed := by
  refine ⟨?_, fun n table htable => ?_⟩
  · rw [DB.memEntries_created]
    simp
  · simp [DB.created, DB.createOps, VersionSet.createEdits, Disk.apply, Disk.empty] at htable

theorem written_created (env : Env) (options : Options) (path : String) :
    WrittenBy options (DB.created env options path).disk (DB.created env options path).journal
      (DB.created env options path).journal ⟨DB.created env options path, []⟩ :=
  ⟨rfl, typed_created env options path, [], (List.append_nil _).symm, rfl, by simp⟩

section

variable (F : FileFormat) (env : Env) (options : Options) (path : String)

theorem fits_journal : ∀ op ∈ (DB.created env options path).journal,
    op.Fits F options.blockSize := by
  intro op hop
  rcases List.mem_append.mp hop with hop | hop
  · rcases List.mem_append.mp hop with hop | hop
    · rw [List.mem_singleton.mp hop]
      trivial
    · exact fits_createOps options.blockSize op hop
  · rw [List.mem_singleton.mp hop]
    trivial

theorem fits_created : (DB.created env options path).disk.Fits F options.blockSize :=
  (fits_empty options.blockSize path).applyAll (fits_journal F env options path)

/-- What a new database writes, and then operations of it while it is open. -/
theorem created_then {rest : List DiskOp} (hset : .setCurrent ∉ rest) :
    Renders F options.blockSize ((DB.created env options path).disk.applyAll rest)
      (Directory.empty.applyAll (diskFileOps F options.blockSize
        ((DB.created env options path).journal ++ rest))) ∧
    ((∀ op ∈ rest, op.Sized F options.blockSize) → Stops F options.blockSize (Disk.empty path)
      .empty ((DB.created env options path).journal ++ rest)) := by
  have hempty : Renders F options.blockSize (Disk.empty path) .empty := renders_empty path
  have hmade := hempty.createDir.createManifest
  have hnext := hmade.appendManifest (.nextFileNumber 2)
  have hlog := hnext.appendManifest (.logNumber 1)
  have hlast := hlog.appendManifest (.lastSequence 0)
  have hcurrent := hlast.setCurrent (by simp [Directory.apply])
  have hwal := hcurrent.openWal 1
  have hedit : ∀ edit ∈ VersionSet.createEdits,
      (DiskOp.appendManifest edit).Sized F options.blockSize := createEdits_loggable
  refine ⟨?_, fun hrest => ?_⟩
  · rw [diskFileOps, List.flatMap_append, Directory.applyAll_append]
    exact hwal.applyAll hset
  · refine hempty.stops_cons .createDir trivial ?_
    refine hempty.createDir.stops_cons .createManifest trivial ?_
    refine hmade.stops_cons _ (hedit (.nextFileNumber 2) (by simp [VersionSet.createEdits])) ?_
    refine hnext.stops_cons _ (hedit (.logNumber 1) (by simp [VersionSet.createEdits])) ?_
    refine hlog.stops_cons _ (hedit (.lastSequence 0) (by simp [VersionSet.createEdits])) ?_
    refine hlast.stops_cons .setCurrent trivial ?_
    exact hcurrent.stops_cons (.openWal 1) trivial (hwal.stops hrest hset)

end

theorem path_applyAll (disk : Disk) (ops : List DiskOp) :
    (disk.applyAll ops).path = disk.path := by
  induction ops generalizing disk with
  | nil => rfl
  | cons op ops ih =>
    rw [Disk.applyAll_cons, ih]
    cases op <;> rfl

/-- A run that logs everything: its directory is the one that its database has decoded. -/
structure OnDisk (F : FileFormat) (options : Options) (path : String) (steps : List TxnStep)
    (db : DB) : Prop where
  serial : Serial options True (runTxnSteps steps db).1 (runTxnSteps steps db).2
  path_eq : (runTxnSteps steps db).2.db.disk.path = path
  renders : Renders F options.blockSize (runTxnSteps steps db).2.db.disk (runFiles F steps db)
  fits : (∀ op ∈ (runOps steps db).1, op.Sized F options.blockSize) →
    (runTxnSteps steps db).2.db.disk.Fits F options.blockSize

/-- In a run that logs everything a restart finds all that was written. -/
theorem serial_known (env : Env) {options : Options} (path : String) {steps : List TxnStep}
    (herr : options.errorIfExists = false) (hsteps : ∀ step ∈ steps, step.Fits options True) :
    Serial options True (runTxnSteps steps (DB.created env options path)).1
        (runTxnSteps steps (DB.created env options path)).2 ∧
      WrittenBy options (DB.created env options path).disk (DB.created env options path).journal
        (runOps steps (DB.created env options path)).1
        (runOps steps (DB.created env options path)).2 := by
  have hstart := serial_created env options path True
  have hfits : Along TxnStep.run (fun step _ => step.Fits options True) steps
      ⟨DB.created env options path, []⟩ := along_of_forall (fun step hstep _ => hsteps step hstep) _
  refine ⟨follow_invariant Serial.step hstart hfits, (written_created env options path).run ?_⟩
  refine (along_of_invariant Serial.step hstart hfits).mono fun step c hc => ⟨?_, fun _ => ?_⟩
  · exact fun he => (he ▸ hc.1.sequential : (TxnStep.call (.call .reopen)).Sequential)
  · exact ⟨hc.2.choose, hc.2.choose_spec, herr⟩

theorem runOps_snd (steps : List TxnStep) (db : DB) :
    (runOps steps db).2 = (runTxnSteps steps db).2 :=
  follow_snd _ TxnStep.note steps _ {} _

theorem onDisk_run (F : FileFormat) (env : Env) {options : Options} (path : String)
    {steps : List TxnStep} (herr : options.errorIfExists = false)
    (hsteps : ∀ step ∈ steps, step.Fits options True) :
    OnDisk F options path steps (DB.created env options path) := by
  obtain ⟨hserial, hwritten⟩ := serial_known env path herr hsteps
  obtain ⟨-, -, rest, hops, hdisk, hrest⟩ := hwritten
  rw [runOps_snd] at hdisk
  refine ⟨hserial, ?_, ?_, fun hsized => ?_⟩
  · rw [hdisk, path_applyAll]
    exact path_applyAll (Disk.empty path) _
  · rw [hdisk, runFiles, hops]
    exact (created_then F env options path fun hset => hrest _ hset).1
  · rw [hdisk]
    exact (fits_created F env options path).applyAll fun op hop =>
      (hrest op hop).fits (hsized op (hops ▸ List.mem_append_right _ hop))

/-- The process ends after a run that logs everything, and `DB::open` reads the directory
back from the bytes that the run has written: every key has the value that the replay of the
acknowledged traces gives it. -/
theorem bytes_keep_acknowledged (env : Env) {options : Options} (path : String) {db₀ : DB}
    (hopen : DB.open env (Disk.empty path) options = .ok db₀)
    (hsub : options.maxSubcompactions = 1) (hwal : options.walEnabled = true)
    (herr : options.errorIfExists = false) {F : FileFormat} (hz : F.zstd.Lossless)
    (steps : List TxnStep) (hsteps : ∀ step ∈ steps, step.Sequential ∧ step.Logs)
    (hsized : ∀ op ∈ (runOps steps db₀).1, op.Sized F options.blockSize)
    (chunks : String → Nat → Nat) :
    ∃ b, ByteDB.openPath F chunks path (runFiles F steps db₀) options = .ok b ∧
      ∀ k, b.get F k = .ok ((runTxnSteps steps db₀).1.map.get? k) := by
  obtain rfl := DB.eq_created hopen
  have hfits : ∀ step ∈ steps, step.Fits options True := fun step hstep =>
    ⟨(hsteps step hstep).1, hsub, fun _ => ⟨hwal, (hsteps step hstep).2⟩, fun _ => ⟨trivial, herr⟩⟩
  have h := onDisk_run F env path herr hfits
  have hd := h.serial.durable trivial
  have hreopen := hd.reopen h.serial.ok.sound.toTabled (by rw [h.serial.options_eq, herr])
  rw [← hd.state_eq, h.serial.options_eq] at hreopen
  obtain ⟨b, hb, hshows⟩ :=
    (openPath_alike h.renders.finds hz (h.fits hsized) _ chunks).of_ok hreopen
  rw [h.path_eq] at hb
  refine ⟨b, hb, fun k => ?_⟩
  rw [ByteDB.get, hshows.getOpt_eq]
  exact h.serial.ok.get_of_shows h.serial.shows k

def rawFormat : FileFormat := ⟨castagnoli, TableFile.rawFrames, .none⟩

def flushedSteps : List TxnStep :=
  [.call (.call (.put [97] [1])), .call (.call .flush), .call (.call (.delete [98])), .restart]

theorem bytes_keep_acknowledged_small :
    ∃ b, ByteDB.openPath rawFormat (fun _ _ => 0) "db"
        (runFiles rawFormat flushedSteps (DB.created .inOrder {} "db")) {} = .ok b ∧
      b.get rawFormat [97] = .ok (some [1]) := by
  have hsteps : ∀ step ∈ flushedSteps, step.Sequential ∧ step.Logs := by
    simp [flushedSteps, TxnStep.Sequential, Call.Sequential, TxnStep.Logs, Call.Logs, Call.request]
  obtain ⟨b, hb, hget⟩ := @bytes_keep_acknowledged .inOrder {} "db" _ (DB.open_empty _ _ _) rfl rfl
    rfl rawFormat TableFile.rawFrames_lossless flushedSteps hsteps (by decide +kernel) fun _ _ => 0
  refine ⟨b, hb, ?_⟩
  rw [hget]
  decide +kernel

/-- The directory of a stopped run, as `DB::open` sees it. -/
theorem WrittenBy.stopped {env : Env} {path : String} {ops : List DiskOp} {c : TxnClient}
    (h : WrittenBy options (DB.created env options path).disk
      (DB.created env options path).journal ops c) (hz : F.zstd.Lossless)
    (hsized : ∀ op ∈ ops, op.Sized F options.blockSize) (i n : Nat) :
    ∃ j ≤ ops.length,
      (∀ k ≤ ops.length, (diskFileOps F options.blockSize (ops.take k)).length ≤ i → k ≤ j) ∧
      (diskFileOps F options.blockSize (ops.take j)).length ≤ i + 1 ∧
      ∀ (env' : Env) (chunks : String → Nat → Nat),
        Alike (fun b db => ∀ key snapshot, b.getOpt F key snapshot = db.getOpt key snapshot)
          (ByteDB.openPath F chunks path
            (Directory.empty.stopped (diskFileOps F options.blockSize ops) i n) options)
          (DB.open env' ((Disk.empty path).applyAll (ops.take j)) options) := by
  obtain ⟨-, -, rest, rfl, -, hrest⟩ := h
  have hfits : ∀ op ∈ (DB.created env options path).journal ++ rest,
      op.Fits F options.blockSize := by
    intro op hop
    rcases List.mem_append.mp hop with hop | hop
    · exact fits_journal F env options path op hop
    · exact (hrest op hop).fits (hsized op (List.mem_append_right _ hop))
  have hstops := (created_then F env options path fun hset => hrest _ hset).2 fun op hop =>
    hsized op (List.mem_append_right _ hop)
  obtain ⟨j, hj, hfinds, hdone, hle⟩ := hstops i n
  refine ⟨j, hj, hdone, hle, fun env' chunks => ?_⟩
  have hdisk : ((Disk.empty path).applyAll (((DB.created env options path).journal ++ rest).take
      j)).Fits F options.blockSize :=
    (fits_empty options.blockSize path).applyAll fun op hop => hfits op (List.mem_of_mem_take hop)
  have halike := openPath_alike hfinds hz hdisk env' chunks
  rw [path_applyAll] at halike
  exact halike.weaken fun b db hb key snapshot => hb.getOpt_eq key snapshot

/-- A process that stops at any byte, from the creation of its directory on, stops between
two operations as far as `DB::open` can tell: it finds what the first `j` operations made,
among them all that were finished, and it fails where it would fail on that. -/
theorem byte_stops_are_operation_stops (env : Env) {options : Options} (path : String) {db₀ : DB}
    (hopen : DB.open env (Disk.empty path) options = .ok db₀) {F : FileFormat}
    (hz : F.zstd.Lossless) (steps : List TxnStep)
    (hsteps : ∀ step ∈ steps, step ≠ .restart ∧ step ≠ .call (.call .reopen))
    (hsized : ∀ op ∈ (runOps steps db₀).1, op.Sized F options.blockSize) (i n : Nat) :
    ∃ j ≤ (runOps steps db₀).1.length,
      (∀ k ≤ (runOps steps db₀).1.length,
        (diskFileOps F options.blockSize ((runOps steps db₀).1.take k)).length ≤ i → k ≤ j) ∧
      (diskFileOps F options.blockSize ((runOps steps db₀).1.take j)).length ≤ i + 1 ∧
      ∀ (env' : Env) (chunks : String → Nat → Nat),
        Alike (fun b db => ∀ key snapshot, b.getOpt F key snapshot = db.getOpt key snapshot)
          (ByteDB.openPath F chunks path
            (Directory.empty.stopped (diskFileOps F options.blockSize (runOps steps db₀).1) i n)
            options)
          (DB.open env' ((Disk.empty path).applyAll ((runOps steps db₀).1.take j)) options) := by
  obtain rfl := DB.eq_created hopen
  have hknown : Along TxnStep.run (WrittenBy.Known options) steps
      ⟨DB.created env options path, []⟩ :=
    along_of_forall (fun step hstep _ => ⟨(hsteps step hstep).2, fun he =>
      absurd he (hsteps step hstep).1⟩) _
  exact ((written_created env options path).run hknown).stopped hz hsized i n

/-- A stop while `flush` writes its table. -/
theorem byte_stops_are_operation_stops_small :
    ∃ b, ByteDB.openPath rawFormat (fun _ _ => 0) "db" (Directory.empty.stopped
        (diskFileOps rawFormat 4096 (runOps (flushedSteps.take 2) (DB.created .inOrder {} "db")).1)
        11 7) {} = .ok b ∧
      b.getOpt rawFormat [97] none = .ok (some [1]) := by
  obtain ⟨j, hj, hdone, hle, halike⟩ := @byte_stops_are_operation_stops .inOrder {} "db" _
    (DB.open_empty _ _ _) rawFormat TableFile.rawFrames_lossless (flushedSteps.take 2)
    (by simp [flushedSteps]) (by decide +kernel) 11 7
  have hfinished : 8 ≤ j := hdone 8 (by decide +kernel) (by decide +kernel)
  have hbegun : ∀ j ≤ (runOps (flushedSteps.take 2) (DB.created .inOrder {} "db")).1.length,
      8 ≤ j → (diskFileOps rawFormat 4096 ((runOps (flushedSteps.take 2)
        (DB.created .inOrder {} "db")).1.take j)).length ≤ 12 → j = 8 := by
    decide +kernel
  obtain rfl := hbegun j hj hfinished hle
  obtain ⟨b, hb, hget⟩ := (halike .inOrder fun _ _ => 0).of_ok rfl
  refine ⟨b, hb, ?_⟩
  rw [hget]
  decide +kernel

end TyLsm
