import TyLsm.TornTail
import TyLsm.Rotation

/-! Recovery from the bytes of a log. Whatever part of the log of an unflushed database a
crash leaves, opening the directory replays the batches that are complete in it. -/

namespace TyLsm

/-- Batches under the sequences at which they are written, from `next` on. -/
def numbered : Nat → List WriteBatch → List (Nat × WriteBatch)
  | _, [] => []
  | next, batch :: batches => (next, batch) :: numbered (next + batch.records.length) batches

theorem numbered_append (next : Nat) (l r : List WriteBatch) :
    numbered next (l ++ r) =
      numbered next l ++ numbered (next + (l.flatMap WriteBatch.records).length) r := by
  induction l generalizing next with
  | nil => simp [numbered]
  | cons batch l ih => simp [numbered, ih, Nat.add_assoc]

theorem numbered_take (next : Nat) (batches : List WriteBatch) (k : Nat) :
    (numbered next batches).take k = numbered next (batches.take k) := by
  induction batches generalizing next k with
  | nil => simp [numbered]
  | cons batch batches ih =>
    cases k with
    | zero => rfl
    | succ k => simp [numbered, ih]

theorem length_numbered (next : Nat) (batches : List WriteBatch) :
    (numbered next batches).length = batches.length := by
  induction batches generalizing next with
  | nil => rfl
  | cons batch batches ih => simp [numbered, ih]

theorem numbered_groupItems (next : Nat) (requests : List DB.Request) :
    (DB.groupItems next requests).map (fun item => (item.startSequence, item.batch)) =
      numbered next (requests.map DB.Request.batch) := by
  induction requests generalizing next with
  | nil => rfl
  | cons request requests ih => simp [DB.groupItems, numbered, ih]

section

variable (crc32c : Bytes → UInt32)

/-- The bytes of a log to which the records were appended. -/
def logBytes (records : List (Nat × WriteBatch)) : Bytes :=
  walFile crc32c [] (records.map (fun record => record.2.encodeWithSequence record.1))

/-- `recover_wal`. -/
def recoverWalFile (state : DBState) (log : ReadableFile) : Except Error DBState :=
  readRecords crc32c (fun state payload => do
    let (startSequence, batch) ← WriteBatch.decodePayload payload
    return state.applyBatch startSequence batch) log.rest.length state log

/-- Open a directory whose live log has the bytes of `log`: what is open when the log is
empty, and the log replayed. -/
def DB.openLog (env : Env) (disk : Disk) (options : Options) (log : ReadableFile) :
    Except Error DB := do
  let db ← DB.open env { disk with wals := fun n => (disk.wals n).map (fun _ => []) } options
  let state ← recoverWalFile crc32c db.state log
  return { db with state := state }

/-- A record whose fields fit their encoding. -/
structure Fits (record : Nat × WriteBatch) : Prop where
  batch : record.2.Encodable
  sequence : record.1 < 2 ^ 64
  payload : (record.2.encodeWithSequence record.1).length < 2 ^ 32

variable {crc32c}

theorem recoverWalFile_take {records : List (Nat × WriteBatch)} (h : ∀ record ∈ records, Fits record)
    (state : DBState) (cut : Nat) (chunks : Nat → Nat) :
    ∃ k ≤ records.length,
      recoverWalFile crc32c state ⟨(logBytes crc32c records).take cut, chunks⟩ =
        .ok (state.recoverWal (records.take k)) ∧
      (logBytes crc32c (records.take k)).length ≤ cut ∧
      ∀ j ≤ records.length, k < j → cut < (logBytes crc32c (records.take j)).length := by
  set payloads := records.map (fun record => record.2.encodeWithSequence record.1) with hpayloads
  have hbytes : ∀ j, logBytes crc32c (records.take j) =
      (walFraming crc32c).frames (payloads.take j) := by
    intro j
    rw [logBytes, walFile_eq, List.nil_append, hpayloads, List.map_take]
  have hall : logBytes crc32c records = (walFraming crc32c).frames payloads := by
    rw [logBytes, walFile_eq, List.nil_append]
  have hvalid : ∀ payload ∈ payloads, (walFraming crc32c).Valid payload := by
    intro payload hmem
    obtain ⟨record, hrecord, rfl⟩ := List.mem_map.mp hmem
    exact ⟨record.2.encodeWithSequence_ne_nil record.1, (h record hrecord).payload⟩
  obtain ⟨k, hk, hcomplete, hfit, hmax⟩ :=
    Framing.complete_eq_take (F := walFraming crc32c) payloads cut
  have hlen : payloads.length = records.length := List.length_map _
  refine ⟨k, hlen ▸ hk, ?_, by rw [hbytes]; exact hfit, fun j hj hkj => ?_⟩
  · have hread := Framing.read_take hvalid cut
    rw [hcomplete, ← hall] at hread
    rw [recoverWalFile, readRecords_eq, Framing.readInto_of_read le_rfl hread, hpayloads,
      ← List.map_take]
    -- every payload decodes to the record it was made from
    have hdecode : ∀ (l : List (Nat × WriteBatch)) (state : DBState), (∀ record ∈ l, Fits record) →
        (l.map (fun record => record.2.encodeWithSequence record.1)).foldlM
          (m := Except Error) (fun state payload => do
            let (startSequence, batch) ← WriteBatch.decodePayload payload
            return state.applyBatch startSequence batch) state = .ok (state.recoverWal l) := by
      intro l
      induction l with
      | nil => exact fun _ _ => rfl
      | cons record l ih =>
        intro state hl
        have hfits := hl record (by simp)
        rw [List.map_cons, List.foldlM_cons,
          WriteBatch.decodePayload_encode hfits.batch hfits.sequence]
        exact ih _ fun r hr => hl r (by simp [hr])
    exact hdecode _ _ fun record hrecord => h record (List.mem_of_mem_take hrecord)
  · rw [hbytes]
    exact hmax j (hlen ▸ hj) hkj

end

namespace Section

/-- A write or a commit whose records all go to the log. -/
def LogsAll : Section → Prop
  | group requests => ∀ request ∈ requests, request.opts.disableWal = false
  | commit _ _ _ _ => True
  | flush => False

/-- The batches that a section writes. -/
def newBatches (step : Section) (db : DB) : List WriteBatch :=
  match step.run db with
  | .error _ _ => []
  | .ok _ _ =>
    match step with
    | group requests => requests.map DB.Request.batch
    | commit _ batch _ _ => if batch.isEmpty then [] else [batch]
    | flush => []

end Section

/-- The batches written along a run, and the database it ends in. -/
def runUnflushed (steps : List Section) (db : DB) : List WriteBatch × DB :=
  follow Section.run (fun step db batches => batches ++ step.newBatches db) steps [] db

theorem DB.written_nil (db : DB) : db.written [] = db := by
  simp [DB.written, DB.groupItems, DB.groupOps, DB.performed, DB.applyItems]

theorem Section.after_logsAll {db : DB} (h : db.Live) {step : Section} (hlogs : step.LogsAll) :
    ∃ requests : List DB.Request, (∀ request ∈ requests, request.opts.disableWal = false) ∧
      after Section.run db step = db.written requests ∧
      step.newBatches db = requests.map DB.Request.batch := by
  cases step with
  | group requests =>
    have hrun := run_group h.isOpen requests
    exact ⟨requests, hlogs, after_ok hrun, by simp only [newBatches, hrun]⟩
  | commit readSeq batch readKeys readRanges =>
    rcases run_commit h.isOpen readSeq batch readKeys readRanges with
      ⟨err, hrun⟩ | ⟨hempty, hrun⟩ | ⟨hne, hrun⟩
    · refine ⟨[], by simp, ?_, by rw [newBatches, hrun]; rfl⟩
      rw [DB.written_nil]
      exact after_error hrun
    · refine ⟨[], by simp, ?_, ?_⟩
      · rw [DB.written_nil]
        exact after_ok hrun
      · have hnil : batch.isEmpty = true := by simpa [WriteBatch.isEmpty] using hempty
        simp [newBatches, hrun, hnil]
    · refine ⟨[⟨batch, {}⟩], by simp, after_ok hrun, ?_⟩
      have hcons : batch.isEmpty = false := by simpa [WriteBatch.isEmpty] using hne
      simp [newBatches, hrun, hcons]
  | flush => exact hlogs.elim

/-- A new database to which `batches` were written, and nothing was flushed. -/
structure Unflushed (created : DB) (batches : List WriteBatch) (db : DB) : Prop where
  live : db.Live
  options : db.options = created.options
  wal : db.wal = 1
  disk : db.disk = { created.disk with
    wals := Function.update created.disk.wals 1 (some (numbered 1 batches)) }
  lastSequence : db.state.lastSequence = (batches.flatMap WriteBatch.records).length

theorem Unflushed.log {created : DB} {batches : List WriteBatch} {db : DB}
    (h : Unflushed created batches db) : db.disk.wals db.wal = some (numbered 1 batches) := by
  rw [h.disk, h.wal]
  change Function.update created.disk.wals 1 _ 1 = _
  exact Function.update_self _ _ _

theorem DB.groupOps_logged {db : DB} (hwal : db.options.walEnabled = true) {requests : List Request}
    (hlog : ∀ request ∈ requests, request.opts.disableWal = false) (sequence : Nat) :
    db.groupOps (groupItems sequence requests) = (groupItems sequence requests).map
      (fun item => .appendWal db.wal item.startSequence item.batch) := by
  rw [groupOps, if_pos hwal, filter_groupItems hlog]

theorem Unflushed.step {created : DB} (hwal : created.options.walEnabled = true) (step : Section)
    (batches : List WriteBatch) (db : DB) (h : Unflushed created batches db)
    (hlogs : step.LogsAll) :
    Unflushed created (batches ++ step.newBatches db) (after Section.run db step) := by
  obtain ⟨requests, hlog, hafter, hbatches⟩ := Section.after_logsAll h.live hlogs
  obtain ⟨hlive, hadds⟩ := h.live.written requests
  rw [hafter, hbatches]
  refine ⟨hlive, h.options, h.wal, ?_, ?_⟩
  · have hnumbered : numbered 1 batches ++
        (DB.groupItems (db.state.lastSequence + 1) requests).map
          (fun item => (item.startSequence, item.batch)) =
        numbered 1 (batches ++ requests.map DB.Request.batch) := by
      rw [numbered_groupItems, numbered_append, h.lastSequence, Nat.add_comm 1]
    change db.disk.applyAll (db.groupOps _) = _
    have hidem : Function.update db.disk.wals 1
          (some (numbered 1 (batches ++ requests.map DB.Request.batch))) =
        Function.update created.disk.wals 1
          (some (numbered 1 (batches ++ requests.map DB.Request.batch))) := by
      rw [h.disk]
      exact Function.update_idem (a := (1 : Nat)) _ _ created.disk.wals
    rw [DB.groupOps_logged (h.options ▸ hwal) hlog, Disk.applyAll_appendWal h.log, hnumbered,
      h.wal]
    change ({ db.disk with wals := Function.update db.disk.wals 1 _ } : Disk) = _
    rw [hidem, h.disk]
  · rw [hadds.lastSequence, h.lastSequence, List.flatMap_append, List.length_append,
      List.flatMap_map]
    rfl

theorem unflushed_created (env : Env) (options : Options) (path : String) :
    Unflushed (DB.created env options path) [] (DB.created env options path) := by
  refine ⟨(DB.ok_created env options path).sound.live, rfl, rfl, ?_, rfl⟩
  have hself : Function.update (DB.created env options path).disk.wals 1 (some (numbered 1 [])) =
      (DB.created env options path).disk.wals := by
    rw [DB.wals_created, Function.update_idem]
    rfl
  rw [hself]

theorem Unflushed.emptied {env : Env} {options : Options} {path : String}
    {batches : List WriteBatch} {db : DB}
    (h : Unflushed (DB.created env options path) batches db) :
    { db.disk with wals := fun n => (db.disk.wals n).map (fun _ => []) } =
      (DB.created env options path).disk := by
  have hwals : (fun n => (db.disk.wals n).map (fun _ => ([] : List (Nat × WriteBatch)))) =
      (DB.created env options path).disk.wals := by
    funext n
    rw [h.disk, DB.wals_created]
    by_cases hn : n = 1
    · subst hn
      simp
    · simp [hn]
  rw [hwals, h.disk]

namespace DBState

theorem applyRecords_append (state : DBState) (sequence : Nat) (l r : List BatchRecord) :
    state.applyRecords sequence (l ++ r) =
      (state.applyRecords sequence l).applyRecords (sequence + l.length) r := by
  induction l generalizing state sequence with
  | nil => rfl
  | cons record l ih =>
    rw [List.cons_append, applyRecords, ih, applyRecords, List.length_cons, Nat.add_assoc,
      Nat.add_comm 1]

theorem recoverWal_numbered (state : DBState) (next : Nat) (batches : List WriteBatch) :
    state.recoverWal (numbered next batches) =
      state.applyRecords next (batches.flatMap WriteBatch.records) := by
  induction batches generalizing state next with
  | nil => rfl
  | cons batch batches ih =>
    rw [List.flatMap_cons, applyRecords_append]
    exact ih (state.applyBatch next batch) _

end DBState

/-- Whatever was written to a new database without a flush, and wherever its log is cut off,
opening it applies the batches that are complete in what is left, and nothing else. -/
theorem prefix_recovered_unflushed (crc32c : Bytes → UInt32) {env : Env} {options : Options}
    {path : String} {db₀ : DB} (hopen : DB.open env (Disk.empty path) options = .ok db₀)
    (hwal : options.walEnabled = true) (herr : options.errorIfExists = false)
    (steps : List Section) (hlogs : ∀ step ∈ steps, step.LogsAll)
    (hfits : ∀ record ∈ numbered 1 (runUnflushed steps db₀).1, Fits record)
    (cut : Nat) (chunks : Nat → Nat) :
    (runUnflushed steps db₀).2.disk.wals (runUnflushed steps db₀).2.wal =
        some (numbered 1 (runUnflushed steps db₀).1) ∧
      ∃ k ≤ (runUnflushed steps db₀).1.length, ∃ r,
        DB.openLog crc32c env (runUnflushed steps db₀).2.disk options
          ⟨(logBytes crc32c (numbered 1 (runUnflushed steps db₀).1)).take cut, chunks⟩ = .ok r ∧
        r.state = db₀.state.applyRecords 1
          (((runUnflushed steps db₀).1.take k).flatMap WriteBatch.records) ∧
        r.state.memEntries.Perm
          (entriesFrom 1 (((runUnflushed steps db₀).1.take k).flatMap WriteBatch.records)) ∧
        r.state.lastSequence =
          (((runUnflushed steps db₀).1.take k).flatMap WriteBatch.records).length ∧
        (logBytes crc32c (numbered 1 ((runUnflushed steps db₀).1.take k))).length ≤ cut ∧
        ∀ j ≤ (runUnflushed steps db₀).1.length, k < j →
          cut < (logBytes crc32c (numbered 1 ((runUnflushed steps db₀).1.take j))).length := by
  obtain rfl := DB.eq_created hopen
  have hrun : Unflushed (DB.created env options path)
      (runUnflushed steps (DB.created env options path)).1
      (runUnflushed steps (DB.created env options path)).2 :=
    follow_invariant (C := fun step _ => step.LogsAll) (Unflushed.step hwal)
      (unflushed_created env options path)
      (along_of_forall (fun step hstep _ => hlogs step hstep) _)
  generalize (runUnflushed steps (DB.created env options path)).1 = batches at hfits hrun ⊢
  generalize (runUnflushed steps (DB.created env options path)).2 = db at hrun ⊢
  refine ⟨hrun.log, ?_⟩
  -- opened on an empty log, the directory gives back the state it was created with
  have hfresh := (DB.durable_created env options path).toRecorded.reopen
    (DB.ok_created env options path).sound.toTabled herr
  have hstate : (DB.created env options path).recovered = (DB.created env options path).state :=
    (DB.durable_created env options path).state_eq.symm
  obtain ⟨k, hk, hread, hfit, hmax⟩ := @recoverWalFile_take crc32c _ hfits
    (DB.created env options path).state cut chunks
  rw [length_numbered] at hk hmax
  rw [numbered_take, DBState.recoverWal_numbered] at hread
  simp only [numbered_take] at hfit hmax
  have hopened : DB.openLog crc32c env db.disk options
      ⟨(logBytes crc32c (numbered 1 batches)).take cut, chunks⟩ = .ok
        { DB.created env options path with
          journal := [.createDir, .openWal (DB.created env options path).wal]
          state := (DB.created env options path).state.applyRecords 1
            ((batches.take k).flatMap WriteBatch.records)
          watermark := .new } := by
    have hfresh' : DB.open env (DB.created env options path).disk options = _ := hfresh
    rw [DB.openLog, hrun.emptied, hfresh']
    change (recoverWalFile crc32c (DB.created env options path).recovered _ >>= _) = _
    rw [hstate, hread]
    rfl
  refine ⟨k, hk, _, hopened, rfl, ?_, ?_, hfit, hmax⟩
  · have hperm := @DB.memEntries_applyRecords_perm (DB.created env options path).state 1
      ((batches.take k).flatMap WriteBatch.records)
      (by rw [DB.memEntries_created]; simp)
    rwa [DB.memEntries_created, List.append_nil] at hperm
  · exact (DBState.lastSequence_applyRecords (DB.created env options path).state 1 _ rfl).trans
      (Nat.zero_add _)

theorem runUnflushed_two :
    (runUnflushed [.group [⟨⟨[.put [97] [1]]⟩, {}⟩], .commit 1 ⟨[.put [98] [2], .delete [97]]⟩ [] []]
      (DB.created .inOrder {} "db")).1 = [⟨[.put [97] [1]]⟩, ⟨[.put [98] [2], .delete [97]]⟩] := by
  decide +kernel

theorem prefix_recovered_unflushed_small :
    ∃ k ≤ 2, ∃ r, DB.openLog castagnoli .inOrder
      (runUnflushed [.group [⟨⟨[.put [97] [1]]⟩, {}⟩],
        .commit 1 ⟨[.put [98] [2], .delete [97]]⟩ [] []] (DB.created .inOrder {} "db")).2.disk {}
      ⟨(logBytes castagnoli (numbered 1 [⟨[.put [97] [1]]⟩,
        ⟨[.put [98] [2], .delete [97]]⟩])).take 30, fun _ => 0⟩ = .ok r ∧
      r.state.lastSequence = (([⟨[.put [97] [1]]⟩, ⟨[.put [98] [2], .delete [97]]⟩] :
        List WriteBatch).take k |>.flatMap WriteBatch.records).length := by
  have h := @prefix_recovered_unflushed castagnoli .inOrder {} "db" (DB.created .inOrder {} "db")
    rfl rfl rfl [.group [⟨⟨[.put [97] [1]]⟩, {}⟩],
      .commit 1 ⟨[.put [98] [2], .delete [97]]⟩ [] []]
    (by simp [Section.LogsAll]) (by
      rw [runUnflushed_two]
      intro record hrecord
      simp only [numbered, List.mem_cons, List.not_mem_nil, or_false] at hrecord
      obtain rfl | rfl := hrecord
      · exact ⟨⟨by decide, by simp [BatchRecord.Encodable]⟩, by decide, by decide⟩
      · exact ⟨⟨by decide, by simp [BatchRecord.Encodable]⟩, by decide, by decide⟩) 30 fun _ => 0
  rw [runUnflushed_two] at h
  obtain ⟨-, k, hk, r, hopen, -, -, hlast, -⟩ := h
  exact ⟨k, hk, r, hopen, hlast⟩

end TyLsm
