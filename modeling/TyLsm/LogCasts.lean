import TyLsm.Closed
import TyLsm.FileNumbers
import TyLsm.Varints
import TyLsm.WalPrefix

/-! The narrowing casts on the way to the log. Nothing before them checks a size, so a batch is
safe exactly if its payload, counted without any cast, is shorter than `2 ^ 32` bytes. -/

namespace TyLsm

/-! Sizes. -/

/-- How many bytes a variable-length integer takes. -/
def varSize (value : Nat) : Nat := Nat.log 0x80 value + 1

def BatchRecord.size : BatchRecord → Nat
  | put key value =>
    1 + varSize key.length + key.length + varSize value.length + value.length
  | delete key => 1 + varSize key.length + key.length + varSize 0

/-- The length of a batch in the log, from the lengths of its keys and values. -/
def WriteBatch.payloadSize (batch : WriteBatch) (startSequence : Nat) : Nat :=
  varSize batch.records.length + varSize startSequence + (batch.records.map BatchRecord.size).sum

theorem length_putVarLoop {n value : Nat} (h : value < 0x80 ^ (n + 1)) :
    (putVarLoop n value).length = varSize value := by
  induction n generalizing value with
  | zero =>
    have hsmall : value < 0x80 := by simpa using h
    simp [putVarLoop, varSize, Nat.log_of_lt hsmall]
  | succ n ih =>
    rw [putVarLoop]
    by_cases hsmall : value < 0x80
    · rw [if_pos hsmall]
      simp [varSize, Nat.log_of_lt hsmall]
    · have hdiv : value / 0x80 < 0x80 ^ (n + 1) := by
        rw [Nat.div_lt_iff_lt_mul (by norm_num)]
        exact h
      have hlog := Nat.log_of_one_lt_of_le (b := 0x80) (by norm_num) (Nat.not_lt.mp hsmall)
      rw [if_neg hsmall, List.length_cons, ih hdiv, varSize, varSize, hlog]

theorem length_putVarU64 {value : Nat} (h : value < 2 ^ 64) :
    (putVarU64 value).length = varSize value :=
  length_putVarLoop (h.trans (by norm_num))

theorem length_putVarU32_asU32 {value : Nat} (h : value < 2 ^ 32) :
    (putVarU32 (asU32 value)).length = varSize value := by
  rw [asU32, Nat.mod_eq_of_lt h]
  exact length_putVarU64 (h.trans (by norm_num))

theorem BatchRecord.length_encode {record : BatchRecord} (h : record.Encodable) :
    record.encode.length = record.size := by
  cases record with
  | put key value =>
    simp only [encode, size, List.length_append, List.length_singleton,
      length_putVarU32_asU32 h.1, length_putVarU32_asU32 h.2]
  | delete key =>
    have hzero : (putVarU32 0).length = varSize 0 := length_putVarU64 (by norm_num)
    simp only [encode, size, List.length_append, List.length_singleton,
      length_putVarU32_asU32 h, hzero]

theorem WriteBatch.length_encode {batch : WriteBatch} (h : batch.Encodable) {startSequence : Nat}
    (hseq : startSequence < 2 ^ 64) :
    (batch.encodeWithSequence startSequence).length = batch.payloadSize startSequence := by
  have hrecords : batch.records.map (fun record => record.encode.length) =
      batch.records.map BatchRecord.size :=
    List.map_congr_left fun record hr => record.length_encode (h.records record hr)
  rw [encodeWithSequence, payloadSize, List.length_append, List.length_append,
    length_putVarU32_asU32 h.count, length_putVarU64 hseq, List.length_flatMap, hrecords]

/-- However the records of a batch are measured, a small sum leaves every field small. -/
theorem WriteBatch.encodable_of_sum {batch : WriteBatch} (size : BatchRecord → Nat)
    (hpos : ∀ record, 1 ≤ size record) (hsize : ∀ record, size record < 2 ^ 32 → record.Encodable)
    (hsum : (batch.records.map size).sum < 2 ^ 32) : batch.Encodable := by
  constructor
  · have hcount := List.length_le_sum_of_one_le (batch.records.map size) (by simp [hpos])
    rw [List.length_map] at hcount
    omega
  · intro record hr
    apply hsize
    have hle := List.single_le_sum (l := batch.records.map size) (fun x _ => Nat.zero_le x)
      (size record) (List.mem_map_of_mem hr)
    omega

theorem WriteBatch.encodable_of_payloadSize {batch : WriteBatch} {startSequence : Nat}
    (h : batch.payloadSize startSequence < 2 ^ 32) : batch.Encodable := by
  apply encodable_of_sum BatchRecord.size
  · intro record
    cases record with
    | put key value =>
      simp only [BatchRecord.size]
      omega
    | delete key =>
      simp only [BatchRecord.size]
      omega
  · intro record hr
    cases record with
    | put key value =>
      simp only [BatchRecord.size] at hr
      exact ⟨by omega, by omega⟩
    | delete key =>
      simp only [BatchRecord.size] at hr
      show key.length < 2 ^ 32
      omega
  · rw [payloadSize] at h
    omega

theorem WriteBatch.encodable_of_length {batch : WriteBatch} {startSequence : Nat}
    (h : (batch.encodeWithSequence startSequence).length < 2 ^ 32) : batch.Encodable := by
  apply encodable_of_sum fun record => record.encode.length
  · intro record
    cases record with
    | put key value =>
      simp only [BatchRecord.encode, List.length_append, List.length_singleton]
      omega
    | delete key =>
      simp only [BatchRecord.encode, List.length_append, List.length_singleton]
      omega
  · intro record hr
    cases record with
    | put key value =>
      simp only [BatchRecord.encode, List.length_append] at hr
      exact ⟨by omega, by omega⟩
    | delete key =>
      simp only [BatchRecord.encode, List.length_append] at hr
      show key.length < 2 ^ 32
      omega
  · rw [encodeWithSequence, List.length_append, List.length_flatMap] at h
    omega

theorem getVarU64_lt {src rest : Bytes} {value : Nat} (h : getVarU64 src = .ok (value, rest)) :
    value < 2 ^ 64 := by
  obtain ⟨used, rfl, hu, hlen⟩ := getVarLoop_consumed h
  rw [getVarU64_varint hu, if_pos hlen] at h
  obtain ⟨rfl, -⟩ := Prod.mk.inj (Except.ok.inj h)
  exact Nat.mod_lt _ (by norm_num)

theorem WriteBatch.decodePayload_lt {payload : Bytes} {startSequence : Nat} {batch : WriteBatch}
    (h : decodePayload payload = .ok (startSequence, batch)) : startSequence < 2 ^ 64 := by
  unfold decodePayload at h
  cases hcount : getVarU32 payload with
  | error err =>
    rw [hcount] at h
    cases h
  | ok count =>
    cases hseq : getVarU64 count.2 with
    | error err =>
      simp only [hcount, hseq, bind, Except.bind] at h
      cases h
    | ok sequence =>
      cases hrecords : decodeBatchRecords count.1 sequence.2 with
      | error err =>
        simp only [hcount, hseq, hrecords, bind, Except.bind] at h
        cases h
      | ok records =>
        simp only [hcount, hseq, hrecords, bind, Except.bind] at h
        split at h
        · cases h
        · cases h
          exact getVarU64_lt hseq

/-! One record of the log. -/

section

variable (crc32c : Bytes → UInt32)

def logPayload (record : Nat × WriteBatch) : Bytes := record.2.encodeWithSequence record.1

/-- A record of the log that no cast has damaged: its length field is right, it decodes to what
was written, and it and the records after it are read back. -/
structure Undamaged (record : Nat × WriteBatch) : Prop where
  lengthField : u32FromLeBytes (((walRecord crc32c (logPayload record)).drop 4).take 4) =
    (logPayload record).length
  decodes : WriteBatch.decodePayload (logPayload record) = .ok record
  recovered : ∀ before after, (∀ payload ∈ before ++ after, Loggable payload) → ∀ chunks,
    readPayloads crc32c ⟨walFile crc32c [] (before ++ logPayload record :: after), chunks⟩ =
      .ok (before ++ logPayload record :: after)

/-- The payload is shorter than `2 ^ 32` bytes. A sequence number has 64 bits. -/
def SizeFits (record : Nat × WriteBatch) : Prop :=
  record.1 < 2 ^ 64 ∧ record.2.payloadSize record.1 < 2 ^ 32

variable {crc32c}

theorem SizeFits.fits {record : Nat × WriteBatch} (h : SizeFits record) : Fits record := by
  have hbatch := WriteBatch.encodable_of_payloadSize h.2
  exact ⟨hbatch, h.1, by rw [WriteBatch.length_encode hbatch h.1]; exact h.2⟩

theorem Fits.loggable {record : Nat × WriteBatch} (h : Fits record) :
    Loggable (logPayload record) :=
  ⟨record.2.encodeWithSequence_ne_nil record.1, h.payload⟩

theorem walRecord_lengthField (payload : Bytes) :
    u32FromLeBytes (((walRecord crc32c payload).drop 4).take 4) = asU32 payload.length := by
  rw [walRecord, (header_fields _ _ _ _).2.1]
  exact u32FromLeBytes_u32ToLeBytes (Nat.mod_lt _ (by norm_num))

theorem undamaged_iff (record : Nat × WriteBatch) : Undamaged crc32c record ↔ SizeFits record := by
  constructor
  · intro h
    have hlen : (logPayload record).length < 2 ^ 32 := by
      rw [← h.lengthField, walRecord_lengthField]
      exact Nat.mod_lt _ (by norm_num)
    have hseq := WriteBatch.decodePayload_lt h.decodes
    have hbatch := WriteBatch.encodable_of_length hlen
    rw [logPayload, WriteBatch.length_encode hbatch hseq] at hlen
    exact ⟨hseq, hlen⟩
  · intro h
    have hfits := h.fits
    constructor
    · exact (walRecord_lengthField _).trans (Nat.mod_eq_of_lt hfits.payload)
    · exact WriteBatch.decodePayload_encode hfits.batch hfits.sequence
    · intro before after hall chunks
      rw [readPayloads_eq, walFile_eq, List.nil_append]
      apply Framing.read_frames
      intro payload hmem
      rw [List.mem_append, List.mem_cons] at hmem
      obtain hmem | rfl | hmem := hmem
      · exact hall payload (by simp [hmem])
      · exact hfits.loggable
      · exact hall payload (by simp [hmem])

theorem recoverWalFile_logBytes {log : List (Nat × WriteBatch)}
    (h : ∀ record ∈ log, SizeFits record) (state : DBState) (chunks : Nat → Nat) :
    recoverWalFile crc32c state ⟨logBytes crc32c log, chunks⟩ = .ok (state.recoverWal log) := by
  obtain ⟨k, hk, hread, -, hmax⟩ := recoverWalFile_take (fun record hr => (h record hr).fits) state
    (logBytes crc32c log).length chunks
  have hall : log.take k = log := by
    apply List.take_of_length_le
    by_contra hlt
    have hbeyond := hmax log.length le_rfl (Nat.not_le.mp hlt)
    rw [List.take_length] at hbeyond
    exact lt_irrefl _ hbeyond
  rwa [List.take_length, hall] at hread

end

/-! Runs. -/

/-- The items of a group that go to the log. -/
def DB.loggedItems (db : DB) (requests : List DB.Request) : List (Nat × WriteBatch) :=
  if db.options.walEnabled then
    ((DB.groupItems (db.state.lastSequence + 1) requests).filter
      (fun item => !item.opts.disableWal)).map (fun item => (item.startSequence, item.batch))
  else []

/-- The batches that a write or a commit applies with their start sequences, those that skip the
log included. -/
def Section.applied (step : Section) (db : DB) : List (Nat × WriteBatch) :=
  match step.run db with
  | .error _ _ => []
  | .ok _ _ =>
    match step with
    | group requests => (DB.groupItems (db.state.lastSequence + 1) requests).map
        (fun item => (item.startSequence, item.batch))
    | commit _ batch _ _ => if batch.isEmpty then [] else [(db.state.lastSequence + 1, batch)]
    | flush => []

def Piece.applied (piece : Piece) (db : DB) : List (Nat × WriteBatch) :=
  match piece with
  | locked step => step.applied db
  | _ => []

/-- The batches applied along a run, and the database it ends in. -/
def runApplied (pieces : List Piece) (db : DB) : List (Nat × WriteBatch) × DB :=
  follow Piece.run (fun piece db records => records ++ piece.applied db) pieces [] db

theorem DB.loggedItems_subset (db : DB) (requests : List DB.Request) :
    db.loggedItems requests ⊆ (DB.groupItems (db.state.lastSequence + 1) requests).map
      (fun item => (item.startSequence, item.batch)) := by
  rw [loggedItems]
  split
  · exact List.map_subset _ (List.filter_subset_self _)
  · exact List.nil_subset _

theorem DB.wals_written {db : DB} {log : List (Nat × WriteBatch)}
    (hlog : db.disk.wals db.wal = some log) (requests : List DB.Request) :
    (db.written requests).disk.wals =
      Function.update db.disk.wals db.wal (some (log ++ db.loggedItems requests)) := by
  show (db.disk.applyAll (db.groupOps _)).wals = _
  by_cases hwal : db.options.walEnabled = true
  · rw [groupOps, if_pos hwal, loggedItems, if_pos hwal, Disk.applyAll_appendWal hlog]
  · rw [groupOps, if_neg hwal, loggedItems, if_neg hwal, List.append_nil, Disk.applyAll_nil,
      ← hlog, Function.update_eq_self]

/-- What a write or a commit leaves is its group written, and it applies what the group logs. -/
theorem Section.after_applied {db : DB} (h : db.Sound) {step : Section} (hflush : step ≠ .flush) :
    ∃ requests, after Section.run db step = db.written requests ∧
      db.loggedItems requests ⊆ step.applied db := by
  have hnone : after Section.run db step = db →
      ∃ requests, after Section.run db step = db.written requests ∧
        db.loggedItems requests ⊆ step.applied db := by
    intro hafter
    have hnil : db.loggedItems [] = [] := by
      rw [DB.loggedItems]
      split <;> rfl
    exact ⟨[], by rw [hafter, DB.written_nil], by rw [hnil]; exact List.nil_subset _⟩
  cases step with
  | group requests =>
    have hrun := run_group h.isOpen requests
    refine ⟨requests, after_ok hrun, ?_⟩
    simp only [applied, hrun]
    exact db.loggedItems_subset requests
  | commit readSeq batch readKeys readRanges =>
    rcases run_commit h.isOpen readSeq batch readKeys readRanges with
      ⟨err, hrun⟩ | ⟨hempty, hrun⟩ | ⟨hne, hrun⟩
    · exact hnone (after_error hrun)
    · exact hnone (after_ok hrun)
    · have hcons : batch.isEmpty = false := by simpa [WriteBatch.isEmpty] using hne
      refine ⟨[⟨batch, {}⟩], after_ok hrun, ?_⟩
      simp only [applied, hrun, hcons, Bool.false_eq_true, if_false]
      exact db.loggedItems_subset [⟨batch, {}⟩]
  | flush => exact absurd rfl hflush

/-- Every record in a log is a batch that a step of the run applied. -/
structure LogsHold (env : Env) (options : Options) (records : List (Nat × WriteBatch)) (db : DB) :
    Prop where
  restorable : DB.RestorableIn env options db
  logs : ∀ n log, db.disk.wals n = some log → ∀ record ∈ log, record ∈ records

variable {env : Env} {options : Options} {records : List (Nat × WriteBatch)} {db : DB}

theorem LogsHold.same (h : LogsHold env options records db) {db' : DB}
    (hr : DB.RestorableIn env options db')
    (hlogs : ∀ n log, db'.disk.wals n = some log → log = [] ∨ db.disk.wals n = some log) :
    LogsHold env options (records ++ []) db' := by
  refine ⟨hr, ?_⟩
  intro n log hlog record hmem
  rw [List.append_nil]
  obtain rfl | hold := hlogs n log hlog
  · cases hmem
  · exact h.logs n log hold record hmem

theorem LogsHold.written (h : LogsHold env options records db) {requests : List DB.Request}
    {applied : List (Nat × WriteBatch)} (happlied : db.loggedItems requests ⊆ applied)
    (hr : DB.RestorableIn env options (db.written requests)) :
    LogsHold env options (records ++ applied) (db.written requests) := by
  obtain ⟨old, hold⟩ := h.restorable.recorded.log
  refine ⟨hr, ?_⟩
  intro n log hlog record hmem
  rw [DB.wals_written hold] at hlog
  by_cases hn : n = db.wal
  · subst hn
    rw [Function.update_self] at hlog
    cases hlog
    rcases List.mem_append.mp hmem with hmem | hmem
    · exact List.mem_append_left _ (h.logs _ old hold record hmem)
    · exact List.mem_append_right _ (happlied hmem)
  · rw [Function.update_of_ne hn] at hlog
    exact List.mem_append_left _ (h.logs n log hlog record hmem)

theorem LogsHold.locked (h : LogsHold env options records db) (step : Section) :
    LogsHold env options (records ++ step.applied db) (after Section.run db step) := by
  have hr := h.restorable.locked step
  by_cases hflush : step = .flush
  · subst hflush
    have hnil : Section.flush.applied db = [] := by
      unfold Section.applied
      split <;> rfl
    rw [hnil]
    rcases Section.after_flush h.restorable.sound.live with
      hafter | ⟨memtable, source, state, ref, -, -, -, -, -, hafter⟩
    · exact h.same hr fun n log hlog => .inr (by rwa [hafter] at hlog)
    · apply h.same hr
      intro n log hlog
      rw [hafter] at hlog
      have hfresh := h.restorable.sound.freshWals (db.versions.nextFileNumber + 1) (Nat.le_succ _)
      have hwals : (db.flushed state ref).disk.wals =
          Function.update db.disk.wals (db.versions.nextFileNumber + 1) (some []) := by
        show Function.update db.disk.wals _ (some ((db.disk.wals _).getD [])) = _
        rw [hfresh]
        rfl
      rw [hwals] at hlog
      by_cases hn : n = db.versions.nextFileNumber + 1
      · subst hn
        rw [Function.update_self] at hlog
        cases hlog
        exact .inl rfl
      · rw [Function.update_of_ne hn] at hlog
        exact .inr hlog
  · obtain ⟨requests, hafter, happlied⟩ := Section.after_applied h.restorable.sound hflush
    rw [hafter] at hr ⊢
    exact h.written happlied hr

theorem LogsHold.piece (piece : Piece) (records : List (Nat × WriteBatch)) (db : DB)
    (h : LogsHold env options records db) :
    LogsHold env options (records ++ piece.applied db) (after Piece.run db piece) := by
  have hr := h.restorable.piece piece
  cases piece with
  | locked step => exact h.locked step
  | compactRange lower upper =>
    obtain ⟨db', hrun, -, hc, -⟩ :=
      h.restorable.sound.compactRange h.restorable.recorded lower upper
    have hrun' : (Piece.compactRange lower upper).run db = .ok () db' := hrun
    rw [after_ok hrun'] at hr ⊢
    exact h.same hr fun n log hlog => .inr (by rwa [hc.wals] at hlog)
  | snapshot => exact h.same hr fun n log hlog => .inr hlog
  | cloneSnapshot readSeq => exact h.same hr fun n log hlog => .inr hlog
  | dropSnapshot readSeq => exact h.same hr fun n log hlog => .inr hlog
  | reopen =>
    have hdisk : (after Piece.run db .reopen).disk = db.disk := by
      rcases h.restorable.after_reopen with hafter | hafter <;> rw [hafter]
    exact h.same hr fun n log hlog => .inr (by rwa [hdisk] at hlog)

theorem logsHold_runApplied (env : Env) (options : Options) (path : String)
    (pieces : List Piece) :
    LogsHold env options (runApplied pieces (DB.created env options path)).1
      (runApplied pieces (DB.created env options path)).2 := by
  apply follow_invariant (C := fun _ _ => True) (fun piece records db h _ => h.piece piece)
  · refine ⟨DB.restorableIn_created env options path, ?_⟩
    intro n log hlog record hmem
    rw [DB.wals_created] at hlog
    by_cases hn : n = 1
    · subst hn
      rw [Function.update_self] at hlog
      cases hlog
      cases hmem
    · rw [Function.update_of_ne hn] at hlog
      cases hlog
  · exact along_of_forall (fun _ _ _ => trivial) _

/-- A write that neither compacts first nor freezes a memtable is its group and nothing else. -/
theorem DB.run_write_idle {db : DB} (hopen : db.state.closed = false) (hidle : db.PressureIdle)
    {batch : WriteBatch} (hne : batch.isEmpty = false) {opts : WriteOptions}
    (hfreezes : db.freezes [⟨batch, opts⟩] = false) :
    DB.write (.ok ()) batch opts db = .ok () (db.written [⟨batch, opts⟩]) := by
  rw [DB.write, hne, if_neg (by simp), applyWriteGroup]
  apply run_tryCatch_ok
  rw [run_bind_ok hidle.run,
    run_bind_ok (run_applyWriteGroupToMemtable hopen _ _ (.inl rfl)), hfreezes]
  rfl

/-- A group of any size goes to the log, where a record is undamaged exactly if its size fits, and
a write that starts neither a compaction nor a flush is acknowledged whatever its size. In every
run that applies batches of fitting sizes only, all records of every log are undamaged and the
log is replayed as it was written. -/
theorem log_casts (crc32c : Bytes → UInt32) :
    (∀ (db : DB) (old : List (Nat × WriteBatch)) (requests : List DB.Request),
      db.state.closed = false → db.disk.wals db.wal = some old →
      ∃ db', (Section.group requests).run db = .ok () db' ∧
        db'.disk.wals db.wal = some (old ++ db.loggedItems requests) ∧
        ∀ record ∈ db.loggedItems requests, (Undamaged crc32c record ↔ SizeFits record)) ∧
    (∀ (db : DB) (batch : WriteBatch) (opts : WriteOptions), db.state.closed = false →
      db.PressureIdle → db.freezes [⟨batch, opts⟩] = false →
      ∃ db', DB.write (.ok ()) batch opts db = .ok () db') ∧
    ∀ (env : Env) (options : Options) (path : String) (db₀ : DB) (pieces : List Piece),
      DB.open env (Disk.empty path) options = .ok db₀ →
      let r := runApplied pieces db₀
      (∀ record ∈ r.1, SizeFits record) → ∀ n log, r.2.disk.wals n = some log →
        (∀ record ∈ log, Undamaged crc32c record) ∧
        ∀ state chunks, recoverWalFile crc32c state ⟨logBytes crc32c log, chunks⟩ =
          .ok (state.recoverWal log) := by
  refine ⟨?_, ?_, ?_⟩
  · intro db old requests hopen hold
    refine ⟨_, Section.run_group hopen requests, ?_, fun record _ => undamaged_iff record⟩
    rw [DB.wals_written hold, Function.update_self]
  · intro db batch opts hopen hidle hfreezes
    cases hempty : batch.isEmpty with
    | true => exact ⟨db, by rw [DB.write, hempty]; rfl⟩
    | false => exact ⟨_, DB.run_write_idle hopen hidle hempty hfreezes⟩
  · intro env options path db₀ pieces hopen r hsizes n log hlog
    obtain rfl := DB.eq_created hopen
    have h : LogsHold env options r.1 r.2 := logsHold_runApplied env options path pieces
    have hfits : ∀ record ∈ log, SizeFits record := fun record hr =>
      hsizes record (h.logs n log hlog record hr)
    exact ⟨fun record hr => (undamaged_iff record).mpr (hfits record hr), fun state chunks =>
      recoverWalFile_logBytes hfits state chunks⟩

/-- Two groups, a flush between them, and the log of the second one. -/
theorem log_casts_small :
    let r := runApplied [.locked (.group [⟨⟨[.put [97] [1]]⟩, {}⟩]), .locked .flush,
      .locked (.group [⟨⟨[.delete [97], .put [98] []]⟩, {}⟩])] (DB.created .inOrder {} "db")
    r.2.disk.wals r.2.wal = some [(2, ⟨[.delete [97], .put [98] []]⟩)] ∧
      Undamaged castagnoli (2, ⟨[.delete [97], .put [98] []]⟩) ∧
      ∀ state chunks, recoverWalFile castagnoli state
          ⟨logBytes castagnoli [(2, ⟨[.delete [97], .put [98] []]⟩)], chunks⟩ =
        .ok (state.recoverWal [(2, ⟨[.delete [97], .put [98] []]⟩)]) := by
  intro r
  have hlog : r.2.disk.wals r.2.wal = some [(2, ⟨[.delete [97], .put [98] []]⟩)] := by
    decide +kernel
  have hsizes : ∀ record ∈ r.1, SizeFits record := by
    unfold SizeFits
    decide +kernel
  obtain ⟨hundamaged, hreplay⟩ := (log_casts castagnoli).2.2 .inOrder {} "db"
    (DB.created .inOrder {} "db") _ (DB.open_empty .inOrder {} "db") hsizes r.2.wal _ hlog
  exact ⟨hlog, hundamaged _ List.mem_cons_self, hreplay⟩

/-- Where memtables may grow without bound, a value of `2 ^ 32` bytes is acknowledged, and its
record is damaged. -/
theorem oversized_acknowledged :
    let options : Options := { memtableSize := 2 ^ 64 - 1 }
    let batch : WriteBatch := ⟨[.put [] (List.replicate (2 ^ 32) 0)]⟩
    (∃ db', DB.write (.ok ()) batch {} (DB.created .inOrder options "db") = .ok () db' ∧
      db'.disk.wals db'.wal = some [(1, batch)]) ∧
      ¬ Undamaged castagnoli (1, batch) := by
  have hlong : ∀ value : Bytes, value.length = 2 ^ 32 →
      (∃ db', DB.write (.ok ()) ⟨[.put [] value]⟩ {}
          (DB.created .inOrder { memtableSize := 2 ^ 64 - 1 } "db") = .ok () db' ∧
        db'.disk.wals db'.wal = some [(1, ⟨[.put [] value]⟩)]) ∧
      ¬ Undamaged castagnoli (1, ⟨[.put [] value]⟩) := by
    intro value hvalue
    constructor
    · refine ⟨_, DB.run_write_idle rfl (.inl (by decide)) rfl ?_, ?_⟩
      · have hsmall : ((DB.created .inOrder { memtableSize := 2 ^ 64 - 1 } "db").state.applyBatch 1
            ⟨[.put [] value]⟩).mutable.approximateSize < 2 ^ 64 - 1 := by
          show 0 + (0 + value.length + 40) < 2 ^ 64 - 1
          omega
        simp only [DB.freezes, DB.groupItems, DB.applyItems, Bool.or_false]
        rw [DBState.freezeMutableIfNeeded, if_pos]
        exact (Bool.or_eq_true _ _).mpr (.inr (decide_eq_true hsmall))
      · have hempty : (DB.created .inOrder { memtableSize := 2 ^ 64 - 1 } "db").disk.wals 1 =
            some [] := rfl
        have hlogs := DB.wals_written hempty [⟨⟨[.put [] value]⟩, {}⟩]
        exact (congrFun hlogs 1).trans (Function.update_self _ _ _)
    · rw [undamaged_iff]
      intro hsize
      have hfits := hsize.2
      simp only [WriteBatch.payloadSize, List.map_cons, List.map_nil, List.sum_cons, List.sum_nil,
        BatchRecord.size] at hfits
      omega
  exact hlong _ List.length_replicate

end TyLsm
