import TyLsm.FileNumbers

/-! Batches and their sequence numbers. A group is applied as if its batches came one at a
time, and no read sequence lies inside a batch. -/

namespace TyLsm

namespace DB

variable {db : DB}

theorem groupItems_cons (sequence : Nat) (request : Request) (requests : List Request) :
    groupItems sequence (request :: requests) = groupItems sequence [request] ++
      groupItems (sequence + request.batch.records.length) requests := rfl

theorem applyItems_append (options : Options) (state : DBState) (l r : List GroupWriteItem) :
    (applyItems options state (l ++ r)).1 =
      (applyItems options (applyItems options state l).1 r).1 := by
  induction l generalizing state with
  | nil => rfl
  | cons item l ih => exact ih _

theorem groupOps_append (db : DB) (l r : List GroupWriteItem) :
    db.groupOps (l ++ r) = db.groupOps l ++ db.groupOps r := by
  unfold groupOps
  split <;> simp

theorem written_cons (db : DB) (request : Request) (requests : List Request) :
    db.written (request :: requests) = (db.written [request]).written requests := by
  have hlast : (db.written [request]).state.lastSequence + 1 =
      db.state.lastSequence + 1 + request.batch.records.length := by
    have hone : (db.written [request]).state.lastSequence =
        db.state.lastSequence + request.batch.records.length :=
      (DBState.lastSequence_freezeMutableIfNeeded _ _ _).trans
        (DBState.lastSequence_applyRecords _ _ _ rfl)
    rw [hone, Nat.add_right_comm]
  have hops : ∀ items, (db.written [request]).groupOps items = db.groupOps items := fun _ => rfl
  have hitems := groupItems_cons (db.state.lastSequence + 1) request requests
  rw [← hlast] at hitems
  have hstate : (applyItems db.options db.state
      (groupItems (db.state.lastSequence + 1) (request :: requests))).1 =
      ((db.written [request]).written requests).state := by
    rw [hitems, applyItems_append]
    rfl
  have hperformed : db.performed (db.groupOps
      (groupItems (db.state.lastSequence + 1) (request :: requests))) =
      { ((db.written [request]).written requests) with state := db.state } := by
    rw [hitems, groupOps_append, ← performed_performed]
    rfl
  rw [written, hperformed, hstate]

/-- A group leaves the same database as its batches in groups of one: the same sequence
numbers, the same memtables and the same log records. -/
theorem applyWriteGroupToMemtable_each (hopen : db.state.closed = false)
    (requests : List Request) :
    (discard (applyWriteGroupToMemtable (.ok ()) requests)) db =
      runAll (fun request => discard (applyWriteGroupToMemtable (.ok ()) [request])) requests
        db := by
  rw [run_discard_ok (run_applyWriteGroupToMemtable hopen requests (.ok ()) (.inl rfl))]
  induction requests generalizing db with
  | nil =>
    have hsame : db.written [] = db := by
      simp [written, groupItems, applyItems, groupOps, performed]
    rw [hsame]
    rfl
  | cons request requests ih =>
    have hone := run_discard_ok (run_applyWriteGroupToMemtable hopen [request] (.ok ()) (.inl rfl))
    have hopen' : (db.written [request]).state.closed = false := by
      refine Eq.trans ?_ hopen
      exact (freezeMutableIfNeeded_tables _ _ _).1.trans (applyRecords_tables _ _ _).1
    rw [written_cons]
    exact (ih hopen').trans (runAll_cons_ok (i := request) hone).symm

end DB

/-- The batches that a section applies, with the sequence numbers they start at. -/
def Section.batches (step : Section) (db : DB) : List (Nat × WriteBatch) :=
  match step.run db with
  | .error _ _ => []
  | .ok _ _ =>
    match step with
    | group requests => (DB.groupItems (db.state.lastSequence + 1) requests).map
        (fun item => (item.startSequence, item.batch))
    | commit _ batch _ _ => [(db.state.lastSequence + 1, batch)]
    | flush => []

/-- The batches of a run in the order in which they were applied, and the read sequences of
the snapshots that it took. A transaction begins with a snapshot. -/
structure BatchLog where
  batches : List (Nat × WriteBatch) := []
  readSeqs : List Nat := []

def Piece.note (piece : Piece) (db : DB) (log : BatchLog) : BatchLog :=
  match piece with
  | locked step => { log with batches := log.batches ++ step.batches db }
  | snapshot =>
    match DB.snapshot db with
    | .ok readSeq _ => { log with readSeqs := log.readSeqs ++ [readSeq] }
    | .error _ _ => log
  | _ => log

/-- The log after some pieces, and the database they end in. -/
def runLogged (pieces : List Piece) (db : DB) : BatchLog × DB :=
  follow Piece.run Piece.note pieces {} db

/-- Each batch starts right after the one before it. -/
def Consecutive : Nat → List (Nat × WriteBatch) → Nat → Prop
  | sequence, [], last => sequence = last
  | sequence, (start, batch) :: batches, last =>
    start = sequence + 1 ∧ Consecutive (sequence + batch.records.length) batches last

/-- The sequence number that follows those of the batch. -/
def batchEnd (b : Nat × WriteBatch) : Nat := b.1 + b.2.records.length

namespace Consecutive

variable {batches : List (Nat × WriteBatch)} {first last : Nat}

theorem append {more : List (Nat × WriteBatch)} {mid : Nat} (h : Consecutive first batches mid)
    (h' : Consecutive mid more last) : Consecutive first (batches ++ more) last := by
  induction batches generalizing first with
  | nil =>
    obtain rfl : first = mid := h
    exact h'
  | cons b batches ih => exact ⟨h.1, ih h.2⟩

theorem le (h : Consecutive first batches last) : first ≤ last := by
  induction batches generalizing first with
  | nil => exact Nat.le_of_eq h
  | cons b batches ih => exact (Nat.le_add_right _ _).trans (ih h.2)

theorem bounds (h : Consecutive first batches last) {b : Nat × WriteBatch} (hb : b ∈ batches) :
    first < b.1 ∧ batchEnd b ≤ last + 1 := by
  induction batches generalizing first with
  | nil => cases hb
  | cons c batches ih =>
    obtain ⟨hstart, hrest⟩ := h
    rcases List.mem_cons.mp hb with rfl | hb
    · have := hrest.le
      rw [batchEnd, hstart]
      omega
    · obtain ⟨hlt, hle⟩ := ih hrest hb
      exact ⟨by omega, hle⟩

theorem pairwise (h : Consecutive first batches last) :
    batches.Pairwise (fun b b' => batchEnd b ≤ b'.1) := by
  induction batches generalizing first with
  | nil => exact List.Pairwise.nil
  | cons b batches ih =>
    obtain ⟨hstart, hrest⟩ := h
    refine List.pairwise_cons.mpr ⟨fun b' hb' => ?_, ih hrest⟩
    have := (hrest.bounds hb').1
    rw [batchEnd, hstart]
    omega

theorem last_eq (h : Consecutive first batches last) :
    last = first ∨ ∃ b ∈ batches, last + 1 = batchEnd b := by
  induction batches generalizing first with
  | nil => exact .inl h.symm
  | cons b batches ih =>
    obtain ⟨hstart, hrest⟩ := h
    rcases ih hrest with rfl | ⟨b', hb', he⟩
    · exact .inr ⟨b, by simp, by rw [batchEnd, hstart]; omega⟩
    · exact .inr ⟨b', by simp [hb'], he⟩

theorem whole (h : Consecutive first batches last) {s : Nat}
    (hs : s = first ∨ ∃ b ∈ batches, s + 1 = batchEnd b) {b : Nat × WriteBatch}
    (hb : b ∈ batches) : batchEnd b ≤ s + 1 ∨ s < b.1 := by
  rcases hs with rfl | ⟨b', hb', hs⟩
  · exact .inr (h.bounds hb).1
  · by_cases he : b = b'
    · exact .inl (by rw [he, hs])
    · have hs' : Std.Symm (fun b b' : Nat × WriteBatch => batchEnd b ≤ b'.1 ∨ batchEnd b' ≤ b.1) :=
        ⟨fun _ _ hab => hab.symm⟩
      have hor := (h.pairwise.imp fun hab => Or.inl hab :
        batches.Pairwise (fun b b' => batchEnd b ≤ b'.1 ∨ batchEnd b' ≤ b.1)).forall hb hb' he
      have hle : b'.1 ≤ batchEnd b' := Nat.le_add_right _ _
      rcases hor with hor | hor <;> omega

end Consecutive

theorem consecutive_groupItems (sequence : Nat) (requests : List DB.Request) :
    Consecutive sequence ((DB.groupItems (sequence + 1) requests).map
      (fun item => (item.startSequence, item.batch)))
      (sequence + (DB.groupRecords requests).length) := by
  induction requests generalizing sequence with
  | nil => rfl
  | cons request requests ih =>
    refine ⟨rfl, ?_⟩
    have hrest := ih (sequence + request.batch.records.length)
    have hlength : sequence + (DB.groupRecords (request :: requests)).length =
        sequence + request.batch.records.length + (DB.groupRecords requests).length := by
      simp [DB.groupRecords, Nat.add_assoc]
    rw [hlength]
    rw [Nat.add_right_comm] at hrest
    exact hrest

theorem flatMap_groupItems (sequence : Nat) (requests : List DB.Request) :
    ((DB.groupItems sequence requests).map (fun item => (item.startSequence, item.batch))).flatMap
      (fun b => entriesFrom b.1 b.2.records) = entriesFrom sequence (DB.groupRecords requests) := by
  induction requests generalizing sequence with
  | nil => rfl
  | cons request requests ih =>
    have hrecords : DB.groupRecords (request :: requests) =
        request.batch.records ++ DB.groupRecords requests := rfl
    rw [hrecords, entriesFrom_append, ← ih]
    rfl

theorem Section.evolves {db : DB} (h : db.Sound) (hr : db.Recorded) (step : Section) :
    ∃ records, DB.Evolves db (after Section.run db step) records ∧
      Consecutive db.state.lastSequence (step.batches db)
        (db.state.lastSequence + records.length) ∧
      (step.batches db).flatMap (fun b => entriesFrom b.1 b.2.records) =
        entriesFrom (db.state.lastSequence + 1) records := by
  have hrefl := DB.Evolves.refl h hr
  cases step with
  | group requests =>
    have hrun := Section.run_group h.isOpen requests
    rw [after_ok hrun, Section.batches, hrun]
    exact ⟨_, h.evolves_written hr requests, consecutive_groupItems _ requests,
      flatMap_groupItems _ requests⟩
  | commit readSeq batch readKeys readRanges =>
    rcases Section.run_commit h.isOpen readSeq batch readKeys readRanges with
      ⟨err, hrun⟩ | ⟨hempty, hrun⟩ | ⟨_, hrun⟩
    · rw [after_error hrun, Section.batches, hrun]
      exact ⟨[], hrefl, rfl, rfl⟩
    · rw [after_ok hrun, Section.batches, hrun]
      exact ⟨[], hrefl, ⟨rfl, by rw [hempty]; rfl⟩, by simp [hempty, entriesFrom]⟩
    · rw [after_ok hrun, Section.batches, hrun]
      refine ⟨_, h.evolves_written hr [⟨batch, {}⟩], ?_, ?_⟩
      all_goals rw [DB.groupRecords_singleton]
      · exact ⟨rfl, rfl⟩
      · simp
  | flush =>
    obtain ⟨db', hrun, hev, _⟩ := h.flush hr
    have hrun' : Section.flush.run db = .ok () db' := hrun
    rw [after_ok hrun', Section.batches, hrun']
    exact ⟨[], hev, rfl, rfl⟩

/-- The read sequences that a read may use: those of the snapshots, and the last sequence. -/
def BatchLog.Reads (log : BatchLog) (db : DB) (s : Nat) : Prop :=
  s ∈ log.readSeqs ∨ s = db.state.lastSequence

/-- Batches are atomic. -/
structure BatchLog.Atomic (log : BatchLog) (db : DB) : Prop where
  consecutive : Consecutive 0 log.batches db.state.lastSequence
  ordered : log.batches.Pairwise (fun b b' => batchEnd b ≤ b'.1)
  entries : ∀ e ∈ db.allEntries, ∃ b ∈ log.batches, e ∈ entriesFrom b.1 b.2.records
  ends : ∀ s, log.Reads db s → s = 0 ∨ ∃ b ∈ log.batches, s + 1 = batchEnd b
  whole : ∀ s, log.Reads db s → ∀ b ∈ log.batches,
    (∀ e ∈ entriesFrom b.1 b.2.records, e.1.sequence ≤ s) ∨
    ∀ e ∈ entriesFrom b.1 b.2.records, s < e.1.sequence
  get : ∀ snapshot, log.Reads db (snapshot.getD db.state.lastSequence) → ∀ key value,
    db.getOpt key snapshot = .ok (some value) →
      ∃ b ∈ log.batches, .put key value ∈ b.2.records ∧
        batchEnd b ≤ snapshot.getD db.state.lastSequence + 1
  scan : ∀ snapshot, log.Reads db (snapshot.getD db.state.lastSequence) → ∀ lower upper rows,
    db.scanOpt lower upper snapshot = .ok rows → ∀ row ∈ rows,
      ∃ b ∈ log.batches, .put row.1 row.2 ∈ b.2.records ∧
        batchEnd b ≤ snapshot.getD db.state.lastSequence + 1

/-- The invariant of a run. -/
structure BatchLog.Follows (log : BatchLog) (db : DB) : Prop where
  sound : db.Sound
  recorded : db.Recorded
  consecutive : Consecutive 0 log.batches db.state.lastSequence
  entries : ∀ e ∈ db.allEntries, ∃ b ∈ log.batches, e ∈ entriesFrom b.1 b.2.records
  ends : ∀ s ∈ log.readSeqs, s = 0 ∨ ∃ b ∈ log.batches, s + 1 = batchEnd b

namespace BatchLog.Follows

variable {log : BatchLog} {db db' : DB}

theorem evolved (h : log.Follows db) {batches : List (Nat × WriteBatch)}
    {records : List BatchRecord} (hev : DB.Evolves db db' records)
    (hbatches : Consecutive db.state.lastSequence batches
      (db.state.lastSequence + records.length))
    (hrecords : batches.flatMap (fun b => entriesFrom b.1 b.2.records) =
      entriesFrom (db.state.lastSequence + 1) records) :
    Follows { log with batches := log.batches ++ batches } db' := by
  refine ⟨hev.sound, hev.recorded, ?_, fun e he => ?_, fun s hs => ?_⟩
  · rw [hev.lastSequence]
    exact h.consecutive.append hbatches
  · rcases hev.gained e he with he | he
    · rw [← hrecords] at he
      obtain ⟨b, hb, he⟩ := List.mem_flatMap.mp he
      exact ⟨b, List.mem_append_right _ hb, he⟩
    · obtain ⟨b, hb, he⟩ := h.entries e he
      exact ⟨b, List.mem_append_left _ hb, he⟩
  · rcases h.ends s hs with hz | ⟨b, hb, he⟩
    · exact .inl hz
    · exact .inr ⟨b, List.mem_append_left _ hb, he⟩

theorem same (h : log.Follows db) (hev : DB.Evolves db db' []) : log.Follows db' := by
  have hnext := h.evolved hev (show Consecutive _ [] _ from rfl) rfl
  rwa [List.append_nil] at hnext

theorem withWatermark (h : log.Follows db) (w : Watermark) :
    log.Follows { db with watermark := w } :=
  ⟨h.sound.withWatermark w, h.recorded.withWatermark w, h.consecutive, h.entries, h.ends⟩

theorem locked (h : log.Follows db) (step : Section) :
    Follows { log with batches := log.batches ++ step.batches db } (after Section.run db step) := by
  obtain ⟨records, hev, hbatches, hrecords⟩ := step.evolves h.sound h.recorded
  exact h.evolved hev hbatches hrecords

theorem step (piece : Piece) (log : BatchLog) (db : DB) (h : log.Follows db)
    (hpiece : piece ≠ .reopen) : (piece.note db log).Follows (after Piece.run db piece) := by
  cases piece with
  | locked step => exact h.locked step
  | compactRange lower upper =>
    obtain ⟨db', hrun, hev, _⟩ := h.sound.compactRange h.recorded lower upper
    have hrun' : (Piece.compactRange lower upper).run db = .ok () db' := hrun
    rw [after_ok hrun']
    exact h.same hev
  | snapshot =>
    have hnext := h.withWatermark (db.watermark.add db.state.lastSequence)
    refine ⟨hnext.sound, hnext.recorded, hnext.consecutive, hnext.entries, fun s hs => ?_⟩
    rcases List.mem_append.mp hs with hs | hs
    · exact h.ends s hs
    · rw [List.mem_singleton.mp hs]
      exact h.consecutive.last_eq
  | cloneSnapshot readSeq => exact h.withWatermark _
  | dropSnapshot readSeq => exact h.withWatermark _
  | reopen => exact absurd rfl hpiece

theorem reads (h : log.Follows db) {s : Nat} (hs : log.Reads db s) :
    s = 0 ∨ ∃ b ∈ log.batches, s + 1 = batchEnd b := by
  rcases hs with hs | rfl
  · exact h.ends s hs
  · exact h.consecutive.last_eq

theorem source (h : log.Follows db) {s : Nat} (hs : log.Reads db s) {key value : Bytes} {e : Entry}
    (he : e ∈ db.allEntries) (hkey : e.1.userKey = key) (hle : e.1.sequence ≤ s)
    (hput : e.2 = .put value) :
    ∃ b ∈ log.batches, .put key value ∈ b.2.records ∧ batchEnd b ≤ s + 1 := by
  obtain ⟨b, hb, he⟩ := h.entries e he
  obtain ⟨record, hr, hentry⟩ := exists_record_of_mem he
  have hk : e.1.userKey = record.key := congrArg (fun e => e.1.userKey) hentry
  have hv : e.2 = record.value := congrArg Prod.snd hentry
  refine ⟨b, hb, ?_, (h.consecutive.whole (h.reads hs) hb).resolve_right fun hlt => ?_⟩
  · rw [hkey] at hk
    rw [hput] at hv
    cases record with
    | put k v =>
      obtain rfl : key = k := hk
      obtain rfl : value = v := by injection hv
      exact hr
    | delete k => cases hv
  · have := (entriesFrom_sequence he).1
    omega

theorem atomic (h : log.Follows db) : log.Atomic db where
  consecutive := h.consecutive
  ordered := h.consecutive.pairwise
  entries := h.entries
  ends _ hs := h.reads hs
  whole s hs b hb := by
    refine (h.consecutive.whole (h.reads hs) hb).imp (fun hle e he => ?_) fun hlt e he => ?_
    · have := (entriesFrom_sequence he).2
      rw [batchEnd] at hle
      omega
    · exact hlt.trans_le (entriesFrom_sequence he).1
  get snapshot hs key value hget := by
    obtain ⟨e, he, hkey, hle, hput⟩ := h.sound.toTabled.getOpt_mem hget
    exact h.source hs he hkey hle hput
  scan snapshot hs lower upper rows hscan row hrow := by
    obtain ⟨all, rows', hperm, _, hscan', _, hrows⟩ :=
      h.sound.toTabled.scanOpt_sorted lower upper snapshot
    obtain rfl : rows' = rows := Except.ok.inj (hscan'.symm.trans hscan)
    obtain ⟨_, hvis⟩ := (hrows row.1 row.2).mp hrow
    obtain ⟨e, hnewest, hv⟩ := Option.bind_eq_some_iff.mp hvis
    obtain ⟨hkey, hle⟩ := newest_key hnewest
    refine h.source hs (hperm.mem_iff.mp (newest_mem hnewest)) hkey hle ?_
    cases hval : e.2 with
    | put v =>
      rw [hval] at hv
      exact congrArg _ (Option.some.inj hv)
    | delete =>
      rw [hval] at hv
      cases hv

end BatchLog.Follows

theorem follows_created (env : Env) (options : Options) (path : String) :
    BatchLog.Follows {} (DB.created env options path) := by
  have h := Client.keeps_created env options path
  refine ⟨h.sound, h.recorded, rfl, fun e he => ?_, fun s hs => absurd hs List.not_mem_nil⟩
  rw [DB.allEntries, DB.entries_created, DB.memEntries_created] at he
  cases he

/-- Whatever groups, commits, flushes, compactions and snapshots came before, the next
section applies its batches whole, and a group as if they came one at a time. -/
theorem batches_are_atomic (env : Env) (options : Options) (path : String) {db₀ : DB}
    (hopen : DB.open env (Disk.empty path) options = .ok db₀) (pieces : List Piece)
    (hpieces : ∀ piece ∈ pieces, piece ≠ .reopen) :
    (runLogged pieces db₀).1.Atomic (runLogged pieces db₀).2 ∧
      (∀ step : Section, ∀ b ∈ step.batches (runLogged pieces db₀).2,
        ∀ e ∈ entriesFrom b.1 b.2.records,
          e ∈ (after Section.run (runLogged pieces db₀).2 step).allEntries) ∧
      ∀ requests, (Section.group requests).run (runLogged pieces db₀).2 =
        runAll (fun request => (Section.group [request]).run) requests (runLogged pieces db₀).2 := by
  obtain rfl := DB.eq_created hopen
  have h : BatchLog.Follows (runLogged pieces (DB.created env options path)).1
      (runLogged pieces (DB.created env options path)).2 :=
    follow_invariant BatchLog.Follows.step (follows_created env options path)
      (along_of_forall (fun piece hp _ => hpieces piece hp) _)
  refine ⟨h.atomic, fun step b hb e he => ?_, DB.applyWriteGroupToMemtable_each h.sound.isOpen⟩
  obtain ⟨records, hev, _, hrecords⟩ := step.evolves h.sound h.recorded
  refine hev.added e ?_
  rw [← hrecords]
  exact List.mem_flatMap.mpr ⟨b, hb, he⟩

theorem batches_are_atomic_small :
    (runLogged [.locked (.group [⟨⟨[.put [97] [1], .delete [98]]⟩, {}⟩, ⟨⟨[.put [97] [2]]⟩, {}⟩]),
        .snapshot, .locked .flush] (DB.created .inOrder { memtableSize := 1 } "db")).1.batches =
      [(1, ⟨[.put [97] [1], .delete [98]]⟩), (3, ⟨[.put [97] [2]]⟩)] ∧
    (runLogged [.locked (.group [⟨⟨[.put [97] [1], .delete [98]]⟩, {}⟩, ⟨⟨[.put [97] [2]]⟩, {}⟩]),
        .snapshot, .locked .flush] (DB.created .inOrder { memtableSize := 1 } "db")).1.Atomic
      (runLogged [.locked (.group [⟨⟨[.put [97] [1], .delete [98]]⟩, {}⟩,
        ⟨⟨[.put [97] [2]]⟩, {}⟩]), .snapshot, .locked .flush]
        (DB.created .inOrder { memtableSize := 1 } "db")).2 :=
  ⟨by decide +kernel, (batches_are_atomic .inOrder { memtableSize := 1 } "db" (DB.open_empty _ _ _)
    _ (by simp)).1⟩

end TyLsm
