import TyLsm.Oracle

/-! Manual compaction of a range. The picker takes only the L0 files that overlap
the range, so a newer version of a key can end up below an older one, or a
tombstone can disappear while what it hides stays. -/

namespace TyLsm

namespace DB

/-- The places where a read looks for a key, in the order in which it looks. -/
def sources (db : DB) : List (List Entry) :=
  db.state.memtables.map MemTable.entries ++ db.state.l0Tables.map (fun ref => ref.2.entries) ++
    db.state.levelTables.map (fun level => level.flatMap (fun ref => ref.2.entries))

/-- The record of a key with the largest sequence number among all sources. -/
def Newest (db : DB) (k : Bytes) (e : Entry) : Prop :=
  e ∈ db.sources.flatten ∧ e.1.userKey = k ∧
    ∀ a ∈ db.sources.flatten, a.1.userKey = k → a.1.sequence ≤ e.1.sequence

/-- Every read without a snapshot returns the newest record of its key. -/
def ReadsNewest (db : DB) : Prop :=
  ∀ k, (∃ e, db.Newest k e ∧ db.get k = .ok e.2.intoVisibleValue) ∨
    (∀ e ∈ db.sources.flatten, e.1.userKey ≠ k) ∧ db.get k = .ok none

variable {db : DB}

theorem Readable.sources_flatten (h : db.Readable) : db.sources.flatten = db.allEntries := by
  rw [sources, allEntries, ← h.entries_eq, DBState.memEntries]
  simp [List.flatMap_def, List.flatten_flatten, Function.comp_def]

theorem Ok.sources_above (h : db.Ok) : db.sources.Pairwise Above := by
  have hn := h.stateOk.newestFirst
  rw [← allEntries, ← h.toReadable.sources_flatten] at hn
  exact (newestFirst_flatten.mp hn).2

theorem Readable.newest_iff (h : db.Readable) (hn : NewestFirst db.allEntries)
    (hs : ∀ e ∈ db.allEntries, e.1.sequence ≤ db.state.lastSequence) {k : Bytes} {e : Entry} :
    db.Newest k e ↔ newest k db.state.lastSequence db.allEntries = some e := by
  rw [hn.newest_eq_some_iff, Newest, h.sources_flatten]
  constructor
  · rintro ⟨he, hk, hmax⟩
    exact ⟨he, hk, hs e he, fun b hb hbk _ => hmax b hb hbk⟩
  · rintro ⟨he, hk, _, hmax⟩
    exact ⟨he, hk, fun b hb hbk => hmax b hb hbk (hs b hb)⟩

/-- In search order, reads find the newest record as long as the last sequence covers it. -/
theorem Readable.readsNewest (h : db.Readable) (hn : NewestFirst db.allEntries)
    (hs : ∀ e ∈ db.allEntries, e.1.sequence ≤ db.state.lastSequence) : db.ReadsNewest := by
  intro k
  have hget : db.get k = .ok ((newest k db.state.lastSequence db.allEntries).bind
      (fun e => e.2.intoVisibleValue)) := by
    rw [get, h.getOpt_eq, Option.getD_none, visible]
  cases hk : newest k db.state.lastSequence db.allEntries with
  | some e =>
    rw [hk] at hget
    exact .inl ⟨e, (h.newest_iff hn hs).mpr hk, hget⟩
  | none =>
    rw [hk] at hget
    refine .inr ⟨fun e he hek => ?_, hget⟩
    rw [h.sources_flatten] at he
    exact absurd (hs e he) (not_le.mpr (newest_eq_none_iff.mp hk e he hek))

theorem Ok.newest_iff (h : db.Ok) {k : Bytes} {e : Entry} :
    db.Newest k e ↔ newest k db.state.lastSequence db.allEntries = some e :=
  h.toReadable.newest_iff h.stateOk.newestFirst h.stateOk.sequences

theorem Ok.readsNewest (h : db.Ok) : db.ReadsNewest :=
  h.toReadable.readsNewest h.stateOk.newestFirst h.stateOk.sequences

/-- A key whose newest record is a tombstone is absent from reads and scans. -/
def Absent (db : DB) (k : Bytes) : Prop :=
  db.get k = .ok none ∧ ∀ lower upper, ∃ rows, db.scan lower upper = .ok rows ∧
    ∀ v, (k, v) ∉ rows

theorem Ok.absent_of_visible (h : db.Ok) {k : Bytes}
    (hv : visible k db.state.lastSequence db.allEntries = none) : db.Absent k := by
  refine ⟨by rw [get, h.toReadable.getOpt_eq, Option.getD_none, hv], fun lower upper => ?_⟩
  obtain ⟨rows, hrows, _, hmem⟩ := h.toReadable.scanOpt_eq h.stateOk.newestFirst lower upper none
  refine ⟨rows, hrows, fun v hin => ?_⟩
  have := ((hmem k v).mp hin).2
  rw [Option.getD_none, hv] at this
  cases this

/-- The invariant of runs in which compactions keep the search order. -/
structure Ordered (db : DB) : Prop where
  ok : db.Ok
  recorded : db.Recorded
  noSnapshot : db.watermark.oldest = none

theorem Ordered.gcWatermark_eq (h : db.Ordered) : db.gcWatermark = db.state.lastSequence := by
  rw [gcWatermark, h.noSnapshot]
  rfl

theorem Ordered.splitsSafely (h : db.Ordered) (lower upper : Bound) :
    db.SplitsSafely lower upper :=
  h.ok.splitsSafely (.inr h.noSnapshot) lower upper

theorem Advanced.ordered {db' : DB} {records : List BatchRecord} (ha : Advanced db db' records)
    (h : db.Ordered) : db'.Ordered :=
  ⟨ha.ok, ha.recorded, ha.watermark ▸ h.noSnapshot⟩

theorem ordered_created (env : Env) (options : Options) (path : String) :
    (created env options path).Ordered :=
  ⟨ok_created env options path, (durable_created env options path).toRecorded, rfl⟩

end DB

/-- Writes, flushes and compactions of any range. -/
def Call.Ranged : Call → Prop
  | reopen => False
  | _ => True

/-- The condition on a call under which it keeps the search order. -/
def Call.KeepsOrder : Call → DB → Prop
  | compactRange lower upper, db => db.KeepsOrder lower upper
  | _, _ => True

/-- The condition on a call under which it moreover never brings back a deleted key. -/
def Call.KeepsReads : Call → DB → Prop
  | compactRange lower upper, db => db.KeepsOrder lower upper ∧ db.LeavesNoOlder lower upper
  | _, _ => True

instance (call : Call) (db : DB) : Decidable (call.KeepsOrder db) :=
  match call with
  | .compactRange lower upper => inferInstanceAs (Decidable (db.KeepsOrder lower upper))
  | .put _ _ | .delete _ | .write _ _ | .flush | .reopen => isTrue trivial

instance (call : Call) (db : DB) : Decidable (call.KeepsReads db) :=
  match call with
  | .compactRange lower upper =>
    inferInstanceAs (Decidable (db.KeepsOrder lower upper ∧ db.LeavesNoOlder lower upper))
  | .put _ _ | .delete _ | .write _ _ | .flush | .reopen => isTrue trivial

namespace DB

theorem Ordered.advanced (h : db.Ordered) {call : Call} (hcall : call.Ranged)
    (hno : ∀ lower upper, call ≠ .compactRange lower upper) :
    ∃ db', call.run db = .ok () db' ∧ Advanced db db' call.records := by
  cases call with
  | put key value =>
    exact h.ok.write h.recorded (h.splitsSafely _ _) h.gcWatermark_eq.le ⟨[.put key value]⟩ {}
  | delete key =>
    exact h.ok.write h.recorded (h.splitsSafely _ _) h.gcWatermark_eq.le ⟨[.delete key]⟩ {}
  | write batch opts =>
    exact h.ok.write h.recorded (h.splitsSafely _ _) h.gcWatermark_eq.le batch opts
  | flush =>
    obtain ⟨db', hrun, hf⟩ := h.ok.flush_recorded h.recorded
    exact ⟨db', hrun, hf.advanced⟩
  | compactRange lower upper => exact absurd rfl (hno lower upper)
  | reopen => exact absurd hcall id

theorem Ordered.step (call : Call) (_ : Unit) (db : DB) (h : db.Ordered)
    (hcall : call.Ranged ∧ call.KeepsOrder db) :
    ∃ db', call.run db = .ok () db' ∧ db'.Ordered := by
  obtain ⟨hranged, horder⟩ := hcall
  by_cases hcomp : ∃ lower upper, call = .compactRange lower upper
  · obtain ⟨lower, upper, rfl⟩ := hcomp
    obtain ⟨db', hrun, hok, hc, _⟩ := h.ok.compactRange horder (h.splitsSafely _ _)
    exact ⟨db', hrun, hok, hc.recorded h.recorded, hc.watermark ▸ h.noSnapshot⟩
  · obtain ⟨db', hrun, ha⟩ := h.advanced hranged fun l u he => hcomp ⟨l, u, he⟩
    exact ⟨db', hrun, ha.ordered h⟩

/-- A compaction of a range that leaves nothing older behind acts as no write at all. -/
theorem Ordered.compactRange (h : db.Ordered) {lower upper : Bound}
    (horder : db.KeepsOrder lower upper) (hold : db.LeavesNoOlder lower upper) :
    ∃ db', DB.compactRange lower upper db = .ok () db' ∧ Advanced db db' [] := by
  obtain ⟨db', hrun, hok, hc, hvis⟩ := h.ok.compactRange horder (h.splitsSafely _ _)
  exact ⟨db', hrun, hc.advanced hok h.recorded h.gcWatermark_eq.le (hvis hold)⟩

theorem Ordered.step_shows (call : Call) (m : OrderedMap Bytes Bytes) (db : DB)
    (h : db.Ordered ∧ db.Shows m) (hcall : call.Ranged ∧ call.KeepsReads db) :
    ∃ db', call.run db = .ok () db' ∧ db'.Ordered ∧ db'.Shows (call.oracle m) := by
  obtain ⟨hranged, hkeeps⟩ := hcall
  have hadv : ∃ db', call.run db = .ok () db' ∧ Advanced db db' call.records := by
    by_cases hcomp : ∃ lower upper, call = .compactRange lower upper
    · obtain ⟨lower, upper, rfl⟩ := hcomp
      exact h.1.compactRange hkeeps.1 hkeeps.2
    · exact h.1.advanced hranged fun l u he => hcomp ⟨l, u, he⟩
  obtain ⟨db', hrun, ha⟩ := hadv
  exact ⟨db', hrun, ha.ordered h.1, ha.shows m h.2⟩

end DB

/-- As long as no manual compaction takes an L0 file and leaves behind an older one with a
common key, or a newer one if there is no lower level, reads return the newest record
and the sources stay in order. -/
theorem compactRange_reads_newest (env : Env) (options : Options) (path : String) {db₀ : DB}
    (hopen : DB.open env (Disk.empty path) options = .ok db₀) (calls : List Call)
    (hranged : ∀ call ∈ calls, call.Ranged) (hkeeps : Along Call.run Call.KeepsOrder calls db₀) :
    ∃ db, runAll Call.run calls db₀ = .ok () db ∧ db.ReadsNewest ∧ db.sources.Pairwise Above := by
  obtain rfl := DB.eq_created hopen
  obtain ⟨db, hrun, hdb⟩ := runAll_invariant (n := fun _ u => u)
    (I := fun _ db => DB.Ordered db) DB.Ordered.step (g := ())
    (DB.ordered_created env options path)
    ((along_of_forall (C := fun call _ => Call.Ranged call) (fun call hc _ => hranged call hc)
      _).and hkeeps)
  exact ⟨db, hrun, hdb.ok.readsNewest, hdb.ok.sources_above⟩

/-- Two flushed files with the key `a`; a compaction of `k` to `z` moves the newer one to L1. -/
def staleCalls : List Call :=
  [.put [97] [1], .put [99] [2], .flush, .put [97] [3], .put [109] [4], .flush,
    .compactRange (.included [107]) (.included [122])]

theorem staleCalls_end : EndsIn (fun db : DB => db.get [97] = .ok (some [1]) ∧
    db.sources.flatten = [(⟨[97], 1, .put⟩, .put [1]), (⟨[99], 2, .put⟩, .put [2]),
      (⟨[97], 3, .put⟩, .put [3]), (⟨[109], 4, .put⟩, .put [4])])
    (runAll Call.run staleCalls (DB.created .inOrder {} "db")) := by
  decide +kernel

theorem compactRange_reads_stale : ∃ db,
    runAll Call.run staleCalls (DB.created .inOrder {} "db") = .ok () db ∧
      db.get [97] = .ok (some [1]) ∧ db.Newest [97] (⟨[97], 3, .put⟩, .put [3]) ∧
      ¬ db.ReadsNewest := by
  obtain ⟨db, hrun, hget, hsources⟩ := staleCalls_end.exists_ok
  have hnewest : db.Newest [97] (⟨[97], 3, .put⟩, .put [3]) := by
    rw [DB.Newest, hsources]
    decide
  refine ⟨db, hrun, hget, hnewest, fun h => ?_⟩
  rcases h [97] with ⟨e, ⟨hmem, hk, hmax⟩, hgete⟩ | ⟨hnone, _⟩
  · have hvalue : e.2.intoVisibleValue = some [1] := Except.ok.inj (hgete.symm.trans hget)
    have hother : ∀ e ∈ db.sources.flatten, e.1.userKey = [97] → 3 ≤ e.1.sequence →
        e.2.intoVisibleValue ≠ some [1] := by
      rw [hsources]
      decide
    exact hother e hmem hk (hmax _ hnewest.1 rfl) hvalue
  · exact hnone _ hnewest.1 hnewest.2.1

theorem compactRange_reads_newest_small : ∃ db, runAll Call.run
      [.put [97] [1], .flush, .put [109] [4], .flush, .compactRange (.included [107]) .unbounded]
      (DB.created .inOrder {} "db") = .ok () db ∧ db.ReadsNewest ∧ db.sources.Pairwise Above :=
  compactRange_reads_newest .inOrder {} "db" (DB.open_empty _ _ _)
    [.put [97] [1], .flush, .put [109] [4], .flush, .compactRange (.included [107]) .unbounded]
    (by simp [Call.Ranged]) (by decide +kernel)

/-- As long as no manual compaction takes an L0 file and leaves behind an older one with a
common key, or a newer one if there is no lower level, a tombstone that is dropped hides
nothing outside the task, and deleted keys stay deleted. -/
theorem dropped_tombstones_hide_nothing (env : Env) (options : Options) (path : String) {db₀ : DB}
    (hopen : DB.open env (Disk.empty path) options = .ok db₀) (calls : List Call)
    (hranged : ∀ call ∈ calls, call.Ranged) (hkeeps : Along Call.run Call.KeepsReads calls db₀) :
    ∃ db, runAll Call.run calls db₀ = .ok () db ∧
      (∀ k, (oracle calls).get? k = none → db.Absent k) ∧
      ∀ lower upper, db.KeepsOrder lower upper → db.LeavesNoOlder lower upper →
        (∀ task, CompactionPicker.pickManual db.versions.current lower upper = some task →
          canDropTombstones db.versions.current task = true →
          ∀ e ∈ task.entries db.disk.tables, e.2 = .delete →
            e ∉ compactEntries (task.entries db.disk.tables) db.gcWatermark true →
            ∀ a, a ∈ db.state.memEntries ∨
                a ∈ (db.versions.current.remaining task).flatMap (fileEntries db.disk.tables) →
              a.1.userKey = e.1.userKey → ¬ a.1.sequence < e.1.sequence) ∧
        ∃ db', DB.compactRange lower upper db = .ok () db' ∧
          ∀ k e, db.Newest k e → e.2 = .delete → db.Absent k ∧ db'.Absent k := by
  obtain rfl := DB.eq_created hopen
  obtain ⟨db, hrun, hdb, hshows⟩ := runAll_invariant
    (I := fun m db => DB.Ordered db ∧ db.Shows m) DB.Ordered.step_shows
    ⟨DB.ordered_created env options path, DB.shows_created env options path⟩
    ((along_of_forall (C := fun call _ => Call.Ranged call) (fun call hc _ => hranged call hc)
      _).and hkeeps)
  refine ⟨db, hrun, fun k hk => ?_, fun lower upper horder hold => ⟨?_, ?_⟩⟩
  · refine hdb.ok.absent_of_visible ?_
    exact (hshows k _ le_rfl).trans hk
  · intro task hpick hdrop e he _ _ a ha hak hlt
    exact absurd (hdb.ok.outside_newer hold hpick hdrop he ha hak) (not_lt.mpr hlt.le)
  · obtain ⟨db', hrun', ha⟩ := hdb.compactRange horder hold
    refine ⟨db', hrun', fun k e he hdel => ?_⟩
    have hvis : visible k db.state.lastSequence db.allEntries = none := by
      rw [visible, hdb.ok.newest_iff.mp he, Option.bind_some, hdel]
      rfl
    refine ⟨hdb.ok.absent_of_visible hvis, ha.ok.absent_of_visible ?_⟩
    rw [show db'.state.lastSequence = db.state.lastSequence from ha.lastSequence,
      ha.older k _ hdb.gcWatermark_eq.le le_rfl, hvis]

/-- A compaction of `k` to `z` drops the tombstone of `a` and leaves the put it hid. -/
def resurrectingCalls : List Call :=
  [.put [97] [1], .put [99] [2], .flush, .delete [97], .put [109] [4], .flush]

theorem resurrectingCalls_end : EndsIn (fun db : DB => db.get [97] = .ok none ∧
    db.sources.flatten = [(⟨[97], 3, .delete⟩, .delete), (⟨[109], 4, .put⟩, .put [4]),
      (⟨[97], 1, .put⟩, .put [1]), (⟨[99], 2, .put⟩, .put [2])])
    (runAll Call.run resurrectingCalls (DB.created .inOrder {} "db")) := by
  decide +kernel

theorem resurrectingCalls_compacted : EndsIn (fun db : DB => db.get [97] = .ok (some [1]))
    (runAll Call.run (resurrectingCalls ++ [.compactRange (.included [107]) (.included [122])])
      (DB.created .inOrder {} "db")) := by
  decide +kernel

theorem dropped_tombstone_resurrects : ∃ db db',
    runAll Call.run resurrectingCalls (DB.created .inOrder {} "db") = .ok () db ∧
      runAll Call.run [.compactRange (.included [107]) (.included [122])] db = .ok () db' ∧
      db.Newest [97] (⟨[97], 3, .delete⟩, .delete) ∧ db.get [97] = .ok none ∧
      db'.get [97] = .ok (some [1]) ∧ ¬ db'.Absent [97] := by
  obtain ⟨db, hrun, hget, hsources⟩ := resurrectingCalls_end.exists_ok
  obtain ⟨db', hrun', hget'⟩ := resurrectingCalls_compacted.exists_ok
  rw [runAll_append_ok hrun] at hrun'
  refine ⟨db, db', hrun, hrun', ?_, hget, hget', fun habsent => ?_⟩
  · rw [DB.Newest, hsources]
    decide
  · rw [habsent.1] at hget'
    cases hget'

theorem dropped_tombstones_hide_nothing_small : ∃ db, runAll Call.run
      [.put [97] [1], .flush, .delete [97], .flush, .compactRange .unbounded .unbounded]
      (DB.created .inOrder {} "db") = .ok () db ∧ db.Absent [97] := by
  obtain ⟨db, hrun, habsent, _⟩ := dropped_tombstones_hide_nothing .inOrder {} "db"
    (DB.open_empty _ _ _)
    [.put [97] [1], .flush, .delete [97], .flush, .compactRange .unbounded .unbounded]
    (by simp [Call.Ranged]) (by decide +kernel)
  exact ⟨db, hrun, habsent [97] (by decide +kernel)⟩

end TyLsm
