import TyLsm.Invariant

/-! Flushing writes the oldest memtable as the newest L0 table. The list of all
entries stays exactly as it was. -/

namespace TyLsm

namespace Version

variable {v : Version} {tables tables' : Nat → Option Table}

theorem Listed.congr (h : v.Listed tables)
    (hagree : ∀ f ∈ v.files, tables' f.number = tables f.number) : v.Listed tables' :=
  ⟨fun f hf => by rw [hagree f hf]; exact h.described f hf, h.nodup, h.levelZero⟩

theorem Stored.congr (h : v.Stored tables)
    (hagree : ∀ f ∈ v.files, tables' f.number = tables f.number) : v.Stored tables' :=
  ⟨h.toListed.congr hagree, h.ranges⟩

theorem Listed.addL0 (h : v.Listed tables) {file : FileMeta} {table : Table}
    (ht : tables file.number = some table) (hd : file.Describes table)
    (hne : ∀ f ∈ v.files, f.number ≠ file.number) :
    ({ v with l0Files := file :: v.l0Files } : Version).Listed tables := by
  refine ⟨?_, ?_, h.levelZero⟩
  · intro f hf
    rcases List.mem_cons.mp hf with rfl | hf
    · exact ⟨table, ht, hd⟩
    · exact h.described f hf
  · refine List.nodup_cons.mpr ⟨fun hmem => ?_, h.nodup⟩
    obtain ⟨f, hf, he⟩ := List.mem_map.mp hmem
    exact hne f hf he

end Version

theorem Version.entries_congr {v : Version} {tables tables' : Nat → Option Table}
    (hagree : ∀ f ∈ v.files, tables' f.number = tables f.number) :
    v.entries tables' = v.entries tables := by
  simp only [Version.entries, List.flatMap_def]
  exact congrArg List.flatten (List.map_congr_left fun f hf => by simp [fileEntries, hagree f hf])

theorem TablesOf.congr {d d' : Disk} {v : Version} {l0 : List TableRef}
    {levels : List (List TableRef)} (h : TablesOf d v l0 levels)
    (hagree : ∀ f ∈ v.files, d'.tables f.number = d.tables f.number) :
    TablesOf d' v l0 levels := by
  refine ⟨h.l0_eq, h.levels_eq, fun ref href => ?_⟩
  have hmem : ref.1 ∈ v.files := by
    rw [← h.files]
    exact List.mem_map.mpr ⟨ref, href, rfl⟩
  rw [hagree ref.1 hmem]
  exact h.opened ref href

namespace DB

def flushOps (number : Nat) (ref : TableRef) (lastSequence : Nat) : List DiskOp :=
  [.renameTable number ref.2, .appendManifest (.addFile 0 ref.1),
    .appendManifest (.lastSequence lastSequence), .openWal (number + 1),
    .appendManifest (.logNumber (number + 1))]

/-- The database after a flush that left `state` in memory and wrote `ref`. -/
def flushed (db : DB) (state : DBState) (ref : TableRef) : DB :=
  let number := db.versions.nextFileNumber
  { db.performed (flushOps number ref state.lastSequence) with
    state := { state with l0Tables := ref :: state.l0Tables }
    versions := {
      current := { db.versions.current with l0Files := ref.1 :: db.versions.current.l0Files }
      nextFileNumber := number + 2
      lastSequence := max db.versions.lastSequence state.lastSequence
      logNumber := number + 1 }
    wal := number + 1 }

theorem run_publishL0Table (db : DB) (file : FileMeta) (lastSequence : Nat)
    (hnum : file.number < db.versions.nextFileNumber) :
    publishL0Table file lastSequence db = .ok ()
      { db.performed [.appendManifest (.addFile 0 file), .appendManifest (.lastSequence lastSequence),
          .openWal db.versions.nextFileNumber,
          .appendManifest (.logNumber db.versions.nextFileNumber)] with
        versions := {
          current := { db.versions.current with l0Files := file :: db.versions.current.l0Files }
          nextFileNumber := db.versions.nextFileNumber + 1
          lastSequence := max db.versions.lastSequence lastSequence
          logNumber := db.versions.nextFileNumber }
        wal := db.versions.nextFileNumber } := by
  have hmax : max db.versions.nextFileNumber (file.number + 1) = db.versions.nextFileNumber :=
    max_eq_left hnum
  rw [publishL0Table, run_bind_ok (run_logAndApply rfl), run_bind_ok (run_logAndApply rfl),
    run_bind_ok (run_allocateFileNumber _), run_bind_ok (run_act _ _),
    run_bind_ok (run_logAndApply rfl), run_modify]
  simp [performed, hmax]

theorem run_writeL0Table {db : DB} {memtable : MemTable} {number : Nat} {file : FileMeta}
    (hfree : db.disk.tables number = none)
    (h : fileMetaFromTable number
      (db.env.metadataLen (buildTable db.options.blockSize memtable.entries))
      (buildTable db.options.blockSize memtable.entries) = .ok file) :
    writeL0Table memtable number db =
      .ok (file, buildTable db.options.blockSize memtable.entries)
        (db.performed [.renameTable number (buildTable db.options.blockSize memtable.entries)]) := by
  rw [writeL0Table, run_bind_ok (run_get db)]
  simp only [hfree, Option.isSome_none, Bool.false_eq_true, if_false]
  exact run_writeTable h

theorem run_flush {db : DB} {memtable : MemTable} {source : DBState.FlushSource} {state : DBState}
    {file : FileMeta} (hopen : db.state.closed = false)
    (htake : db.state.takeOldestFlushableMemtable db.options.memtableKind =
      some (memtable, source, state))
    (hfree : db.disk.tables db.versions.nextFileNumber = none)
    (hfile : fileMetaFromTable db.versions.nextFileNumber
      (db.env.metadataLen (buildTable db.options.blockSize memtable.entries))
      (buildTable db.options.blockSize memtable.entries) = .ok file)
    (hnum : file.number = db.versions.nextFileNumber) :
    flush db = .ok ()
      (db.flushed state (file, buildTable db.options.blockSize memtable.entries)) := by
  rw [flush, run_bind_ok (run_get db)]
  simp only [hopen, Bool.false_eq_true, if_false, htake]
  rw [run_bind_ok (run_set _ _), run_bind_ok (run_allocateFileNumber _)]
  have hwrite := @run_writeL0Table { db with
    state := state
    versions := { db.versions with nextFileNumber := db.versions.nextFileNumber + 1 } }
    memtable _ _ hfree hfile
  rw [run_bind_ok (run_tryCatch_ok (by
    rw [run_bind_ok hwrite, run_bind_ok (run_publishL0Table _ _ _ (by simp [performed, hnum])),
      run_pure]))]
  simp [performed, flushed, flushOps]

theorem run_flush_none {db : DB} (hopen : db.state.closed = false)
    (htake : db.state.takeOldestFlushableMemtable db.options.memtableKind = none) :
    flush db = .ok () db := by
  rw [flush, run_bind_ok (run_get db)]
  simp only [hopen, Bool.false_eq_true, if_false, htake, run_pure]

end DB

namespace DBState

theorem takeOldest_spec {state state' : DBState} {kind : MemTableKind} {memtable : MemTable}
    {source : FlushSource}
    (h : state.takeOldestFlushableMemtable kind = some (memtable, source, state')) :
    state.memEntries = state'.memEntries ++ memtable.entries ∧
      state'.lastSequence = state.lastSequence ∧ state'.closed = state.closed ∧
      state'.l0Tables = state.l0Tables ∧ state'.levelTables = state.levelTables ∧
      (∀ m ∈ state'.immutables, m ∈ state.immutables) ∧
      (memtable ∈ state.immutables ∨ memtable.entries ≠ []) := by
  unfold takeOldestFlushableMemtable at h
  cases himm : state.immutables with
  | cons m rest =>
    simp only [himm, Option.some.injEq, Prod.mk.injEq] at h
    obtain ⟨rfl, -, rfl⟩ := h
    refine ⟨?_, rfl, rfl, rfl, rfl, fun x hx => by simp [hx], .inl (by simp)⟩
    simp [memEntries, memtables, himm]
  | nil =>
    simp only [himm] at h
    split at h
    · cases h
    · rename_i hne
      simp only [Option.some.injEq, Prod.mk.injEq] at h
      obtain ⟨rfl, -, rfl⟩ := h
      refine ⟨?_, rfl, rfl, rfl, rfl, fun x hx => by simp at hx, .inr ?_⟩
      · simp [memEntries, memtables, himm]
      · exact fun he => hne ((MemTable.isEmpty_iff _).mpr he)

end DBState

namespace DB

theorem Live.file_number_lt {db : DB} (h : db.Live) {f : FileMeta}
    (hf : f ∈ db.versions.current.files) : f.number < db.versions.nextFileNumber := by
  by_contra hno
  obtain ⟨t, ht, _⟩ := h.listed.described f hf
  rw [h.freshTables _ (not_lt.mp hno)] at ht
  cases ht

theorem Sound.file_number_lt {db : DB} (h : db.Sound) {f : FileMeta}
    (hf : f ∈ db.versions.current.files) : f.number < db.versions.nextFileNumber :=
  h.live.file_number_lt hf

theorem run_flush_taken {db : DB} (hopen : db.state.closed = false)
    (hmatched : ∀ e ∈ db.state.memEntries, Matched e)
    (hfrozen : ∀ m ∈ db.state.immutables, m.entries ≠ [])
    (hfree : db.disk.tables db.versions.nextFileNumber = none) {memtable : MemTable}
    {source : DBState.FlushSource} {state : DBState}
    (htake : db.state.takeOldestFlushableMemtable db.options.memtableKind =
      some (memtable, source, state)) :
    ∃ ref, ref.1.number = db.versions.nextFileNumber ∧ ref.2.entries = memtable.entries ∧
      ref.1.Describes ref.2 ∧ flush db = .ok () (db.flushed state ref) := by
  obtain ⟨hmem, _, _, _, _, _, hne⟩ := DBState.takeOldest_spec htake
  have hent : memtable.entries ≠ [] := hne.elim (hfrozen memtable) id
  have hmatched : ∀ e ∈ memtable.entries, Matched e := fun e he =>
    hmatched e (by rw [hmem]; exact List.mem_append.mpr (.inr he))
  obtain ⟨file, hfile, hnum, hdesc⟩ := fileMetaFromTable_ok
    (wellFormed_buildTable db.options.blockSize hent memtable.entries_sorted hmatched)
    db.versions.nextFileNumber
    (db.env.metadataLen (buildTable db.options.blockSize memtable.entries))
  exact ⟨(file, buildTable db.options.blockSize memtable.entries), hnum, entries_buildTable hmatched,
    hdesc, run_flush hopen htake hfree hfile hnum⟩

theorem Live.flushed {db : DB} (h : db.Live) {state : DBState} {memtable : MemTable}
    {source : DBState.FlushSource}
    (htake : db.state.takeOldestFlushableMemtable db.options.memtableKind =
      some (memtable, source, state)) :
    ∃ ref, ref.1.number = db.versions.nextFileNumber ∧ ref.2.entries = memtable.entries ∧
      ref.1.Describes ref.2 ∧ flush db = .ok () (db.flushed state ref) ∧
      (db.flushed state ref).Live ∧ (db.flushed state ref).allEntries = db.allEntries := by
  obtain ⟨hmem, hlast, hclosed, hl0, hlevels, himm, _⟩ := DBState.takeOldest_spec htake
  obtain ⟨⟨file, table⟩, hnum, htent, hdesc, hrun⟩ := run_flush_taken h.isOpen h.matched h.frozen
    (h.freshTables _ le_rfl) htake
  have hother : ∀ f ∈ db.versions.current.files, f.number ≠ file.number := fun f hf =>
    (hnum ▸ h.file_number_lt hf).ne
  have htables : (db.flushed state (file, table)).disk.tables =
      Function.update db.disk.tables file.number (some table) := by
    rw [hnum]
    rfl
  have hagree : ∀ f ∈ db.versions.current.files,
      (db.flushed state (file, table)).disk.tables f.number = db.disk.tables f.number := by
    intro f hf
    rw [htables, Function.update_of_ne (hother f hf)]
  have hself : (db.flushed state (file, table)).disk.tables file.number = some table := by
    rw [htables, Function.update_self]
  have hentries : (db.flushed state (file, table)).versions.current.entries
      (db.flushed state (file, table)).disk.tables =
      memtable.entries ++ db.versions.current.entries db.disk.tables := by
    rw [← Version.entries_congr hagree, ← htent, ← fileEntries_eq hself]
    rfl
  have hall : (db.flushed state (file, table)).allEntries = db.allEntries := by
    rw [allEntries, allEntries, hentries, hmem, List.append_assoc]
    rfl
  refine ⟨(file, table), hnum, htent, hdesc, hrun, ⟨?_, ?_, ?_, ?_, ?_, ?_, ?_⟩, hall⟩
  · exact hclosed.trans h.isOpen
  · exact (h.listed.congr hagree).addL0 hself hdesc hother
  · rw [hall]
    exact h.distinct
  · intro e he
    rw [hall] at he
    exact (h.sequences e he).trans hlast.ge
  · intro e he
    refine h.matched e ?_
    rw [hmem]
    exact List.mem_append.mpr (.inl he)
  · exact fun m hm => h.frozen m (himm m hm)
  · intro n hn
    have hn' : db.versions.nextFileNumber + 2 ≤ n := hn
    rw [htables, Function.update_of_ne (by rw [hnum]; omega)]
    exact h.freshTables n (by omega)

theorem tablesOf_flushed {db : DB} (h : db.Live)
    (ht : TablesOf db.disk db.versions.current db.state.l0Tables db.state.levelTables)
    {state : DBState} {ref : TableRef} (hl0 : state.l0Tables = db.state.l0Tables)
    (hlevels : state.levelTables = db.state.levelTables)
    (hnum : ref.1.number = db.versions.nextFileNumber) (hdesc : ref.1.Describes ref.2) :
    TablesOf (db.flushed state ref).disk (db.flushed state ref).versions.current
      (db.flushed state ref).state.l0Tables (db.flushed state ref).state.levelTables := by
  have hold : TablesOf (db.flushed state ref).disk db.versions.current db.state.l0Tables
      db.state.levelTables := ht.congr fun f hf => by
    change Function.update db.disk.tables db.versions.nextFileNumber (some ref.2) f.number = _
    rw [Function.update_of_ne (h.file_number_lt hf).ne]
  refine ⟨?_, ?_, ?_⟩
  · rw [← hl0] at hold
    exact congrArg (ref.1 :: ·) hold.l0_eq
  · rw [← hlevels] at hold
    exact hold.levels_eq
  · intro r hr
    rcases List.mem_cons.mp hr with rfl | hr
    · refine ⟨?_, hdesc⟩
      rw [hnum]
      exact Function.update_self _ _ _
    · refine hold.opened r ?_
      rw [← hl0, ← hlevels]
      exact hr

theorem Sound.of_flushed_live {db : DB} (h : db.Sound) {state : DBState} {memtable : MemTable}
    {source : DBState.FlushSource} {ref : TableRef}
    (htake : db.state.takeOldestFlushableMemtable db.options.memtableKind =
      some (memtable, source, state)) (hnum : ref.1.number = db.versions.nextFileNumber)
    (hdesc : ref.1.Describes ref.2) (hlive : (db.flushed state ref).Live) :
    (db.flushed state ref).Sound := by
  obtain ⟨_, _, _, hl0, hlevels, _⟩ := DBState.takeOldest_spec htake
  refine hlive.sound (tablesOf_flushed h.live h.tables hl0 hlevels hnum hdesc) fun n hn => ?_
  have hn' : db.versions.nextFileNumber + 2 ≤ n := hn
  have hwals : (db.flushed state ref).disk.wals n =
      Function.update db.disk.wals (db.versions.nextFileNumber + 1)
        (some ((db.disk.wals (db.versions.nextFileNumber + 1)).getD [])) n := rfl
  rw [hwals, Function.update_of_ne (by omega)]
  exact h.freshWals n (by omega)

theorem Sound.flushed {db : DB} (h : db.Sound) {state : DBState} {memtable : MemTable}
    {source : DBState.FlushSource}
    (htake : db.state.takeOldestFlushableMemtable db.options.memtableKind =
      some (memtable, source, state)) :
    ∃ ref, ref.1.number = db.versions.nextFileNumber ∧ ref.2.entries = memtable.entries ∧
      flush db = .ok () (db.flushed state ref) ∧ (db.flushed state ref).Sound ∧
      (db.flushed state ref).allEntries = db.allEntries := by
  obtain ⟨ref, hnum, hent, hdesc, hrun, hlive, hall⟩ := h.live.flushed htake
  exact ⟨ref, hnum, hent, hrun, h.of_flushed_live htake hnum hdesc hlive, hall⟩

theorem Ok.flushed_of_sound {db : DB} (h : db.Ok) {state : DBState} {ref : TableRef}
    (hs : (db.flushed state ref).Sound) (hall : (db.flushed state ref).allEntries = db.allEntries) :
    (db.flushed state ref).Ok := by
  refine ⟨⟨hs.isOpen, ⟨hs.listed, h.stored.ranges⟩, hs.tables⟩,
    ⟨?_, hs.sequences, hs.matched, hs.frozen⟩, hs.freshTables, hs.freshWals⟩
  rw [← allEntries, hall]
  exact h.stateOk.newestFirst

theorem Ok.flushed {db : DB} (h : db.Ok) {state : DBState} {memtable : MemTable}
    {source : DBState.FlushSource}
    (htake : db.state.takeOldestFlushableMemtable db.options.memtableKind =
      some (memtable, source, state)) :
    ∃ ref, ref.1.number = db.versions.nextFileNumber ∧ ref.2.entries = memtable.entries ∧
      flush db = .ok () (db.flushed state ref) ∧ (db.flushed state ref).Ok ∧
      (db.flushed state ref).allEntries = db.allEntries := by
  obtain ⟨ref, hnum, hent, hrun, hs, hall⟩ := h.sound.flushed htake
  exact ⟨ref, hnum, hent, hrun, h.flushed_of_sound hs hall, hall⟩

end DB

end TyLsm
