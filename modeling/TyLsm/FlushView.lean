import TyLsm.Flush
import TyLsm.TrivialMove
import TyLsm.Visibility

/-! A flush that succeeds keeps what reads see at every sequence number. It takes the last of the
memory sources and puts it in front of the tables, at the place where it was in search order. -/

namespace TyLsm

theorem searchLevels_congr {d d' : Disk} {levels : List (List TableRef)}
    (h : ∀ ref ∈ levels.flatten, d'.tables ref.1.number = d.tables ref.1.number) (key : Bytes)
    (readSeq : Nat) : searchLevels d' key readSeq levels = searchLevels d key readSeq levels := by
  induction levels with
  | nil => rfl
  | cons level levels ih =>
    have ih := ih fun ref href => h ref (by simp [href])
    rw [searchLevels, searchLevels]
    cases hfind : level.find? (fun ref => fileOverlapsUserKey ref.1 key) with
    | none => exact ih
    | some ref =>
      have hsame := h ref (by simp [List.mem_of_find?_eq_some hfind])
      have htable : searchTable d' key readSeq ref = searchTable d key readSeq ref := by
        rw [searchTable, searchTable, Disk.openTable, Disk.openTable, hsame]
      simp only [htable, ih]

theorem tryCatch_eq_ok {α : Type} {x : DBM α} {handle : Error → DBM α} {db db' : DB} {a : α}
    (h : (tryCatch x handle) db = .ok a db')
    (hthrows : ∀ err db, ∃ err' db', handle err db = .error err' db') : x db = .ok a db' := by
  cases hx : x db with
  | ok b t =>
    rw [run_tryCatch_ok hx] at h
    exact h
  | error err t =>
    rw [run_tryCatch_error hx] at h
    obtain ⟨err', t', hthrow⟩ := hthrows err t
    rw [hthrow] at h
    cases h

namespace DB

/-- A point read searches the memtables and L0 as one list of entries, then the levels. -/
theorem getOpt_eq_levels {db : DB} (hopen : db.state.closed = false)
    (h : Opened db.disk db.state.l0Tables) (key : Bytes) (snapshot : Option Nat) :
    db.getOpt key snapshot =
      match newest key (snapshot.getD db.state.lastSequence)
        (db.state.memEntries ++ db.state.l0Tables.flatMap fun ref => ref.2.entries) with
      | some e => .ok e.2.intoVisibleValue
      | none => (searchLevels db.disk key (snapshot.getD db.state.lastSequence)
          (db.state.levelTables.drop 1)).map fun found =>
            found.bind ValueRecord.intoVisibleValue := by
  rw [newest_append]
  simp only [getOpt, hopen, DBState.findSome_memtables]
  cases hm : newest key (snapshot.getD db.state.lastSequence) db.state.memEntries with
  | some e => rfl
  | none =>
    have hl0 := searchL0_eq h key (snapshot.getD db.state.lastSequence)
    cases hn : newest key (snapshot.getD db.state.lastSequence)
      (db.state.l0Tables.flatMap fun ref => ref.2.entries) with
    | some e => simp [hl0, hn, bind, Except.bind, pure, Except.pure]
    | none =>
      rw [hn] at hl0
      simp only [hl0, bind, Except.bind, pure, Except.pure, Option.map_none, Option.none_or]
      cases searchLevels db.disk key (snapshot.getD db.state.lastSequence)
        (db.state.levelTables.drop 1) with
      | error err => rfl
      | ok found => cases found <;> rfl

/-- Reads depend on the list of the entries in memory and in L0, and on the tables of the levels. -/
structure SameSources (db db' : DB) : Prop where
  entries : db'.state.memEntries ++ db'.state.l0Tables.flatMap (fun ref => ref.2.entries) =
    db.state.memEntries ++ db.state.l0Tables.flatMap fun ref => ref.2.entries
  levels : db'.state.levelTables = db.state.levelTables
  lastSequence : db'.state.lastSequence = db.state.lastSequence
  isOpen : db.state.closed = false
  isOpen' : db'.state.closed = false
  opened : Opened db.disk db.tableRefs
  opened' : Opened db'.disk db'.tableRefs

namespace SameSources

variable {db db' : DB}

theorem sourceEntries (h : SameSources db db') : db'.sourceEntries = db.sourceEntries := by
  rw [DB.sourceEntries, DB.sourceEntries, tableRefs, tableRefs, List.flatMap_append,
    List.flatMap_append, ← List.append_assoc, h.entries, List.append_assoc, h.levels]

theorem getOpt (h : SameSources db db') (key : Bytes) (snapshot : Option Nat) :
    db'.getOpt key snapshot = db.getOpt key snapshot := by
  have hl0 : Opened db.disk db.state.l0Tables := fun ref href =>
    h.opened ref (List.mem_append.mpr (.inl href))
  have hl0' : Opened db'.disk db'.state.l0Tables := fun ref href =>
    h.opened' ref (List.mem_append.mpr (.inl href))
  have hlevels : ∀ ref ∈ (db.state.levelTables.drop 1).flatten,
      db'.disk.tables ref.1.number = db.disk.tables ref.1.number := by
    intro ref href
    obtain ⟨level, hlevel, href⟩ := List.mem_flatten.mp href
    have hin : ref ∈ db.state.levelTables.flatten :=
      List.mem_flatten.mpr ⟨level, List.mem_of_mem_drop hlevel, href⟩
    have hin' : ref ∈ db'.state.levelTables.flatten := by
      rw [h.levels]
      exact hin
    exact (h.opened' ref (List.mem_append.mpr (.inr hin'))).1.trans
      (h.opened ref (List.mem_append.mpr (.inr hin))).1.symm
  rw [getOpt_eq_levels h.isOpen' hl0', getOpt_eq_levels h.isOpen hl0, h.entries, h.levels,
    h.lastSequence, searchLevels_congr hlevels]

theorem scanOpt (h : SameSources db db') (horder : SearchOrder db.readSources)
    (lower upper : Bound) (snapshot : Option Nat) :
    db'.scanOpt lower upper snapshot = db.scanOpt lower upper snapshot := by
  obtain ⟨-, hsame⟩ := searchOrder_entries (readSources_sorted h.opened) horder
  rw [readSources_flatten] at hsame
  obtain ⟨rows, hscan, hrows, hmem⟩ := scan_is_reference h.isOpen
    (fun ref href => (h.opened ref href).1)
    (fun ref href => (h.opened ref href).2.wellFormed.ordered) hsame lower upper snapshot
  obtain ⟨rows', hscan', hrows', hmem'⟩ := scan_is_reference h.isOpen'
    (fun ref href => (h.opened' ref href).1)
    (fun ref href => (h.opened' ref href).2.wellFormed.ordered)
    (by rw [h.sourceEntries]; exact hsame) lower upper snapshot
  have hrow : ∀ p, p ∈ rows' ↔ p ∈ rows := by
    rintro ⟨k, v⟩
    rw [hmem', hmem, h.sourceEntries, h.lastSequence]
  rw [hscan', hscan, OrderedMap.entries_eq_of_mem_iff hrows' hrows hrow]

end SameSources

theorem writeL0Table_eq_ok {db db' : DB} {memtable : MemTable} {number : Nat} {ref : TableRef}
    (h : writeL0Table memtable number db = .ok ref db') :
    db.disk.tables number = none ∧ ∃ file, fileMetaFromTable number
      (db.env.metadataLen (buildTable db.options.blockSize memtable.entries))
      (buildTable db.options.blockSize memtable.entries) = .ok file := by
  rw [writeL0Table, run_bind_ok (run_get db)] at h
  cases hfree : db.disk.tables number with
  | some table =>
    simp only [hfree, Option.isSome_some, if_true, run_bind_error (run_throw _ _)] at h
    cases h
  | none =>
    refine ⟨rfl, ?_⟩
    simp only [hfree, Option.isSome_none, Bool.false_eq_true, if_false] at h
    cases hfile : fileMetaFromTable number
      (db.env.metadataLen (buildTable db.options.blockSize memtable.entries))
      (buildTable db.options.blockSize memtable.entries) with
    | ok file => exact ⟨file, rfl⟩
    | error err =>
      change writeTable memtable.entries number db = _ at h
      rw [writeTable, run_bind_ok (run_get db), run_bind_ok (run_act db _), hfile,
        run_bind_error (run_ofExcept_error _ _)] at h
      cases h

/-- A flush succeeds if there is nothing to write, or if the number of the table is free and its
metadata can be read back. -/
theorem flush_eq_ok {db db' : DB} (h : flush db = .ok () db') :
    db.state.closed = false ∧
      match db.state.takeOldestFlushableMemtable db.options.memtableKind with
      | none => db' = db
      | some (memtable, _, rest) => ∃ file,
        db.disk.tables db.versions.nextFileNumber = none ∧
        fileMetaFromTable db.versions.nextFileNumber
          (db.env.metadataLen (buildTable db.options.blockSize memtable.entries))
          (buildTable db.options.blockSize memtable.entries) = .ok file ∧
        db' = db.flushed rest (file, buildTable db.options.blockSize memtable.entries) := by
  cases hclosed : db.state.closed with
  | true =>
    rw [flush, run_bind_ok (run_get db)] at h
    simp only [hclosed, if_true, run_bind_error (run_throw _ _)] at h
    cases h
  | false =>
    refine ⟨rfl, ?_⟩
    cases htake : db.state.takeOldestFlushableMemtable db.options.memtableKind with
    | none =>
      rw [run_flush_none hclosed htake] at h
      cases h
      rfl
    | some taken =>
      obtain ⟨memtable, source, rest⟩ := taken
      have hbody := h
      rw [flush, run_bind_ok (run_get db)] at hbody
      simp only [hclosed, Bool.false_eq_true, if_false, htake] at hbody
      rw [run_bind_ok (run_set _ _), run_bind_ok (run_allocateFileNumber _)] at hbody
      obtain ⟨ref, t, hbody, -⟩ := bind_eq_ok hbody
      obtain ⟨written, u, hwrite, -⟩ := bind_eq_ok (tryCatch_eq_ok hbody fun err u => by
        rw [run_bind_ok (run_modify _ _)]
        exact ⟨_, _, rfl⟩)
      obtain ⟨hfree, file, hfile⟩ := writeL0Table_eq_ok hwrite
      have hnum := (extracted_of_ok hfile).1
      rw [run_flush hclosed htake hfree hfile hnum] at h
      cases h
      exact ⟨file, hfree, hfile, rfl⟩

/-- The memtable has left the memory and is the newest table of L0. -/
structure Moved (db db' : DB) (memtable : MemTable) (rest : DBState) (ref : TableRef) : Prop where
  state : db'.state = { rest with l0Tables := ref :: db.state.l0Tables }
  version : db'.versions.current =
    { db.versions.current with l0Files := ref.1 :: db.versions.current.l0Files }
  free : db.disk.tables ref.1.number = none
  tables : db'.disk.tables = Function.update db.disk.tables ref.1.number (some ref.2)
  entries : ref.2.entries = memtable.entries
  exact : ref.1.Exact memtable.entries
  describes : ref.1.Describes ref.2

theorem flush_moved {db db' : DB} (hmatched : ∀ e ∈ db.state.memEntries, Matched e)
    (h : flush db = .ok () db') {memtable : MemTable} {source : DBState.FlushSource}
    {rest : DBState} (htake : db.state.takeOldestFlushableMemtable db.options.memtableKind =
      some (memtable, source, rest)) : ∃ ref, Moved db db' memtable rest ref := by
  obtain ⟨-, h⟩ := flush_eq_ok h
  rw [htake] at h
  obtain ⟨file, hfree, hfile, rfl⟩ := h
  obtain ⟨hmem, -, -, hl0, -⟩ := DBState.takeOldest_spec htake
  have hmatched : ∀ e ∈ memtable.entries, Matched e := fun e he =>
    hmatched e (by rw [hmem]; exact List.mem_append.mpr (.inr he))
  have hentries : (buildTable db.options.blockSize memtable.entries).entries = memtable.entries :=
    entries_buildTable hmatched
  have hne : memtable.entries ≠ [] := by
    obtain ⟨e, es, hcons, -⟩ := fileMetaFromTable_eq hfile
    rw [← hentries, hcons]
    exact List.cons_ne_nil e es
  have hwf := wellFormed_buildTable db.options.blockSize hne memtable.entries_sorted hmatched
  obtain ⟨hnum, hext⟩ := extracted_of_ok hfile
  have hexact := hext.exact hwf
  rw [hentries] at hexact
  refine ⟨(file, buildTable db.options.blockSize memtable.entries), ?_, rfl, ?_, ?_, hentries,
    hexact, hext.describes hwf⟩
  · rw [flushed, hl0]
  · exact hnum ▸ hfree
  · rw [hnum]
    rfl

namespace Moved

variable {db db' : DB} {memtable : MemTable} {source : DBState.FlushSource} {rest : DBState}
  {ref : TableRef}

theorem tableRefs (h : Moved db db' memtable rest ref)
    (htake : db.state.takeOldestFlushableMemtable db.options.memtableKind =
      some (memtable, source, rest)) : db'.tableRefs = ref :: db.tableRefs := by
  obtain ⟨-, -, -, -, hlevels, -⟩ := DBState.takeOldest_spec htake
  rw [DB.tableRefs, h.state, DB.tableRefs]
  simp only [List.cons_append, hlevels]

theorem opened (h : Moved db db' memtable rest ref)
    (htake : db.state.takeOldestFlushableMemtable db.options.memtableKind =
      some (memtable, source, rest)) (hopened : Opened db.disk db.tableRefs) :
    Opened db'.disk db'.tableRefs := by
  intro r hr
  rw [h.tableRefs htake] at hr
  rw [h.tables]
  rcases List.mem_cons.mp hr with rfl | hr
  · exact ⟨Function.update_self _ _ _, h.describes⟩
  · obtain ⟨htable, hdesc⟩ := hopened r hr
    have hne : r.1.number ≠ ref.1.number := by
      intro he
      rw [he, h.free] at htable
      cases htable
    exact ⟨(Function.update_of_ne hne _ _).trans htable, hdesc⟩

theorem sameSources (h : Moved db db' memtable rest ref)
    (htake : db.state.takeOldestFlushableMemtable db.options.memtableKind =
      some (memtable, source, rest)) (hclosed : db.state.closed = false)
    (hopened : Opened db.disk db.tableRefs) : SameSources db db' := by
  obtain ⟨hmem, hlast, hclosed', -, hlevels, -⟩ := DBState.takeOldest_spec htake
  refine ⟨?_, ?_, ?_, hclosed, ?_, hopened, h.opened htake hopened⟩
  · rw [h.state, hmem, List.append_assoc, List.flatMap_cons, h.entries]
    rfl
  · rw [h.state]
    exact hlevels
  · rw [h.state]
    exact hlast
  · rw [h.state]
    exact hclosed'.trans hclosed

/-- The new table stands where the memtable was; a mutable memtable leaves an empty one behind. -/
theorem readSources (h : Moved db db' memtable rest ref)
    (htake : db.state.takeOldestFlushableMemtable db.options.memtableKind =
      some (memtable, source, rest)) :
    db'.readSources = db.readSources ∨ db'.readSources = [] :: db.readSources := by
  have hrefs := h.tableRefs htake
  rw [DB.readSources, DB.readSources, hrefs, h.state, List.map_cons, h.entries]
  unfold DBState.takeOldestFlushableMemtable at htake
  cases himm : db.state.immutables with
  | cons m ms =>
    simp only [himm, Option.some.injEq, Prod.mk.injEq] at htake
    obtain ⟨rfl, -, rfl⟩ := htake
    left
    simp [DBState.memtables, himm]
  | nil =>
    simp only [himm] at htake
    split at htake
    · cases htake
    · simp only [Option.some.injEq, Prod.mk.injEq] at htake
      obtain ⟨rfl, -, rfl⟩ := htake
      right
      simp [DBState.memtables, himm]

theorem pairwise (h : Moved db db' memtable rest ref)
    (htake : db.state.takeOldestFlushableMemtable db.options.memtableKind =
      some (memtable, source, rest)) {R : List Entry → List Entry → Prop} (hnil : ∀ l, R [] l)
    (horder : db.readSources.Pairwise R) : db'.readSources.Pairwise R := by
  rcases h.readSources htake with hsame | hcons
  · rw [hsame]
    exact horder
  · rw [hcons]
    exact List.pairwise_cons.mpr ⟨fun l _ => hnil l, horder⟩

end Moved

end DB

/-- A successful flush changes no read at any sequence number and keeps the sources in search
order; it makes the oldest memtable the newest table of L0, with exact metadata. -/
theorem flush_keeps_view {db db' : DB} (hopened : Opened db.disk db.tableRefs)
    (hmatched : ∀ e ∈ db.state.memEntries, Matched e) (horder : DB.SearchOrder db.readSources)
    (hflush : DB.flush db = .ok () db') :
    (∀ key snapshot, db'.getOpt key snapshot = db.getOpt key snapshot) ∧
    (∀ lower upper snapshot,
      db'.scanOpt lower upper snapshot = db.scanOpt lower upper snapshot) ∧
    DB.SearchOrder db'.readSources ∧
    (db.readSources.Pairwise Above → db'.readSources.Pairwise Above) ∧
    match db.state.takeOldestFlushableMemtable db.options.memtableKind with
    | none => db' = db
    | some (memtable, _, rest) => ∃ ref, DB.Moved db db' memtable rest ref := by
  obtain ⟨hclosed, hcases⟩ := DB.flush_eq_ok hflush
  cases htake : db.state.takeOldestFlushableMemtable db.options.memtableKind with
  | none =>
    rw [htake] at hcases
    obtain rfl : db' = db := hcases
    exact ⟨fun _ _ => rfl, fun _ _ _ => rfl, horder, id, rfl⟩
  | some taken =>
    obtain ⟨memtable, source, rest⟩ := taken
    obtain ⟨ref, hmoved⟩ := DB.flush_moved hmatched hflush htake
    have hsame := hmoved.sameSources htake hclosed hopened
    refine ⟨hsame.getOpt, hsame.scanOpt horder, hmoved.pairwise htake ?_ horder,
      hmoved.pairwise htake above_nil_left, ref, hmoved⟩
    intro l a ha
    cases ha

/-- A frozen memtable between a newer one and a table that holds an older version of its key. -/
def threeVersions : DB :=
  { twoVersions with
    state := { twoVersions.state with
      mutable := (MemTable.new .bTree).put 3 [1] [9]
      immutables := [twoVersions.state.mutable]
      lastSequence := 3 }
    versions := { twoVersions.versions with nextFileNumber := 4 } }

theorem flush_keeps_view_small : ∃ db' memtable source rest ref,
    DB.flush threeVersions = .ok () db' ∧
      threeVersions.state.takeOldestFlushableMemtable .bTree = some (memtable, source, rest) ∧
      DB.Moved threeVersions db' memtable rest ref ∧ db'.state.memEntries ≠ [] ∧
      db'.getOpt [1] (some 2) = .ok (some [8]) := by
  have hok : EndsIn (fun db' => db'.state.memEntries ≠ []) (DB.flush threeVersions) := by
    decide +kernel
  obtain ⟨db', hflush, hne⟩ := hok.exists_ok
  obtain ⟨hget, -, -, -, hmoved⟩ := @flush_keeps_view threeVersions db' twoVersions_opened
    (by unfold Matched; decide +kernel) (by unfold DB.SearchOrder; decide +kernel) hflush
  have hbefore : threeVersions.getOpt [1] (some 2) = .ok (some [8]) := by decide +kernel
  obtain ⟨ref, hmoved⟩ := hmoved
  exact ⟨db', _, _, _, ref, hflush, rfl, hmoved, hne, (hget _ _).trans hbefore⟩

end TyLsm
