import TyLsm.Rearrange
import TyLsm.Program

/-! Versions whose files are on disk, and what reads return on them: `get` and
`scan` depend only on the list of all entries in search order. -/

namespace TyLsm

/-- The recorded key and sequence ranges of a file are those of its table. -/
structure FileMeta.Describes (file : FileMeta) (table : Table) : Prop where
  wellFormed : table.WellFormed
  smallest : table.properties.smallestKey = some file.smallest
  largest : table.properties.largestKey = some file.largest
  sequences : ∀ e ∈ table.entries,
    file.smallestSeq ≤ e.1.sequence ∧ e.1.sequence ≤ file.largestSeq

def fileEntries (tables : Nat → Option Table) (file : FileMeta) : List Entry :=
  ((tables file.number).map Table.entries).getD []

/-- The files of a level cover rising, disjoint ranges of user keys. -/
def Ranges (level : List FileMeta) : Prop :=
  level.Pairwise (fun a b => a.largest.userKey < b.smallest.userKey)

/-- No two files of a level cover a common user key. -/
def RangesDisjoint (level : List FileMeta) : Prop :=
  level.Pairwise (fun a b =>
    a.largest.userKey < b.smallest.userKey ∨ b.largest.userKey < a.smallest.userKey)

theorem Ranges.disjoint {level : List FileMeta} (h : Ranges level) : RangesDisjoint level :=
  List.Pairwise.imp (fun hab => .inl hab) h

/-- All entries of a version, in search order. -/
def Version.entries (v : Version) (tables : Nat → Option Table) : List Entry :=
  v.files.flatMap (fileEntries tables)

/-- A version whose files are all present, once each. -/
structure Version.Listed (v : Version) (tables : Nat → Option Table) : Prop where
  described : ∀ f ∈ v.files, ∃ t, tables f.number = some t ∧ f.Describes t
  nodup : (v.files.map FileMeta.number).Nodup
  levelZero : ∀ level, v.levels.head? = some level → level = []

/-- Moreover the lower levels are searchable. -/
structure Version.Stored (v : Version) (tables : Nat → Option Table) : Prop
    extends v.Listed tables where
  ranges : ∀ level ∈ v.levels, Ranges level

theorem fileEntries_eq {tables : Nat → Option Table} {f : FileMeta} {t : Table}
    (h : tables f.number = some t) : fileEntries tables f = t.entries := by
  simp [fileEntries, h]

namespace FileMeta.Describes

variable {f : FileMeta} {t : Table}

theorem key_mem (h : f.Describes t) {e : Entry} (he : e ∈ t.entries) :
    f.smallest ≤ e.1 ∧ e.1 ≤ f.largest :=
  ⟨h.wellFormed.smallest_le h.smallest he, h.wellFormed.le_largest h.largest he⟩

theorem userKey_mem (h : f.Describes t) {e : Entry} (he : e ∈ t.entries) :
    f.smallest.userKey ≤ e.1.userKey ∧ e.1.userKey ≤ f.largest.userKey :=
  ⟨InternalKey.userKey_le_of_le (h.key_mem he).1, InternalKey.userKey_le_of_le (h.key_mem he).2⟩

theorem overlaps_of_mem (h : f.Describes t) {e : Entry} (he : e ∈ t.entries) :
    fileOverlapsUserKey f e.1.userKey = true := by
  simp [fileOverlapsUserKey, h.userKey_mem he]

theorem smallest_le_largest (h : f.Describes t) : f.smallest.userKey ≤ f.largest.userKey := by
  obtain ⟨e, he⟩ := List.exists_mem_of_ne_nil _ h.wellFormed.entries_ne_nil
  exact (h.userKey_mem he).1.trans (h.userKey_mem he).2

end FileMeta.Describes

theorem foldl_min_le (l : List Nat) (n : Nat) : l.foldl min n ≤ n ∧ ∀ m ∈ l, l.foldl min n ≤ m := by
  induction l generalizing n with
  | nil => simp
  | cons a l ih =>
    obtain ⟨h1, h2⟩ := ih (min n a)
    refine ⟨h1.trans (min_le_left _ _), fun m hm => ?_⟩
    rcases List.mem_cons.mp hm with rfl | hm
    · exact h1.trans (min_le_right _ _)
    · exact h2 m hm

theorem le_foldl_max (l : List Nat) (n : Nat) : n ≤ l.foldl max n ∧ ∀ m ∈ l, m ≤ l.foldl max n := by
  induction l generalizing n with
  | nil => simp
  | cons a l ih =>
    obtain ⟨h1, h2⟩ := ih (max n a)
    refine ⟨(le_max_left _ _).trans h1, fun m hm => ?_⟩
    rcases List.mem_cons.mp hm with rfl | hm
    · exact (le_max_right _ _).trans h1
    · exact h2 m hm

theorem fileMetaFromTable_ok {t : Table} (h : t.WellFormed) (number fileSize : Nat) :
    ∃ file, fileMetaFromTable number fileSize t = .ok file ∧ file.number = number ∧
      file.Describes t := by
  obtain ⟨first, _, hs⟩ := h.smallest
  obtain ⟨last, _, hl⟩ := h.largest
  cases hent : t.entries with
  | nil => exact absurd hent h.entries_ne_nil
  | cons e es =>
    refine ⟨⟨number, fileSize, first.1, last.1, (es.map (fun e => e.1.sequence)).foldl min
      e.1.sequence, (es.map (fun e => e.1.sequence)).foldl max e.1.sequence⟩, ?_, rfl, ?_⟩
    · simp [fileMetaFromTable, hent, hs, hl]
    · refine ⟨h, hs, hl, fun x hx => ?_⟩
      obtain ⟨hmin, hmins⟩ := foldl_min_le (es.map (fun e => e.1.sequence)) e.1.sequence
      obtain ⟨hmax, hmaxs⟩ := le_foldl_max (es.map (fun e => e.1.sequence)) e.1.sequence
      rw [hent] at hx
      rcases List.mem_cons.mp hx with rfl | hx
      · exact ⟨hmin, hmax⟩
      · have hm : x.1.sequence ∈ es.map (fun e => e.1.sequence) := List.mem_map.mpr ⟨x, hx, rfl⟩
        exact ⟨hmins _ hm, hmaxs _ hm⟩

/-- Open tables: each one is on disk and described by its file. -/
def Opened (d : Disk) (refs : List TableRef) : Prop :=
  ∀ ref ∈ refs, d.tables ref.1.number = some ref.2 ∧ ref.1.Describes ref.2

theorem openFiles_ok {d : Disk} {files : List FileMeta}
    (h : ∀ f ∈ files, ∃ t, d.tables f.number = some t) :
    ∃ refs, openFiles d files = .ok refs ∧ refs.map Prod.fst = files ∧
      ∀ ref ∈ refs, d.tables ref.1.number = some ref.2 := by
  induction files with
  | nil => exact ⟨[], rfl, rfl, by simp⟩
  | cons f files ih =>
    obtain ⟨t, ht⟩ := h f (by simp)
    obtain ⟨refs, hopen, hmap, hrefs⟩ := ih fun g hg => h g (by simp [hg])
    refine ⟨(f, t) :: refs, ?_, by simp [hmap], ?_⟩
    · simp [openFiles, Disk.openTable, ht, hopen, bind, Except.bind, pure, Except.pure]
    · intro ref href
      rcases List.mem_cons.mp href with rfl | href
      · exact ht
      · exact hrefs ref href

theorem openLevels_ok {d : Disk} {levels : List (List FileMeta)}
    (h : ∀ level ∈ levels, ∀ f ∈ level, ∃ t, d.tables f.number = some t) :
    ∃ refs, openLevels d levels = .ok refs ∧ refs.map (List.map Prod.fst) = levels ∧
      ∀ level ∈ refs, ∀ ref ∈ level, d.tables ref.1.number = some ref.2 := by
  induction levels with
  | nil => exact ⟨[], rfl, rfl, by simp⟩
  | cons level levels ih =>
    obtain ⟨refs, hopen, hmap, hrefs⟩ := openFiles_ok (h level (by simp))
    obtain ⟨rest, hopen', hmap', hrest⟩ := ih fun l hl => h l (by simp [hl])
    refine ⟨refs :: rest, ?_, by simp [hmap, hmap'], ?_⟩
    · simp [openLevels, hopen, hopen', bind, Except.bind, pure, Except.pure]
    · intro l hl
      rcases List.mem_cons.mp hl with rfl | hl
      · exact hrefs
      · exact hrest l hl

/-- The table lists that a version opens to. -/
structure TablesOf (d : Disk) (v : Version) (l0 : List TableRef) (levels : List (List TableRef)) :
    Prop where
  l0_eq : l0.map Prod.fst = v.l0Files
  levels_eq : levels.map (List.map Prod.fst) = v.levels
  opened : Opened d (l0 ++ levels.flatten)

theorem TablesOf.files {d : Disk} {v : Version} {l0 : List TableRef} {levels : List (List TableRef)}
    (h : TablesOf d v l0 levels) : (l0 ++ levels.flatten).map Prod.fst = v.files := by
  rw [Version.files, ← h.l0_eq, ← h.levels_eq, List.map_append, List.map_flatten]

theorem openVersionTables_ok {d : Disk} {v : Version} (h : v.Listed d.tables) :
    ∃ l0 levels, openVersionTables d v = .ok (l0, levels) ∧ TablesOf d v l0 levels := by
  have hpresent : ∀ f ∈ v.files, ∃ t, d.tables f.number = some t := fun f hf =>
    (h.described f hf).imp fun t ht => ht.1
  obtain ⟨l0, hopen, hmap, hl0⟩ := openFiles_ok fun f (hf : f ∈ v.l0Files) =>
    hpresent f (List.mem_append.mpr (.inl hf))
  obtain ⟨levels, hopen', hmap', hlevels⟩ := openLevels_ok
    fun level (hl : level ∈ v.levels) f hf => hpresent f
      (List.mem_append.mpr (.inr (List.mem_flatten.mpr ⟨level, hl, hf⟩)))
  refine ⟨l0, levels, ?_, hmap, hmap', fun ref href => ?_⟩
  · simp [openVersionTables, hopen, hopen', bind, Except.bind, pure, Except.pure]
  · have hmem : ref.1 ∈ v.files := by
      rw [Version.files, ← hmap, ← hmap', ← List.map_flatten, ← List.map_append]
      exact List.mem_map.mpr ⟨ref, href, rfl⟩
    have htab : d.tables ref.1.number = some ref.2 := by
      rcases List.mem_append.mp href with href | href
      · exact hl0 ref href
      · obtain ⟨level, hl, href⟩ := List.mem_flatten.mp href
        exact hlevels level hl ref href
    obtain ⟨t, ht, hdesc⟩ := h.described ref.1 hmem
    obtain rfl : t = ref.2 := Option.some.inj (ht.symm.trans htab)
    exact ⟨htab, hdesc⟩

theorem Opened.flatMap_entries {d : Disk} {refs : List TableRef} (h : Opened d refs) :
    refs.flatMap (fun ref => ref.2.entries) =
      (refs.map Prod.fst).flatMap (fileEntries d.tables) := by
  induction refs with
  | nil => rfl
  | cons ref refs ih =>
    have href := h ref (by simp)
    rw [List.flatMap_cons, List.map_cons, List.flatMap_cons, fileEntries_eq href.1,
      ih fun r hr => h r (by simp [hr])]

theorem searchTable_eq {d : Disk} {ref : TableRef} (h : d.tables ref.1.number = some ref.2)
    (hd : ref.1.Describes ref.2) (key : Bytes) (readSeq : Nat) :
    searchTable d key readSeq ref = .ok ((newest key readSeq ref.2.entries).map Prod.snd) := by
  have hget := hd.wellFormed.get_eq_newest key readSeq
  by_cases hm : ref.2.mightContain key = true
  · simp [searchTable, hm, Disk.openTable, h, hget, bind, Except.bind, pure, Except.pure]
  · have hnone : newest key readSeq ref.2.entries = none := by
      refine newest_eq_none_iff.mpr fun e he hk => ?_
      exact absurd (hk ▸ hd.wellFormed.filter e he) hm
    simp [searchTable, hm, hnone, pure, Except.pure]

theorem newest_eq_none_of_not_overlaps {f : FileMeta} {t : Table} (h : f.Describes t)
    {key : Bytes} (ho : fileOverlapsUserKey f key = false) (readSeq : Nat) :
    newest key readSeq t.entries = none := by
  refine newest_eq_none_iff.mpr fun e he hk => ?_
  rw [← hk, entry_key, h.overlaps_of_mem he] at ho
  exact absurd ho (by simp)

theorem searchL0_eq {d : Disk} {refs : List TableRef} (h : Opened d refs) (key : Bytes)
    (readSeq : Nat) : searchL0 d key readSeq refs =
      .ok ((newest key readSeq (refs.flatMap (fun ref => ref.2.entries))).map Prod.snd) := by
  induction refs with
  | nil => rfl
  | cons ref refs ih =>
    obtain ⟨ht, hd⟩ := h ref (by simp)
    have ih := ih fun r hr => h r (by simp [hr])
    rw [List.flatMap_cons, newest_append]
    cases ho : fileOverlapsUserKey ref.1 key with
    | false =>
      rw [newest_eq_none_of_not_overlaps hd ho]
      simp [searchL0, ho, ih]
    | true =>
      cases hn : newest key readSeq ref.2.entries with
      | none => simp [searchL0, ho, searchTable_eq ht hd, hn, ih, bind, Except.bind]
      | some e => simp [searchL0, ho, searchTable_eq ht hd, hn, bind, Except.bind, pure, Except.pure]

/-- In a level with disjoint ranges the first file that covers a key is the only one. -/
theorem newest_level {d : Disk} {level : List TableRef} (h : Opened d level)
    (hr : RangesDisjoint (level.map Prod.fst)) (key : Bytes) (readSeq : Nat) :
    newest key readSeq (level.flatMap (fun ref => ref.2.entries)) =
      (level.find? (fun ref => fileOverlapsUserKey ref.1 key)).bind
        (fun ref => newest key readSeq ref.2.entries) := by
  induction level with
  | nil => rfl
  | cons ref level ih =>
    obtain ⟨ht, hd⟩ := h ref (by simp)
    obtain ⟨hlt, hr'⟩ := List.pairwise_cons.mp hr
    have hlevel : Opened d level := fun r hr => h r (by simp [hr])
    rw [List.flatMap_cons, newest_append]
    cases ho : fileOverlapsUserKey ref.1 key with
    | false => simp [ho, newest_eq_none_of_not_overlaps hd ho, ih hlevel hr']
    | true =>
      have hcover : ref.1.smallest.userKey ≤ key ∧ key ≤ ref.1.largest.userKey := by
        simpa only [fileOverlapsUserKey, Bool.and_eq_true, decide_eq_true_eq] using ho
      have hnone : newest key readSeq (level.flatMap (fun ref => ref.2.entries)) = none := by
        refine newest_eq_none_iff.mpr fun e he hk => ?_
        obtain ⟨r, hr, he⟩ := List.mem_flatMap.mp he
        obtain ⟨hsmall, hlarge⟩ := (hlevel r hr).2.userKey_mem he
        rw [show e.1.userKey = key from hk] at hsmall hlarge
        rcases hlt r.1 (List.mem_map.mpr ⟨r, hr, rfl⟩) with hgap | hgap
        · exact absurd hcover.2 (not_le.mpr (lt_of_lt_of_le hgap hsmall))
        · exact absurd hcover.1 (not_le.mpr (lt_of_le_of_lt hlarge hgap))
      simp [ho, hnone]

theorem searchLevels_eq {d : Disk} {levels : List (List TableRef)} (h : Opened d levels.flatten)
    (hr : ∀ level ∈ levels, RangesDisjoint (level.map Prod.fst)) (key : Bytes) (readSeq : Nat) :
    searchLevels d key readSeq levels = .ok ((newest key readSeq
      (levels.flatten.flatMap (fun ref => ref.2.entries))).map Prod.snd) := by
  induction levels with
  | nil => rfl
  | cons level levels ih =>
    have hlevel : Opened d level := fun r hr => h r (by simp [hr])
    have ih := ih (fun r hr => h r (by simp only [List.flatten_cons, List.mem_append, hr, or_true]))
      fun l hl => hr l (by simp [hl])
    rw [List.flatten_cons, List.flatMap_append, newest_append,
      newest_level hlevel (hr level (by simp))]
    cases hf : level.find? (fun ref => fileOverlapsUserKey ref.1 key) with
    | none => simp [searchLevels, hf, ih]
    | some ref =>
      obtain ⟨ht, hd⟩ := hlevel ref (List.mem_of_find?_eq_some hf)
      cases hn : newest key readSeq ref.2.entries with
      | none => simp [searchLevels, hf, searchTable_eq ht hd, hn, ih, bind, Except.bind]
      | some e =>
        simp [searchLevels, hf, searchTable_eq ht hd, hn, bind, Except.bind, pure, Except.pure]

theorem searchLevels_mem {d : Disk} {levels : List (List TableRef)} (h : Opened d levels.flatten)
    {key : Bytes} {readSeq : Nat} {record : ValueRecord}
    (hfound : searchLevels d key readSeq levels = .ok (some record)) :
    ∃ e ∈ levels.flatten.flatMap (fun ref => ref.2.entries),
      e.1.userKey = key ∧ e.1.sequence ≤ readSeq ∧ e.2 = record := by
  induction levels with
  | nil => simp [searchLevels] at hfound
  | cons level levels ih =>
    have hrest : searchLevels d key readSeq levels = .ok (some record) →
        ∃ e ∈ (level :: levels).flatten.flatMap (fun ref => ref.2.entries),
          e.1.userKey = key ∧ e.1.sequence ≤ readSeq ∧ e.2 = record := by
      intro hfound
      obtain ⟨e, he, hkey⟩ := ih (fun ref hr => h ref (List.mem_append_right level hr)) hfound
      exact ⟨e, by rw [List.flatten_cons, List.flatMap_append]; exact List.mem_append_right _ he,
        hkey⟩
    rw [searchLevels] at hfound
    cases hfind : level.find? (fun ref => fileOverlapsUserKey ref.1 key) with
    | none => exact hrest (by simpa [hfind] using hfound)
    | some ref =>
      have hmem : ref ∈ (level :: levels).flatten :=
        List.mem_append_left _ (List.mem_of_find?_eq_some hfind)
      obtain ⟨ht, hd⟩ := h ref hmem
      simp only [hfind, searchTable_eq ht hd, bind, Except.bind] at hfound
      cases hn : newest key readSeq ref.2.entries with
      | none => exact hrest (by simpa [hn] using hfound)
      | some e =>
        obtain ⟨hkey, hle⟩ := newest_key hn
        refine ⟨e, List.mem_flatMap.mpr ⟨ref, hmem, newest_mem hn⟩, hkey, hle, ?_⟩
        simpa [hn, pure, Except.pure] using hfound

theorem DBState.findSome_memtables (state : DBState) (key : Bytes) (readSeq : Nat) :
    state.memtables.findSome? (fun memtable => memtable.get key readSeq) =
      (newest key readSeq state.memEntries).map Prod.snd := by
  rw [memEntries]
  induction state.memtables with
  | nil => rfl
  | cons m ms ih =>
    rw [List.findSome?_cons, ih, List.flatMap_cons, newest_append, m.get_eq_newest]
    cases newest key readSeq m.entries <;> rfl

namespace DB

/-- All entries of the database, in the order in which reads visit them. -/
def allEntries (db : DB) : List Entry :=
  db.state.memEntries ++ db.versions.current.entries db.disk.tables

/-- The open tables are those of the current version. -/
structure Tabled (db : DB) : Prop where
  isOpen : db.state.closed = false
  listed : db.versions.current.Listed db.disk.tables
  tables : TablesOf db.disk db.versions.current db.state.l0Tables db.state.levelTables

/-- Moreover the current version is searchable. -/
structure Readable (db : DB) : Prop where
  isOpen : db.state.closed = false
  stored : db.versions.current.Stored db.disk.tables
  tables : TablesOf db.disk db.versions.current db.state.l0Tables db.state.levelTables

theorem Readable.tabled {db : DB} (h : db.Readable) : db.Tabled :=
  ⟨h.isOpen, h.stored.toListed, h.tables⟩

theorem Tabled.entries_eq {db : DB} (h : db.Tabled) :
    (db.state.l0Tables ++ db.state.levelTables.flatten).flatMap (fun ref => ref.2.entries) =
      db.versions.current.entries db.disk.tables := by
  rw [h.tables.opened.flatMap_entries, h.tables.files, Version.entries]

theorem Readable.entries_eq {db : DB} (h : db.Readable) :
    (db.state.l0Tables ++ db.state.levelTables.flatten).flatMap (fun ref => ref.2.entries) =
      db.versions.current.entries db.disk.tables := h.tabled.entries_eq

/-- The open tables, in search order. -/
def tableRefs (db : DB) : List TableRef := db.state.l0Tables ++ db.state.levelTables.flatten

/-- All entries of the open sources, in search order. -/
def sourceEntries (db : DB) : List Entry :=
  db.state.memEntries ++ db.tableRefs.flatMap (fun ref => ref.2.entries)

/-- An open database whose tables are on disk, with matching metadata and filters, and whose
lower levels have disjoint ranges. The list for level 0 is not in use. -/
structure Searchable (db : DB) : Prop where
  isOpen : db.state.closed = false
  opened : Opened db.disk db.tableRefs
  disjoint : ∀ level ∈ db.state.levelTables.drop 1, RangesDisjoint (level.map Prod.fst)
  levelZero : ∀ level, db.state.levelTables.head? = some level → level = []

theorem Searchable.levelTables_drop {db : DB} (h : db.Searchable) :
    (db.state.levelTables.drop 1).flatten = db.state.levelTables.flatten := by
  cases hl : db.state.levelTables with
  | nil => rfl
  | cons level levels =>
    obtain rfl : level = [] := h.levelZero level (by rw [hl]; rfl)
    rfl

theorem Searchable.getOpt_eq {db : DB} (h : db.Searchable) (key : Bytes) (snapshot : Option Nat) :
    db.getOpt key snapshot =
      .ok (visible key (snapshot.getD db.state.lastSequence) db.sourceEntries) := by
  set readSeq := snapshot.getD db.state.lastSequence with hseq
  have hl0 := searchL0_eq
    (fun r (hr : r ∈ db.state.l0Tables) => h.opened r (List.mem_append_left _ hr)) key readSeq
  have hlevels := searchLevels_eq
    (fun r (hr : r ∈ (db.state.levelTables.drop 1).flatten) =>
      h.opened r (List.mem_append_right _ (h.levelTables_drop ▸ hr))) h.disjoint key readSeq
  rw [h.levelTables_drop, List.drop_one] at hlevels
  have hall : newest key readSeq db.sourceEntries = (newest key readSeq db.state.memEntries).or
      ((newest key readSeq (db.state.l0Tables.flatMap (fun ref => ref.2.entries))).or
        (newest key readSeq (db.state.levelTables.flatten.flatMap (fun ref => ref.2.entries)))) := by
    rw [sourceEntries, tableRefs, newest_append, List.flatMap_append, newest_append]
  simp only [getOpt, h.isOpen, DBState.findSome_memtables, ← hseq, visible, hall]
  cases newest key readSeq db.state.memEntries with
  | some e => simp [pure, Except.pure]
  | none =>
    cases hn : newest key readSeq (db.state.l0Tables.flatMap (fun ref => ref.2.entries)) with
    | some e => simp [hl0, hn, bind, Except.bind, pure, Except.pure]
    | none =>
      cases hn' : newest key readSeq
        (db.state.levelTables.flatten.flatMap (fun ref => ref.2.entries)) with
      | some e => simp [hl0, hlevels, hn, hn', bind, Except.bind, pure, Except.pure]
      | none => simp [hl0, hlevels, hn, hn', bind, Except.bind, pure, Except.pure]

theorem Readable.searchable {db : DB} (h : db.Readable) : db.Searchable where
  isOpen := h.isOpen
  opened := h.tables.opened
  disjoint level hlevel := by
    refine (h.stored.ranges _ ?_).disjoint
    rw [← h.tables.levels_eq]
    exact List.mem_map.mpr ⟨level, List.mem_of_mem_drop hlevel, rfl⟩
  levelZero level hlevel := by
    have hzero : level.map Prod.fst = [] := by
      refine h.stored.levelZero _ ?_
      rw [← h.tables.levels_eq, List.head?_map, hlevel]
      rfl
    exact List.map_eq_nil_iff.mp hzero

theorem Tabled.sourceEntries_eq {db : DB} (h : db.Tabled) : db.sourceEntries = db.allEntries := by
  rw [sourceEntries, tableRefs, allEntries, h.entries_eq]

theorem Readable.getOpt_eq {db : DB} (h : db.Readable) (key : Bytes) (snapshot : Option Nat) :
    db.getOpt key snapshot =
      .ok (visible key (snapshot.getD db.state.lastSequence) db.allEntries) := by
  rw [h.searchable.getOpt_eq, h.tabled.sourceEntries_eq]

theorem storageIters_ok {d : Disk} {refs : List TableRef}
    (h : ∀ ref ∈ refs, d.tables ref.1.number = some ref.2) :
    storageIters d refs = .ok (refs.map (fun ref => SSTableStorageIterator.new ref.2.index)) := by
  induction refs with
  | nil => rfl
  | cons ref refs ih =>
    have hr := ih fun r hr => h r (by simp [hr])
    simp [storageIters, Disk.openTable, h ref (by simp), hr, bind, Except.bind, pure, Except.pure]

theorem Tabled.getOpt_mem {db : DB} (h : db.Tabled) {key value : Bytes} {snapshot : Option Nat}
    (hget : db.getOpt key snapshot = .ok (some value)) :
    ∃ e ∈ db.allEntries, e.1.userKey = key ∧
      e.1.sequence ≤ snapshot.getD db.state.lastSequence ∧ e.2 = .put value := by
  set readSeq := snapshot.getD db.state.lastSequence with hseq
  have hopened := h.tables.opened
  have hput : ∀ record : ValueRecord, record.intoVisibleValue = some value →
      record = .put value := by
    rintro (v | _) hv
    · exact congrArg _ (Option.some.inj hv)
    · cases hv
  have hlist : ∀ {l : List Entry} {e : Entry}, (∀ e ∈ l, e ∈ db.allEntries) →
      newest key readSeq l = some e → e.2.intoVisibleValue = some value →
      ∃ e ∈ db.allEntries, e.1.userKey = key ∧ e.1.sequence ≤ readSeq ∧ e.2 = .put value :=
    fun hsub hn hv => ⟨_, hsub _ (newest_mem hn), (newest_key hn).1, (newest_key hn).2, hput _ hv⟩
  have hsub : ∀ refs : List TableRef, (∀ ref ∈ refs, ref ∈ db.state.l0Tables ++
      db.state.levelTables.flatten) → ∀ e ∈ refs.flatMap (fun ref => ref.2.entries),
      e ∈ db.allEntries := by
    intro refs hrefs e he
    obtain ⟨ref, href, he⟩ := List.mem_flatMap.mp he
    rw [allEntries, ← h.entries_eq]
    exact List.mem_append_right _ (List.mem_flatMap.mpr ⟨ref, hrefs ref href, he⟩)
  have hl0 := searchL0_eq
    (fun r (hr : r ∈ db.state.l0Tables) => hopened r (List.mem_append_left _ hr)) key readSeq
  simp only [getOpt, h.isOpen, DBState.findSome_memtables, ← hseq] at hget
  cases hm : newest key readSeq db.state.memEntries with
  | some e =>
    exact hlist (fun e he => List.mem_append_left _ he) hm
      (by simpa [hm, pure, Except.pure] using hget)
  | none =>
    cases hn : newest key readSeq (db.state.l0Tables.flatMap (fun ref => ref.2.entries)) with
    | some e =>
      exact hlist (hsub _ fun ref hr => List.mem_append_left _ hr) hn
        (by simpa [hm, hl0, hn, bind, Except.bind, pure, Except.pure] using hget)
    | none =>
      have hdrop : ∀ ref ∈ (db.state.levelTables.drop 1).flatten,
          ref ∈ db.state.l0Tables ++ db.state.levelTables.flatten := by
        intro ref hr
        obtain ⟨level, hlevel, hr⟩ := List.mem_flatten.mp hr
        exact List.mem_append_right _ (List.mem_flatten.mpr ⟨level, List.mem_of_mem_drop hlevel, hr⟩)
      cases hs : searchLevels db.disk key readSeq (db.state.levelTables.drop 1) with
      | error err => simp [hm, hl0, hn, List.drop_one ▸ hs, bind, Except.bind] at hget
      | ok found =>
        cases found with
        | none =>
          simp [hm, hl0, hn, List.drop_one ▸ hs, bind, Except.bind, pure, Except.pure] at hget
        | some record =>
          obtain ⟨e, he, hkey, hle, hrecord⟩ :=
            searchLevels_mem (fun ref hr => hopened ref (hdrop ref hr)) hs
          refine ⟨e, hsub _ hdrop e he, hkey, hle, hrecord.trans (hput record ?_)⟩
          simpa [hm, hl0, hn, List.drop_one ▸ hs, bind, Except.bind, pure, Except.pure] using hget

/-- The rows of a scan are the puts within the bounds that are visible when the entries of
all sources are sorted, whatever their search order. -/
theorem scanOpt_sorted {db : DB} (hopen : db.state.closed = false)
    (hdisk : ∀ ref ∈ db.tableRefs, db.disk.tables ref.1.number = some ref.2)
    (hsorted : ∀ ref ∈ db.tableRefs, ref.2.Ordered) (lower upper : Bound)
    (snapshot : Option Nat) :
    ∃ all rows, all.Perm db.sourceEntries ∧ Rising all ∧
      db.scanOpt lower upper snapshot = .ok rows ∧ rows.Pairwise (fun a b => a.1 < b.1) ∧
      ∀ k v, (k, v) ∈ rows ↔ withinBounds k lower upper = true ∧
        visible k (snapshot.getD db.state.lastSequence) all = some v := by
  set readSeq := snapshot.getD db.state.lastSequence with hseq
  set refs := db.tableRefs with hrefs
  set memChildren : List (EntryIterator ⊕ SSTableStorageIterator) :=
    if db.state.memEntries.isEmpty then [] else [.inl (.new db.state.memEntries)] with hmem
  set memLists : List (List Entry) :=
    if db.state.memEntries.isEmpty then [] else [sortEntries db.state.memEntries] with hlists
  set tableIters : List (EntryIterator ⊕ SSTableStorageIterator) :=
    (refs.map (fun ref => SSTableStorageIterator.new ref.2.index)).map .inr with htab
  set all := sortEntries (memLists ++ refs.map (fun ref => ref.2.entries)).flatten with hall
  have hmemF : List.Forall₂ (fun c l => Iterates c l l) memChildren memLists := by
    rw [hmem, hlists]
    split
    · exact .nil
    · exact .cons (entryIterator_new _).inl .nil
  have htabF : List.Forall₂ (fun c l => Iterates c l l) tableIters
      (refs.map (fun ref => ref.2.entries)) := by
    rw [htab, List.map_map, List.forall₂_map_left_iff, List.forall₂_map_right_iff,
      List.forall₂_same]
    exact fun ref href => (hsorted ref href).iterates.inr
  have hit := MergeIterator.iterates_new (List.rel_append hmemF htabF) (by
    intro l hl
    rcases List.mem_append.mp hl with hl | hl
    · rw [hlists] at hl
      split at hl
      · cases hl
      · rw [List.mem_singleton.mp hl]
        exact rising_sortEntries _
    · obtain ⟨ref, href, rfl⟩ := List.mem_map.mp hl
      exact (hsorted ref href).sorted.rising)
  -- the merge ranges over a permutation of all entries
  have hperm : all.Perm db.sourceEntries := by
    rw [hall, sourceEntries, List.flatten_append]
    refine (sortEntries_perm _).trans (List.Perm.append ?_ (by rw [List.flatMap_def]))
    rw [hlists]
    split
    · rename_i hnil
      simp [List.isEmpty_iff.mp hnil]
    · simpa using sortEntries_perm db.state.memEntries
  have hlen : all.length < db.state.memEntries.length +
      (refs.flatMap (fun ref => ref.2.entries)).length + 1 := by
    rw [hperm.length_eq, sourceEntries, List.length_append]
    exact Nat.lt_succ_self _
  refine ⟨all, visibleRows lower upper readSeq [] all, hperm, rising_sortEntries _, ?_,
    visibleRows_sorted (rising_sortEntries _), ?_⟩
  · have hcollect := DBIterator.collect_tryNew hit hlen lower upper readSeq
    rw [visibleRows_fromLowerBound] at hcollect
    have hiters := storageIters_ok hdisk
    rw [hrefs, tableRefs] at hiters
    simp only [scanOpt, hopen, hiters, bind, Except.bind, pure, Except.pure]
    exact congrArg Except.ok hcollect
  · intro k v
    rw [mem_visibleRows]
    simp

theorem Tabled.scanOpt_sorted {db : DB} (h : db.Tabled) (lower upper : Bound)
    (snapshot : Option Nat) :
    ∃ all rows, all.Perm db.allEntries ∧ Rising all ∧
      db.scanOpt lower upper snapshot = .ok rows ∧ rows.Pairwise (fun a b => a.1 < b.1) ∧
      ∀ k v, (k, v) ∈ rows ↔ withinBounds k lower upper = true ∧
        visible k (snapshot.getD db.state.lastSequence) all = some v := by
  have hscan := DB.scanOpt_sorted h.isOpen (fun ref href => (h.tables.opened ref href).1)
    (fun ref href => (h.tables.opened ref href).2.wellFormed.ordered) lower upper snapshot
  rwa [h.sourceEntries_eq] at hscan

theorem Readable.scanOpt_eq {db : DB} (h : db.Readable) (hn : NewestFirst db.allEntries)
    (lower upper : Bound) (snapshot : Option Nat) :
    ∃ rows, db.scanOpt lower upper snapshot = .ok rows ∧
      rows.Pairwise (fun a b => a.1 < b.1) ∧
      ∀ k v, (k, v) ∈ rows ↔ withinBounds k lower upper = true ∧
        visible k (snapshot.getD db.state.lastSequence) db.allEntries = some v := by
  obtain ⟨all, rows, hperm, hrise, hscan, hsorted, hrows⟩ :=
    h.tabled.scanOpt_sorted lower upper snapshot
  refine ⟨rows, hscan, hsorted, fun k v => ?_⟩
  rw [hrows, visible_congr (newestFirst_of_rising hn hperm hrise) hn fun e => hperm.mem_iff]

theorem Readable.reads_congr {db db' : DB} (h : db.Readable) (h' : db'.Readable)
    (hn : NewestFirst db.allEntries) (hn' : NewestFirst db'.allEntries) {s : Nat}
    (hvis : ∀ k, visible k s db'.allEntries = visible k s db.allEntries) :
    (∀ k, db'.getOpt k (some s) = db.getOpt k (some s)) ∧
      ∀ lower upper, db'.scanOpt lower upper (some s) = db.scanOpt lower upper (some s) := by
  refine ⟨fun k => ?_, fun lower upper => ?_⟩
  · rw [h.getOpt_eq, h'.getOpt_eq]
    exact congrArg Except.ok (hvis k)
  · obtain ⟨rows, hrows, hsorted, hmem⟩ := h.scanOpt_eq hn lower upper (some s)
    obtain ⟨rows', hrows', hsorted', hmem'⟩ := h'.scanOpt_eq hn' lower upper (some s)
    rw [hrows, hrows']
    refine congrArg Except.ok (OrderedMap.entries_eq_of_mem_iff hsorted' hsorted fun row => ?_)
    rw [hmem row.1 row.2, hmem' row.1 row.2, Option.getD_some, Option.getD_some, hvis]

end DB

end TyLsm
