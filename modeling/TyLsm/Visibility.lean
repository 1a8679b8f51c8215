import TyLsm.Reads

/-! What scans return in terms of the entries alone, and that point reads agree with them. -/

namespace TyLsm

/-- The entry of a key that a read at a sequence number is to return: the first one in the
order of internal keys. -/
structure IsFirst (k : Bytes) (s : Nat) (entries : List Entry) (e : Entry) : Prop where
  mem : e ∈ entries
  key : e.1.userKey = k
  visible : e.1.sequence ≤ s
  first : ∀ e' ∈ entries, e'.1.userKey = k → e'.1.sequence ≤ s → e.1 ≤ e'.1

theorem newest_isFirst {l : List Entry}
    (hl : l.Pairwise (fun a b => a.1.userKey = b.1.userKey → a.1 ≤ b.1)) {k : Bytes} {s : Nat}
    {e : Entry} (h : newest k s l = some e) : IsFirst k s l e := by
  obtain ⟨hkey, hle⟩ := newest_key h
  refine ⟨newest_mem h, hkey, hle, fun e' he' hk' hs' => ?_⟩
  obtain ⟨-, pre, post, rfl, hpre⟩ := List.find?_eq_some_iff_append.mp h
  rcases List.mem_append.mp he' with he' | he'
  · have hno := hpre e' he'
    simp [hk', hs'] at hno
  · rcases List.mem_cons.mp he' with rfl | he'
    · exact le_rfl
    · exact (List.pairwise_cons.mp (List.pairwise_append.mp hl).2.1).1 e' he' (hkey.trans hk'.symm)

theorem visible_eq_some_iff {l l' : List Entry} (hperm : l'.Perm l)
    (hl : l'.Pairwise (fun a b => a.1.userKey = b.1.userKey → a.1 ≤ b.1))
    (hsame : ∀ a ∈ l, ∀ b ∈ l, a.1 = b.1 → a.2 = b.2) {k v : Bytes} {s : Nat} :
    visible k s l' = some v ↔ ∃ e, IsFirst k s l e ∧ e.2 = .put v := by
  have hvalue : ∀ record : ValueRecord, record.intoVisibleValue = some v ↔ record = .put v := by
    rintro (value | _) <;> simp [ValueRecord.intoVisibleValue]
  constructor
  · intro h
    obtain ⟨e, hn, hv⟩ := Option.bind_eq_some_iff.mp h
    obtain ⟨hmem, hkey, hle, hfirst⟩ := newest_isFirst hl hn
    exact ⟨e, ⟨hperm.mem_iff.mp hmem, hkey, hle, fun e' he' => hfirst e' (hperm.mem_iff.mpr he')⟩,
      (hvalue _).mp hv⟩
  · rintro ⟨e, he, hv⟩
    have hmem : e ∈ l' := hperm.mem_iff.mpr he.mem
    cases hn : newest k s l' with
    | none => exact absurd he.visible (not_le.mpr (newest_eq_none_iff.mp hn e hmem he.key))
    | some found =>
      have hfound := newest_isFirst hl hn
      have heq : found.1 = e.1 := le_antisymm (hfound.first e hmem he.key he.visible)
        (he.first found (hperm.mem_iff.mp hfound.mem) hfound.key hfound.visible)
      have hrecord := hsame found (hperm.mem_iff.mp hfound.mem) e he.mem heq
      rw [visible, hn, Option.bind_some, hvalue, hrecord, hv]

namespace DB

/-- A scan returns, in rising order of the keys, the pairs within its bounds whose first
entry up to the read sequence, over all sources, is a put of the value. -/
theorem scan_is_reference {db : DB} (hopen : db.state.closed = false)
    (hdisk : ∀ ref ∈ db.tableRefs, db.disk.tables ref.1.number = some ref.2)
    (hsorted : ∀ ref ∈ db.tableRefs, ref.2.Ordered)
    (hsame : ∀ a ∈ db.sourceEntries, ∀ b ∈ db.sourceEntries, a.1 = b.1 → a.2 = b.2)
    (lower upper : Bound) (snapshot : Option Nat) :
    ∃ rows, db.scanOpt lower upper snapshot = .ok rows ∧
      rows.Pairwise (fun a b => a.1 < b.1) ∧
      ∀ k v, (k, v) ∈ rows ↔ withinBounds k lower upper = true ∧
        ∃ e, IsFirst k (snapshot.getD db.state.lastSequence) db.sourceEntries e ∧ e.2 = .put v := by
  obtain ⟨all, rows, hperm, hrise, hscan, hrows, hmem⟩ :=
    DB.scanOpt_sorted hopen hdisk hsorted lower upper snapshot
  have hordered : all.Pairwise (fun a b => a.1.userKey = b.1.userKey → a.1 ≤ b.1) := by
    refine List.Pairwise.imp ?_ hrise
    intro a b hab _
    exact hab
  refine ⟨rows, hscan, hrows, fun k v => ?_⟩
  rw [hmem, visible_eq_some_iff hperm hordered hsame]

/-- The sources of a read, in search order. -/
def readSources (db : DB) : List (List Entry) :=
  db.state.memtables.map MemTable.entries ++ db.tableRefs.map (fun ref => ref.2.entries)

/-- A source that is searched earlier holds the newer versions of each key; two sources may
share an entry. -/
def SearchOrder (sources : List (List Entry)) : Prop :=
  sources.Pairwise (fun l r => ∀ a ∈ l, ∀ b ∈ r, a.1.userKey = b.1.userKey →
    b.1.sequence < a.1.sequence ∨ a = b)

theorem readSources_flatten (db : DB) : db.readSources.flatten = db.sourceEntries := by
  rw [readSources, List.flatten_append, ← List.flatMap_def, ← List.flatMap_def, sourceEntries,
    DBState.memEntries]

theorem readSources_sorted {db : DB} (h : Opened db.disk db.tableRefs) :
    ∀ l ∈ db.readSources, SortedEntries l := by
  intro l hl
  rcases List.mem_append.mp hl with hl | hl
  · obtain ⟨m, -, rfl⟩ := List.mem_map.mp hl
    exact m.entries_sorted
  · obtain ⟨ref, href, rfl⟩ := List.mem_map.mp hl
    exact (h ref href).2.wellFormed.sorted

end DB

/-- Sorted sources in search order: the entries of each key are in order, and an internal key
has one record. -/
theorem searchOrder_entries {sources : List (List Entry)} (hsorted : ∀ l ∈ sources, SortedEntries l)
    (h : DB.SearchOrder sources) :
    sources.flatten.Pairwise (fun a b => a.1.userKey = b.1.userKey → a.1 ≤ b.1) ∧
      ∀ a ∈ sources.flatten, ∀ b ∈ sources.flatten, a.1 = b.1 → a.2 = b.2 := by
  have hpair : sources.flatten.Pairwise (fun a b =>
      a.1.userKey = b.1.userKey → a.1 < b.1 ∨ a = b) := by
    refine List.pairwise_flatten.mpr ⟨fun l hl => (hsorted l hl).imp fun hab _ => .inl hab, ?_⟩
    refine List.Pairwise.imp (fun hlr a ha b hb hk => ?_) h
    rcases hlr a ha b hb hk with hlt | heq
    · exact .inl ((InternalKey.lt_iff _ _).mpr (.inr ⟨hk, .inl hlt⟩))
    · exact .inr heq
  refine ⟨hpair.imp fun hab hk => (hab hk).elim le_of_lt fun heq => heq ▸ le_rfl, ?_⟩
  intro a ha b hb hab
  by_contra hne
  have hs : Std.Symm (fun a b : Entry => a.1 = b.1 → a = b) := ⟨fun _ _ h heq => (h heq.symm).symm⟩
  have hp : sources.flatten.Pairwise (fun a b => a.1 = b.1 → a = b) :=
    hpair.imp fun {x y} hxy heq => (hxy (congrArg InternalKey.userKey heq)).resolve_left
      (heq ▸ lt_irrefl _)
  exact hne (congrArg Prod.snd (hp.forall ha hb (fun heq => hne (congrArg Prod.snd heq)) hab))

theorem DB.Searchable.get_agrees {db : DB} (h : db.Searchable)
    (horder : DB.SearchOrder db.readSources) (key : Bytes) (snapshot : Option Nat) :
    (∀ value, db.getOpt key snapshot = .ok (some value) ↔
      db.scanOpt (.included key) (.included key) snapshot = .ok [(key, value)]) ∧
    (db.getOpt key snapshot = .ok none ↔
      db.scanOpt (.included key) (.included key) snapshot = .ok []) := by
  obtain ⟨hordered, hsame⟩ := searchOrder_entries (DB.readSources_sorted h.opened) horder
  rw [DB.readSources_flatten] at hordered hsame
  obtain ⟨rows, hscan, hrows, hmem⟩ := DB.scan_is_reference h.isOpen
    (fun ref href => (h.opened ref href).1)
    (fun ref href => (h.opened ref href).2.wellFormed.ordered) hsame (.included key)
    (.included key) snapshot
  have hwithin : ∀ k, withinBounds k (.included key) (.included key) = true ↔ k = key := by
    intro k
    simp only [withinBounds, Bound.lowerOk, Bound.upperOk, Bool.and_eq_true, decide_eq_true_eq]
    exact ⟨fun h => le_antisymm h.2 h.1, fun h => h ▸ ⟨le_rfl, le_rfl⟩⟩
  have hrow : ∀ k v, (k, v) ∈ rows ↔ k = key ∧
      visible key (snapshot.getD db.state.lastSequence) db.sourceEntries = some v := by
    intro k v
    rw [hmem, hwithin, visible_eq_some_iff (List.Perm.refl _) hordered hsame]
    exact and_congr_right fun hk => hk ▸ Iff.rfl
  rw [h.getOpt_eq, hscan]
  -- every row has the key, so there is at most one
  cases hv : visible key (snapshot.getD db.state.lastSequence) db.sourceEntries with
  | none =>
    have hnil : rows = [] := List.eq_nil_iff_forall_not_mem.mpr fun row hr => by
      have := (hrow row.1 row.2).mp hr
      rw [hv] at this
      exact absurd this.2 (Option.some_ne_none _).symm
    simp [hnil]
  | some v =>
    have hone : rows = [(key, v)] := by
      have hv' : (key, v) ∈ rows := (hrow key v).mpr ⟨rfl, hv⟩
      refine OrderedMap.entries_eq_of_mem_iff hrows (List.pairwise_singleton _ _) fun row => ?_
      rw [List.mem_singleton]
      constructor
      · intro hr
        obtain ⟨hk, hvis⟩ := (hrow row.1 row.2).mp hr
        rw [hv] at hvis
        exact Prod.ext hk (Option.some.inj hvis).symm
      · rintro rfl
        exact hv'
    simp [hone]

/-- A point read and a scan of the one key return the same, when every table is on disk with
metadata and a filter that match it, the lower levels have disjoint ranges, and the sources
are in search order. -/
theorem get_agrees_with_scan {db : DB} (hopened : Opened db.disk db.tableRefs)
    (hdisjoint : ∀ level ∈ db.state.levelTables.drop 1, RangesDisjoint (level.map Prod.fst))
    (hzero : ∀ level, db.state.levelTables.head? = some level → level = [])
    (horder : DB.SearchOrder db.readSources) (key : Bytes) (snapshot : Option Nat) :
    (∀ value, db.getOpt key snapshot = .ok (some value) ↔
      db.scanOpt (.included key) (.included key) snapshot = .ok [(key, value)]) ∧
    (db.getOpt key snapshot = .ok none ↔
      db.scanOpt (.included key) (.included key) snapshot = .ok []) := by
  cases hclosed : db.state.closed with
  | true =>
    have hget : db.getOpt key snapshot = .error .closed := by
      simp [DB.getOpt, hclosed, throw, throwThe, MonadExceptOf.throw, bind, Except.bind]
    have hscan : db.scanOpt (.included key) (.included key) snapshot = .error .closed := by
      simp [DB.scanOpt, hclosed, throw, throwThe, MonadExceptOf.throw, bind, Except.bind]
    rw [hget, hscan]
    simp
  | false => exact DB.Searchable.get_agrees ⟨hclosed, hopened, hdisjoint, hzero⟩ horder key snapshot

/-- A table with one version of a key, below a memtable with a newer one. -/
def twoVersions : DB where
  env := .inOrder
  options := {}
  disk := { Disk.empty "db" with
    tables := fun number => if number = 3 then
      some (buildTable 4096 [(⟨[1], 1, .put⟩, .put [7])]) else none }
  journal := []
  state := ⟨(MemTable.new .bTree).put 2 [1] [8], [],
    [(⟨3, 0, ⟨[1], 1, .put⟩, ⟨[1], 1, .put⟩, 1, 1⟩,
      buildTable 4096 [(⟨[1], 1, .put⟩, .put [7])])], [[], []], 2, false⟩
  versions := .newEmpty 2
  watermark := .new
  wal := 1

theorem twoVersions_opened : Opened twoVersions.disk twoVersions.tableRefs := by
  intro ref href
  obtain rfl := List.mem_singleton.mp href
  have hwell := @wellFormed_buildTable 4096 [(⟨[1], 1, .put⟩, .put [7])] (by simp)
    (List.pairwise_singleton _ _) (by simp [Matched, ValueRecord.valueType])
  exact ⟨rfl, hwell, by decide +kernel, by decide +kernel, by decide +kernel⟩

theorem scan_is_reference_small : ∃ rows,
    twoVersions.scanOpt .unbounded .unbounded (some 1) = .ok rows ∧ ([1], [7]) ∈ rows := by
  obtain ⟨rows, hscan, -, hmem⟩ := @DB.scan_is_reference twoVersions rfl
    (fun ref href => (twoVersions_opened ref href).1)
    (fun ref href => (twoVersions_opened ref href).2.wellFormed.ordered) (by decide +kernel)
    .unbounded .unbounded (some 1)
  refine ⟨rows, hscan, (hmem [1] [7]).mpr ⟨rfl, (⟨[1], 1, .put⟩, .put [7]), ?_, rfl⟩⟩
  exact ⟨by decide +kernel, rfl, by decide, by decide +kernel⟩

theorem get_agrees_with_scan_small :
    twoVersions.getOpt [1] (some 1) = .ok (some [7]) ∧
      twoVersions.scanOpt (.included [1]) (.included [1]) (some 1) = .ok [([1], [7])] := by
  have hget : twoVersions.getOpt [1] (some 1) = .ok (some [7]) := by decide +kernel
  refine ⟨hget, ((get_agrees_with_scan twoVersions_opened ?_ ?_ ?_ [1] (some 1)).1 [7]).mp hget⟩
  · exact List.forall_mem_singleton.mpr List.Pairwise.nil
  · intro level hlevel
    exact (Option.some.inj hlevel).symm
  · refine List.pairwise_pair.mpr ?_
    decide +kernel

end TyLsm
