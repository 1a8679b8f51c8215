import TyLsm.Table

/-! Storage iterators: over entries in memory, over the blocks of a table, and
the merge of several iterators. Each iterator is described by the sorted list it
ranges over and the part of it that is still to come. -/

namespace TyLsm

/-- A target of `seek`. Sequence numbers are unbounded here, so the target
`(u, SequenceNumber::MAX, Put)` is the place before every version of `u`. -/
inductive SeekKey where
  | target (key : InternalKey)
  | before (userKey : Bytes)

/-- The comparison `key < target`. -/
def SeekKey.exceeds : SeekKey → InternalKey → Bool
  | .target bound, key => decide (key < bound)
  | .before userKey, key => decide (key.userKey < userKey)

theorem SeekKey.exceeds_of_le {t : SeekKey} {a b : InternalKey} (hb : t.exceeds b = true)
    (hab : a ≤ b) : t.exceeds a = true := by
  cases t with
  | target bound =>
    simp only [exceeds, decide_eq_true_eq] at hb ⊢
    exact lt_of_le_of_lt hab hb
  | before userKey =>
    simp only [exceeds, decide_eq_true_eq] at hb ⊢
    exact lt_of_le_of_lt (InternalKey.userKey_le_of_le hab) hb

class StorageIterator (ι : Type) where
  isValid : ι → Bool
  /-- `key()` and `value()`, absent where they would panic. -/
  entry : ι → Option Entry
  next : ι → ι
  seek : ι → SeekKey → ι

/-- `partition_point` of a sorted list. -/
def partitionPoint {α : Type} (pred : α → Bool) (l : List α) : Nat := (l.takeWhile pred).length

structure EntryIterator where
  entries : List Entry
  index : Nat

namespace EntryIterator

def new (entries : List Entry) : EntryIterator := ⟨sortEntries entries, 0⟩

instance : StorageIterator EntryIterator where
  isValid it := decide (it.index < it.entries.length)
  entry it := it.entries[it.index]?
  next it := if it.index < it.entries.length then { it with index := it.index + 1 } else it
  seek it key := { it with index := partitionPoint (fun e => key.exceeds e.1) it.entries }

end EntryIterator

structure SSTableStorageIterator where
  index : List IndexEntry
  blockIndex : Nat
  currentBlock : Option (List Entry)
  entryIndex : Nat

namespace SSTableStorageIterator

/-- The loop of `load_block_at`: the first non-empty block from position `i` on. -/
def loadLoop : Nat → List IndexEntry → Nat × Option (List Entry)
  | i, [] => (i, none)
  | i, e :: es => if e.block.isEmpty then loadLoop (i + 1) es else (i, some e.block)

def loadBlockAt (it : SSTableStorageIterator) (i : Nat) : SSTableStorageIterator :=
  let found := loadLoop i (it.index.drop i)
  { it with blockIndex := found.1, currentBlock := found.2, entryIndex := 0 }

def new (index : List IndexEntry) : SSTableStorageIterator :=
  loadBlockAt ⟨index, 0, none, 0⟩ 0

def advanceToNextBlock (it : SSTableStorageIterator) : SSTableStorageIterator :=
  it.loadBlockAt (it.blockIndex + 1)

def valid (it : SSTableStorageIterator) : Bool :=
  it.currentBlock.any (fun block => it.entryIndex < block.length)

def nextEntry (it : SSTableStorageIterator) : SSTableStorageIterator :=
  if it.valid then
    let it := { it with entryIndex := it.entryIndex + 1 }
    if it.valid then it else it.advanceToNextBlock
  else it

def seekKey (it : SSTableStorageIterator) (key : SeekKey) : SSTableStorageIterator :=
  let it := it.loadBlockAt (partitionPoint (fun e => key.exceeds e.lastKey) it.index)
  match it.currentBlock with
  | none => it
  | some block =>
    let it := { it with entryIndex := partitionPoint (fun e => key.exceeds e.1) block }
    if block.length ≤ it.entryIndex then it.advanceToNextBlock else it

instance : StorageIterator SSTableStorageIterator where
  isValid := valid
  entry it := it.currentBlock.bind (fun block => block[it.entryIndex]?)
  next := nextEntry
  seek := seekKey

end SSTableStorageIterator

structure MergeIterator (ι : Type) where
  children : List ι
  current : Option Nat

namespace MergeIterator

variable {ι : Type} [StorageIterator ι]

/-- The least `(key, index)` among the valid children, counting from `i`. -/
def pickFrom (i : Nat) : List ι → Option (Nat × InternalKey)
  | [] => none
  | child :: rest =>
    match StorageIterator.entry child, pickFrom (i + 1) rest with
    | none, best => best
    | some e, none => some (i, e.1)
    | some e, some (j, k) => if e.1 ≤ k then some (i, e.1) else some (j, k)

def pickCurrent (m : MergeIterator ι) : MergeIterator ι :=
  { m with current := (pickFrom 0 m.children).map Prod.fst }

def new (children : List ι) : MergeIterator ι := pickCurrent ⟨children, none⟩

instance : StorageIterator (MergeIterator ι) where
  isValid m := m.current.isSome
  entry m := m.current.bind (fun i => m.children[i]?.bind StorageIterator.entry)
  next m :=
    match m.current with
    | some i => pickCurrent { m with children := m.children.modify i StorageIterator.next }
    | none => pickCurrent m
  seek m key :=
    pickCurrent { m with children := m.children.map (fun c => StorageIterator.seek c key) }

theorem next_none {m : MergeIterator ι} (h : m.current = none) :
    StorageIterator.next m = pickCurrent m := by
  simp only [StorageIterator.next, h]

theorem next_some {m : MergeIterator ι} {i : Nat} (h : m.current = some i) :
    StorageIterator.next m =
      pickCurrent { m with children := m.children.modify i StorageIterator.next } := by
  simp only [StorageIterator.next, h]

end MergeIterator

/-- `R it all rest` describes iterators over the sorted list `all` of which `rest`
is still to come, and is kept by every call. -/
structure IteratorLaw (ι : Type) [StorageIterator ι]
    (R : ι → List Entry → List Entry → Prop) : Prop where
  isValid : ∀ {it all rest}, R it all rest → StorageIterator.isValid it = !rest.isEmpty
  entry : ∀ {it all rest}, R it all rest → StorageIterator.entry it = rest.head?
  next : ∀ {it all rest}, R it all rest → R (StorageIterator.next it) all rest.tail
  seek : ∀ {it all rest} (t : SeekKey), R it all rest →
    R (StorageIterator.seek it t) all (all.filter (fun e => !t.exceeds e.1))

/-- Draining `it` yields `rest`, and seeking it restarts inside `all`. -/
def Iterates {ι : Type} [StorageIterator ι] (it : ι) (all rest : List Entry) : Prop :=
  ∃ R, IteratorLaw ι R ∧ R it all rest

theorem iterates_law (ι : Type) [StorageIterator ι] : IteratorLaw ι Iterates where
  isValid := fun ⟨_, law, h⟩ => law.isValid h
  entry := fun ⟨_, law, h⟩ => law.entry h
  next := fun ⟨R, law, h⟩ => ⟨R, law, law.next h⟩
  seek := fun t ⟨R, law, h⟩ => ⟨R, law, law.seek t h⟩

/-- Entries in rising order of their internal keys, equal keys allowed. -/
def Rising (l : List Entry) : Prop := l.Pairwise (fun a b => a.1 ≤ b.1)

theorem SortedEntries.rising {l : List Entry} (h : SortedEntries l) : Rising l :=
  List.Pairwise.imp le_of_lt h

instance : Std.Total (fun a b : Entry => a.1 ≤ b.1) := ⟨fun a b => le_total a.1 b.1⟩

instance : IsTrans Entry (fun a b => a.1 ≤ b.1) := ⟨fun _ _ _ => le_trans⟩

theorem rising_sortEntries (l : List Entry) : Rising (sortEntries l) :=
  List.pairwise_insertionSort _ l

theorem sortEntries_perm (l : List Entry) : (sortEntries l).Perm l := List.perm_insertionSort _ l

@[simp] theorem mem_sortEntries {l : List Entry} {e : Entry} : e ∈ sortEntries l ↔ e ∈ l :=
  (sortEntries_perm l).mem_iff

theorem Rising.sortEntries_eq {l : List Entry} (h : Rising l) : sortEntries l = l :=
  List.Pairwise.insertionSort_eq h

theorem drop_partitionPoint {α : Type} (pred : α → Bool) (l : List α) :
    l.drop (partitionPoint pred l) = l.dropWhile pred := by
  calc l.drop (partitionPoint pred l)
      = (l.takeWhile pred ++ l.dropWhile pred).drop (l.takeWhile pred).length := by
        rw [List.takeWhile_append_dropWhile, partitionPoint]
    _ = l.dropWhile pred := List.drop_left

theorem Rising.dropWhile_eq_filter {l : List Entry} (h : Rising l) (t : SeekKey) :
    l.dropWhile (fun e => t.exceeds e.1) = l.filter (fun e => !t.exceeds e.1) := by
  induction l with
  | nil => rfl
  | cons e l ih =>
    obtain ⟨he, hl⟩ := List.pairwise_cons.mp h
    cases hlt : t.exceeds e.1 with
    | true => simpa [hlt] using ih hl
    | false =>
      have hall : l.filter (fun e => !t.exceeds e.1) = l := by
        refine List.filter_eq_self.mpr fun x hx => ?_
        by_contra hno
        have hx' : t.exceeds x.1 = true := by simpa using hno
        simp [t.exceeds_of_le hx' (he x hx)] at hlt
      simp [hlt, hall]

theorem entryIterator_law : IteratorLaw EntryIterator
    (fun it all rest => Rising all ∧ it.entries = all ∧ rest = all.drop it.index) where
  isValid := by
    rintro it all rest ⟨_, rfl, rfl⟩
    by_cases h : it.index < it.entries.length
    · simp [StorageIterator.isValid, h]
    · have hnil : it.entries.drop it.index = [] := List.drop_eq_nil_of_le (not_lt.mp h)
      simp [StorageIterator.isValid, h, hnil]
  entry := by
    rintro it all rest ⟨_, rfl, rfl⟩
    simp [StorageIterator.entry, List.head?_drop]
  next := by
    rintro it all rest ⟨hr, rfl, rfl⟩
    by_cases h : it.index < it.entries.length
    · simp [StorageIterator.next, h, hr]
    · have hnil : it.entries.drop it.index = [] := List.drop_eq_nil_of_le (not_lt.mp h)
      simp [StorageIterator.next, h, hr, hnil]
  seek := by
    rintro it all rest t ⟨hr, rfl, rfl⟩
    refine ⟨hr, rfl, ?_⟩
    rw [← hr.dropWhile_eq_filter, ← drop_partitionPoint]
    rfl

theorem entryIterator_new (es : List Entry) :
    Iterates (EntryIterator.new es) (sortEntries es) (sortEntries es) :=
  ⟨_, entryIterator_law, rising_sortEntries es, rfl, rfl⟩

theorem IndexEntry.Ok.block_ne_nil {i : IndexEntry} (h : i.Ok) : i.block ≠ [] := by
  obtain ⟨e, he, _⟩ := h.head
  rintro hnil
  simp [hnil] at he

/-- A table iterator stands in a block of its index, or past the last one. -/
structure TableAt (it : SSTableStorageIterator) (all rest : List Entry) : Prop where
  ok : ∀ i ∈ it.index, i.Ok
  sorted : Rising all
  all_eq : all = it.index.flatMap IndexEntry.block
  place : it.currentBlock = none ∧ rest = [] ∨
    ∃ pre i post, it.index = pre ++ i :: post ∧ it.blockIndex = pre.length ∧
      it.currentBlock = some i.block ∧ it.entryIndex < i.block.length ∧
      rest = i.block.drop it.entryIndex ++ post.flatMap IndexEntry.block

namespace SSTableStorageIterator

theorem tableAt_loadBlockAt {it : SSTableStorageIterator} {all : List Entry} {pre post : List IndexEntry}
    (ok : ∀ i ∈ it.index, i.Ok) (sorted : Rising all)
    (all_eq : all = it.index.flatMap IndexEntry.block) (hsplit : it.index = pre ++ post) :
    TableAt (it.loadBlockAt pre.length) all (post.flatMap IndexEntry.block) := by
  have hdrop : it.index.drop pre.length = post := by rw [hsplit, List.drop_left]
  refine ⟨ok, sorted, all_eq, ?_⟩
  cases post with
  | nil => exact .inl ⟨by simp [loadBlockAt, hdrop, loadLoop], rfl⟩
  | cons i post =>
    have hne := (ok i (by simp [hsplit])).block_ne_nil
    have hload : it.loadBlockAt pre.length =
        { it with blockIndex := pre.length, currentBlock := some i.block, entryIndex := 0 } := by
      simp [loadBlockAt, hdrop, loadLoop, hne]
    rw [hload]
    exact .inr ⟨pre, i, post, hsplit, rfl, rfl, List.length_pos_iff.mpr hne, by simp⟩

theorem tableAt_isValid {it : SSTableStorageIterator} {all rest : List Entry}
    (h : TableAt it all rest) : it.valid = !rest.isEmpty := by
  rcases h.place with ⟨hn, rfl⟩ | ⟨pre, i, post, _, _, hc, hlt, rfl⟩
  · simp [valid, hn]
  · have hne : i.block.drop it.entryIndex ≠ [] := by simpa using hlt
    simp [valid, hc, hlt, hne]

theorem tableAt_next {it : SSTableStorageIterator} {all rest : List Entry}
    (h : TableAt it all rest) : TableAt it.nextEntry all rest.tail := by
  rcases h.place with ⟨hn, rfl⟩ | ⟨pre, i, post, hsplit, hb, hc, hlt, rfl⟩
  · have hnext : it.nextEntry = it := by simp [nextEntry, valid, hn]
    rw [hnext]
    exact h
  · have hhead : (i.block.drop it.entryIndex).tail = i.block.drop (it.entryIndex + 1) := by simp
    have htail : (i.block.drop it.entryIndex ++ post.flatMap IndexEntry.block).tail =
        i.block.drop (it.entryIndex + 1) ++ post.flatMap IndexEntry.block := by
      rw [← hhead, List.tail_append_of_ne_nil (by simpa using hlt)]
    rw [htail]
    by_cases hlast : it.entryIndex + 1 < i.block.length
    · have hnext : it.nextEntry = { it with entryIndex := it.entryIndex + 1 } := by
        simp [nextEntry, valid, hc, hlt, hlast]
      rw [hnext]
      exact ⟨h.ok, h.sorted, h.all_eq, .inr ⟨pre, i, post, hsplit, hb, hc, hlast, rfl⟩⟩
    · have hnext : it.nextEntry =
          ({ it with entryIndex := it.entryIndex + 1 } : SSTableStorageIterator).loadBlockAt
            (pre ++ [i]).length := by
        simp [nextEntry, valid, hc, hlt, hlast, advanceToNextBlock, hb]
      rw [hnext, List.drop_eq_nil_of_le (not_lt.mp hlast), List.nil_append]
      exact tableAt_loadBlockAt h.ok h.sorted h.all_eq (by simp [hsplit])

theorem filter_takeWhile_eq_nil {index : List IndexEntry} (ok : ∀ i ∈ index, i.Ok)
    (sorted : Rising (index.flatMap IndexEntry.block)) (t : SeekKey) :
    ((index.takeWhile (fun i => t.exceeds i.lastKey)).flatMap IndexEntry.block).filter
      (fun e => !t.exceeds e.1) = [] := by
  refine List.filter_eq_nil_iff.mpr fun e he => ?_
  obtain ⟨i, hi, he⟩ := List.mem_flatMap.mp he
  have hlast : t.exceeds i.lastKey = true := by simpa using List.mem_takeWhile_imp hi
  have himem : i ∈ index := List.takeWhile_subset _ hi
  obtain ⟨last, hl, hk⟩ := (ok i himem).last
  obtain ⟨init, hinit⟩ := List.getLast?_eq_some_iff.mp hl
  have hs : Rising i.block := (List.pairwise_flatMap.mp sorted).1 i himem
  have hle : e.1 ≤ last.1 := by
    rw [hinit] at he hs
    rcases List.mem_append.mp he with he | he
    · exact (List.pairwise_append.mp hs).2.2 e he last (by simp)
    · rw [List.mem_singleton.mp he]
  simpa using t.exceeds_of_le hlast (hk ▸ hle)

theorem tableAt_seek {it : SSTableStorageIterator} {all rest : List Entry}
    (h : TableAt it all rest) (t : SeekKey) :
    TableAt (it.seekKey t) all (all.filter (fun e => !t.exceeds e.1)) := by
  set before := it.index.takeWhile (fun i => t.exceeds i.lastKey) with hbefore
  set after := it.index.dropWhile (fun i => t.exceeds i.lastKey) with hafter
  have hsplit : it.index = before ++ after := (List.takeWhile_append_dropWhile).symm
  have hsorted : Rising (it.index.flatMap IndexEntry.block) := h.all_eq ▸ h.sorted
  have hload := tableAt_loadBlockAt h.ok h.sorted h.all_eq hsplit
  have hpoint : partitionPoint (fun e => t.exceeds e.lastKey) it.index = before.length := rfl
  have hall : all.filter (fun e => !t.exceeds e.1) =
      (after.flatMap IndexEntry.block).filter (fun e => !t.exceeds e.1) := by
    rw [h.all_eq, hsplit, List.flatMap_append, List.filter_append,
      filter_takeWhile_eq_nil h.ok hsorted, List.nil_append]
  rw [hall]
  cases hcase : after with
  | nil =>
    have hseek : it.seekKey t = it.loadBlockAt before.length := by
      have hcur : (it.loadBlockAt before.length).currentBlock = none := by
        simp [loadBlockAt, hsplit, hcase, loadLoop]
      simp only [seekKey, hpoint, hcur]
    rw [hseek]
    simpa [hcase] using hload
  | cons i post =>
    have himem : i ∈ it.index := by simp [hsplit, hcase]
    have hi := h.ok i himem
    -- the target's block ends at or above the target, so the seek stays inside it
    have hge : t.exceeds i.lastKey = false := by
      have := List.head?_dropWhile_not (fun i : IndexEntry => t.exceeds i.lastKey) it.index
      rw [← hafter, hcase] at this
      simpa using this
    obtain ⟨last, hl, hk⟩ := hi.last
    obtain ⟨init, hinit⟩ := List.getLast?_eq_some_iff.mp hl
    have hs : Rising i.block := (List.pairwise_flatMap.mp hsorted).1 i himem
    have hdrop : i.block.drop (partitionPoint (fun e => t.exceeds e.1) i.block) =
        i.block.filter (fun e => !t.exceeds e.1) := by
      rw [drop_partitionPoint, hs.dropWhile_eq_filter]
    have hlastmem : last ∈ i.block.filter (fun e => !t.exceeds e.1) := by
      refine List.mem_filter.mpr ⟨by simp [hinit], ?_⟩
      simpa [hk] using hge
    have hlt : partitionPoint (fun e => t.exceeds e.1) i.block < i.block.length := by
      by_contra hno
      rw [← hdrop, List.drop_eq_nil_of_le (not_lt.mp hno)] at hlastmem
      exact absurd hlastmem List.not_mem_nil
    have hrest : (post.flatMap IndexEntry.block).filter (fun e => !t.exceeds e.1) =
        post.flatMap IndexEntry.block := by
      refine List.filter_eq_self.mpr fun e he => ?_
      rw [hsplit, hcase, List.flatMap_append, List.flatMap_cons, ← List.append_assoc] at hsorted
      have hless := (List.pairwise_append.mp hsorted).2.2 last (by simp [hinit]) e he
      by_contra hno
      have he' : t.exceeds e.1 = true := by simpa using hno
      simp [t.exceeds_of_le he' (hk ▸ hless)] at hge
    have hseek : it.seekKey t = { it with
        blockIndex := before.length
        currentBlock := some i.block
        entryIndex := partitionPoint (fun e => t.exceeds e.1) i.block } := by
      have hcur : it.loadBlockAt before.length =
          { it with blockIndex := before.length, currentBlock := some i.block, entryIndex := 0 } := by
        simp [loadBlockAt, hsplit, hcase, loadLoop, hi.block_ne_nil]
      simp only [seekKey, hpoint, hcur, not_le.mpr hlt, if_false]
    rw [hseek]
    refine ⟨h.ok, h.sorted, h.all_eq, .inr ⟨before, i, post, by rw [hsplit, hcase], rfl, rfl, hlt, ?_⟩⟩
    rw [List.flatMap_cons, List.filter_append, hdrop, hrest]

theorem law : IteratorLaw SSTableStorageIterator TableAt where
  isValid := tableAt_isValid
  entry := by
    intro it all rest h
    rcases h.place with ⟨hn, rfl⟩ | ⟨pre, i, post, _, _, hc, hlt, rfl⟩
    · simp [StorageIterator.entry, hn]
    · simp [StorageIterator.entry, hc, List.head?_append, List.head?_drop, hlt]
  next := tableAt_next
  seek := fun t h => tableAt_seek h t

end SSTableStorageIterator

/-- All that an iterator needs of a table. -/
structure Table.Ordered (t : Table) : Prop where
  sorted : SortedEntries t.entries
  indexOk : ∀ i ∈ t.index, i.Ok

theorem Table.WellFormed.ordered {t : Table} (h : t.WellFormed) : t.Ordered :=
  ⟨h.sorted, h.indexOk⟩

theorem Table.Ordered.iterates {t : Table} (h : t.Ordered) :
    Iterates (SSTableStorageIterator.new t.index) t.entries t.entries :=
  ⟨TableAt, SSTableStorageIterator.law,
    @SSTableStorageIterator.tableAt_loadBlockAt _ _ [] _ h.indexOk h.sorted.rising rfl rfl⟩

end TyLsm
