import TyLsm.Visibility

/-! The two memtable kinds next to each other. The skip list compares and seeks keys of its own,
keeps their bytes in an arena and counts its size there; its map comes from another library. -/

namespace TyLsm

/-- The operations of `crossbeam_skiplist::SkipMap`. -/
structure SkipMap (κ ν : Type) where
  Map : Type
  new : Map
  insert : Map → κ → ν → Map
  iter : Map → List (κ × ν)
  /-- `range(seek..)`. -/
  rangeFrom : Map → κ → List (κ × ν)
  len : Map → Nat
  isEmpty : Map → Bool

/-- An ordered map whose insertion replaces a key that is present. -/
structure SkipMap.Lawful {κ ν : Type} [LinearOrder κ] (S : SkipMap κ ν) : Prop where
  iter_new : S.iter S.new = []
  sorted : ∀ m, (S.iter m).Pairwise (fun a b => a.1 < b.1)
  mem_insert : ∀ m k v p, p ∈ S.iter (S.insert m k v) ↔ p = (k, v) ∨ p ∈ S.iter m ∧ p.1 ≠ k
  rangeFrom_eq : ∀ m k, S.rangeFrom m k = (S.iter m).filter (fun e => k ≤ e.1)
  len_eq : ∀ m, S.len m = (S.iter m).length
  isEmpty_eq : ∀ m, S.isEmpty m = (S.iter m).isEmpty

/-- `Arc<[u8]>`. -/
abbrev ArenaBytes := Bytes

structure Arena where
  chunks : List ArenaBytes
  bytes : Nat

namespace Arena

def new : Arena := ⟨[], 0⟩

def allocate (arena : Arena) (bytes : Bytes) : ArenaBytes × Arena :=
  (bytes, ⟨arena.chunks ++ [bytes], arena.bytes + bytes.length⟩)

end Arena

structure ArenaInternalKey where
  userKey : ArenaBytes
  sequence : Nat
  valueType : ValueType
  deriving DecidableEq

inductive ArenaValueRecord where
  | put (value : ArenaBytes)
  | delete
  deriving DecidableEq

def ArenaValueRecord.toValueRecord : ArenaValueRecord → ValueRecord
  | put value => .put value
  | delete => .delete

namespace ArenaInternalKey

def toInternalKey (k : ArenaInternalKey) : InternalKey := ⟨k.userKey, k.sequence, k.valueType⟩

def cmp (a b : ArenaInternalKey) : Ordering :=
  ((compareOfLessAndEq a.userKey b.userKey).then (compareOfLessAndEq b.sequence a.sequence)).then
    (compareOfLessAndEq a.valueType.toNat b.valueType.toNat)

theorem toInternalKey_injective : Function.Injective toInternalKey := by
  rintro ⟨u, s, t⟩ ⟨u', s', t'⟩ h
  injection h with hu hs ht
  subst hu hs ht
  rfl

theorem compareOfLessAndEq_eq_iff {α : Type} [LinearOrder α] {hlt : DecidableLT α}
    {heq : DecidableEq α} {a b : α} : compareOfLessAndEq a b = .eq ↔ a = b :=
  compareOfLessAndEq_eq_eq le_refl not_le

theorem cmp_eq_lt_iff {a b : ArenaInternalKey} :
    a.cmp b = .lt ↔ a.toInternalKey < b.toInternalKey := by
  rw [cmp, Ordering.then_eq_lt, Ordering.then_eq_lt, Ordering.then_eq_eq, compareOfLessAndEq_eq_lt,
    compareOfLessAndEq_eq_lt, compareOfLessAndEq_eq_lt, compareOfLessAndEq_eq_iff,
    compareOfLessAndEq_eq_iff, InternalKey.lt_iff]
  change _ ↔ a.userKey < b.userKey ∨ a.userKey = b.userKey ∧ (b.sequence < a.sequence ∨
    b.sequence = a.sequence ∧ a.valueType.toNat < b.valueType.toNat)
  tauto

theorem cmp_eq_eq_iff {a b : ArenaInternalKey} : a.cmp b = .eq ↔ a = b := by
  rw [cmp, Ordering.then_eq_eq, Ordering.then_eq_eq, compareOfLessAndEq_eq_iff,
    compareOfLessAndEq_eq_iff, compareOfLessAndEq_eq_iff]
  constructor
  · obtain ⟨u, s, t⟩ := a
    obtain ⟨u', s', t'⟩ := b
    rintro ⟨⟨hu, hs⟩, ht⟩
    dsimp only at hu hs ht
    subst hu hs
    cases t <;> cases t' <;> first | rfl | exact absurd ht (by decide)
  · rintro rfl
    exact ⟨⟨rfl, rfl⟩, rfl⟩

theorem cmp_ne_gt_iff {a b : ArenaInternalKey} :
    a.cmp b ≠ .gt ↔ a.toInternalKey ≤ b.toInternalKey := by
  have hcases : a.cmp b ≠ .gt ↔ a.cmp b = .lt ∨ a.cmp b = .eq := by
    cases a.cmp b <;> simp
  rw [hcases, cmp_eq_lt_iff, cmp_eq_eq_iff, le_iff_lt_or_eq, toInternalKey_injective.eq_iff]

/-- The keys of the skip list are ordered by their own `cmp`. -/
instance : LinearOrder ArenaInternalKey where
  le a b := a.cmp b ≠ .gt
  lt a b := a.cmp b = .lt
  le_refl a := cmp_ne_gt_iff.mpr le_rfl
  le_trans a b c hab hbc := cmp_ne_gt_iff.mpr ((cmp_ne_gt_iff.mp hab).trans (cmp_ne_gt_iff.mp hbc))
  lt_iff_le_not_ge a b := by rw [cmp_eq_lt_iff, cmp_ne_gt_iff, cmp_ne_gt_iff, lt_iff_le_not_ge]
  le_antisymm a b hab hba :=
    toInternalKey_injective ((cmp_ne_gt_iff.mp hab).antisymm (cmp_ne_gt_iff.mp hba))
  le_total a b := by
    rw [cmp_ne_gt_iff, cmp_ne_gt_iff]
    exact le_total _ _
  toDecidableLE a b := inferInstanceAs (Decidable (a.cmp b ≠ .gt))
  toDecidableLT a b := inferInstanceAs (Decidable (a.cmp b = .lt))
  compare := cmp
  compare_eq_compareOfLessAndEq a b := by
    by_cases hlt : a.cmp b = .lt
    · exact hlt.trans (if_pos hlt).symm
    · by_cases heq : a = b
      · exact (cmp_eq_eq_iff.mpr heq).trans ((if_neg hlt).trans (if_pos heq)).symm
      · refine Eq.trans ?_ ((if_neg hlt).trans (if_neg heq)).symm
        cases hcmp : a.cmp b with
        | lt => exact absurd hcmp hlt
        | eq => exact absurd (cmp_eq_eq_iff.mp hcmp) heq
        | gt => rfl

theorem lt_iff {a b : ArenaInternalKey} : a < b ↔ a.toInternalKey < b.toInternalKey :=
  cmp_eq_lt_iff

theorem le_iff {a b : ArenaInternalKey} : a ≤ b ↔ a.toInternalKey ≤ b.toInternalKey :=
  cmp_ne_gt_iff

end ArenaInternalKey

/-- The iterator yields keys and records of the skip list; both are turned into plain ones. -/
def toEntry (e : ArenaInternalKey × ArenaValueRecord) : Entry :=
  (e.1.toInternalKey, e.2.toValueRecord)

/-- The skip list memtable, with its arena. -/
structure ArenaMemTable (S : SkipMap ArenaInternalKey ArenaValueRecord) where
  map : S.Map
  arena : Arena

/-- The loop over `range(seek_key..)` of the skip list. -/
def arenaSeekLoop (key : Bytes) : List (ArenaInternalKey × ArenaValueRecord) → Option ValueRecord
  | [] => none
  | (internalKey, value) :: rest =>
    if internalKey.userKey = key then some value.toValueRecord
    else if key < internalKey.userKey then none
    else arenaSeekLoop key rest

/-- The loop that `btree::MemTable::scan` and `visible_scan` share word for word. -/
def scanLoop (lower upper : Bound) (readSeq : Nat) :
    List Bytes → List (Bytes × Bytes) → List Entry → List (Bytes × Bytes)
  | _, rows, [] => rows
  | seen, rows, (internalKey, value) :: rest =>
    if readSeq < internalKey.sequence then scanLoop lower upper readSeq seen rows rest
    else if !withinBounds internalKey.userKey lower upper then
      scanLoop lower upper readSeq seen rows rest
    else if internalKey.userKey ∈ seen then scanLoop lower upper readSeq seen rows rest
    else
      match value with
      | .put value =>
        scanLoop lower upper readSeq (internalKey.userKey :: seen)
          (rows ++ [(internalKey.userKey, value)]) rest
      | .delete => scanLoop lower upper readSeq (internalKey.userKey :: seen) rows rest

def visibleScan (entries : List Entry) (lower upper : Bound) (readSeq : Nat) :
    List (Bytes × Bytes) := scanLoop lower upper readSeq [] [] entries

def BTreeMemTable.scan (t : BTreeMemTable) (lower upper : Bound) (readSeq : Nat) :
    List (Bytes × Bytes) := scanLoop lower upper readSeq [] [] t.map.entries

def SkipListMemTable.scan (t : SkipListMemTable) (lower upper : Bound) (readSeq : Nat) :
    List (Bytes × Bytes) := visibleScan t.map.entries lower upper readSeq

def MemTable.scan (m : MemTable) (lower upper : Bound) (readSeq : Nat) : List (Bytes × Bytes) :=
  match m with
  | .bTree table => table.scan lower upper readSeq
  | .skipList table => table.scan lower upper readSeq

namespace ArenaMemTable

variable {S : SkipMap ArenaInternalKey ArenaValueRecord}

def new (S : SkipMap ArenaInternalKey ArenaValueRecord) : ArenaMemTable S := ⟨S.new, .new⟩

def put (t : ArenaMemTable S) (seq : Nat) (key value : Bytes) : ArenaMemTable S :=
  let (key, arena) := t.arena.allocate key
  let (value, arena) := arena.allocate value
  ⟨S.insert t.map ⟨key, seq, .put⟩ (.put value), arena⟩

def delete (t : ArenaMemTable S) (seq : Nat) (key : Bytes) : ArenaMemTable S :=
  let (key, arena) := t.arena.allocate key
  ⟨S.insert t.map ⟨key, seq, .delete⟩ .delete, arena⟩

def get (t : ArenaMemTable S) (key : Bytes) (readSeq : Nat) : Option ValueRecord :=
  arenaSeekLoop key (S.rangeFrom t.map ⟨key, readSeq, .put⟩)

def entries (t : ArenaMemTable S) : List Entry := (S.iter t.map).map toEntry

def scan (t : ArenaMemTable S) (lower upper : Bound) (readSeq : Nat) : List (Bytes × Bytes) :=
  visibleScan t.entries lower upper readSeq

def approximateSize (t : ArenaMemTable S) : Nat :=
  t.arena.bytes + S.len t.map * sizeOfInternalKey

def isEmpty (t : ArenaMemTable S) : Bool := S.isEmpty t.map

/-! The arena memtable refines the one of the database model. -/

variable (hS : S.Lawful)

include hS in
theorem entries_sorted (t : ArenaMemTable S) : SortedEntries t.entries := by
  refine List.pairwise_map.mpr ((hS.sorted t.map).imp fun hab => ?_)
  exact ArenaInternalKey.lt_iff.mp hab

/-- The memtable with plain keys and records, of which only the bytes of the arena are left. -/
def toSkipList (t : ArenaMemTable S) : SkipListMemTable :=
  ⟨⟨t.entries, t.entries_sorted hS⟩, t.arena.bytes⟩

include hS in
theorem entries_insert (m : S.Map) (k : ArenaInternalKey) (v : ArenaValueRecord) :
    (S.iter (S.insert m k v)).map toEntry =
      OrderedMap.insertEntry k.toInternalKey v.toValueRecord ((S.iter m).map toEntry) := by
  have hsorted : ∀ m, ((S.iter m).map toEntry).Pairwise (fun a b => a.1 < b.1) := fun m =>
    entries_sorted hS ⟨m, .new⟩
  refine OrderedMap.entries_eq_of_mem_iff (hsorted _) (OrderedMap.pairwise_insertEntry (hsorted m))
    fun p => ?_
  rw [OrderedMap.mem_insertEntry (hsorted m), List.mem_map, List.mem_map]
  constructor
  · rintro ⟨e, he, rfl⟩
    rcases (hS.mem_insert m k v e).mp he with rfl | ⟨he, hne⟩
    · exact .inl rfl
    · exact .inr ⟨⟨e, he, rfl⟩, fun h => hne (ArenaInternalKey.toInternalKey_injective h)⟩
  · rintro (rfl | ⟨⟨e, he, rfl⟩, hne⟩)
    · exact ⟨(k, v), (hS.mem_insert m k v _).mpr (.inl rfl), rfl⟩
    · refine ⟨e, (hS.mem_insert m k v e).mpr (.inr ⟨he, fun h => hne ?_⟩), rfl⟩
      exact congrArg ArenaInternalKey.toInternalKey h

theorem toSkipList_new : .skipList ((new S).toSkipList hS) = MemTable.new .skipList := by
  have hnil : (new S).entries = [] := by rw [entries, new, hS.iter_new, List.map_nil]
  simp only [toSkipList, hnil, MemTable.new]
  rfl

theorem toSkipList_put (t : ArenaMemTable S) (seq : Nat) (key value : Bytes) :
    (t.put seq key value).toSkipList hS = (t.toSkipList hS).put seq key value := by
  have hins := entries_insert hS t.map ⟨key, seq, .put⟩ (.put value)
  change SkipListMemTable.mk ⟨(S.iter (S.insert t.map _ _)).map toEntry, _⟩ _ = _
  simp only [hins]
  rfl

theorem toSkipList_delete (t : ArenaMemTable S) (seq : Nat) (key : Bytes) :
    (t.delete seq key).toSkipList hS = (t.toSkipList hS).delete seq key := by
  have hins := entries_insert hS t.map ⟨key, seq, .delete⟩ .delete
  change SkipListMemTable.mk ⟨(S.iter (S.insert t.map _ _)).map toEntry, _⟩ _ = _
  simp only [hins]
  rfl

theorem arenaSeekLoop_eq (key : Bytes) (l : List (ArenaInternalKey × ArenaValueRecord)) :
    arenaSeekLoop key l = seekLoop key (l.map toEntry) := by
  induction l with
  | nil => rfl
  | cons e l ih =>
    obtain ⟨k, v⟩ := e
    rw [arenaSeekLoop, List.map_cons, ih]
    rfl

theorem get_eq (t : ArenaMemTable S) (key : Bytes) (readSeq : Nat) :
    t.get key readSeq = (MemTable.skipList (t.toSkipList hS)).get key readSeq := by
  rw [get, arenaSeekLoop_eq, hS.rangeFrom_eq]
  change _ = seekLoop key (((S.iter t.map).map toEntry).filter _)
  rw [List.filter_map]
  congr 3
  funext e
  exact decide_eq_decide.mpr ArenaInternalKey.le_iff

theorem approximateSize_eq (t : ArenaMemTable S) :
    t.approximateSize = (t.toSkipList hS).approximateSize := by
  change t.arena.bytes + _ * _ = t.arena.bytes + ((S.iter t.map).map toEntry).length * _
  rw [hS.len_eq, List.length_map]

theorem isEmpty_eq (t : ArenaMemTable S) :
    t.isEmpty = (MemTable.skipList (t.toSkipList hS)).isEmpty := by
  rw [isEmpty, hS.isEmpty_eq]
  change _ = ((S.iter t.map).map toEntry).isEmpty
  rw [List.isEmpty_map]

end ArenaMemTable

/-! Runs of insertions. -/

inductive MemOp where
  | put (seq : Nat) (key value : Bytes)
  | delete (seq : Nat) (key : Bytes)

namespace MemOp

def entry : MemOp → Entry
  | put seq key value => (⟨key, seq, .put⟩, .put value)
  | delete seq key => (⟨key, seq, .delete⟩, .delete)

/-- The bytes of the key and of the value, if there is one. -/
def bytes : MemOp → Nat
  | put _ key value => key.length + value.length
  | delete _ key => key.length

end MemOp

def MemTable.apply (m : MemTable) : MemOp → MemTable
  | .put seq key value => m.put seq key value
  | .delete seq key => m.delete seq key

def ArenaMemTable.apply {S : SkipMap ArenaInternalKey ArenaValueRecord} (t : ArenaMemTable S) :
    MemOp → ArenaMemTable S
  | .put seq key value => t.put seq key value
  | .delete seq key => t.delete seq key

theorem MemTable.map_foldl (ops : List MemOp) (m : MemTable) :
    (ops.foldl MemTable.apply m).map = m.map.insertAll (ops.map MemOp.entry) := by
  induction ops generalizing m with
  | nil => rfl
  | cons op ops ih =>
    rw [List.foldl_cons, ih, List.map_cons]
    have hstep : (m.apply op).map = m.map.insert op.entry.1 op.entry.2 := by
      cases op with
      | put seq key value => exact m.map_put seq key value
      | delete seq key => exact m.map_delete seq key
    rw [hstep]
    rfl

theorem ArenaMemTable.toSkipList_foldl {S : SkipMap ArenaInternalKey ArenaValueRecord}
    (hS : S.Lawful) (ops : List MemOp) (t : ArenaMemTable S) :
    MemTable.skipList ((ops.foldl ArenaMemTable.apply t).toSkipList hS) =
      ops.foldl MemTable.apply (.skipList (t.toSkipList hS)) := by
  induction ops generalizing t with
  | nil => rfl
  | cons op ops ih =>
    have hstep : MemTable.skipList ((t.apply op).toSkipList hS) =
        (MemTable.skipList (t.toSkipList hS)).apply op := by
      cases op with
      | put seq key value => exact congrArg MemTable.skipList (t.toSkipList_put hS seq key value)
      | delete seq key => exact congrArg MemTable.skipList (t.toSkipList_delete hS seq key)
    rw [List.foldl_cons, ih, List.foldl_cons, hstep]

theorem MemTable.approximateSize_bTree (ops : List MemOp) (t : BTreeMemTable) :
    (ops.foldl MemTable.apply (.bTree t)).approximateSize =
      t.approximateSize + ((ops.map MemOp.bytes).sum + ops.length * sizeOfInternalKey) := by
  induction ops generalizing t with
  | nil => simp [MemTable.approximateSize]
  | cons op ops ih =>
    rw [List.foldl_cons, List.map_cons, List.sum_cons, List.length_cons, Nat.succ_mul]
    cases op with
    | put seq key value =>
      rw [show (MemTable.bTree t).apply (.put seq key value) = .bTree (t.put seq key value) from rfl,
        ih, BTreeMemTable.put, MemOp.bytes]
      dsimp only
      omega
    | delete seq key =>
      rw [show (MemTable.bTree t).apply (.delete seq key) = .bTree (t.delete seq key) from rfl,
        ih, BTreeMemTable.delete, MemOp.bytes]
      dsimp only
      omega

/-- The arena adds up the bytes of all insertions; keys count only while they are in the map. -/
theorem MemTable.approximateSize_skipList (ops : List MemOp) (t : SkipListMemTable) :
    (ops.foldl MemTable.apply (.skipList t)).approximateSize =
      t.arenaBytes + (ops.map MemOp.bytes).sum +
        (ops.foldl MemTable.apply (.skipList t)).entries.length * sizeOfInternalKey := by
  induction ops generalizing t with
  | nil => rfl
  | cons op ops ih =>
    rw [List.foldl_cons, List.map_cons, List.sum_cons]
    cases op with
    | put seq key value =>
      have hstep := ih (t.put seq key value)
      change _ = t.arenaBytes + key.length + value.length + _ + _ at hstep
      change (ops.foldl MemTable.apply (.skipList (t.put seq key value))).approximateSize =
        t.arenaBytes + (key.length + value.length + _) +
          (ops.foldl MemTable.apply (.skipList (t.put seq key value))).entries.length * _
      omega
    | delete seq key =>
      have hstep := ih (t.delete seq key)
      change _ = t.arenaBytes + key.length + _ + _ at hstep
      change (ops.foldl MemTable.apply (.skipList (t.delete seq key))).approximateSize =
        t.arenaBytes + (key.length + _) +
          (ops.foldl MemTable.apply (.skipList (t.delete seq key))).entries.length * _
      omega

theorem OrderedMap.length_insertAll_empty {α β : Type} [LinearOrder α] {l : List (α × β)}
    (hnd : (l.map Prod.fst).Nodup) : (OrderedMap.empty.insertAll l).entries.length = l.length := by
  refine List.Perm.length_eq ((List.perm_ext_iff_of_nodup ?_ hnd.of_map).mpr fun p => ?_)
  · exact (OrderedMap.keys_nodup _).of_map
  · rw [OrderedMap.mem_insertAll_of_nodup hnd]
    simp

theorem MemTable.approximateSize_kinds {ops : List MemOp}
    (hnd : (ops.map fun op => op.entry.1).Nodup) :
    (ops.foldl MemTable.apply (.new .skipList)).approximateSize =
      (ops.foldl MemTable.apply (.new .bTree)).approximateSize := by
  have hlen : (ops.foldl MemTable.apply (.new .skipList)).entries.length = ops.length := by
    rw [MemTable.entries, MemTable.map_foldl]
    refine (OrderedMap.length_insertAll_empty ?_).trans (List.length_map _)
    rw [List.map_map]
    exact hnd
  rw [MemTable.new] at hlen
  rw [MemTable.new, MemTable.new, MemTable.approximateSize_skipList,
    MemTable.approximateSize_bTree, hlen, Nat.add_assoc]

theorem scanLoop_eq (lower upper : Bound) (readSeq : Nat) (l : List Entry) (seen : List Bytes)
    (rows : List (Bytes × Bytes)) : scanLoop lower upper readSeq seen rows l =
      rows ++ visibleRows lower upper readSeq seen l := by
  induction l generalizing seen rows with
  | nil => simp [scanLoop, visibleRows]
  | cons e l ih =>
    obtain ⟨key, value⟩ := e
    unfold scanLoop visibleRows
    by_cases hseq : readSeq < key.sequence
    · rw [if_pos hseq, if_pos hseq, ih]
    · rw [if_neg hseq, if_neg hseq]
      by_cases hb : (!withinBounds key.userKey lower upper) = true
      · rw [if_pos hb, if_pos hb, ih]
      · rw [if_neg hb, if_neg hb]
        by_cases hs : key.userKey ∈ seen
        · rw [if_pos hs, if_pos (List.contains_iff_mem.mpr hs), ih]
        · rw [if_neg hs, if_neg (mt List.contains_iff_mem.mp hs)]
          cases value with
          | put value =>
            dsimp only
            rw [ih, List.append_assoc]
            rfl
          | delete =>
            dsimp only
            rw [ih]

theorem MemTable.scan_eq (m : MemTable) (lower upper : Bound) (readSeq : Nat) :
    m.scan lower upper readSeq = visibleRows lower upper readSeq [] m.entries := by
  cases m with
  | bTree t => exact (scanLoop_eq lower upper readSeq t.map.entries [] []).trans (List.nil_append _)
  | skipList t =>
    exact (scanLoop_eq lower upper readSeq t.map.entries [] []).trans (List.nil_append _)

theorem MemTable.entries_kinds (ops : List MemOp) (kind kind' : MemTableKind) :
    (ops.foldl MemTable.apply (.new kind)).map = (ops.foldl MemTable.apply (.new kind')).map := by
  rw [MemTable.map_foldl, MemTable.map_foldl]
  cases kind <;> cases kind' <;> rfl

theorem MemTable.get_eq_some_iff (m : MemTable) {key : Bytes} {readSeq : Nat}
    {record : ValueRecord} : m.get key readSeq = some record ↔
      ∃ e, IsFirst key readSeq m.entries e ∧ e.2 = record := by
  have hsorted : m.entries.Pairwise (fun a b => a.1.userKey = b.1.userKey → a.1 ≤ b.1) := by
    refine List.Pairwise.imp ?_ m.entries_sorted
    intro a b hab _
    exact le_of_lt hab
  rw [m.get_eq_newest, Option.map_eq_some_iff]
  constructor
  · rintro ⟨e, hnewest, hrecord⟩
    exact ⟨e, newest_isFirst hsorted hnewest, hrecord⟩
  · rintro ⟨e, hfirst, hrecord⟩
    refine ⟨e, ?_, hrecord⟩
    cases hnewest : newest key readSeq m.entries with
    | none =>
      have hlt := newest_eq_none_iff.mp hnewest e hfirst.mem hfirst.key
      exact absurd hfirst.visible (not_le.mpr hlt)
    | some found =>
      have hfound := newest_isFirst hsorted hnewest
      have hkey : found.1 = e.1 :=
        le_antisymm (hfound.first e hfirst.mem hfirst.key hfirst.visible)
          (hfirst.first found hfound.mem hfound.key hfound.visible)
      exact congrArg some (OrderedMap.eq_of_mem (m := m.map) hfound.mem hfirst.mem hkey)

/-- After the same insertions both kinds of memtable return the same to every read, and a point
read returns the first version that it may see. If no key is inserted twice, they moreover have
the same size after each of the insertions and are frozen by the same ones. -/
theorem memtable_kinds_interchangeable {S : SkipMap ArenaInternalKey ArenaValueRecord}
    (hS : S.Lawful) (ops : List MemOp) :
    let tree := ops.foldl MemTable.apply (.new .bTree)
    let list := ops.foldl ArenaMemTable.apply (.new S)
    list.entries = tree.entries ∧
      (∀ key readSeq, list.get key readSeq = tree.get key readSeq) ∧
      (∀ lower upper readSeq, list.scan lower upper readSeq = tree.scan lower upper readSeq) ∧
      list.isEmpty = tree.isEmpty ∧
      (∀ key readSeq record, tree.get key readSeq = some record ↔
        ∃ e, IsFirst key readSeq tree.entries e ∧ e.2 = record) ∧
      ((ops.map fun op => op.entry.1).Nodup → ∀ done, done <+: ops →
        let tree := done.foldl MemTable.apply (.new .bTree)
        let list := done.foldl ArenaMemTable.apply (.new S)
        list.approximateSize = tree.approximateSize ∧ ∀ (state : DBState) (memtableSize : Nat),
          ({ state with mutable := .skipList (list.toSkipList hS) }.freezeMutableIfNeeded
            memtableSize .skipList).2 =
          ({ state with mutable := tree }.freezeMutableIfNeeded memtableSize .bTree).2) := by
  have hlist : ∀ ops : List MemOp,
      MemTable.skipList ((ops.foldl ArenaMemTable.apply (.new S)).toSkipList hS) =
        ops.foldl MemTable.apply (.new .skipList) := by
    intro ops
    rw [← ArenaMemTable.toSkipList_new hS]
    exact ArenaMemTable.toSkipList_foldl hS ops (.new S)
  have hmap := MemTable.entries_kinds ops .skipList .bTree
  intro tree list
  have hentries : list.entries = tree.entries := by
    change (MemTable.skipList (list.toSkipList hS)).entries = _
    rw [hlist ops]
    exact congrArg OrderedMap.entries hmap
  refine ⟨hentries, fun key readSeq => ?_, fun lower upper readSeq => ?_, ?_, ?_, ?_⟩
  · rw [list.get_eq hS, hlist ops]
    exact congrArg (fun map => getFromMap map key readSeq) hmap
  · rw [MemTable.scan_eq, ← hentries]
    exact (scanLoop_eq lower upper readSeq list.entries [] []).trans (List.nil_append _)
  · rw [list.isEmpty_eq hS, hlist ops]
    exact congrArg OrderedMap.isEmpty hmap
  · exact fun key readSeq record => tree.get_eq_some_iff
  · intro hnd done hdone
    have hnd' : (done.map fun op => op.entry.1).Nodup :=
      hnd.sublist (hdone.sublist.map fun op => op.entry.1)
    have hsize := MemTable.approximateSize_kinds hnd'
    have hsame := MemTable.entries_kinds done .skipList .bTree
    dsimp only
    constructor
    · rw [ArenaMemTable.approximateSize_eq hS]
      change (MemTable.skipList _).approximateSize = _
      rw [hlist done, hsize]
    · intro state memtableSize
      rw [hlist done, DBState.freezeMutableIfNeeded, DBState.freezeMutableIfNeeded]
      dsimp only
      have hempty : (done.foldl MemTable.apply (.new .skipList)).isEmpty =
          (done.foldl MemTable.apply (.new .bTree)).isEmpty := congrArg OrderedMap.isEmpty hsame
      rw [hempty, hsize]
      split <;> rfl

/-- Sorted lists of pairs as a skip map. -/
def OrderedMap.skipMap (κ ν : Type) [LinearOrder κ] : SkipMap κ ν where
  Map := OrderedMap κ ν
  new := .empty
  insert := OrderedMap.insert
  iter := OrderedMap.entries
  rangeFrom m k := m.entries.filter fun e => k ≤ e.1
  len m := m.entries.length
  isEmpty := OrderedMap.isEmpty

theorem OrderedMap.skipMap_lawful (κ ν : Type) [LinearOrder κ] : (skipMap κ ν).Lawful where
  iter_new := rfl
  sorted m := OrderedMap.sorted m
  mem_insert m k v p := @OrderedMap.mem_entries_insert κ ν _ m k v p
  rangeFrom_eq _ _ := rfl
  len_eq _ := rfl
  isEmpty_eq _ := rfl

/-- Two versions of one key, and a put of another key that is deleted again. -/
def twoKeys : List MemOp :=
  [.put 1 [97] [111], .put 2 [97] [110], .put 3 [98] [118], .delete 4 [98]]

theorem memtable_kinds_interchangeable_small :
    let list := twoKeys.foldl ArenaMemTable.apply (.new (OrderedMap.skipMap _ _))
    list.get [97] 4 = some (.put [110]) ∧ list.get [98] 4 = some .delete ∧
      list.scan .unbounded (.excluded [122]) 4 = [([97], [110])] ∧
      list.approximateSize = 4 * 41 + 3 := by
  intro list
  obtain ⟨-, hget, hscan, -, -, hsizes⟩ :=
    memtable_kinds_interchangeable (OrderedMap.skipMap_lawful _ _) twoKeys
  have hsize := (hsizes (by decide) twoKeys List.prefix_rfl).1
  exact ⟨(hget _ _).trans (by decide), (hget _ _).trans (by decide), (hscan _ _ _).trans (by decide),
    hsize.trans (by decide)⟩

end TyLsm
