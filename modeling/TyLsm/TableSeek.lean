import TyLsm.Draining

/-! A table iterator whose block reads may fail. A failed load leaves no current block, and the
next seek starts over from the index, so nothing that happened before it matters. -/

namespace TyLsm

/-- The outcome of each block read of one call, by block position. -/
abbrev ReadFaults := Nat → Option Error

namespace SSTableStorageIterator

/-- The loop of `load_block_at`, left by `?` at the first read that fails. -/
def tryLoadLoop (faults : ReadFaults) :
    Nat → List IndexEntry → (Nat × Option (List Entry)) × Except Error Unit
  | i, [] => ((i, none), .ok ())
  | i, e :: es =>
    match faults i with
    | some err => ((i, none), .error err)
    | none =>
      if e.block.isEmpty then tryLoadLoop faults (i + 1) es else ((i, some e.block), .ok ())

def tryLoadBlockAt (faults : ReadFaults) (it : SSTableStorageIterator) (i : Nat) :
    SSTableStorageIterator × Except Error Unit :=
  let found := tryLoadLoop faults i (it.index.drop i)
  ({ it with blockIndex := found.1.1, currentBlock := found.1.2, entryIndex := 0 }, found.2)

def tryNew (faults : ReadFaults) (index : List IndexEntry) :
    Except Error SSTableStorageIterator :=
  match tryLoadBlockAt faults ⟨index, 0, none, 0⟩ 0 with
  | (it, .ok ()) => .ok it
  | (_, .error err) => .error err

def tryNext (faults : ReadFaults) (it : SSTableStorageIterator) :
    SSTableStorageIterator × Except Error Unit :=
  if it.valid then
    let it := { it with entryIndex := it.entryIndex + 1 }
    if it.valid then (it, .ok ()) else it.tryLoadBlockAt faults (it.blockIndex + 1)
  else (it, .ok ())

def trySeek (faults : ReadFaults) (it : SSTableStorageIterator) (key : SeekKey) :
    SSTableStorageIterator × Except Error Unit :=
  match it.tryLoadBlockAt faults (partitionPoint (fun e => key.exceeds e.lastKey) it.index) with
  | (it, .error err) => (it, .error err)
  | (it, .ok ()) =>
    match it.currentBlock with
    | none => (it, .ok ())
    | some block =>
      let it := { it with entryIndex := partitionPoint (fun e => key.exceeds e.1) block }
      if block.length ≤ it.entryIndex then it.tryLoadBlockAt faults (it.blockIndex + 1)
      else (it, .ok ())

/-- Call `next` again and again, until one fails. -/
def tryNexts : List ReadFaults → SSTableStorageIterator →
    SSTableStorageIterator × Except Error Unit
  | [], it => (it, .ok ())
  | faults :: steps, it =>
    match it.tryNext faults with
    | (it, .error err) => (it, .error err)
    | (it, .ok ()) => tryNexts steps it

def tryCall (it : SSTableStorageIterator) (call : IterCall × ReadFaults) :
    SSTableStorageIterator :=
  match call.1 with
  | .next => (it.tryNext call.2).1
  | .seek key => (it.trySeek call.2 key).1

theorem tryLoadLoop_ok {faults : ReadFaults} {i : Nat} {index : List IndexEntry}
    (h : (tryLoadLoop faults i index).2 = .ok ()) :
    (tryLoadLoop faults i index).1 = loadLoop i index := by
  induction index generalizing i with
  | nil => rfl
  | cons e es ih =>
    cases hf : faults i with
    | some err =>
      rw [tryLoadLoop, hf] at h
      cases h
    | none =>
      by_cases he : e.block.isEmpty = true
      · simp only [tryLoadLoop, hf, he, if_true] at h ⊢
        simpa only [loadLoop, he, if_true] using ih h
      · simp [tryLoadLoop, loadLoop, hf, he]

theorem tryLoadBlockAt_ok {faults : ReadFaults} {it it' : SSTableStorageIterator} {i : Nat}
    (h : it.tryLoadBlockAt faults i = (it', .ok ())) : it' = it.loadBlockAt i := by
  obtain ⟨rfl, hok⟩ := Prod.mk.inj h
  simp only [loadBlockAt, tryLoadLoop_ok hok]

theorem tryNew_ok {faults : ReadFaults} {index : List IndexEntry} {it : SSTableStorageIterator}
    (h : tryNew faults index = .ok it) : it = new index := by
  unfold tryNew at h
  split at h
  · rename_i it' hload
    cases h
    exact tryLoadBlockAt_ok hload
  · cases h

theorem tryLoadLoop_readable (i : Nat) (index : List IndexEntry) :
    tryLoadLoop (fun _ => none) i index = (loadLoop i index, .ok ()) := by
  induction index generalizing i with
  | nil => rfl
  | cons e es ih =>
    by_cases he : e.block.isEmpty = true
    · simp only [tryLoadLoop, loadLoop, he, if_true, ih]
    · simp [tryLoadLoop, loadLoop, he]

theorem tryLoadBlockAt_readable (it : SSTableStorageIterator) (i : Nat) :
    it.tryLoadBlockAt (fun _ => none) i = (it.loadBlockAt i, .ok ()) := by
  simp only [tryLoadBlockAt, loadBlockAt, tryLoadLoop_readable]

theorem tryNext_readable (it : SSTableStorageIterator) :
    it.tryNext (fun _ => none) = (it.nextEntry, .ok ()) := by
  simp only [tryNext, nextEntry, tryLoadBlockAt_readable, advanceToNextBlock]
  split
  · split <;> rfl
  · rfl

theorem tryNexts_readable (n : Nat) (it : SSTableStorageIterator) :
    tryNexts (List.replicate n fun _ => none) it = (StorageIterator.next^[n] it, .ok ()) := by
  induction n generalizing it with
  | zero => rfl
  | succ n ih =>
    rw [List.replicate_succ, tryNexts, tryNext_readable, Function.iterate_succ_apply]
    exact ih it.nextEntry

theorem trySeek_readable (it : SSTableStorageIterator) (key : SeekKey) :
    it.trySeek (fun _ => none) key = (it.seekKey key, .ok ()) := by
  simp only [trySeek, seekKey, tryLoadBlockAt_readable, advanceToNextBlock]
  generalize it.loadBlockAt _ = loaded
  cases hb : loaded.currentBlock with
  | none => rfl
  | some block =>
    dsimp only
    split <;> rfl

theorem tryNext_ok {faults : ReadFaults} {it it' : SSTableStorageIterator}
    (h : it.tryNext faults = (it', .ok ())) : it' = StorageIterator.next it := by
  show it' = it.nextEntry
  unfold tryNext at h
  unfold nextEntry
  by_cases hv : it.valid = true
  · rw [if_pos hv] at h ⊢
    by_cases hstays : ({ it with entryIndex := it.entryIndex + 1 } :
        SSTableStorageIterator).valid = true
    · dsimp only at h ⊢
      rw [if_pos hstays] at h ⊢
      exact (congrArg Prod.fst h).symm
    · dsimp only at h ⊢
      rw [if_neg hstays] at h ⊢
      exact tryLoadBlockAt_ok h
  · rw [if_neg hv] at h ⊢
    exact (congrArg Prod.fst h).symm

theorem tryNexts_ok {steps : List ReadFaults} {it it' : SSTableStorageIterator}
    (h : tryNexts steps it = (it', .ok ())) : it' = StorageIterator.next^[steps.length] it := by
  induction steps generalizing it with
  | nil => exact (congrArg Prod.fst h).symm
  | cons faults steps ih =>
    unfold tryNexts at h
    split at h
    · cases h
    · rename_i hnext
      rw [ih h, tryNext_ok hnext, List.length_cons, Function.iterate_succ_apply]

theorem trySeek_ok {faults : ReadFaults} {it it' : SSTableStorageIterator} {key : SeekKey}
    (h : it.trySeek faults key = (it', .ok ())) : it' = StorageIterator.seek it key := by
  show it' = it.seekKey key
  unfold trySeek at h
  unfold seekKey
  split at h
  · cases h
  · rename_i loaded hload
    rw [← tryLoadBlockAt_ok hload]
    cases hb : loaded.currentBlock with
    | none =>
      rw [hb] at h
      simp only [hb]
      exact (congrArg Prod.fst h).symm
    | some block =>
      rw [hb] at h
      simp only [hb] at h ⊢
      by_cases hlen : block.length ≤ partitionPoint (fun e => key.exceeds e.1) block
      · rw [if_pos hlen] at h ⊢
        exact tryLoadBlockAt_ok h
      · rw [if_neg hlen] at h ⊢
        exact (congrArg Prod.fst h).symm

theorem index_tryCall (it : SSTableStorageIterator) (call : IterCall × ReadFaults) :
    (it.tryCall call).index = it.index := by
  obtain ⟨call, faults⟩ := call
  cases call with
  | next =>
    simp only [tryCall, tryNext]
    split
    · split <;> rfl
    · rfl
  | seek key =>
    have hload : (it.tryLoadBlockAt faults
        (partitionPoint (fun e => key.exceeds e.lastKey) it.index)).1.index = it.index := rfl
    simp only [tryCall, trySeek]
    generalize it.tryLoadBlockAt faults _ = loaded at hload ⊢
    obtain ⟨loaded, result⟩ := loaded
    cases result with
    | error err => exact hload
    | ok =>
      cases hb : loaded.currentBlock with
      | none => simpa only [hb] using hload
      | some block =>
        simp only [hb]
        split
        · exact hload
        · exact hload

theorem index_tryCalls (it : SSTableStorageIterator) (calls : List (IterCall × ReadFaults)) :
    (calls.foldl tryCall it).index = it.index := by
  induction calls generalizing it with
  | nil => rfl
  | cons call calls ih => rw [List.foldl_cons, ih, index_tryCall]

theorem seek_congr {it it' : SSTableStorageIterator} (h : it.index = it'.index) (key : SeekKey) :
    it.seekKey key = it'.seekKey key := by
  unfold seekKey loadBlockAt
  rw [h]

end SSTableStorageIterator

theorem atLeast_target (key : InternalKey) (l : List Entry) :
    atLeast (.target key) l = l.filter (fun e => decide (key ≤ e.1)) := by
  simp [atLeast, SeekKey.exceeds, ← not_lt]

/-- What the builder writes for rising entries, equal keys allowed. -/
structure Table.Indexed (t : Table) : Prop where
  rising : Rising t.entries
  indexOk : ∀ i ∈ t.index, i.Ok

theorem indexed_buildTable (blockSize : Nat) {es : List Entry} (hr : Rising es)
    (hes : ∀ e ∈ es, Matched e) : (buildTable blockSize es).Indexed := by
  have h :=
    (SSTableBuilder.holds_foldl (SSTableBuilder.holds_create blockSize) hes).flushCurrentBlock
  constructor
  · rw [entries_buildTable hes]
    exact hr
  · exact h.1.indexOk

theorem Table.Indexed.obeys {t : Table} (h : t.Indexed) :
    Obeys (SSTableStorageIterator.new t.index) t.entries :=
  Iterates.obeys h.rising ⟨TableAt, SSTableStorageIterator.law,
    @SSTableStorageIterator.tableAt_loadBlockAt _ _ [] _ h.indexOk h.rising rfl rfl⟩

/-- The seek law over any history of calls, as long as the seek and the `next` calls after it
read their blocks. -/
theorem tableIterator_seek {t : Table} (h : t.Indexed) {faults seekFaults : ReadFaults}
    {it it' : SSTableStorageIterator} (hnew : SSTableStorageIterator.tryNew faults t.index = .ok it)
    (calls : List (IterCall × ReadFaults)) (key : InternalKey)
    (hseek : (calls.foldl SSTableStorageIterator.tryCall it).trySeek seekFaults (.target key) =
      (it', .ok ())) :
    let rest := t.entries.filter (fun e => decide (key ≤ e.1))
    ∀ steps it'', SSTableStorageIterator.tryNexts steps it' = (it'', .ok ()) →
      StorageIterator.isValid it'' = decide (steps.length < rest.length) ∧
      StorageIterator.entry it'' = rest[steps.length]? := by
  intro rest steps it'' hsteps
  have hindex : (calls.foldl SSTableStorageIterator.tryCall it).index =
      (SSTableStorageIterator.new t.index).index := by
    rw [SSTableStorageIterator.index_tryCalls, SSTableStorageIterator.tryNew_ok hnew]
  have hfresh : Yields ((SSTableStorageIterator.new t.index).seekKey (.target key)) rest := by
    have hseeks := h.obeys.seek [] (.target key)
    rwa [atLeast_target] at hseeks
  have hstate : it' = (SSTableStorageIterator.new t.index).seekKey (.target key) := by
    rw [SSTableStorageIterator.trySeek_ok hseek]
    exact SSTableStorageIterator.seek_congr hindex _
  rw [SSTableStorageIterator.tryNexts_ok hsteps, hstate]
  exact hfresh steps.length

/-- Three versions of one key, and another key. -/
def spanningEntries : List Entry :=
  [(⟨[1], 3, .put⟩, .put [3]), (⟨[1], 2, .delete⟩, .delete), (⟨[1], 1, .put⟩, .put [1]),
    (⟨[2], 5, .put⟩, .put [5])]

/-- The second call fails to read the block at position 3. -/
def spanningCalls : List (IterCall × ReadFaults) :=
  [(.next, fun _ => none),
    (.seek (.target ⟨[2], 5, .put⟩), fun i => if i = 3 then some .closed else none),
    (.next, fun _ => none)]

theorem tableIterator_seek_spanning :
    let t := buildTable 1 spanningEntries
    let it :=
      spanningCalls.foldl SSTableStorageIterator.tryCall (SSTableStorageIterator.new t.index)
    it.blockIndex = 3 ∧ it.valid = false ∧
      Yields (it.seekKey (.target ⟨[1], 2, .put⟩)) (spanningEntries.drop 1) := by
  intro t it
  have ht : t.Indexed := by
    apply indexed_buildTable
    · unfold Rising
      decide +kernel
    · unfold Matched
      decide
  have hnew : SSTableStorageIterator.tryNew (fun _ => none) t.index =
      .ok (SSTableStorageIterator.new t.index) := by
    simp only [SSTableStorageIterator.tryNew, SSTableStorageIterator.tryLoadBlockAt_readable]
    rfl
  have hentries : t.entries.filter (fun e => decide ((⟨[1], 2, .put⟩ : InternalKey) ≤ e.1)) =
      spanningEntries.drop 1 := by
    decide +kernel
  refine ⟨by decide +kernel, by decide +kernel, ?_⟩
  intro n
  have hn := tableIterator_seek ht hnew spanningCalls ⟨[1], 2, .put⟩
    (SSTableStorageIterator.trySeek_readable it _) _ _
    (SSTableStorageIterator.tryNexts_readable n _)
  rwa [List.length_replicate, hentries] at hn

end TyLsm
