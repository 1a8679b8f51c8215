import TyLsm.DBIterator
import TyLsm.Gives

/-! Reading a table block by block. The blocks come from a program `load`, so that what is
read between two loads is decided by the blocks loaded before. -/

namespace TyLsm

section

variable {m : Type → Type} [Monad m]

/-- The loop of `get_with_cache` over the index from position `i` on. -/
def getLoop (load : Nat → m (List Entry)) (userKey : Bytes) (readSeq : Nat) :
    Nat → List IndexEntry → m (Option ValueRecord)
  | _, [] => pure none
  | i, index :: rest =>
    if indexMayContainUserKey index userKey then do
      let block ← load i
      match newest userKey readSeq block with
      | some e => pure (some e.2)
      | none => getLoop load userKey readSeq (i + 1) rest
    else getLoop load userKey readSeq (i + 1) rest

/-- The loop of `entries_with_cache`. -/
def entriesLoop (load : Nat → m (List Entry)) : Nat → List IndexEntry → m (List Entry)
  | _, [] => pure []
  | i, _ :: rest => do
    let block ← load i
    let entries ← entriesLoop load (i + 1) rest
    pure (block ++ entries)

namespace SSTableStorageIterator

def loadLoopM (load : Nat → m (List Entry)) :
    Nat → List IndexEntry → m (Nat × Option (List Entry))
  | i, [] => pure (i, none)
  | i, _ :: rest => do
    let block ← load i
    if block.isEmpty then loadLoopM load (i + 1) rest else pure (i, some block)

def loadBlockAtM (load : Nat → m (List Entry)) (it : SSTableStorageIterator) (i : Nat) :
    m SSTableStorageIterator := do
  let found ← loadLoopM load i (it.index.drop i)
  pure { it with blockIndex := found.1, currentBlock := found.2, entryIndex := 0 }

def newM (load : Nat → m (List Entry)) (index : List IndexEntry) : m SSTableStorageIterator :=
  loadBlockAtM load ⟨index, 0, none, 0⟩ 0

def advanceToNextBlockM (load : Nat → m (List Entry)) (it : SSTableStorageIterator) :
    m SSTableStorageIterator :=
  it.loadBlockAtM load (it.blockIndex + 1)

def nextEntryM (load : Nat → m (List Entry)) (it : SSTableStorageIterator) :
    m SSTableStorageIterator :=
  if it.valid then
    let it := { it with entryIndex := it.entryIndex + 1 }
    if it.valid then pure it else it.advanceToNextBlockM load
  else pure it

def seekKeyM (load : Nat → m (List Entry)) (it : SSTableStorageIterator) (key : SeekKey) :
    m SSTableStorageIterator := do
  let it ← it.loadBlockAtM load (partitionPoint (fun e => key.exceeds e.lastKey) it.index)
  match it.currentBlock with
  | none => pure it
  | some block =>
    let it := { it with entryIndex := partitionPoint (fun e => key.exceeds e.1) block }
    if block.length ≤ it.entryIndex then it.advanceToNextBlockM load else pure it

end SSTableStorageIterator

/-- What a scan merges: entries in memory, and the iterators of tables. -/
abbrev ScanChild := EntryIterator ⊕ SSTableStorageIterator

namespace ScanChild

def nextM (load : Nat → m (List Entry)) : ScanChild → m ScanChild
  | .inl it => pure (.inl (StorageIterator.next it))
  | .inr it => do
    let it ← it.nextEntryM load
    pure (.inr it)

def seekM (load : Nat → m (List Entry)) (key : SeekKey) : ScanChild → m ScanChild
  | .inl it => pure (.inl (StorageIterator.seek it key))
  | .inr it => do
    let it ← it.seekKeyM load key
    pure (.inr it)

end ScanChild

/-- The merge of a scan; `load i` loads the blocks of child `i`. -/
abbrev ScanMerge := MergeIterator ScanChild

namespace ScanMerge

def nextM (load : Nat → Nat → m (List Entry)) (it : ScanMerge) : m ScanMerge :=
  match it.current with
  | none => pure it.pickCurrent
  | some i =>
    match it.children[i]? with
    | none => pure it.pickCurrent
    | some child => do
      let child ← ScanChild.nextM (load i) child
      pure (MergeIterator.pickCurrent { it with children := it.children.set i child })

def seekLoop (load : Nat → Nat → m (List Entry)) (key : SeekKey) :
    Nat → List ScanChild → m (List ScanChild)
  | _, [] => pure []
  | i, child :: rest => do
    let child ← ScanChild.seekM (load i) key child
    let rest ← seekLoop load key (i + 1) rest
    pure (child :: rest)

def seekM (load : Nat → Nat → m (List Entry)) (it : ScanMerge) (key : SeekKey) : m ScanMerge := do
  let children ← seekLoop load key 0 it.children
  pure (MergeIterator.pickCurrent { it with children := children })

end ScanMerge

namespace DBIterator

def advanceLoopM (load : Nat → Nat → m (List Entry)) :
    Nat → DBIterator ScanMerge → m (DBIterator ScanMerge)
  | 0, it => pure it
  | fuel + 1, it =>
    match StorageIterator.isValid it.inner, StorageIterator.entry it.inner with
    | true, some (internalKey, value) => do
      let inner ← ScanMerge.nextM load it.inner
      let it := { it with inner := inner }
      if it.readSeq < internalKey.sequence then advanceLoopM load fuel it
      else if !withinBounds internalKey.userKey it.lower it.upper then advanceLoopM load fuel it
      else if it.seen.contains internalKey.userKey then advanceLoopM load fuel it
      else
        let it := { it with seen := internalKey.userKey :: it.seen }
        match value with
        | .put value => pure { it with current := some (internalKey.userKey, value) }
        | .delete => advanceLoopM load fuel it
    | _, _ => pure it

def advanceToNextVisibleM (load : Nat → Nat → m (List Entry)) (fuel : Nat)
    (it : DBIterator ScanMerge) : m (DBIterator ScanMerge) :=
  advanceLoopM load fuel { it with current := none }

def seekToLowerBoundM (load : Nat → Nat → m (List Entry)) (it : DBIterator ScanMerge) :
    m (DBIterator ScanMerge) :=
  match lowerBoundSeekKey it.lower with
  | some target => do
    let inner ← ScanMerge.seekM load it.inner target
    pure { it with inner := inner }
  | none => pure it

def tryNewM (load : Nat → Nat → m (List Entry)) (fuel : Nat) (inner : ScanMerge)
    (lower upper : Bound) (readSeq : Nat) : m (DBIterator ScanMerge) := do
  let it ← seekToLowerBoundM load ⟨inner, lower, upper, readSeq, [], none⟩
  it.advanceToNextVisibleM load fuel

def collectM (load : Nat → Nat → m (List Entry)) (fuel : Nat) :
    Nat → DBIterator ScanMerge → m (List (Bytes × Bytes))
  | 0, _ => pure []
  | rounds + 1, it =>
    match it.current with
    | none => pure []
    | some row => do
      let it ← it.advanceToNextVisibleM load fuel
      let rows ← collectM load fuel rounds it
      pure (row :: rows)

end DBIterator

end

section

variable {ε σ : Type} {I : σ → Prop} {load : Nat → EStateM ε σ (List Entry)}

/-- The program loads the blocks of an index. -/
def Loads (I : σ → Prop) (load : Nat → EStateM ε σ (List Entry)) (index : List IndexEntry) : Prop :=
  ∀ i entry, index[i]? = some entry → Gives I (load i) (.ok entry.block)

theorem Loads.cons_drop {index rest : List IndexEntry} {entry : IndexEntry} {i : Nat}
    (h : Loads I load index) (hdrop : index.drop i = entry :: rest) :
    Gives I (load i) (.ok entry.block) ∧ index.drop (i + 1) = rest := by
  constructor
  · refine h i entry ?_
    have hget : (index.drop i)[0]? = some entry := by rw [hdrop]; rfl
    rwa [List.getElem?_drop, Nat.add_zero] at hget
  · rw [← List.drop_drop, hdrop]
    rfl

theorem gives_getLoop {index : List IndexEntry} (h : Loads I load index) (userKey : Bytes)
    (readSeq : Nat) (i : Nat) {rest : List IndexEntry} (hdrop : index.drop i = rest) :
    Gives I (getLoop load userKey readSeq i rest)
      (.ok ((rest.findSome? (fun index =>
        if indexMayContainUserKey index userKey then newest userKey readSeq index.block
        else none)).map Prod.snd)) := by
  induction rest generalizing i with
  | nil => exact Gives.pure none
  | cons entry rest ih =>
    obtain ⟨hload, hrest⟩ := h.cons_drop hdrop
    rw [getLoop, List.findSome?_cons]
    by_cases hmay : indexMayContainUserKey entry userKey = true
    · rw [if_pos hmay, if_pos hmay]
      refine hload.bind_ok ?_
      cases newest userKey readSeq entry.block with
      | none => exact ih (i + 1) hrest
      | some e => exact Gives.pure _
    · rw [if_neg hmay, if_neg hmay]
      exact ih (i + 1) hrest

theorem gives_entriesLoop {index : List IndexEntry} (h : Loads I load index) (i : Nat)
    {rest : List IndexEntry} (hdrop : index.drop i = rest) :
    Gives I (entriesLoop load i rest) (.ok (rest.flatMap IndexEntry.block)) := by
  induction rest generalizing i with
  | nil => exact Gives.pure []
  | cons entry rest ih =>
    obtain ⟨hload, hrest⟩ := h.cons_drop hdrop
    rw [entriesLoop]
    exact hload.bind_ok ((ih (i + 1) hrest).bind_ok (Gives.pure _))

namespace SSTableStorageIterator

theorem gives_loadLoopM {index : List IndexEntry} (h : Loads I load index) (i : Nat)
    {rest : List IndexEntry} (hdrop : index.drop i = rest) :
    Gives I (loadLoopM load i rest) (.ok (loadLoop i rest)) := by
  induction rest generalizing i with
  | nil => exact Gives.pure _
  | cons entry rest ih =>
    obtain ⟨hload, hrest⟩ := h.cons_drop hdrop
    rw [loadLoopM, loadLoop]
    refine hload.bind_ok ?_
    by_cases hempty : entry.block.isEmpty = true
    · rw [if_pos hempty, if_pos hempty]
      exact ih (i + 1) hrest
    · rw [if_neg hempty, if_neg hempty]
      exact Gives.pure _

variable {it : SSTableStorageIterator}

theorem gives_loadBlockAtM (h : Loads I load it.index) (i : Nat) :
    Gives I (it.loadBlockAtM load i) (.ok (it.loadBlockAt i)) :=
  (gives_loadLoopM h i rfl).bind_ok (Gives.pure _)

theorem gives_newM {index : List IndexEntry} (h : Loads I load index) :
    Gives I (newM load index) (.ok (new index)) := gives_loadBlockAtM h 0

theorem gives_nextEntryM (h : Loads I load it.index) :
    Gives I (it.nextEntryM load) (.ok it.nextEntry) := by
  rw [nextEntryM, nextEntry]
  by_cases hvalid : it.valid = true
  · rw [if_pos hvalid, if_pos hvalid]
    dsimp only
    split
    · exact Gives.pure _
    · exact gives_loadBlockAtM h _
  · rw [if_neg hvalid, if_neg hvalid]
    exact Gives.pure it

theorem gives_seekKeyM (h : Loads I load it.index) (key : SeekKey) :
    Gives I (it.seekKeyM load key) (.ok (it.seekKey key)) := by
  rw [seekKeyM, seekKey]
  refine (gives_loadBlockAtM h _).bind_ok ?_
  generalize hit : it.loadBlockAt (partitionPoint (fun e => key.exceeds e.lastKey) it.index) = it'
  have hindex : it'.index = it.index := by rw [← hit]; rfl
  cases it'.currentBlock with
  | none => exact Gives.pure it'
  | some block =>
    dsimp only
    split
    · exact gives_loadBlockAtM (hindex ▸ h) _
    · exact Gives.pure _

end SSTableStorageIterator

/-- The index that the loads of a child go through. -/
def ScanChild.index : ScanChild → List IndexEntry
  | .inl _ => []
  | .inr it => it.index

namespace ScanChild

theorem index_next (child : ScanChild) : (StorageIterator.next child).index = child.index := by
  cases child with
  | inl it => rfl
  | inr it =>
    change (it.nextEntry).index = it.index
    unfold SSTableStorageIterator.nextEntry
    split
    · dsimp only
      split <;> rfl
    · rfl

theorem index_seek (child : ScanChild) (key : SeekKey) :
    (StorageIterator.seek child key).index = child.index := by
  cases child with
  | inl it => rfl
  | inr it =>
    change (it.seekKey key).index = it.index
    unfold SSTableStorageIterator.seekKey
    dsimp only
    split
    · rfl
    · split <;> rfl

theorem gives_nextM {child : ScanChild} (h : Loads I load child.index) :
    Gives I (nextM load child) (.ok (StorageIterator.next child)) := by
  cases child with
  | inl it => exact Gives.pure _
  | inr it => exact (SSTableStorageIterator.gives_nextEntryM h).bind_ok (Gives.pure _)

theorem gives_seekM {child : ScanChild} (h : Loads I load child.index) (key : SeekKey) :
    Gives I (seekM load key child) (.ok (StorageIterator.seek child key)) := by
  cases child with
  | inl it => exact Gives.pure _
  | inr it => exact (SSTableStorageIterator.gives_seekKeyM h key).bind_ok (Gives.pure _)

end ScanChild

/-- Each child is loaded by its own program. -/
def LoadsAll (I : σ → Prop) (loads : Nat → Nat → EStateM ε σ (List Entry))
    (children : List ScanChild) : Prop :=
  ∀ i child, children[i]? = some child → Loads I (loads i) child.index

variable {loads : Nat → Nat → EStateM ε σ (List Entry)}

theorem LoadsAll.congr {children children' : List ScanChild} (h : LoadsAll I loads children)
    (hindex : children'.map ScanChild.index = children.map ScanChild.index) :
    LoadsAll I loads children' := by
  intro i child hi
  have hmap : (children.map ScanChild.index)[i]? = some child.index := by
    rw [← hindex, List.getElem?_map, hi]
    rfl
  rw [List.getElem?_map] at hmap
  obtain ⟨child', hi', he⟩ := Option.map_eq_some_iff.mp hmap
  rw [← he]
  exact h i child' hi'

namespace ScanMerge

theorem index_next (it : ScanMerge) :
    (StorageIterator.next it).children.map ScanChild.index = it.children.map ScanChild.index := by
  cases hcurrent : it.current with
  | none => rw [MergeIterator.next_none hcurrent, MergeIterator.pickCurrent]
  | some i =>
    rw [MergeIterator.next_some hcurrent]
    change (it.children.modify i StorageIterator.next).map _ = _
    refine List.ext_getElem? fun j => ?_
    rw [List.getElem?_map, List.getElem?_map, List.getElem?_modify]
    cases it.children[j]? with
    | none => rfl
    | some child =>
      change some (ScanChild.index (if i = j then StorageIterator.next child else child)) = _
      split
      · exact congrArg some (ScanChild.index_next child)
      · rfl

theorem index_seek (it : ScanMerge) (key : SeekKey) :
    (StorageIterator.seek it key).children.map ScanChild.index =
      it.children.map ScanChild.index := by
  change (it.children.map fun c => StorageIterator.seek c key).map _ = _
  rw [List.map_map]
  exact List.map_congr_left fun child _ => ScanChild.index_seek child key

theorem gives_nextM {it : ScanMerge} (h : LoadsAll I loads it.children) :
    Gives I (nextM loads it) (.ok (StorageIterator.next it)) := by
  rw [nextM]
  cases hcurrent : it.current with
  | none =>
    rw [MergeIterator.next_none hcurrent]
    exact Gives.pure _
  | some i =>
    rw [MergeIterator.next_some hcurrent]
    dsimp only
    cases hi : it.children[i]? with
    | none =>
      rw [List.modify_eq_self (by rwa [← List.getElem?_eq_none_iff])]
      exact Gives.pure _
    | some child =>
      have hset : it.children.modify i StorageIterator.next =
          it.children.set i (StorageIterator.next child) := by
        rw [List.modify_eq_set_getElem?, hi]
        rfl
      rw [hset]
      exact (ScanChild.gives_nextM (h i child hi)).bind_ok (Gives.pure _)

theorem gives_seekLoop {all : List ScanChild} (h : LoadsAll I loads all) (key : SeekKey) (i : Nat)
    {rest : List ScanChild} (hdrop : all.drop i = rest) :
    Gives I (seekLoop loads key i rest) (.ok (rest.map fun c => StorageIterator.seek c key)) := by
  induction rest generalizing i with
  | nil => exact Gives.pure []
  | cons child rest ih =>
    have hi : all[i]? = some child := by
      have hget : (all.drop i)[0]? = some child := by rw [hdrop]; rfl
      rwa [List.getElem?_drop, Nat.add_zero] at hget
    have hrest : all.drop (i + 1) = rest := by
      rw [← List.drop_drop, hdrop]
      rfl
    rw [seekLoop]
    exact (ScanChild.gives_seekM (h i child hi) key).bind_ok
      ((ih (i + 1) hrest).bind_ok (Gives.pure _))

theorem gives_seekM {it : ScanMerge} (h : LoadsAll I loads it.children) (key : SeekKey) :
    Gives I (seekM loads it key) (.ok (StorageIterator.seek it key)) :=
  (gives_seekLoop h key 0 rfl).bind_ok (Gives.pure _)

end ScanMerge

namespace DBIterator

theorem children_advanceLoop (fuel : Nat) (it : DBIterator ScanMerge) :
    (advanceLoop fuel it).inner.children.map ScanChild.index =
      it.inner.children.map ScanChild.index := by
  induction fuel generalizing it with
  | zero => rfl
  | succ fuel ih =>
    rw [advanceLoop]
    split
    · have hnext := ScanMerge.index_next it.inner
      dsimp only
      split
      · exact (ih _).trans hnext
      · split
        · exact (ih _).trans hnext
        · split
          · exact (ih _).trans hnext
          · split
            · exact hnext
            · exact (ih _).trans hnext
    · rfl

theorem gives_advanceLoopM (fuel : Nat) {it : DBIterator ScanMerge}
    (h : LoadsAll I loads it.inner.children) :
    Gives I (advanceLoopM loads fuel it) (.ok (advanceLoop fuel it)) := by
  induction fuel generalizing it with
  | zero => exact Gives.pure it
  | succ fuel ih =>
    have hnext := h.congr (ScanMerge.index_next it.inner)
    rw [advanceLoopM, advanceLoop]
    cases StorageIterator.isValid it.inner with
    | false => exact Gives.pure it
    | true =>
      cases StorageIterator.entry it.inner with
      | none => exact Gives.pure it
      | some entry =>
        refine (ScanMerge.gives_nextM h).bind_ok ?_
        dsimp only
        split
        · exact ih hnext
        · split
          · exact ih hnext
          · split
            · exact ih hnext
            · cases entry.2 with
              | put value => exact Gives.pure _
              | delete => exact ih hnext

theorem children_seekToLowerBound (it : DBIterator ScanMerge) :
    (seekToLowerBound it).inner.children.map ScanChild.index =
      it.inner.children.map ScanChild.index := by
  unfold seekToLowerBound
  split
  · exact ScanMerge.index_seek _ _
  · rfl

theorem gives_tryNewM (fuel : Nat) {inner : ScanMerge} (h : LoadsAll I loads inner.children)
    (lower upper : Bound) (readSeq : Nat) :
    Gives I (tryNewM loads fuel inner lower upper readSeq)
      (.ok (tryNew fuel inner lower upper readSeq)) := by
  have hseek : Gives I (seekToLowerBoundM loads ⟨inner, lower, upper, readSeq, [], none⟩)
      (.ok (seekToLowerBound ⟨inner, lower, upper, readSeq, [], none⟩)) := by
    unfold seekToLowerBoundM seekToLowerBound
    cases lowerBoundSeekKey lower with
    | none => exact Gives.pure _
    | some target => exact (ScanMerge.gives_seekM h target).bind_ok (Gives.pure _)
  exact hseek.bind_ok (gives_advanceLoopM fuel (h.congr (children_seekToLowerBound _)))

theorem gives_collectM (fuel rounds : Nat) {it : DBIterator ScanMerge}
    (h : LoadsAll I loads it.inner.children) :
    Gives I (collectM loads fuel rounds it) (.ok (collect fuel rounds it)) := by
  induction rounds generalizing it with
  | zero => exact Gives.pure []
  | succ rounds ih =>
    rw [collectM, collect]
    cases it.current with
    | none => exact Gives.pure []
    | some row =>
      have hadvance : Gives I (it.advanceToNextVisibleM loads fuel)
          (.ok (it.advanceToNextVisible fuel)) := gives_advanceLoopM fuel h
      have hchildren := h.congr (children_advanceLoop fuel { it with current := none })
      exact hadvance.bind_ok ((ih hchildren).bind_ok (Gives.pure _))

theorem gives_scan (fuel : Nat) {inner : ScanMerge} (h : LoadsAll I loads inner.children)
    (lower upper : Bound) (readSeq : Nat) :
    Gives I (do
      let it ← tryNewM loads fuel inner lower upper readSeq
      collectM loads fuel fuel it)
      (.ok ((tryNew fuel inner lower upper readSeq).collect fuel fuel)) :=
  (gives_tryNewM fuel h lower upper readSeq).bind_ok (gives_collectM fuel fuel
    (h.congr ((children_advanceLoop fuel _).trans (children_seekToLowerBound _))))

end DBIterator

end

end TyLsm
