import TyLsm.Merge

/-! Draining an iterator. The law of the storage iterators says the same as a contract on what
a caller sees: the entries that come up under repeated `next`, at first and after each `seek`. -/

namespace TyLsm

inductive IterCall where
  | next
  | seek (key : SeekKey)

section Contract

variable {ι : Type} [StorageIterator ι]

def IterCall.run (it : ι) : IterCall → ι
  | .next => StorageIterator.next it
  | .seek key => StorageIterator.seek it key

def runCalls (calls : List IterCall) (it : ι) : ι := calls.foldl IterCall.run it

/-- Under repeated `next` the entries of `l` come up, each once, and then the end. -/
def Yields (it : ι) (l : List Entry) : Prop :=
  ∀ n, StorageIterator.isValid (StorageIterator.next^[n] it) = decide (n < l.length) ∧
    StorageIterator.entry (StorageIterator.next^[n] it) = l[n]?

/-- The entries of `l` that a seek to `t` leaves to come. -/
def atLeast (t : SeekKey) (l : List Entry) : List Entry := l.filter (fun e => !t.exceeds e.1)

/-- What a caller may rely on: the sorted entries at first, and those from the target on after
a seek from anywhere. -/
structure Obeys (it : ι) (all : List Entry) : Prop where
  sorted : Rising all
  start : Yields it all
  seek : ∀ calls t, Yields (StorageIterator.seek (runCalls calls it) t) (atLeast t all)

theorem yields_of_step {R : ι → List Entry → Prop}
    (hvalid : ∀ {it rest}, R it rest → StorageIterator.isValid it = !rest.isEmpty)
    (hentry : ∀ {it rest}, R it rest → StorageIterator.entry it = rest.head?)
    (hnext : ∀ {it rest}, R it rest → R (StorageIterator.next it) rest.tail)
    {it : ι} {rest : List Entry} (h : R it rest) : Yields it rest := by
  intro n
  induction n generalizing it rest with
  | zero =>
    constructor
    · rw [Function.iterate_zero_apply, hvalid h]
      cases rest <;> rfl
    · rw [Function.iterate_zero_apply, hentry h, List.head?_eq_getElem?]
  | succ n ih =>
    have hn := ih (hnext h)
    rw [Function.iterate_succ_apply]
    constructor
    · rw [hn.1, List.length_tail]
      congr 1
      apply propext
      omega
    · rw [hn.2, List.getElem?_tail]

theorem IteratorLaw.yields {R : ι → List Entry → List Entry → Prop} (law : IteratorLaw ι R)
    {it : ι} {all rest : List Entry} (h : R it all rest) : Yields it rest :=
  yields_of_step law.isValid law.entry law.next h

theorem IteratorLaw.runCalls {R : ι → List Entry → List Entry → Prop} (law : IteratorLaw ι R)
    (calls : List IterCall) {it : ι} {all rest : List Entry} (h : R it all rest) :
    ∃ rest', R (runCalls calls it) all rest' := by
  induction calls generalizing it rest with
  | nil => exact ⟨rest, h⟩
  | cons call calls ih =>
    cases call with
    | next => exact ih (law.next h)
    | seek key => exact ih (law.seek key h)

theorem Iterates.obeys {it : ι} {all : List Entry} (hr : Rising all) (h : Iterates it all all) :
    Obeys it all := by
  constructor
  · exact hr
  · exact (iterates_law ι).yields h
  · intro calls t
    obtain ⟨rest, hrest⟩ := (iterates_law ι).runCalls calls h
    exact (iterates_law ι).yields ((iterates_law ι).seek t hrest)

theorem Yields.next {it : ι} {l : List Entry} (h : Yields it l) :
    Yields (StorageIterator.next it) l.tail := by
  intro n
  have hn := h (n + 1)
  rw [Function.iterate_succ_apply] at hn
  constructor
  · rw [hn.1, List.length_tail]
    congr 1
    apply propext
    omega
  · rw [hn.2, List.getElem?_tail]

theorem Yields.unique {it : ι} {l l' : List Entry} (h : Yields it l) (h' : Yields it l') :
    l = l' := by
  apply List.ext_getElem?
  intro n
  rw [← (h n).2, (h' n).2]

theorem runCalls_append (before after : List IterCall) (it : ι) :
    runCalls (before ++ after) it = runCalls after (runCalls before it) := List.foldl_append

theorem Obeys.law {it : ι} {all : List Entry} (h : Obeys it all) :
    IteratorLaw ι (fun it' all' rest =>
      (∃ calls, it' = runCalls calls it) ∧ all' = all ∧ Yields it' rest) where
  isValid := by
    rintro it' all' rest ⟨-, -, hy⟩
    rw [← Function.iterate_zero_apply StorageIterator.next it', (hy 0).1]
    cases rest <;> rfl
  entry := by
    rintro it' all' rest ⟨-, -, hy⟩
    rw [← Function.iterate_zero_apply StorageIterator.next it', (hy 0).2, List.head?_eq_getElem?]
  next := by
    rintro it' all' rest ⟨⟨calls, rfl⟩, hall, hy⟩
    exact ⟨⟨calls ++ [.next], by rw [runCalls_append]; rfl⟩, hall, hy.next⟩
  seek := by
    rintro it' all' rest t ⟨⟨calls, rfl⟩, rfl, -⟩
    exact ⟨⟨calls ++ [.seek t], by rw [runCalls_append]; rfl⟩, rfl, h.seek calls t⟩

theorem Obeys.iterates {it : ι} {all : List Entry} (h : Obeys it all) : Iterates it all all :=
  ⟨_, h.law, ⟨[], rfl⟩, rfl, h.start⟩

end Contract

/-- A sorted interleaving of the lists, entries with one key in the order of the lists. -/
structure MergeOf (lists : List (List Entry)) (merged : List Entry) : Prop where
  sorted : Rising merged
  perm : merged.Perm lists.flatten
  stable : ∀ k : InternalKey,
    merged.filter (fun e => decide (e.1 = k)) = lists.flatten.filter (fun e => decide (e.1 = k))

theorem mergeOf_sortEntries (lists : List (List Entry)) :
    MergeOf lists (sortEntries lists.flatten) := by
  constructor
  · exact rising_sortEntries _
  · exact sortEntries_perm _
  · intro k
    rw [← sortEntries_filter]
    apply Rising.sortEntries_eq
    apply List.pairwise_iff_forall_sublist.mpr
    intro a b hab
    have hak : a.1 = k := by simpa using (List.mem_filter.mp (hab.subset (by simp : a ∈ _))).2
    have hbk : b.1 = k := by simpa using (List.mem_filter.mp (hab.subset (by simp : b ∈ _))).2
    exact (hak.trans hbk.symm).le

theorem atLeast_sortEntries (t : SeekKey) (lists : List (List Entry)) :
    atLeast t (sortEntries lists.flatten) = sortEntries (lists.map (atLeast t)).flatten := by
  rw [atLeast, ← sortEntries_filter, List.filter_flatten]
  rfl

namespace MergeIterator

variable {ι : Type} [StorageIterator ι]

theorem rising_of_obeys {children : List ι} {lists : List (List Entry)}
    (h : List.Forall₂ Obeys children lists) : ∀ l ∈ lists, Rising l := by
  induction h with
  | nil => simp
  | cons hc _ ih => exact List.forall_mem_cons.mpr ⟨hc.sorted, ih⟩

theorem obeys_new {children : List ι} {lists : List (List Entry)}
    (h : List.Forall₂ Obeys children lists) :
    Obeys (new children) (sortEntries lists.flatten) := by
  have hchildren : List.Forall₂ (fun c l => Iterates c l l) children lists :=
    h.imp fun c l hc => hc.iterates
  exact (iterates_new hchildren (rising_of_obeys h)).obeys (rising_sortEntries _)

end MergeIterator

structure TwoMergeIterator (ι : Type) where
  inner : MergeIterator ι

namespace TwoMergeIterator

variable {ι : Type} [StorageIterator ι]

def new (left right : ι) : TwoMergeIterator ι := ⟨.new [left, right]⟩

instance : StorageIterator (TwoMergeIterator ι) where
  isValid it := StorageIterator.isValid it.inner
  entry it := StorageIterator.entry it.inner
  next it := ⟨StorageIterator.next it.inner⟩
  seek it key := ⟨StorageIterator.seek it.inner key⟩

theorem law : IteratorLaw (TwoMergeIterator ι) (fun it => MergeIterator.MergeAt it.inner) where
  isValid := MergeIterator.law.isValid
  entry := MergeIterator.law.entry
  next := MergeIterator.law.next
  seek := fun t h => MergeIterator.law.seek t h

theorem obeys_new {left right : ι} {l r : List Entry} (hl : Obeys left l) (hr : Obeys right r) :
    Obeys (new left right) (sortEntries [l, r].flatten) := by
  have hsorted : Rising (sortEntries [l, r].flatten) := rising_sortEntries _
  apply Iterates.obeys hsorted
  refine ⟨_, law, [(l, l), (r, r)], ?_, ?_, rfl, rfl, rfl⟩
  · exact .cons hl.iterates (.cons hr.iterates .nil)
  · simp [hl.sorted, hr.sorted]

end TwoMergeIterator

/-- What a merge of the lists shows, at first and after a seek from anywhere. -/
structure DrainsMerge {ι : Type} [StorageIterator ι] (it : ι) (lists : List (List Entry)) :
    Prop where
  start : ∃ merged, Yields it merged ∧ MergeOf lists merged
  seek : ∀ calls t, ∃ merged, Yields (StorageIterator.seek (runCalls calls it) t) merged ∧
    MergeOf (lists.map (atLeast t)) merged

theorem Obeys.drainsMerge {ι : Type} [StorageIterator ι] {it : ι} {lists : List (List Entry)}
    (h : Obeys it (sortEntries lists.flatten)) : DrainsMerge it lists := by
  constructor
  · exact ⟨_, h.start, mergeOf_sortEntries lists⟩
  · intro calls t
    have hseek := h.seek calls t
    rw [atLeast_sortEntries] at hseek
    exact ⟨_, hseek, mergeOf_sortEntries _⟩

theorem twoMergeIterator_drains {ι : Type} [StorageIterator ι] {left right : ι} {l r : List Entry}
    (hl : Obeys left l) (hr : Obeys right r) :
    DrainsMerge (TwoMergeIterator.new left right) [l, r] :=
  (TwoMergeIterator.obeys_new hl hr).drainsMerge

theorem mergeIterator_drains {ι : Type} [StorageIterator ι] {children : List ι}
    {lists : List (List Entry)} (h : List.Forall₂ Obeys children lists) :
    DrainsMerge (MergeIterator.new children) lists :=
  (MergeIterator.obeys_new h).drainsMerge

/-- One key in the first and the last of three iterators, and nothing in the second. -/
theorem mergeIterator_drains_equal :
    let newer : List Entry := [(⟨[1], 2, .put⟩, .put [7]), (⟨[3], 1, .put⟩, .put [3])]
    let older : List Entry := [(⟨[1], 2, .put⟩, .put [8]), (⟨[2], 1, .delete⟩, .delete)]
    DrainsMerge (MergeIterator.new
      [EntryIterator.new newer, EntryIterator.new [], EntryIterator.new older])
      [sortEntries newer, sortEntries [], sortEntries older] := by
  intro newer older
  have hobeys : ∀ es, Obeys (EntryIterator.new es) (sortEntries es) := fun es =>
    (entryIterator_new es).obeys (rising_sortEntries es)
  exact mergeIterator_drains
    (.cons (hobeys newer) (.cons (hobeys []) (.cons (hobeys older) .nil)))

end TyLsm
