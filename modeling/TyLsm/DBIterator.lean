import TyLsm.Merge

/-! The iterator behind `scan`: it walks a storage iterator and shows the newest
visible value of each user key within the bounds. -/

namespace TyLsm

instance {ι κ : Type} [StorageIterator ι] [StorageIterator κ] : StorageIterator (ι ⊕ κ) where
  isValid := Sum.elim StorageIterator.isValid StorageIterator.isValid
  entry := Sum.elim StorageIterator.entry StorageIterator.entry
  next := Sum.map StorageIterator.next StorageIterator.next
  seek it key := it.map (StorageIterator.seek · key) (StorageIterator.seek · key)

structure DBIterator (ι : Type) where
  inner : ι
  lower : Bound
  upper : Bound
  readSeq : Nat
  seen : List Bytes
  current : Option (Bytes × Bytes)

def lowerBoundSeekKey : Bound → Option SeekKey
  | .included key => some (.before key)
  | .excluded key => some (.target ⟨key, 0, .delete⟩)
  | .unbounded => none

namespace DBIterator

variable {ι : Type} [StorageIterator ι]

/-- The loop of `advance_to_next_visible`; `fuel` bounds the number of rounds. -/
def advanceLoop : Nat → DBIterator ι → DBIterator ι
  | 0, it => it
  | fuel + 1, it =>
    match StorageIterator.isValid it.inner, StorageIterator.entry it.inner with
    | true, some (internalKey, value) =>
      let it := { it with inner := StorageIterator.next it.inner }
      if it.readSeq < internalKey.sequence then advanceLoop fuel it
      else if !withinBounds internalKey.userKey it.lower it.upper then advanceLoop fuel it
      else if it.seen.contains internalKey.userKey then advanceLoop fuel it
      else
        let it := { it with seen := internalKey.userKey :: it.seen }
        match value with
        | .put value => { it with current := some (internalKey.userKey, value) }
        | .delete => advanceLoop fuel it
    | _, _ => it

def advanceToNextVisible (fuel : Nat) (it : DBIterator ι) : DBIterator ι :=
  advanceLoop fuel { it with current := none }

def seekToLowerBound (it : DBIterator ι) : DBIterator ι :=
  match lowerBoundSeekKey it.lower with
  | some target => { it with inner := StorageIterator.seek it.inner target }
  | none => it

def tryNew (fuel : Nat) (inner : ι) (lower upper : Bound) (readSeq : Nat) : DBIterator ι :=
  (seekToLowerBound ⟨inner, lower, upper, readSeq, [], none⟩).advanceToNextVisible fuel

/-- The loop of `collect`, pushing the current row and calling `next`. -/
def collect (fuel : Nat) : Nat → DBIterator ι → List (Bytes × Bytes)
  | 0, _ => []
  | rounds + 1, it =>
    match it.current with
    | some row => row :: collect fuel rounds (it.advanceToNextVisible fuel)
    | none => []

end DBIterator

/-- The rows that a walk over `entries` shows, `seen` being the keys already decided. -/
def visibleRows (lower upper : Bound) (readSeq : Nat) : List Bytes → List Entry →
    List (Bytes × Bytes)
  | _, [] => []
  | seen, (key, value) :: rest =>
    if readSeq < key.sequence then visibleRows lower upper readSeq seen rest
    else if !withinBounds key.userKey lower upper then visibleRows lower upper readSeq seen rest
    else if seen.contains key.userKey then visibleRows lower upper readSeq seen rest
    else
      match value with
      | .put value =>
        (key.userKey, value) :: visibleRows lower upper readSeq (key.userKey :: seen) rest
      | .delete => visibleRows lower upper readSeq (key.userKey :: seen) rest

theorem Iterates.inl {ι κ : Type} [StorageIterator ι] [StorageIterator κ] {it : ι}
    {all rest : List Entry} (h : Iterates it all rest) :
    Iterates (Sum.inl it : ι ⊕ κ) all rest := by
  obtain ⟨R, law, hr⟩ := h
  refine ⟨fun it all rest => ∃ i, it = .inl i ∧ R i all rest, ?_, it, rfl, hr⟩
  constructor
  · rintro _ all rest ⟨i, rfl, h⟩
    exact law.isValid h
  · rintro _ all rest ⟨i, rfl, h⟩
    exact law.entry h
  · rintro _ all rest ⟨i, rfl, h⟩
    exact ⟨_, rfl, law.next h⟩
  · rintro _ all rest t ⟨i, rfl, h⟩
    exact ⟨_, rfl, law.seek t h⟩

theorem Iterates.inr {ι κ : Type} [StorageIterator ι] [StorageIterator κ] {it : κ}
    {all rest : List Entry} (h : Iterates it all rest) :
    Iterates (Sum.inr it : ι ⊕ κ) all rest := by
  obtain ⟨R, law, hr⟩ := h
  refine ⟨fun it all rest => ∃ i, it = .inr i ∧ R i all rest, ?_, it, rfl, hr⟩
  constructor
  · rintro _ all rest ⟨i, rfl, h⟩
    exact law.isValid h
  · rintro _ all rest ⟨i, rfl, h⟩
    exact law.entry h
  · rintro _ all rest ⟨i, rfl, h⟩
    exact ⟨_, rfl, law.next h⟩
  · rintro _ all rest t ⟨i, rfl, h⟩
    exact ⟨_, rfl, law.seek t h⟩

namespace DBIterator

variable {ι : Type} [StorageIterator ι]

/-- One call of the loop shows the first of the remaining rows and leaves the others. -/
theorem advanceLoop_spec {all rest : List Entry} {fuel : Nat} (it : DBIterator ι)
    (h : Iterates it.inner all rest) (hc : it.current = none) (hf : rest.length < fuel) :
    ∃ rest', rest'.length ≤ rest.length ∧ Iterates (advanceLoop fuel it).inner all rest' ∧
      (advanceLoop fuel it).lower = it.lower ∧ (advanceLoop fuel it).upper = it.upper ∧
      (advanceLoop fuel it).readSeq = it.readSeq ∧
      (match (advanceLoop fuel it).current with
        | none => visibleRows it.lower it.upper it.readSeq it.seen rest = []
        | some row => rest'.length < rest.length ∧
          visibleRows it.lower it.upper it.readSeq it.seen rest =
            row :: visibleRows it.lower it.upper it.readSeq (advanceLoop fuel it).seen rest') := by
  induction rest generalizing fuel it with
  | nil =>
    obtain ⟨fuel, rfl⟩ := Nat.exists_eq_succ_of_ne_zero (Nat.ne_of_gt hf)
    have hv : StorageIterator.isValid it.inner = false := (iterates_law ι).isValid h
    have hstop : advanceLoop (fuel + 1) it = it := by simp [advanceLoop, hv]
    refine ⟨[], le_rfl, ?_⟩
    simp only [Nat.succ_eq_add_one, hstop, hc]
    exact ⟨h, trivial, trivial, trivial, rfl⟩
  | cons e rest ih =>
    obtain ⟨fuel, rfl⟩ := Nat.exists_eq_succ_of_ne_zero (Nat.ne_of_gt (Nat.zero_lt_of_lt hf))
    obtain ⟨key, value⟩ := e
    have hv : StorageIterator.isValid it.inner = true := (iterates_law ι).isValid h
    have he : StorageIterator.entry it.inner = some (key, value) := (iterates_law ι).entry h
    have hn : Iterates (StorageIterator.next it.inner) all rest := (iterates_law ι).next h
    have hlen : rest.length < fuel := by simpa using hf
    -- a skipped entry: the rest of the loop starts from the advanced iterator
    have hskip : ∀ seen', visibleRows it.lower it.upper it.readSeq it.seen ((key, value) :: rest) =
          visibleRows it.lower it.upper it.readSeq seen' rest →
        advanceLoop (fuel + 1) it = advanceLoop fuel
          { it with inner := StorageIterator.next it.inner, seen := seen' } →
        ∃ rest', rest'.length ≤ (rest.length + 1) ∧
          Iterates (advanceLoop (fuel + 1) it).inner all rest' ∧
          (advanceLoop (fuel + 1) it).lower = it.lower ∧
          (advanceLoop (fuel + 1) it).upper = it.upper ∧
          (advanceLoop (fuel + 1) it).readSeq = it.readSeq ∧
          (match (advanceLoop (fuel + 1) it).current with
            | none => visibleRows it.lower it.upper it.readSeq it.seen ((key, value) :: rest) = []
            | some row => rest'.length < rest.length + 1 ∧
              visibleRows it.lower it.upper it.readSeq it.seen ((key, value) :: rest) =
                row :: visibleRows it.lower it.upper it.readSeq
                  (advanceLoop (fuel + 1) it).seen rest') := by
      intro seen' hrows hloop
      obtain ⟨rest', hle, hit, hl, hu, hs, hcur⟩ :=
        @ih fuel { it with inner := StorageIterator.next it.inner, seen := seen' } hn hc hlen
      rw [hrows, hloop]
      refine ⟨rest', Nat.le_succ_of_le hle, hit, hl, hu, hs, ?_⟩
      cases hc' : (advanceLoop fuel
        { it with inner := StorageIterator.next it.inner, seen := seen' }).current with
      | none => simpa [hc'] using hcur
      | some row =>
        simp only [hc'] at hcur
        exact ⟨Nat.lt_succ_of_lt hcur.1, hcur.2⟩
    by_cases hseq : it.readSeq < key.sequence
    · exact hskip it.seen (by simp [visibleRows, hseq]) (by simp [advanceLoop, hv, he, hseq])
    · by_cases hb : withinBounds key.userKey it.lower it.upper = true
      · by_cases hs : it.seen.contains key.userKey = true
        · exact hskip it.seen (by simp [visibleRows, hseq, hb, List.elem_iff.mp hs])
            (by simp [advanceLoop, hv, he, hseq, hb, List.elem_iff.mp hs])
        · have hs' : key.userKey ∉ it.seen := by simpa using hs
          cases value with
          | delete =>
            exact hskip (key.userKey :: it.seen) (by simp [visibleRows, hseq, hb, hs'])
              (by simp [advanceLoop, hv, he, hseq, hb, hs'])
          | put value =>
            have hloop : advanceLoop (fuel + 1) it =
                { it with
                  inner := StorageIterator.next it.inner
                  seen := key.userKey :: it.seen
                  current := some (key.userKey, value) } := by
              simp [advanceLoop, hv, he, hseq, hb, hs']
            simp only [Nat.succ_eq_add_one, hloop]
            refine ⟨rest, by simp, hn, trivial, trivial, trivial, by simp, ?_⟩
            simp [visibleRows, hseq, hb, hs']
      · exact hskip it.seen (by simp [visibleRows, hseq, hb])
          (by simp [advanceLoop, hv, he, hseq, hb])

/-- Collecting from an iterator that shows its first row yields that row and all later ones. -/
theorem collect_spec {all rest : List Entry} {fuel rounds : Nat} {it : DBIterator ι}
    (h : Iterates it.inner all rest) (hf : rest.length < fuel) (hr : rest.length < rounds)
    (hnone : it.current = none → visibleRows it.lower it.upper it.readSeq it.seen rest = []) :
    collect fuel rounds it =
      it.current.toList ++ visibleRows it.lower it.upper it.readSeq it.seen rest := by
  induction rounds generalizing rest it with
  | zero => exact absurd hr (Nat.not_lt_zero _)
  | succ rounds ih =>
    cases hc : it.current with
    | none => simp [collect, hc, hnone hc]
    | some row =>
      obtain ⟨rest', hle, hit, hl, hu, hs, hcur⟩ :=
        advanceLoop_spec { it with current := none } h rfl hf
      simp only [collect, hc, Option.toList_some, List.singleton_append, List.cons.injEq, true_and]
      rw [advanceToNextVisible]
      set it' := advanceLoop fuel { it with current := none }
      cases hc' : it'.current with
      | none =>
        simp only [hc'] at hcur
        cases rounds with
        | zero => simp [collect, hcur]
        | succ rounds => simp [collect, hc', hcur]
      | some row' =>
        simp only [hc'] at hcur
        rw [ih hit (lt_of_le_of_lt hle hf) (lt_of_lt_of_le hcur.1 (Nat.lt_succ_iff.mp hr))
          (by simp [hc']), hc', hl, hu, hs, hcur.2]
        rfl

/-- The entries that remain after seeking to the lower bound. -/
def fromLowerBound (lower : Bound) (all : List Entry) : List Entry :=
  match lowerBoundSeekKey lower with
  | some target => all.filter (fun e => !target.exceeds e.1)
  | none => all

theorem fromLowerBound_sublist (lower : Bound) (all : List Entry) :
    (fromLowerBound lower all).Sublist all := by
  unfold fromLowerBound
  split
  · exact List.filter_sublist
  · exact List.Sublist.refl _

theorem seekToLowerBound_spec {inner : ι} {all : List Entry} (h : Iterates inner all all)
    (lower upper : Bound) (readSeq : Nat) :
    ∃ inner', Iterates inner' all (fromLowerBound lower all) ∧
      seekToLowerBound (⟨inner, lower, upper, readSeq, [], none⟩ : DBIterator ι) =
        ⟨inner', lower, upper, readSeq, [], none⟩ := by
  cases hk : lowerBoundSeekKey lower with
  | none => exact ⟨inner, by simpa [fromLowerBound, hk] using h, by simp [seekToLowerBound, hk]⟩
  | some target =>
    refine ⟨StorageIterator.seek inner target, ?_, by simp [seekToLowerBound, hk]⟩
    simpa [fromLowerBound, hk] using (iterates_law ι).seek target h

theorem collect_tryNew {inner : ι} {all : List Entry} (h : Iterates inner all all) {fuel : Nat}
    (hf : all.length < fuel) (lower upper : Bound) (readSeq : Nat) :
    collect fuel fuel (tryNew fuel inner lower upper readSeq) =
      visibleRows lower upper readSeq [] (fromLowerBound lower all) := by
  have hlen : (fromLowerBound lower all).length < fuel :=
    lt_of_le_of_lt (fromLowerBound_sublist lower all).length_le hf
  obtain ⟨inner', hseek, heq⟩ := seekToLowerBound_spec h lower upper readSeq
  obtain ⟨rest', hle, hit, hl, hu, hs, hcur⟩ := advanceLoop_spec
    ⟨inner', lower, upper, readSeq, [], none⟩ hseek rfl hlen
  rw [tryNew, heq, advanceToNextVisible]
  set it' := advanceLoop fuel (⟨inner', lower, upper, readSeq, [], none⟩ : DBIterator ι)
  cases hc : it'.current with
  | none =>
    simp only [hc] at hcur
    obtain ⟨n, rfl⟩ := Nat.exists_eq_succ_of_ne_zero (Nat.ne_of_gt (Nat.zero_lt_of_lt hf))
    simp [collect, hc, hcur]
  | some row =>
    simp only [hc] at hcur
    rw [collect_spec hit (lt_of_le_of_lt hle hlen) (lt_of_le_of_lt hle hlen) (by simp [hc]),
      hc, hl, hu, hs, hcur.2]
    rfl

end DBIterator

theorem visibleRows_filter (lower upper : Bound) (readSeq : Nat) (p : Entry → Bool)
    (l : List Entry) (hp : ∀ e ∈ l, withinBounds e.1.userKey lower upper = true → p e = true)
    (seen : List Bytes) :
    visibleRows lower upper readSeq seen (l.filter p) = visibleRows lower upper readSeq seen l := by
  induction l generalizing seen with
  | nil => rfl
  | cons e l ih =>
    obtain ⟨key, value⟩ := e
    have hl := ih fun e he => hp e (by simp [he])
    by_cases hpe : p (key, value) = true
    · simp only [List.filter_cons, hpe, if_true, visibleRows, hl]
    · have hb : withinBounds key.userKey lower upper = false := by
        by_contra hb
        exact hpe (hp (key, value) (by simp) (by simpa using hb))
      simp only [List.filter_cons, hpe, if_false, visibleRows, hl, hb, Bool.not_false, if_true,
        ite_self, Bool.false_eq_true]

theorem lowerBoundSeekKey_not_exceeds {lower : Bound} {t : SeekKey}
    (h : lowerBoundSeekKey lower = some t) {k : InternalKey} (hk : lower.lowerOk k.userKey = true) :
    t.exceeds k = false := by
  cases lower with
  | included key =>
    cases h
    simpa [SeekKey.exceeds, Bound.lowerOk] using hk
  | excluded key =>
    cases h
    have hlt : key < k.userKey := by simpa [Bound.lowerOk] using hk
    simp only [SeekKey.exceeds, decide_eq_false_iff_not, InternalKey.lt_iff]
    rintro (h | ⟨h, _⟩)
    · exact h.asymm hlt
    · exact hlt.ne h.symm
  | unbounded => cases h

theorem visibleRows_fromLowerBound (lower upper : Bound) (readSeq : Nat) (seen : List Bytes)
    (l : List Entry) : visibleRows lower upper readSeq seen (DBIterator.fromLowerBound lower l) =
      visibleRows lower upper readSeq seen l := by
  cases hk : lowerBoundSeekKey lower with
  | none => simp [DBIterator.fromLowerBound, hk]
  | some target =>
    simp only [DBIterator.fromLowerBound, hk]
    refine visibleRows_filter lower upper readSeq _ l (fun e _ hb => ?_) seen
    simp only [withinBounds, Bool.and_eq_true] at hb
    simp [lowerBoundSeekKey_not_exceeds hk hb.1]

/-- The value of a key that a read at a sequence number shows. -/
def visible (k : Bytes) (s : Nat) (l : List Entry) : Option Bytes :=
  (newest k s l).bind (fun e => e.2.intoVisibleValue)

/-- A row shows up exactly when the newest record of its key up to `readSeq` is a put. -/
theorem mem_visibleRows {lower upper : Bound} {readSeq : Nat} {seen : List Bytes}
    {l : List Entry} {k v : Bytes} :
    (k, v) ∈ visibleRows lower upper readSeq seen l ↔
      withinBounds k lower upper = true ∧ k ∉ seen ∧ visible k readSeq l = some v := by
  induction l generalizing seen with
  | nil => simp [visibleRows, visible]
  | cons e l ih =>
    obtain ⟨key, value⟩ := e
    -- an entry that this key's search passes over
    have hpass : ¬ (key.userKey = k ∧ key.sequence ≤ readSeq) →
        visible k readSeq ((key, value) :: l) = visible k readSeq l := by
      intro hno
      simp only [visible, newest, List.find?_cons, entry_key, entry_rank, hno, decide_false]
    by_cases hseq : readSeq < key.sequence
    · simp only [visibleRows, hseq, if_true, ih]
      rw [hpass fun h => absurd h.2 (Nat.not_le.mpr hseq)]
    · by_cases hb : withinBounds key.userKey lower upper = true
      · by_cases hk : key.userKey = k
        · subst hk
          have hhit : visible key.userKey readSeq ((key, value) :: l) = value.intoVisibleValue := by
            simp [visible, newest, Nat.not_lt.mp hseq]
          by_cases hs : key.userKey ∈ seen
          · simp [visibleRows, hseq, hb, hs, ih]
          · rw [hhit]
            cases value with
            | put value =>
              simp [visibleRows, hseq, hb, hs, ih, ValueRecord.intoVisibleValue, eq_comm]
            | delete => simp [visibleRows, hseq, hb, hs, ih, ValueRecord.intoVisibleValue]
        · rw [hpass fun h => hk h.1]
          have hk' : ¬ k = key.userKey := fun h => hk h.symm
          by_cases hs : key.userKey ∈ seen
          · simp [visibleRows, hseq, hb, hs, ih]
          · cases value with
            | put value => simp [visibleRows, hseq, hb, hs, ih, hk']
            | delete => simp [visibleRows, hseq, hb, hs, ih, hk']
      · simp only [visibleRows, hseq, hb, if_false, Bool.not_false, if_true, ih]
        by_cases hk : key.userKey = k
        · simp [← hk, hb]
        · rw [hpass fun h => hk h.1]

theorem visibleRows_key_mem {lower upper : Bound} {readSeq : Nat} {seen : List Bytes}
    {l : List Entry} {row : Bytes × Bytes} (h : row ∈ visibleRows lower upper readSeq seen l) :
    ∃ e ∈ l, e.1.userKey = row.1 := by
  obtain ⟨_, _, hv⟩ := mem_visibleRows.mp h
  obtain ⟨e, he, _⟩ := Option.bind_eq_some_iff.mp hv
  exact ⟨e, newest_mem he, (newest_key he).1⟩

theorem visibleRows_sorted {lower upper : Bound} {readSeq : Nat} {seen : List Bytes}
    {l : List Entry} (h : Rising l) :
    (visibleRows lower upper readSeq seen l).Pairwise (fun a b => a.1 < b.1) := by
  induction l generalizing seen with
  | nil => exact List.Pairwise.nil
  | cons e l ih =>
    obtain ⟨key, value⟩ := e
    obtain ⟨he, hl⟩ := List.pairwise_cons.mp h
    simp only [visibleRows]
    split
    · exact ih hl
    · split
      · exact ih hl
      · split
        · exact ih hl
        · cases value with
          | delete => exact ih hl
          | put value =>
            refine List.pairwise_cons.mpr ⟨fun row hrow => ?_, ih hl⟩
            obtain ⟨e, hmem, hk⟩ := visibleRows_key_mem hrow
            have hns : row.1 ∉ key.userKey :: seen := (mem_visibleRows.mp hrow).2.1
            have hle : key.userKey ≤ row.1 := hk ▸ InternalKey.userKey_le_of_le (he e hmem)
            exact lt_of_le_of_ne hle fun heq => hns (List.mem_cons.mpr (.inl heq.symm))

end TyLsm
