import TyLsm.Snapshots

/-! The snapshot values of a program: handles, their clones, and those inside transactions. The
watermark counts the live ones of every read sequence, whatever the order of the calls. -/

namespace TyLsm

/-- A watermark with the snapshot values that refer to it: those in variables and in the options
of running reads, and those of transactions. One that was dropped leaves `none`. -/
structure LiveSnapshots where
  watermark : Watermark
  handles : List (Option Nat)
  transactions : List (Option Nat)

inductive SnapshotEvent where
  | new (readSeq : Nat)
  | clone (slot : Nat)
  | drop (slot : Nat)
  /-- `DB::transaction` moves a new snapshot into the transaction. -/
  | transaction (readSeq : Nat)
  /-- A read of a transaction puts a clone of its snapshot into the read options. -/
  | cloneHeld (txn : Nat)
  /-- A commit, a rollback or the drop of a transaction. -/
  | finish (txn : Nat)

namespace LiveSnapshots

def new : LiveSnapshots := ⟨Watermark.new, [], []⟩

def addHandle (p : LiveSnapshots) (readSeq : Nat) : LiveSnapshots :=
  { p with watermark := p.watermark.add readSeq, handles := p.handles ++ [some readSeq] }

def addTransaction (p : LiveSnapshots) (readSeq : Nat) : LiveSnapshots :=
  { p with watermark := p.watermark.add readSeq, transactions := p.transactions ++ [some readSeq] }

def dropHandle (p : LiveSnapshots) (slot readSeq : Nat) : LiveSnapshots :=
  { p with watermark := p.watermark.remove readSeq, handles := p.handles.set slot none }

def dropTransaction (p : LiveSnapshots) (txn readSeq : Nat) : LiveSnapshots :=
  { p with watermark := p.watermark.remove readSeq, transactions := p.transactions.set txn none }

/-- A value that was dropped or never existed cannot be used. -/
def step (p : LiveSnapshots) : SnapshotEvent → LiveSnapshots
  | .new readSeq => p.addHandle readSeq
  | .clone slot =>
    match p.handles[slot]? with
    | some (some readSeq) => p.addHandle readSeq
    | _ => p
  | .drop slot =>
    match p.handles[slot]? with
    | some (some readSeq) => p.dropHandle slot readSeq
    | _ => p
  | .transaction readSeq => p.addTransaction readSeq
  | .cloneHeld txn =>
    match p.transactions[txn]? with
    | some (some readSeq) => p.addHandle readSeq
    | _ => p
  | .finish txn =>
    match p.transactions[txn]? with
    | some (some readSeq) => p.dropTransaction txn readSeq
    | _ => p

/-- The read sequences of the live values. -/
def live (p : LiveSnapshots) : List Nat := (p.handles ++ p.transactions).reduceOption

/-- The watermark counts the live values. -/
def Counted (p : LiveSnapshots) : Prop := p.watermark.Counts (p.handles ++ p.transactions)

theorem counts_congr {w : Watermark} {held held' : List (Option Nat)} (h : w.Counts held)
    (hcount : ∀ n, held'.count (some n) = held.count (some n)) : w.Counts held' := by
  intro n
  rw [hcount]
  exact h n

variable {p : LiveSnapshots}

theorem Counted.addHandle (h : p.Counted) (readSeq : Nat) : (p.addHandle readSeq).Counted := by
  apply counts_congr (Watermark.Counts.add h readSeq)
  intro n
  simp only [LiveSnapshots.addHandle, List.count_append]
  omega

theorem Counted.addTransaction (h : p.Counted) (readSeq : Nat) :
    (p.addTransaction readSeq).Counted := by
  apply counts_congr (Watermark.Counts.add h readSeq)
  intro n
  simp only [LiveSnapshots.addTransaction, List.count_append]
  omega

theorem Counted.dropHandle (h : p.Counted) {slot readSeq : Nat}
    (hslot : p.handles[slot]? = some (some readSeq)) : (p.dropHandle slot readSeq).Counted := by
  have hlt := (List.getElem?_eq_some_iff.mp hslot).1
  have hall : (p.handles ++ p.transactions)[slot]? = some (some readSeq) := by
    rw [List.getElem?_append_left hlt, hslot]
  have hremove := Watermark.Counts.remove h hall
  rwa [List.set_append_left _ _ hlt] at hremove

theorem Counted.dropTransaction (h : p.Counted) {txn readSeq : Nat}
    (htxn : p.transactions[txn]? = some (some readSeq)) :
    (p.dropTransaction txn readSeq).Counted := by
  have hall : (p.handles ++ p.transactions)[p.handles.length + txn]? = some (some readSeq) := by
    rw [List.getElem?_append_right (Nat.le_add_right _ _), Nat.add_sub_cancel_left, htxn]
  have hremove := Watermark.Counts.remove h hall
  rwa [List.set_append_right _ _ (Nat.le_add_right _ _), Nat.add_sub_cancel_left] at hremove

theorem Counted.step (h : p.Counted) (event : SnapshotEvent) : (p.step event).Counted := by
  cases event with
  | new readSeq => exact h.addHandle readSeq
  | clone slot =>
    rw [LiveSnapshots.step]
    split
    · exact h.addHandle _
    · exact h
  | drop slot =>
    rw [LiveSnapshots.step]
    split
    · rename_i hslot
      exact h.dropHandle hslot
    · exact h
  | transaction readSeq => exact h.addTransaction readSeq
  | cloneHeld txn =>
    rw [LiveSnapshots.step]
    split
    · exact h.addHandle _
    · exact h
  | finish txn =>
    rw [LiveSnapshots.step]
    split
    · rename_i htxn
      exact h.dropTransaction htxn
    · exact h

theorem counted_new : new.Counted := fun _ => ⟨rfl, by simp [new, Watermark.new, OrderedMap.get?]⟩

theorem Counted.run (h : p.Counted) (events : List SnapshotEvent) :
    (events.foldl LiveSnapshots.step p).Counted := by
  induction events generalizing p with
  | nil => exact h
  | cons event events ih => exact ih (h.step event)

theorem count_live (p : LiveSnapshots) (n : Nat) :
    p.live.count n = (p.handles ++ p.transactions).count (some n) := by
  unfold live
  induction p.handles ++ p.transactions with
  | nil => rfl
  | cons slot slots ih =>
    cases slot with
    | none => simpa [List.reduceOption_cons_of_none] using ih
    | some readSeq => simp [List.reduceOption_cons_of_some, List.count_cons, ih]

theorem mem_live (p : LiveSnapshots) (n : Nat) :
    n ∈ p.live ↔ some n ∈ p.handles ++ p.transactions := List.reduceOption_mem_iff

theorem Counted.get? (h : p.Counted) (n : Nat) :
    p.watermark.active.get? n = if p.live.count n = 0 then none else some (p.live.count n) := by
  obtain ⟨hcount, hzero⟩ := h n
  rw [← count_live] at hcount
  cases hget : p.watermark.active.get? n with
  | none =>
    rw [hget] at hcount
    have hnone : p.live.count n = 0 := hcount.symm
    rw [if_pos hnone]
  | some count =>
    rw [hget] at hcount hzero
    have hsame : count = p.live.count n := hcount
    have hpos : p.live.count n ≠ 0 := by
      intro h0
      exact hzero (by rw [hsame, h0])
    rw [if_neg hpos, hsame]

theorem Counted.oldest (h : p.Counted) : p.watermark.oldest = p.live.min? := by
  cases ho : p.watermark.oldest with
  | none =>
    symm
    rw [List.min?_eq_none_iff, List.eq_nil_iff_forall_not_mem]
    intro n hn
    obtain ⟨oldest, hsome, -⟩ := Watermark.Counts.oldest_le h ((p.mem_live n).mp hn)
    rw [ho] at hsome
    cases hsome
  | some oldest =>
    symm
    rw [List.min?_eq_some_iff]
    constructor
    · exact (p.mem_live oldest).mpr (Watermark.Counts.oldest_mem h ho)
    · intro n hn
      obtain ⟨oldest', hsome, hle⟩ := Watermark.Counts.oldest_le h ((p.mem_live n).mp hn)
      rw [ho] at hsome
      cases hsome
      exact hle

end LiveSnapshots

/-- Every count is positive and exact, so a drop finds its count and does not underflow. -/
theorem watermark_counts_live (events : List SnapshotEvent) :
    let p := events.foldl LiveSnapshots.step LiveSnapshots.new
    (∀ n, p.watermark.active.get? n =
      if p.live.count n = 0 then none else some (p.live.count n)) ∧
    (∀ n ∈ p.live, ∃ count, p.watermark.active.get? n = some (count + 1)) ∧
    p.watermark.oldest = p.live.min? ∧ (p.watermark.oldest = none ↔ p.live = []) := by
  intro p
  have h : p.Counted := LiveSnapshots.counted_new.run events
  have hmin := h.oldest
  refine ⟨h.get?, ?_, hmin, by rw [hmin, List.min?_eq_none_iff]⟩
  intro n hn
  have hpos := List.count_pos_iff.mpr hn
  refine ⟨p.live.count n - 1, ?_⟩
  rw [h.get?, if_neg hpos.ne', Nat.sub_add_cancel hpos]

end TyLsm
