import TyLsm.Rotation
import TyLsm.Crash

/-! Replaying a log into an empty memtable. The memtable ends up with the records of the
log, the last one of each internal key, and the last sequence is raised to theirs. -/

namespace TyLsm

@[simp] theorem walEntries_nil : walEntries [] = [] := rfl

@[simp] theorem walEntries_cons (record : Nat × WriteBatch) (records : List (Nat × WriteBatch)) :
    walEntries (record :: records) =
      entriesFrom record.1 record.2.records ++ walEntries records := rfl

/-- The largest of a number and the sequences of a list. -/
def lastOf (last : Nat) (entries : List Entry) : Nat :=
  entries.foldl (fun s e => max s e.1.sequence) last

theorem le_lastOf (last : Nat) (entries : List Entry) : last ≤ lastOf last entries := by
  induction entries generalizing last with
  | nil => exact le_rfl
  | cons e entries ih => exact (le_max_left _ _).trans (ih _)

theorem sequence_le_lastOf {last : Nat} {entries : List Entry} {e : Entry} (he : e ∈ entries) :
    e.1.sequence ≤ lastOf last entries := by
  induction entries generalizing last with
  | nil => cases he
  | cons a entries ih =>
    rcases List.mem_cons.mp he with rfl | he
    · exact (le_max_right _ _).trans (le_lastOf _ entries)
    · exact ih he

theorem le_lastOf_iff {last n : Nat} {entries : List Entry} :
    n ≤ lastOf last entries ↔ n ≤ last ∨ ∃ e ∈ entries, n ≤ e.1.sequence := by
  induction entries generalizing last with
  | nil => simp [lastOf]
  | cons a entries ih =>
    have hstep : lastOf last (a :: entries) = lastOf (max last a.1.sequence) entries := rfl
    rw [hstep, ih, le_max_iff]
    simp [or_assoc]

namespace DBState

theorem map_applyRecords (state : DBState) (sequence : Nat) (records : List BatchRecord) :
    (state.applyRecords sequence records).mutable.map =
      state.mutable.map.insertAll (entriesFrom sequence records) := by
  induction records generalizing state sequence with
  | nil => rfl
  | cons record records ih =>
    rw [applyRecords, ih]
    have hput : (state.putRecord sequence record).mutable.map =
        state.mutable.map.insert (record.toEntry sequence).1 (record.toEntry sequence).2 := by
      cases record with
      | put key value => exact MemTable.map_put _ _ _ _
      | delete key => exact MemTable.map_delete _ _ _
    rw [hput]
    rfl

theorem lastSequence_applyRecords_eq (state : DBState) (sequence : Nat)
    (records : List BatchRecord) :
    (state.applyRecords sequence records).lastSequence =
      lastOf state.lastSequence (entriesFrom sequence records) := by
  induction records generalizing state sequence with
  | nil => rfl
  | cons record records ih => exact ih (state.putRecord sequence record) (sequence + 1)

theorem map_recoverWal (state : DBState) (records : List (Nat × WriteBatch)) :
    (state.recoverWal records).mutable.map = state.mutable.map.insertAll (walEntries records) := by
  induction records generalizing state with
  | nil => rfl
  | cons record records ih =>
    have hstep : state.recoverWal (record :: records) =
        (state.applyBatch record.1 record.2).recoverWal records := rfl
    rw [hstep, ih, applyBatch, map_applyRecords, walEntries_cons, OrderedMap.insertAll,
      OrderedMap.insertAll, OrderedMap.insertAll, List.foldl_append]

theorem lastSequence_recoverWal (state : DBState) (records : List (Nat × WriteBatch)) :
    (state.recoverWal records).lastSequence =
      lastOf state.lastSequence (walEntries records) := by
  induction records generalizing state with
  | nil => rfl
  | cons record records ih =>
    have hstep : state.recoverWal (record :: records) =
        (state.applyBatch record.1 record.2).recoverWal records := rfl
    rw [hstep, ih, applyBatch, lastSequence_applyRecords_eq, walEntries_cons, lastOf, lastOf,
      lastOf, List.foldl_append]

/-- Everything in memory after replaying a log into an empty memtable is in one memtable. -/
theorem memEntries_recoverWal (kind : MemTableKind) (l0 : List TableRef)
    (levels : List (List TableRef)) (last : Nat) (records : List (Nat × WriteBatch)) :
    ((fresh kind l0 levels last).recoverWal records).memEntries =
      (OrderedMap.empty.insertAll (walEntries records)).entries := by
  rw [memEntries_eq, recoverWal_immutables]
  have hnew : (fresh kind l0 levels last).mutable.map = OrderedMap.empty := by
    change (MemTable.new kind).map = _
    cases kind <;> rfl
  have himm : (fresh kind l0 levels last).immutables = [] := rfl
  rw [himm, MemTable.entries, map_recoverWal, hnew]
  simp

end DBState

end TyLsm
