import TyLsm.Reads

/-! The invariant that every call keeps: the open tables are those of the current
version, file numbers from the next one on are unused, and the list of all
entries is newest first with sequence numbers up to the last one. -/

namespace TyLsm

/-- A state over the entries `below` of the tables. -/
structure StateOk (state : DBState) (below : List Entry) : Prop where
  newestFirst : NewestFirst (state.memEntries ++ below)
  sequences : ∀ e ∈ state.memEntries ++ below, e.1.sequence ≤ state.lastSequence
  matched : ∀ e ∈ state.memEntries, Matched e
  frozen : ∀ m ∈ state.immutables, m.entries ≠ []

structure DB.Ok (db : DB) : Prop extends db.Readable where
  stateOk : StateOk db.state (db.versions.current.entries db.disk.tables)
  freshTables : ∀ n, db.versions.nextFileNumber ≤ n → db.disk.tables n = none
  freshWals : ∀ n, db.versions.nextFileNumber ≤ n → db.disk.wals n = none

/-- What holds whether or not the entries are in search order and the levels searchable. -/
structure DB.Sound (db : DB) : Prop extends db.Tabled where
  distinct : (db.allEntries.map Prod.fst).Nodup
  sequences : ∀ e ∈ db.allEntries, e.1.sequence ≤ db.state.lastSequence
  matched : ∀ e ∈ db.state.memEntries, Matched e
  frozen : ∀ m ∈ db.state.immutables, m.entries ≠ []
  freshTables : ∀ n, db.versions.nextFileNumber ≤ n → db.disk.tables n = none
  freshWals : ∀ n, db.versions.nextFileNumber ≤ n → db.disk.wals n = none

/-- The part of it that does not look at the table lists and the logs. -/
structure DB.Live (db : DB) : Prop where
  isOpen : db.state.closed = false
  listed : db.versions.current.Listed db.disk.tables
  distinct : (db.allEntries.map Prod.fst).Nodup
  sequences : ∀ e ∈ db.allEntries, e.1.sequence ≤ db.state.lastSequence
  matched : ∀ e ∈ db.state.memEntries, Matched e
  frozen : ∀ m ∈ db.state.immutables, m.entries ≠ []
  freshTables : ∀ n, db.versions.nextFileNumber ≤ n → db.disk.tables n = none

theorem DB.Sound.live {db : DB} (h : db.Sound) : db.Live :=
  ⟨h.isOpen, h.listed, h.distinct, h.sequences, h.matched, h.frozen, h.freshTables⟩

theorem DB.Live.sound {db : DB} (h : db.Live)
    (htables : TablesOf db.disk db.versions.current db.state.l0Tables db.state.levelTables)
    (hwals : ∀ n, db.versions.nextFileNumber ≤ n → db.disk.wals n = none) : db.Sound :=
  ⟨⟨h.isOpen, h.listed, htables⟩, h.distinct, h.sequences, h.matched, h.frozen, h.freshTables, hwals⟩

theorem NewestFirst.distinct {l : List Entry} (h : NewestFirst l) : (l.map Prod.fst).Nodup := by
  rw [List.Nodup, List.pairwise_map]
  exact List.Pairwise.imp (fun hab he => absurd (hab (congrArg InternalKey.userKey he))
    (by simp [he])) h

theorem DB.Ok.sound {db : DB} (h : db.Ok) : db.Sound :=
  ⟨h.toReadable.tabled, h.stateOk.newestFirst.distinct, h.stateOk.sequences, h.stateOk.matched,
    h.stateOk.frozen, h.freshTables, h.freshWals⟩

namespace DBState

theorem entries_putRecord (state : DBState) (sequence : Nat) (record : BatchRecord)
    (hfresh : ∀ e ∈ state.mutable.entries, e.1.sequence < sequence) {e : Entry} :
    e ∈ (state.putRecord sequence record).mutable.entries ↔
      e = record.toEntry sequence ∨ e ∈ state.mutable.entries := by
  have hne : ∀ p ∈ state.mutable.entries, p.1 ≠ (record.toEntry sequence).1 := by
    intro p hp heq
    have := hfresh p hp
    rw [heq] at this
    exact Nat.lt_irrefl _ this
  have hinsert : (state.putRecord sequence record).mutable.entries =
      (state.mutable.map.insert (record.toEntry sequence).1 (record.toEntry sequence).2).entries := by
    cases record with
    | put key value => exact congrArg OrderedMap.entries (MemTable.map_put _ _ _ _)
    | delete key => exact congrArg OrderedMap.entries (MemTable.map_delete _ _ _)
  rw [hinsert, OrderedMap.mem_entries_insert]
  exact or_congr Iff.rfl (and_iff_left_of_imp fun hp => hne e hp)

theorem memEntries_eq (state : DBState) :
    state.memEntries = state.mutable.entries ++ state.immutables.reverse.flatMap MemTable.entries :=
  rfl

theorem mem_memEntries_putRecord {state : DBState} {sequence : Nat} {record : BatchRecord}
    (hfresh : ∀ e ∈ state.memEntries, e.1.sequence < sequence) {e : Entry} :
    e ∈ (state.putRecord sequence record).memEntries ↔
      e = record.toEntry sequence ∨ e ∈ state.memEntries := by
  have hmut := entries_putRecord state sequence record
    (fun e he => hfresh e (by rw [memEntries_eq]; exact List.mem_append.mpr (.inl he))) (e := e)
  rw [memEntries_eq, memEntries_eq, List.mem_append, List.mem_append, hmut, or_assoc]
  rfl

@[simp] theorem memEntries_freezeMutableIfNeeded (state : DBState) (size : Nat)
    (kind : MemTableKind) : (state.freezeMutableIfNeeded size kind).1.memEntries =
      state.memEntries := by
  unfold freezeMutableIfNeeded
  split
  · rfl
  · simp [memEntries, memtables]

@[simp] theorem lastSequence_freezeMutableIfNeeded (state : DBState) (size : Nat)
    (kind : MemTableKind) : (state.freezeMutableIfNeeded size kind).1.lastSequence =
      state.lastSequence := by
  unfold freezeMutableIfNeeded
  split <;> rfl

end DBState

theorem batchRecord_matched (record : BatchRecord) (sequence : Nat) :
    Matched (record.toEntry sequence) := by
  cases record <;> rfl

theorem visible_add {l l' : List Entry} {a : Entry} (h : NewestFirst l) (h' : NewestFirst l')
    (hm : ∀ e, e ∈ l' ↔ e = a ∨ e ∈ l) (hlt : ∀ e ∈ l, e.1.sequence < a.1.sequence) (k : Bytes)
    (s : Nat) : visible k s l' =
      if a.1.userKey = k ∧ a.1.sequence ≤ s then a.2.intoVisibleValue else visible k s l := by
  by_cases hk : a.1.userKey = k ∧ a.1.sequence ≤ s
  · have hn : newest k s l' = some a := by
      refine h'.newest_eq_some_iff.mpr ⟨(hm a).mpr (.inl rfl), hk.1, hk.2, fun b hb _ _ => ?_⟩
      rcases (hm b).mp hb with rfl | hb
      · exact le_rfl
      · exact (hlt b hb).le
    simp [visible, hn, hk]
  · have hn : newest k s l' = newest k s l := by
      cases hn : newest k s l with
      | none =>
        refine newest_eq_none_iff.mpr fun b hb hbk => ?_
        rcases (hm b).mp hb with rfl | hb
        · exact not_le.mp fun hle => hk ⟨hbk, hle⟩
        · exact newest_eq_none_iff.mp hn b hb hbk
      | some e =>
        obtain ⟨he, hek, hes, hmax⟩ := h.newest_eq_some_iff.mp hn
        refine h'.newest_eq_some_iff.mpr ⟨(hm e).mpr (.inr he), hek, hes, fun b hb hbk hbs => ?_⟩
        rcases (hm b).mp hb with rfl | hb
        · exact absurd ⟨hbk, hbs⟩ hk
        · exact hmax b hb hbk hbs
    rw [if_neg hk, visible, visible, hn]

namespace StateOk

variable {state : DBState} {below : List Entry}

theorem mem_putRecord (h : StateOk state below) {sequence : Nat} (hseq : state.lastSequence < sequence)
    (record : BatchRecord) {e : Entry} :
    e ∈ (state.putRecord sequence record).memEntries ++ below ↔
      e = record.toEntry sequence ∨ e ∈ state.memEntries ++ below := by
  have hfresh : ∀ e ∈ state.memEntries, e.1.sequence < sequence := fun e he =>
    lt_of_le_of_lt (h.sequences e (List.mem_append.mpr (.inl he))) hseq
  rw [List.mem_append, List.mem_append, DBState.mem_memEntries_putRecord hfresh, or_assoc]

theorem putRecord (h : StateOk state below) {sequence : Nat} (hseq : state.lastSequence < sequence)
    (record : BatchRecord) : StateOk (state.putRecord sequence record) below := by
  have hmem := fun e => h.mem_putRecord hseq record (e := e)
  have hlt : ∀ e ∈ state.memEntries ++ below, e.1.sequence < sequence := fun e he =>
    lt_of_le_of_lt (h.sequences e he) hseq
  have hfresh : ∀ e ∈ state.mutable.entries, e.1.sequence < sequence := fun e he =>
    hlt e (by rw [DBState.memEntries_eq]; simp [he])
  have hmut := fun e => DBState.entries_putRecord state sequence record hfresh (e := e)
  have hlast : (state.putRecord sequence record).lastSequence = sequence := max_eq_right hseq.le
  refine ⟨?_, ?_, ?_, h.frozen⟩
  · -- the mutable memtable stays sorted, and everything else is older than the new record
    have hold := h.newestFirst
    rw [DBState.memEntries_eq, List.append_assoc] at hold
    obtain ⟨hm, hrest, habove⟩ := newestFirst_append.mp hold
    rw [DBState.memEntries_eq, List.append_assoc]
    refine newestFirst_append.mpr ⟨?_, hrest, ?_⟩
    · refine (MemTable.entries_sorted _).newestFirst fun a ha b hb hk hs => ?_
      rcases (hmut a).mp ha with rfl | ha <;> rcases (hmut b).mp hb with rfl | hb
      · rfl
      · exact absurd hs (hfresh b hb).ne'
      · exact absurd hs (hfresh a ha).ne
      · exact hm.eq_of_rank_eq ha hb hk hs
    · intro a ha b hb hk
      rcases (hmut a).mp ha with rfl | ha
      · refine hlt b ?_
        rw [DBState.memEntries_eq, List.append_assoc]
        exact List.mem_append.mpr (.inr hb)
      · exact habove a ha b hb hk
  · intro e he
    rw [hlast]
    rcases (hmem e).mp he with rfl | he
    · exact le_rfl
    · exact (hlt e he).le
  · intro e he
    rcases (hmem e).mp (List.mem_append.mpr (.inl he)) with rfl | he'
    · exact batchRecord_matched record sequence
    · have hfresh' : ∀ e ∈ state.memEntries, e.1.sequence < sequence := fun e he =>
        hlt e (List.mem_append.mpr (.inl he))
      rcases (DBState.mem_memEntries_putRecord hfresh').mp he with rfl | he
      · exact batchRecord_matched record sequence
      · exact h.matched e he

theorem visible_putRecord (h : StateOk state below) {sequence : Nat}
    (hseq : state.lastSequence < sequence) (record : BatchRecord) (k : Bytes) (s : Nat) :
    visible k s ((state.putRecord sequence record).memEntries ++ below) =
      if record.key = k ∧ sequence ≤ s then record.value.intoVisibleValue
      else visible k s (state.memEntries ++ below) :=
  visible_add h.newestFirst (h.putRecord hseq record).newestFirst
    (fun _ => h.mem_putRecord hseq record) (fun e he => lt_of_le_of_lt (h.sequences e he) hseq) k s

theorem applyRecords (h : StateOk state below) {sequence : Nat}
    (hseq : state.lastSequence < sequence) (records : List BatchRecord) :
    StateOk (state.applyRecords sequence records) below := by
  induction records generalizing state sequence with
  | nil => exact h
  | cons record records ih =>
    refine ih (h.putRecord hseq record) ?_
    exact (max_eq_right hseq.le).trans_lt (Nat.lt_succ_self sequence)

theorem freezeMutableIfNeeded (h : StateOk state below) (size : Nat) (kind : MemTableKind) :
    StateOk (state.freezeMutableIfNeeded size kind).1 below := by
  refine ⟨by simpa using h.newestFirst, by simpa using h.sequences, by simpa using h.matched, ?_⟩
  unfold DBState.freezeMutableIfNeeded
  split
  · exact h.frozen
  · rename_i hno
    intro m hm
    rcases List.mem_append.mp hm with hm | hm
    · exact h.frozen m hm
    · rw [List.mem_singleton.mp hm]
      rw [Bool.or_eq_true, not_or, MemTable.isEmpty_iff] at hno
      exact hno.1

end StateOk

namespace DBState

theorem lastSequence_applyRecords (state : DBState) (sequence : Nat) (records : List BatchRecord)
    (hseq : state.lastSequence + 1 = sequence) :
    (state.applyRecords sequence records).lastSequence = state.lastSequence + records.length := by
  induction records generalizing state sequence with
  | nil => rfl
  | cons record records ih =>
    subst hseq
    have hlast : (state.putRecord (state.lastSequence + 1) record).lastSequence =
        state.lastSequence + 1 := max_eq_right (Nat.le_succ _)
    rw [applyRecords, ih _ _ (by rw [hlast]), hlast, List.length_cons]
    omega

end DBState

end TyLsm
