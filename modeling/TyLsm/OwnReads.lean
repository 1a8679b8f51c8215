import TyLsm.Conflicts
import TyLsm.Visibility

/-! What a transaction reads: its own writes, and elsewhere the snapshot. After a commit the
database shows what the transaction saw. -/

namespace TyLsm

/-- Reads return the newest version in a history, at every read sequence. -/
structure DB.Answers (db : DB) (history : List Entry) : Prop where
  get : ∀ k s, db.getOpt k (some s) = .ok (visible k s history)
  scan : ∀ lower upper s, ∃ rows, db.scanOpt lower upper (some s) = .ok rows ∧
    rows.Pairwise (fun a b => a.1 < b.1) ∧
    ∀ k v, (k, v) ∈ rows ↔ withinBounds k lower upper = true ∧ visible k s history = some v

/-- The versions stored after a sequence number. -/
def DB.versionsAfter (db : DB) (s : Nat) : List Entry :=
  sortEntries (db.allEntries.filter (fun e => decide (s < e.1.sequence)))

theorem DB.mem_versionsAfter {db : DB} {s : Nat} {e : Entry} :
    e ∈ db.versionsAfter s ↔ e ∈ db.allEntries ∧ s < e.1.sequence := by
  simp [versionsAfter]

/-- The last write of a key. -/
def lastWrite (writes : List BatchRecord) (k : Bytes) : Option ValueRecord :=
  (writes.reverse.find? (fun record => record.key == k)).map BatchRecord.value

@[simp] theorem lastWrite_nil (k : Bytes) : lastWrite [] k = none := rfl

theorem lastWrite_append_singleton (writes : List BatchRecord) (record : BatchRecord) (k : Bytes) :
    lastWrite (writes ++ [record]) k =
      if record.key = k then some record.value else lastWrite writes k := by
  rw [lastWrite, lastWrite, List.reverse_append, List.reverse_singleton, List.singleton_append,
    List.find?_cons]
  by_cases hk : record.key = k
  · simp [hk]
  · have hne : (record.key == k) = false := by simpa using hk
    simp [hk, hne]

theorem lastWrite_eq_none {writes : List BatchRecord} {k : Bytes} :
    lastWrite writes k = none ↔ k ∉ writes.map BatchRecord.key := by
  simp [lastWrite, List.find?_eq_none]

theorem localValue_eq (txn : Transaction) (k : Bytes) :
    txn.localValue k = lastWrite txn.writes.records k := rfl

theorem get?_applyToRows (lower upper : Bound) (rows : OrderedMap Bytes Bytes)
    (record : BatchRecord) (k : Bytes) :
    (Transaction.applyToRows lower upper rows record).get? k =
      if record.key = k ∧ withinBounds k lower upper = true then record.value.intoVisibleValue
      else rows.get? k := by
  by_cases hin : withinBounds record.key lower upper = true
  · cases record with
    | put key value =>
      have hin : withinBounds key lower upper = true := hin
      by_cases hk : key = k
      · subst hk
        simp [Transaction.applyToRows, BatchRecord.key, BatchRecord.value, hin,
          OrderedMap.get?_insert, ValueRecord.intoVisibleValue]
      · simp [Transaction.applyToRows, BatchRecord.key, hin, hk, OrderedMap.get?_insert]
    | delete key =>
      have hin : withinBounds key lower upper = true := hin
      by_cases hk : key = k
      · subst hk
        simp [Transaction.applyToRows, BatchRecord.key, BatchRecord.value, hin,
          OrderedMap.get?_erase, ValueRecord.intoVisibleValue]
      · simp [Transaction.applyToRows, BatchRecord.key, hin, hk, OrderedMap.get?_erase]
  · have hno : ¬ (record.key = k ∧ withinBounds k lower upper = true) := by
      rintro ⟨rfl, h⟩
      exact hin h
    rw [if_neg hno]
    simp only [Transaction.applyToRows, hin, Bool.false_eq_true, if_false]

theorem get?_foldl_applyToRows (lower upper : Bound) (base : OrderedMap Bytes Bytes)
    (writes : List BatchRecord) (k : Bytes) :
    (writes.foldl (Transaction.applyToRows lower upper) base).get? k =
      if withinBounds k lower upper = true then
        match lastWrite writes k with
        | some value => value.intoVisibleValue
        | none => base.get? k
      else base.get? k := by
  induction writes using List.reverseRecOn with
  | nil => simp
  | append_singleton writes record ih =>
    rw [List.foldl_append, List.foldl_cons, List.foldl_nil, lastWrite_append_singleton,
      get?_applyToRows, ih]
    by_cases hk : record.key = k <;> by_cases hin : withinBounds k lower upper = true <;>
      simp [hk, hin]

theorem DB.Answers.txnGet {db : DB} {history : List Entry} (h : db.Answers history)
    (txn : Transaction) (k : Bytes) :
    (txn.get db k).2 = .ok (match lastWrite txn.writes.records k with
      | some value => value.intoVisibleValue
      | none => visible k txn.readSeq history) := by
  rw [Transaction.get, localValue_eq]
  cases lastWrite txn.writes.records k with
  | none => exact h.get k txn.readSeq
  | some value => rfl

theorem DB.Answers.txnScan {db : DB} {history : List Entry} (h : db.Answers history)
    (txn : Transaction) (lower upper : Bound) :
    ∃ rows, (txn.scan db lower upper).2 = .ok rows ∧ rows.Pairwise (fun a b => a.1 < b.1) ∧
      ∀ k v, (k, v) ∈ rows ↔ withinBounds k lower upper = true ∧
        (txn.get db k).2 = .ok (some v) := by
  obtain ⟨rows, hscan, hsorted, hmem⟩ := h.scan lower upper txn.readSeq
  set base := rows.foldl (fun (map : OrderedMap Bytes Bytes) row => map.insert row.1 row.2) .empty
    with hbase
  have hnodup : (rows.map Prod.fst).Nodup :=
    List.pairwise_map.mpr (hsorted.imp fun hab => hab.ne)
  have hget : ∀ k v, base.get? k = some v ↔ withinBounds k lower upper = true ∧
      visible k txn.readSeq history = some v := by
    intro k v
    rw [← hmem, OrderedMap.get?_eq_some_iff, hbase]
    exact (OrderedMap.mem_insertAll_of_nodup hnodup).trans (by simp)
  refine ⟨(txn.writes.records.foldl (Transaction.applyToRows lower upper) base).entries, ?_,
    OrderedMap.sorted _, fun k v => ?_⟩
  · simp only [Transaction.scan, hscan, bind, Except.bind]
    rfl
  · rw [← OrderedMap.get?_eq_some_iff, get?_foldl_applyToRows, h.txnGet]
    by_cases hin : withinBounds k lower upper = true
    · rw [if_pos hin, Except.ok.injEq]
      cases lastWrite txn.writes.records k with
      | none => simp [hget, hin]
      | some value => simp [hin]
    · rw [if_neg hin, hget]
      simp [hin]

theorem newest_entriesFrom {l : List Entry} (hl : Rising l) {start s : Nat}
    {records : List BatchRecord} {k : Bytes}
    (hmem : ∀ e : Entry, e.1.userKey = k → (e ∈ l ↔ e ∈ entriesFrom start records))
    (hs : start + records.length ≤ s + 1) :
    (newest k s l).map Prod.snd = lastWrite records k := by
  cases hlast : lastWrite records k with
  | none =>
    rw [lastWrite_eq_none] at hlast
    rw [Option.map_eq_none_iff, newest_eq_none_iff]
    intro e he hk
    obtain ⟨record, hr, hkey⟩ := exists_entriesFrom_key.mp ⟨e, (hmem e hk).mp he, hk⟩
    exact absurd (List.mem_map.mpr ⟨record, hr, hkey⟩) hlast
  | some value =>
    obtain ⟨record, hfind, rfl⟩ := Option.map_eq_some_iff.mp hlast
    obtain ⟨hkey, post, pre, hsplit, hpost⟩ := List.find?_eq_some_iff_append.mp hfind
    obtain rfl : records = pre.reverse ++ record :: post.reverse := by
      rw [← List.reverse_reverse records, hsplit]
      simp
    have hkey : record.key = k := by simpa using hkey
    have hno : ¬ ∃ e ∈ entriesFrom (start + pre.reverse.length + 1) post.reverse,
        e.1.userKey = k := by
      rw [exists_entriesFrom_key]
      rintro ⟨r, hr, hk⟩
      have := hpost r (List.mem_reverse.mp hr)
      simp [hk] at this
    have hentries := entriesFrom_append start pre.reverse (record :: post.reverse)
    rw [entriesFrom] at hentries
    -- the entry of that record is in the list, and every other one of the key is older
    have hin : record.toEntry (start + pre.reverse.length) ∈ l := by
      refine (hmem _ hkey).mpr ?_
      rw [hentries]
      simp
    have hordered : l.Pairwise (fun a b => a.1.userKey = b.1.userKey → a.1 ≤ b.1) := by
      refine List.Pairwise.imp ?_ hl
      intro a b hab _
      exact hab
    simp only [List.length_append, List.length_cons] at hs
    cases hn : newest k s l with
    | none =>
      have := newest_eq_none_iff.mp hn _ hin hkey
      rw [entry_rank, BatchRecord.toEntry_sequence] at this
      omega
    | some found =>
      obtain ⟨hfkey, hfle⟩ := newest_key hn
      have hfound := (hmem found hfkey).mp (newest_mem hn)
      rw [hentries, List.mem_append, List.mem_cons] at hfound
      rcases hfound with hfound | rfl | hfound
      · exfalso
        have hlt := (entriesFrom_sequence hfound).2
        have hle := (newest_isFirst hordered hn).first _ hin hkey (by
          rw [BatchRecord.toEntry_sequence]
          omega)
        rcases hle.eq_or_lt with heq | hlt'
        · rw [heq, BatchRecord.toEntry_sequence] at hlt
          exact lt_irrefl _ hlt
        · have := InternalKey.sequence_le_of_lt hlt' (hfkey.trans hkey.symm)
          rw [BatchRecord.toEntry_sequence] at this
          omega
      · rfl
      · exact absurd ⟨found, hfound, hfkey⟩ hno

/-- What a transaction reads before its commit, and the database after it. `begun` is the
database at the start of the transaction. -/
structure ReadsOwnWrites (begun now : DB) (txn : Transaction) (seen : Seen) : Prop where
  get : ∀ k, (txn.get now k).2 = match lastWrite seen.writes k with
    | some value => .ok value.intoVisibleValue
    | none => begun.get k
  scan : ∀ lower upper, ∃ rows, (txn.scan now lower upper).2 = .ok rows ∧
    rows.Pairwise (fun a b => a.1 < b.1) ∧
    ∀ k v, (k, v) ∈ rows ↔ withinBounds k lower upper = true ∧ (txn.get now k).2 = .ok (some v)
  committed : ∀ db', txn.commit (.ok ()) now = .ok () db' → ∀ k,
    (k ∈ seen.reads ∨ k ∈ seen.writes.map BatchRecord.key ∨
      ∃ range ∈ seen.ranges, withinBounds k range.1 range.2 = true) →
    db'.get k = (txn.get now k).2

theorem DB.get_eq (db : DB) (k : Bytes) :
    db.get k = db.getOpt k (some db.state.lastSequence) := rfl

theorem visible_versionsAfter (db : DB) (k : Bytes) (s : Nat) (base : List Entry) :
    visible k s (db.versionsAfter s ++ base) = visible k s base := by
  have hnone : newest k s (db.versionsAfter s) = none :=
    newest_eq_none_iff.mpr fun e he _ => (DB.mem_versionsAfter.mp he).2
  rw [visible, newest_append, hnone, Option.none_or, visible]

/-- The state of the database at the start of a transaction, now and after a commit decide
what the transaction reads. -/
theorem readsOwnWrites {begun now : DB} {txn : Transaction} {seen : Seen} {base : List Entry}
    (hsound : now.Sound) (hrecorded : now.Recorded) (hmark : now.gcWatermark ≤ txn.readSeq)
    (htracks : Tracks now txn seen) (hseq : txn.readSeq = begun.state.lastSequence)
    (hbase : ∀ e ∈ base, e.1.sequence ≤ begun.state.lastSequence) (hbegun : begun.Answers base)
    (hnow : now.Answers (now.versionsAfter txn.readSeq ++ base))
    (hafter : ∀ db', txn.commit (.ok ()) now = .ok () db' →
      db'.Answers (db'.versionsAfter txn.readSeq ++ base)) :
    ReadsOwnWrites begun now txn seen := by
  have hget : ∀ k, (txn.get now k).2 = .ok (match lastWrite seen.writes k with
      | some value => value.intoVisibleValue
      | none => visible k txn.readSeq base) := by
    intro k
    rw [hnow.txnGet, htracks.writes, visible_versionsAfter]
  refine ⟨fun k => ?_, fun lower upper => hnow.txnScan txn lower upper, fun db' hcommit k hk => ?_⟩
  · rw [hget, DB.get_eq, hbegun.get, ← hseq]
    cases lastWrite seen.writes k <;> rfl
  · have hanswers := hafter db' hcommit
    rcases hsound.commit hrecorded txn hmark with ⟨db₁, hrun, hno, hev⟩ | ⟨message, db₁, hrun, -, -⟩
    · rw [hrun] at hcommit
      have hdb : { db₁ with watermark := now.watermark.remove txn.readSeq } = db' := by
        injection hcommit
      have hall : db'.allEntries = db₁.allEntries := by
        rw [← hdb]
        rfl
      have hlast : db'.state.lastSequence = now.state.lastSequence + seen.writes.length := by
        rw [← htracks.writes, ← hdb]
        exact hev.lastSequence
      have hle := htracks.le
      -- the versions of the key since the snapshot are those of the batch
      have hmem : ∀ e : Entry, e.1.userKey = k → (e ∈ db'.versionsAfter txn.readSeq ↔
          e ∈ entriesFrom (now.state.lastSequence + 1) seen.writes) := by
        intro e hek
        rw [DB.mem_versionsAfter, hall, ← htracks.writes]
        constructor
        · rintro ⟨he, hlt⟩
          refine (hev.gained e he).resolve_right fun hold => hno ⟨e, hold, hlt, ?_⟩
          rw [hek]
          change _ ∨ _ ∨ _
          rw [htracks.readKeys, htracks.writes, htracks.ranges]
          exact hk
        · intro he
          have := (entriesFrom_sequence he).1
          exact ⟨hev.added e he, by omega⟩
      have hrise : Rising (db'.versionsAfter txn.readSeq) := rising_sortEntries _
      have hnewest := newest_entriesFrom hrise hmem
        (by omega : _ ≤ now.state.lastSequence + seen.writes.length + 1)
      rw [hget, DB.get_eq, hanswers.get]
      rw [hlast, visible, newest_append]
      cases hlastWrite : lastWrite seen.writes k with
      | none =>
        rw [hlastWrite, Option.map_eq_none_iff] at hnewest
        rw [hnewest, Option.none_or]
        exact congrArg Except.ok ((visible_of_bounded hbase k (hseq ▸ hle.trans
          (Nat.le_add_right _ _))).trans (by rw [hseq]))
      | some value =>
        rw [hlastWrite] at hnewest
        obtain ⟨e, he, hvalue⟩ := Option.map_eq_some_iff.mp hnewest
        rw [he, ← hvalue]
        rfl
    · rw [hrun] at hcommit
      cases hcommit

namespace TxnClient

/-- A slot whose transaction, while it lives, reads at `s`. -/
def Pinned (slot s : Nat) (c : TxnClient) : Prop :=
  slot < c.txns.length ∧ ∀ txn : Transaction, c.txns[slot]? = some (some txn) → txn.readSeq = s

variable {slot s : Nat} {c : TxnClient}

theorem Pinned.set (h : Pinned slot s c) {db' : DB} {other : Nat} {txn' : Option Transaction}
    (htxn : ∀ txn : Transaction, txn' = some txn →
      ∃ old : Transaction, c.txns[other]? = some (some old) ∧ txn.readSeq = old.readSeq) :
    Pinned slot s ⟨db', c.txns.set other txn'⟩ := by
  refine ⟨by simpa using h.1, fun txn hslot => ?_⟩
  by_cases hi : other = slot
  · subst hi
    have hslot : (c.txns.set other txn')[other]? = some (some txn) := hslot
    rw [List.getElem?_set_self h.1] at hslot
    obtain ⟨old, hold, hseq⟩ := htxn txn (Option.some.inj hslot)
    rw [hseq, h.2 old hold]
  · have hslot : (c.txns.set other txn')[slot]? = some (some txn) := hslot
    rw [List.getElem?_set_ne hi] at hslot
    exact h.2 txn hslot

theorem Pinned.append (h : Pinned slot s c) {db' : DB} (txns : List (Option Transaction)) :
    Pinned slot s ⟨db', c.txns ++ txns⟩ := by
  refine ⟨by simpa using Nat.lt_add_right _ h.1, fun txn hslot => ?_⟩
  have hslot : (c.txns ++ txns)[slot]? = some (some txn) := hslot
  rw [List.getElem?_append_left h.1] at hslot
  exact h.2 txn hslot

theorem pinned_lift {α : Type} (program : DBM α)
    {txns : List (Option Transaction)} {done : α → List (Option Transaction)}
    (htxns : ∀ db', Pinned slot s ⟨db', txns⟩) (hdone : ∀ a db', Pinned slot s ⟨db', done a⟩)
    {call : TxnCall} (hrun : call.run c = TxnClient.lift program txns done c) :
    Pinned slot s (after TxnCall.run c call) := by
  unfold TxnClient.lift at hrun
  cases hprogram : program c.db with
  | ok a db =>
    rw [hprogram] at hrun
    rw [after_ok hrun]
    exact hdone a db
  | error err db =>
    rw [hprogram] at hrun
    rw [after_error hrun]
    exact htxns db

theorem Pinned.onTxn (h : Pinned slot s c) {other : Nat}
    {f : Transaction → TxnClient → EStateM.Result Error TxnClient Unit} {call : TxnCall}
    (hrun : call.run c = TxnClient.onTxn other f c)
    (hf : ∀ txn : Transaction, c.txns[other]? = some (some txn) → call.run c = f txn c →
      Pinned slot s (after TxnCall.run c call)) :
    Pinned slot s (after TxnCall.run c call) := by
  by_cases hl : ∃ txn : Transaction, c.txns[other]? = some (some txn)
  · obtain ⟨txn, hlive⟩ := hl
    exact hf txn hlive (hrun.trans (run_onTxn_live hlive f))
  · rw [run_onTxn_ended (fun txn ht => hl ⟨txn, ht⟩) f] at hrun
    rw [after_ok hrun]
    exact h

theorem Pinned.step (call : TxnCall) (c : TxnClient) (h : Pinned slot s c) :
    Pinned slot s (after TxnCall.run c call) := by
  cases call with
  | call inner => exact pinned_lift inner.run (fun _ => h) (fun _ _ => h) rfl
  | begin readOnly =>
    exact pinned_lift (DB.transaction readOnly) (fun _ => h) (fun txn _ => h.append [some txn]) rfl
  | get other key =>
    refine h.onTxn rfl fun txn hlive hrun => ?_
    rw [after_store hrun]
    refine h.set fun txn' htxn' => ⟨txn, hlive, ?_⟩
    obtain rfl := Option.some.inj htxn'
    rw [Transaction.get]
    split <;> rfl
  | scan other lower upper =>
    refine h.onTxn rfl fun txn hlive hrun => ?_
    rw [after_store hrun]
    refine h.set fun txn' htxn' => ⟨txn, hlive, ?_⟩
    obtain rfl := Option.some.inj htxn'
    rfl
  | write other record =>
    refine h.onTxn (by rw [TxnCall.run]) fun txn hlive hrun => ?_
    cases hwrite : txn.write record with
    | error err =>
      rw [hwrite] at hrun
      rw [after_error hrun]
      exact h
    | ok txn' =>
      rw [hwrite] at hrun
      rw [after_ok hrun]
      refine h.set fun txn'' htxn'' => ⟨txn, hlive, ?_⟩
      obtain rfl := Option.some.inj htxn''
      simp only [Transaction.write, bind, Except.bind] at hwrite
      split at hwrite
      · cases hwrite
      · obtain rfl := Except.ok.inj hwrite
        rfl
  | commit other =>
    refine h.onTxn rfl fun txn hlive hrun =>
      pinned_lift (txn.commit (.ok ())) (fun _ => ?_) (fun _ _ => ?_) hrun
    · exact h.set fun _ hnone => by cases hnone
    · exact h.set fun _ hnone => by cases hnone
  | rollback other =>
    refine h.onTxn rfl fun txn hlive hrun => pinned_lift txn.rollback (fun _ => ?_) (fun _ _ => ?_) hrun
    · exact h.set fun _ hnone => by cases hnone
    · exact h.set fun _ hnone => by cases hnone

end TxnClient

theorem runTxns_begin (env : Env) (options : Options) (path : String) (earlier later : List TxnCall)
    (hearlier : ∀ call ∈ earlier, call ≠ .call .reopen) (readOnly : Bool) :
    TxnClient.Pinned (runTxns earlier (DB.created env options path)).2.txns.length
      (runTxns earlier (DB.created env options path)).2.db.state.lastSequence
      (runTxns (earlier ++ .begin readOnly :: later) (DB.created env options path)).2 := by
  have hobs : TxnClient.Observed (runTxns earlier (DB.created env options path)).1
      (runTxns earlier (DB.created env options path)).2 :=
    follow_invariant TxnClient.Observed.step (TxnClient.observed_created env options path _)
      (along_of_forall (fun call hc _ => hearlier call hc) _)
  obtain ⟨c, hc⟩ : ∃ c, (runTxns earlier (DB.created env options path)).2 = c := ⟨_, rfl⟩
  rw [hc] at hobs ⊢
  have hrun := TxnClient.run_begin hobs.sound.isOpen readOnly
  rw [runTxns, follow_append]
  change TxnClient.Pinned _ _ (follow TxnCall.run TxnCall.note later _
    (after TxnCall.run (runTxns earlier (DB.created env options path)).2 _)).2
  rw [hc, after_ok hrun]
  refine follow_invariant (I := fun _ c' => TxnClient.Pinned c.txns.length
    c.db.state.lastSequence c') (C := fun _ _ => True)
    (fun call _ c' h _ => TxnClient.Pinned.step call c' h) ?_ (along_of_forall (fun _ _ _ => trivial) _)
  refine ⟨by simp, fun txn hslot => ?_⟩
  obtain rfl : _ = txn := by simpa using hslot
  rfl

/-- Whatever a client does between the start of a transaction and some later point, the
transaction reads its own writes and otherwise the snapshot, its scans agree with its reads,
and after a commit the database shows what it read; provided that reads of the database
return the newest version at the start, at that point and after the commit. -/
theorem transaction_reads_own_writes (env : Env) (options : Options) (path : String) {db₀ : DB}
    (hopen : DB.open env (Disk.empty path) options = .ok db₀) (earlier later : List TxnCall)
    (readOnly : Bool) (hearlier : ∀ call ∈ earlier, call ≠ .call .reopen)
    (hlater : ∀ call ∈ later, call ≠ .call .reopen) {begun now : TxnClient} {txn : Transaction}
    {seen : Seen} {base : List Entry} (hbegun : (runTxns earlier db₀).2 = begun)
    (hnow : (runTxns (earlier ++ .begin readOnly :: later) db₀).2 = now)
    (hseen : (runTxns (earlier ++ .begin readOnly :: later) db₀).1 begun.txns.length = seen)
    (hlive : now.txns[begun.txns.length]? = some (some txn))
    (hbase : ∀ e ∈ base, e.1.sequence ≤ begun.db.state.lastSequence)
    (hanswers : begun.db.Answers base)
    (hanswersNow : now.db.Answers (now.db.versionsAfter txn.readSeq ++ base))
    (hanswersAfter : ∀ db', txn.commit (.ok ()) now.db = .ok () db' →
      db'.Answers (db'.versionsAfter txn.readSeq ++ base)) :
    ReadsOwnWrites begun.db now.db txn seen := by
  obtain rfl := DB.eq_created hopen
  have hcalls : ∀ call ∈ earlier ++ .begin readOnly :: later, call ≠ .call .reopen := by
    intro call hmem
    rcases List.mem_append.mp hmem with hmem | hmem
    · exact hearlier call hmem
    · rcases List.mem_cons.mp hmem with rfl | hmem
      · exact nofun
      · exact hlater call hmem
  have hobs : TxnClient.Observed
      (runTxns (earlier ++ .begin readOnly :: later) (DB.created env options path)).1
      (runTxns (earlier ++ .begin readOnly :: later) (DB.created env options path)).2 :=
    follow_invariant TxnClient.Observed.step (TxnClient.observed_created env options path _)
      (along_of_forall (fun call hc _ => hcalls call hc) _)
  have hpinned := runTxns_begin env options path earlier later hearlier readOnly
  subst hseen hnow hbegun
  exact readsOwnWrites hobs.sound hobs.recorded (hobs.gcWatermark_le hlive)
    (hobs.tracks _ txn hlive) (hpinned.2 txn hlive) hbase hanswers hanswersNow hanswersAfter

theorem DB.Searchable.answers {db : DB} (h : db.Searchable) (hn : NewestFirst db.sourceEntries)
    {history : List Entry} (hn' : NewestFirst history)
    (hmem : ∀ e, e ∈ db.sourceEntries ↔ e ∈ history) : db.Answers history := by
  have hvisible : ∀ k s, visible k s db.sourceEntries = visible k s history := fun k s =>
    visible_congr hn hn' hmem
  refine ⟨fun k s => ?_, fun lower upper s => ?_⟩
  · rw [h.getOpt_eq, Option.getD_some, hvisible]
  · obtain ⟨all, rows, hperm, hrise, hscan, hsorted, hrows⟩ := DB.scanOpt_sorted h.isOpen
      (fun ref href => (h.opened ref href).1)
      (fun ref href => (h.opened ref href).2.wellFormed.ordered) lower upper (some s)
    refine ⟨rows, hscan, hsorted, fun k v => ?_⟩
    rw [hrows, Option.getD_some, visible_congr (newestFirst_of_rising hn hperm hrise) hn'
      fun e => hperm.mem_iff.trans (hmem e)]

theorem DB.searchable_of_no_tables {db : DB} (hopen : db.state.closed = false)
    (hl0 : db.state.l0Tables.isEmpty = true)
    (hlevels : db.state.levelTables.all List.isEmpty = true) : db.Searchable := by
  have hempty : ∀ level ∈ db.state.levelTables, level = [] := fun level hlevel =>
    List.isEmpty_iff.mp (List.all_eq_true.mp hlevels level hlevel)
  refine ⟨hopen, fun ref href => ?_, fun level hlevel => ?_, fun level hlevel => ?_⟩
  · rw [DB.tableRefs, List.isEmpty_iff.mp hl0, List.nil_append] at href
    obtain ⟨level, hlevel, href⟩ := List.mem_flatten.mp href
    rw [hempty level hlevel] at href
    cases href
  · rw [hempty level (List.mem_of_mem_drop hlevel)]
    exact List.Pairwise.nil
  · exact hempty level (List.mem_of_mem_head? hlevel)

/-- A client that writes one key directly and another one in a transaction. -/
def ownWrites : List TxnCall × List TxnCall :=
  ([.call (.put [97] [1])], [.write 0 (.put [98] [2])])

def ownTxn : Transaction := ⟨1, false, ⟨[.put [98] [2]]⟩, .empty, []⟩

theorem ownTxn_live : (runTxns (ownWrites.1 ++ .begin false :: ownWrites.2)
    (DB.created .inOrder {} "db")).2.txns[0]? = some (some ownTxn) := by
  rfl

/-- A database without tables that holds the given entries in its memtables. -/
def Holding (entries : List Entry) (db : DB) : Prop :=
  db.state.closed = false ∧ db.state.l0Tables.isEmpty = true ∧
    db.state.levelTables.all List.isEmpty = true ∧ db.state.memEntries = entries

instance (entries : List Entry) : DecidablePred (Holding entries) := fun db =>
  inferInstanceAs (Decidable (_ ∧ _ ∧ _ ∧ db.state.memEntries = entries))

theorem Holding.answers {entries history : List Entry} {db : DB} (h : Holding entries db)
    (hn : NewestFirst entries) (hn' : NewestFirst history) (hmem : ∀ e, e ∈ entries ↔ e ∈ history) :
    db.Answers history := by
  obtain ⟨hopen, hl0, hlevels, hentries⟩ := h
  have hsearch := DB.searchable_of_no_tables hopen hl0 hlevels
  have hrefs : db.tableRefs = [] := by
    refine List.eq_nil_iff_forall_not_mem.mpr fun ref href => ?_
    rw [DB.tableRefs, List.isEmpty_iff.mp hl0, List.nil_append] at href
    obtain ⟨level, hlevel, href⟩ := List.mem_flatten.mp href
    rw [List.isEmpty_iff.mp (List.all_eq_true.mp hlevels level hlevel)] at href
    cases href
  have hsource : db.sourceEntries = entries := by
    rw [DB.sourceEntries, hrefs, hentries, List.flatMap_nil, List.append_nil]
  exact hsearch.answers (hsource ▸ hn) hn' (hsource ▸ hmem)

theorem ownWrites_begun : Holding [(⟨[97], 1, .put⟩, .put [1])]
      (runTxns ownWrites.1 (DB.created .inOrder {} "db")).2.db ∧
    Holding [(⟨[97], 1, .put⟩, .put [1])] (runTxns (ownWrites.1 ++ .begin false :: ownWrites.2)
      (DB.created .inOrder {} "db")).2.db := by
  decide +kernel

theorem ownWrites_committed : EndsIn (fun db : DB =>
      Holding [(⟨[97], 1, .put⟩, .put [1]), (⟨[98], 2, .put⟩, .put [2])] db ∧
        db.versionsAfter 1 = [(⟨[98], 2, .put⟩, .put [2])])
    (ownTxn.commit (.ok ()) (runTxns (ownWrites.1 ++ .begin false :: ownWrites.2)
      (DB.created .inOrder {} "db")).2.db) := by
  decide +kernel

theorem transaction_reads_own_writes_small : ∃ db',
    ownTxn.commit (.ok ()) (runTxns (ownWrites.1 ++ .begin false :: ownWrites.2)
      (DB.created .inOrder {} "db")).2.db = .ok () db' ∧ db'.get [98] = .ok (some [2]) := by
  have hnone : (runTxns (ownWrites.1 ++ .begin false :: ownWrites.2)
      (DB.created .inOrder {} "db")).2.db.versionsAfter ownTxn.readSeq = [] := by
    decide +kernel
  have hone : NewestFirst [((⟨[97], 1, .put⟩, .put [1]) : Entry)] := List.pairwise_singleton _ _
  have howns := transaction_reads_own_writes .inOrder {} "db" (DB.open_empty _ _ _) ownWrites.1
    ownWrites.2 false (by simp [ownWrites]) (by simp [ownWrites]) rfl rfl rfl ownTxn_live
    (by decide +kernel)
    (ownWrites_begun.1.answers hone hone fun _ => Iff.rfl)
    (by rw [hnone]; exact ownWrites_begun.2.answers hone hone fun _ => Iff.rfl)
    (by
      intro db' hcommit
      have hends := ownWrites_committed
      rw [hcommit] at hends
      obtain ⟨hholding, hafter⟩ := hends
      have hseq : ownTxn.readSeq = 1 := rfl
      rw [hseq, hafter]
      exact hholding.answers (List.pairwise_pair.mpr (by decide)) (List.pairwise_pair.mpr (by decide))
        (by simp [or_comm]))
  obtain ⟨db', hcommit, -⟩ := ownWrites_committed.exists_ok
  exact ⟨db', hcommit, (howns.committed db' hcommit [98] (by decide +kernel)).trans (by decide +kernel)⟩

end TyLsm
