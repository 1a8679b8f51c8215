import TyLsm.Phases

/-! Reads beside a compaction. A read captures its sequence and the table lists, and opens
the files of the captured tables only later; a compaction unlinks its input files without
asking whether somebody still has to open them. -/

namespace TyLsm

/-- A read after its capture step. A `get` that finds its key in memory is done then. -/
inductive PendingRead where
  | done (value : Option Bytes)
  | get (key : Bytes) (readSeq : Nat) (l0Tables : List TableRef)
      (levelTables : List (List TableRef))
  | scan (lower upper : Bound) (readSeq : Nat) (memEntries : List Entry)
      (l0Tables : List TableRef) (levelTables : List (List TableRef))

inductive Answer where
  | value (value : Option Bytes)
  | rows (rows : List (Bytes × Bytes))

namespace DB

def captureGet (db : DB) (key : Bytes) (snapshot : Option Nat) : Except Error PendingRead := do
  if db.state.closed then throw .closed
  let readSeq := snapshot.getD db.state.lastSequence
  match db.state.memtables.findSome? (fun memtable => memtable.get key readSeq) with
  | some record => return .done record.intoVisibleValue
  | none => return .get key readSeq db.state.l0Tables db.state.levelTables

def captureScan (db : DB) (lower upper : Bound) (snapshot : Option Nat) :
    Except Error PendingRead := do
  if db.state.closed then throw .closed
  let readSeq := snapshot.getD db.state.lastSequence
  return .scan lower upper readSeq db.state.memEntries db.state.l0Tables db.state.levelTables

end DB

/-- The rows of a scan over its memory entries and open table iterators. -/
def scanRows (lower upper : Bound) (readSeq : Nat) (memEntries : List Entry)
    (refs : List TableRef) (tables : List SSTableStorageIterator) : List (Bytes × Bytes) :=
  let memChildren : List (EntryIterator ⊕ SSTableStorageIterator) :=
    if memEntries.isEmpty then [] else [.inl (.new memEntries)]
  let fuel := memEntries.length + (refs.flatMap (fun ref => ref.2.entries)).length + 1
  let inner := MergeIterator.new (memChildren ++ tables.map .inr)
  (DBIterator.tryNew fuel inner lower upper readSeq).collect fuel fuel

namespace PendingRead

/-- The second step of a read, on the directory as it is then. -/
def finish (d : Disk) : PendingRead → Except Error Answer
  | done value => .ok (.value value)
  | get key readSeq l0Tables levelTables => do
    match ← searchL0 d key readSeq l0Tables with
    | some record => return .value record.intoVisibleValue
    | none =>
      match ← searchLevels d key readSeq (levelTables.drop 1) with
      | some record => return .value record.intoVisibleValue
      | none => return .value none
  | scan lower upper readSeq memEntries l0Tables levelTables => do
    let refs := l0Tables ++ levelTables.flatten
    let tables ← storageIters d refs
    return .rows (scanRows lower upper readSeq memEntries refs tables)

end PendingRead

namespace DB

variable (db : DB)

theorem getOpt_eq_capture (key : Bytes) (snapshot : Option Nat) :
    (db.getOpt key snapshot).map .value = db.captureGet key snapshot >>= PendingRead.finish db.disk := by
  unfold getOpt captureGet
  cases db.state.closed with
  | true => rfl
  | false =>
    dsimp only [bind, Except.bind, pure, Except.pure]
    cases db.state.memtables.findSome?
      (fun memtable => memtable.get key (snapshot.getD db.state.lastSequence)) with
    | some record => rfl
    | none =>
      simp only [PendingRead.finish, bind, Except.bind, pure, Except.pure, Bool.false_eq_true, if_false]
      cases searchL0 db.disk key (snapshot.getD db.state.lastSequence) db.state.l0Tables with
      | error err => rfl
      | ok found =>
        cases found with
        | some record => rfl
        | none =>
          cases searchLevels db.disk key (snapshot.getD db.state.lastSequence)
            (db.state.levelTables.drop 1) with
          | error err => rfl
          | ok found => cases found <;> rfl

theorem scanOpt_eq_capture (lower upper : Bound) (snapshot : Option Nat) :
    (db.scanOpt lower upper snapshot).map .rows =
      db.captureScan lower upper snapshot >>= PendingRead.finish db.disk := by
  unfold scanOpt captureScan
  cases db.state.closed with
  | true => rfl
  | false =>
    simp only [PendingRead.finish, bind, Except.bind, pure, Except.pure, Bool.false_eq_true, if_false]
    cases storageIters db.disk (db.state.l0Tables ++ db.state.levelTables.flatten) <;> rfl

end DB

/-- One list of tables searched until one has a record. -/
def searchAll (d : Disk) (key : Bytes) (readSeq : Nat) :
    List TableRef → Except Error (Option ValueRecord)
  | [] => .ok none
  | ref :: refs => do
    match ← searchTable d key readSeq ref with
    | some record => return some record
    | none => searchAll d key readSeq refs

/-- The tables in question for a key: those of L0 that cover it, and one of each level below. -/
def candidates (key : Bytes) (l0Tables : List TableRef) (levelTables : List (List TableRef)) :
    List TableRef :=
  l0Tables.filter (fun ref => fileOverlapsUserKey ref.1 key) ++
    (levelTables.drop 1).filterMap (fun level =>
      level.find? (fun ref => fileOverlapsUserKey ref.1 key))

/-- The tables whose files a search opens. -/
def visited (key : Bytes) (readSeq : Nat) : List TableRef → List TableRef
  | [] => []
  | ref :: refs =>
    if ref.2.mightContain key then
      ref :: if (ref.2.get key readSeq).isSome then [] else visited key readSeq refs
    else visited key readSeq refs

/-- What a search finds if it can open its files. -/
def foundIn (key : Bytes) (readSeq : Nat) (refs : List TableRef) : Option ValueRecord :=
  (refs.filter (fun ref => ref.2.mightContain key)).findSome? (fun ref => ref.2.get key readSeq)

section

variable (d : Disk) (key : Bytes) (readSeq : Nat)

theorem searchL0_eq_searchAll (refs : List TableRef) : searchL0 d key readSeq refs =
    searchAll d key readSeq (refs.filter (fun ref => fileOverlapsUserKey ref.1 key)) := by
  induction refs with
  | nil => rfl
  | cons ref refs ih =>
    rw [searchL0]
    cases hover : fileOverlapsUserKey ref.1 key with
    | false =>
      rw [List.filter_cons_of_neg (by simp [hover]), ← ih]
      rfl
    | true =>
      rw [List.filter_cons_of_pos (by simp [hover]), searchAll, ← ih]
      rfl

theorem searchLevels_eq_searchAll (levels : List (List TableRef)) :
    searchLevels d key readSeq levels = searchAll d key readSeq (levels.filterMap (fun level =>
      level.find? (fun ref => fileOverlapsUserKey ref.1 key))) := by
  induction levels with
  | nil => rfl
  | cons level levels ih =>
    rw [searchLevels]
    cases hfind : level.find? (fun ref => fileOverlapsUserKey ref.1 key) with
    | none => rw [List.filterMap_cons_none hfind, ← ih]
    | some ref =>
      rw [List.filterMap_cons_some hfind]
      exact congrArg (fun rest => (do
        match ← searchTable d key readSeq ref with
        | some record => return some record
        | none => rest)) ih

theorem searchAll_append (l r : List TableRef) :
    searchAll d key readSeq (l ++ r) = (do
      match ← searchAll d key readSeq l with
      | some record => return some record
      | none => searchAll d key readSeq r) := by
  induction l with
  | nil => rfl
  | cons ref l ih =>
    rw [List.cons_append, searchAll, searchAll, ih]
    cases searchTable d key readSeq ref with
    | error err => rfl
    | ok found => cases found <;> rfl

theorem finish_get (l0Tables : List TableRef) (levelTables : List (List TableRef)) :
    PendingRead.finish d (.get key readSeq l0Tables levelTables) =
      (searchAll d key readSeq (candidates key l0Tables levelTables)).map
        (fun found => .value (found.bind ValueRecord.intoVisibleValue)) := by
  rw [candidates, searchAll_append, ← searchL0_eq_searchAll, ← searchLevels_eq_searchAll,
    PendingRead.finish]
  cases searchL0 d key readSeq l0Tables with
  | error err => rfl
  | ok found =>
    cases found with
    | some record => rfl
    | none =>
      simp only [bind, Except.bind, pure, Except.pure]
      cases searchLevels d key readSeq (levelTables.drop 1) with
      | error err => rfl
      | ok found => cases found <;> rfl

theorem searchAll_eq_ok_iff (refs : List TableRef) (found : Option ValueRecord) :
    searchAll d key readSeq refs = .ok found ↔ found = foundIn key readSeq refs ∧
      ∀ ref ∈ visited key readSeq refs, (d.tables ref.1.number).isSome := by
  induction refs with
  | nil =>
    refine ⟨fun h => ⟨(Except.ok.inj h).symm, fun ref href => by cases href⟩, fun h => ?_⟩
    rw [h.1]
    rfl
  | cons ref refs ih =>
    rw [searchAll, searchTable, visited, foundIn, Disk.openTable]
    cases hmight : ref.2.mightContain key with
    | false =>
      rw [List.filter_cons_of_neg (by simp [hmight])]
      exact ih
    | true =>
      rw [List.filter_cons_of_pos (by simp [hmight]), List.findSome?_cons]
      cases ht : d.tables ref.1.number with
      | none => simp [bind, Except.bind, ht]
      | some table =>
        cases hget : ref.2.get key readSeq with
        | some record =>
          have hopen : ∀ r ∈ [ref], (d.tables r.1.number).isSome := by simp [ht]
          exact ⟨fun h => ⟨(Except.ok.inj h).symm, hopen⟩, fun h => by rw [h.1]; rfl⟩
        | none => simpa [bind, Except.bind, pure, Except.pure, ht, foundIn] using ih

theorem storageIters_eq_ok_iff (refs : List TableRef) (iters : List SSTableStorageIterator) :
    storageIters d refs = .ok iters ↔
      iters = refs.map (fun ref => SSTableStorageIterator.new ref.2.index) ∧
        ∀ ref ∈ refs, (d.tables ref.1.number).isSome := by
  induction refs generalizing iters with
  | nil =>
    refine ⟨fun h => ⟨(Except.ok.inj h).symm, fun ref href => by cases href⟩, fun h => ?_⟩
    rw [h.1]
    rfl
  | cons ref refs ih =>
    rw [storageIters, Disk.openTable, List.forall_mem_cons]
    cases ht : d.tables ref.1.number with
    | none => simp [bind, Except.bind]
    | some table =>
      cases hrest : storageIters d refs with
      | error err =>
        have := ih (refs.map (fun ref => SSTableStorageIterator.new ref.2.index))
        simp_all [bind, Except.bind]
      | ok rest =>
        obtain ⟨rfl, hall⟩ := (ih rest).mp hrest
        simp only [bind, Except.bind, pure, Except.pure, Except.ok.injEq, Option.isSome_some, true_and]
        exact ⟨fun h => ⟨h.symm, hall⟩, fun h => h.1.symm⟩

theorem visited_subset (key : Bytes) (readSeq : Nat) (refs : List TableRef) :
    visited key readSeq refs ⊆ refs := by
  induction refs with
  | nil => exact List.Subset.refl _
  | cons ref refs ih =>
    rw [visited]
    split
    · refine List.cons_subset_cons _ ?_
      split
      · exact List.nil_subset _
      · exact ih
    · exact List.Subset.trans ih (List.subset_cons_self _ _)

theorem candidates_subset (key : Bytes) (l0Tables : List TableRef)
    (levelTables : List (List TableRef)) :
    candidates key l0Tables levelTables ⊆ l0Tables ++ levelTables.flatten := by
  intro ref href
  rcases List.mem_append.mp href with href | href
  · exact List.mem_append.mpr (.inl (List.mem_filter.mp href).1)
  · obtain ⟨level, hlevel, hfind⟩ := List.mem_filterMap.mp href
    exact List.mem_append.mpr (.inr (List.mem_flatten.mpr
      ⟨level, List.mem_of_mem_drop hlevel, List.mem_of_find?_eq_some hfind⟩))

end

namespace PendingRead

/-- The tables whose files the second step opens. -/
def opens : PendingRead → List TableRef
  | done _ => []
  | get key readSeq l0Tables levelTables =>
    visited key readSeq (candidates key l0Tables levelTables)
  | scan _ _ _ _ l0Tables levelTables => l0Tables ++ levelTables.flatten

/-- The answer if all of them can be opened. -/
def answer : PendingRead → Answer
  | done value => .value value
  | get key readSeq l0Tables levelTables =>
    .value ((foundIn key readSeq (candidates key l0Tables levelTables)).bind
      ValueRecord.intoVisibleValue)
  | scan lower upper readSeq memEntries l0Tables levelTables =>
    let refs := l0Tables ++ levelTables.flatten
    .rows (scanRows lower upper readSeq memEntries refs
      (refs.map (fun ref => SSTableStorageIterator.new ref.2.index)))

theorem opens_get_subset (key : Bytes) (readSeq : Nat) (l0Tables : List TableRef)
    (levelTables : List (List TableRef)) :
    (get key readSeq l0Tables levelTables).opens ⊆ l0Tables ++ levelTables.flatten :=
  List.Subset.trans (visited_subset key readSeq _) (candidates_subset key l0Tables levelTables)

theorem finish_eq_ok_iff (d : Disk) (read : PendingRead) (answer : Answer) :
    read.finish d = .ok answer ↔
      answer = read.answer ∧ ∀ ref ∈ read.opens, (d.tables ref.1.number).isSome := by
  cases read with
  | done value =>
    refine ⟨fun h => ⟨(Except.ok.inj h).symm, fun ref href => by cases href⟩, fun h => ?_⟩
    rw [h.1]
    rfl
  | get key readSeq l0Tables levelTables =>
    rw [finish_get]
    constructor
    · intro h
      cases hs : searchAll d key readSeq (candidates key l0Tables levelTables) with
      | error err =>
        rw [hs] at h
        cases h
      | ok found =>
        rw [hs] at h
        obtain ⟨rfl, hall⟩ := (searchAll_eq_ok_iff d key readSeq _ found).mp hs
        exact ⟨(Except.ok.inj h).symm, hall⟩
    · rintro ⟨rfl, hall⟩
      rw [(searchAll_eq_ok_iff d key readSeq _ _).mpr ⟨rfl, hall⟩]
      rfl
  | scan lower upper readSeq memEntries l0Tables levelTables =>
    constructor
    · intro h
      cases hs : storageIters d (l0Tables ++ levelTables.flatten) with
      | error err => simp [finish, hs, bind, Except.bind] at h
      | ok iters =>
        obtain ⟨rfl, hall⟩ := (storageIters_eq_ok_iff d _ iters).mp hs
        simp only [finish, hs, bind, Except.bind] at h
        exact ⟨(Except.ok.inj h).symm, hall⟩
    · rintro ⟨rfl, hall⟩
      have hs := (storageIters_eq_ok_iff d (l0Tables ++ levelTables.flatten) _).mpr ⟨rfl, hall⟩
      simp only [finish, hs, bind, Except.bind]
      rfl

end PendingRead

/-- A read between its two steps: the answer it would have had at once, and the files that
were unlinked since. -/
structure Reading where
  read : PendingRead
  expected : Except Error Answer
  removed : List Nat

/-- Where the compaction is. -/
inductive CompactionPhase where
  | idle
  | prepared (publication : Publication)
  | published (publication : Publication)
  | refreshed (publication : Publication)

/-- A database with its reads under way and the compaction. -/
structure ReadSystem where
  db : DB
  phase : CompactionPhase
  readings : List Reading

inductive ReadStep where
  | get (key : Bytes) (snapshot : Option Nat)
  | scan (lower upper : Bound) (snapshot : Option Nat)
  /-- The second step of a read, which is done then. -/
  | finish (slot : Nat)
  | writer (step : Section)
  | snapshot
  | dropSnapshot (readSeq : Nat)
  | prepare (lower upper : Bound)
  | publish
  | refresh
  | delete

namespace ReadSystem

/-- A read that passes its capture step. -/
def capture (s : ReadSystem) (expected : Except Error Answer) :
    Except Error PendingRead → ReadSystem
  | .ok read => { s with readings := s.readings ++ [⟨read, expected, []⟩] }
  | .error _ => s

/-- A compaction that fails in a step ends there. -/
def move (s : ReadSystem) (next : CompactionPhase) : EStateM.Result Error DB Unit → ReadSystem
  | .ok _ db => { s with db := db, phase := next }
  | .error _ db => { s with db := db, phase := .idle }

def step (s : ReadSystem) : ReadStep → ReadSystem
  | .get key snapshot =>
    s.capture ((s.db.getOpt key snapshot).map .value) (s.db.captureGet key snapshot)
  | .scan lower upper snapshot =>
    s.capture ((s.db.scanOpt lower upper snapshot).map .rows)
      (s.db.captureScan lower upper snapshot)
  | .finish slot => { s with readings := s.readings.eraseIdx slot }
  | .writer step => { s with db := after Section.run s.db step }
  | .snapshot => { s with db := { s.db with
      watermark := s.db.watermark.add s.db.state.lastSequence } }
  | .dropSnapshot readSeq => { s with db := { s.db with
      watermark := s.db.watermark.remove readSeq } }
  | .prepare lower upper =>
    match s.phase, DB.prepare lower upper s.db with
    | .idle, .ok (some publication) db => { s with db := db, phase := .prepared publication }
    | .idle, .ok none db => { s with db := db }
    | .idle, .error _ db => { s with db := db }
    | _, _ => s
  | .publish =>
    match s.phase with
    | .prepared publication => s.move (.published publication) (DB.publish publication s.db)
    | _ => s
  | .refresh =>
    match s.phase with
    | .published publication => s.move (.refreshed publication) (DB.refreshTablesFromVersion s.db)
    | _ => s
  | .delete =>
    match s.phase with
    | .refreshed publication =>
      { s.move .idle (DB.deleteObsoleteFiles publication.removed s.db) with
        readings := s.readings.map (fun r => { r with removed := r.removed ++ publication.removed }) }
    | _ => s

def run (steps : List ReadStep) (s : ReadSystem) : ReadSystem := steps.foldl step s

end ReadSystem

/-- A new database without reads and compaction. -/
def ReadSystem.start (env : Env) (options : Options) (path : String) : ReadSystem :=
  ⟨DB.created env options path, .idle, []⟩

namespace Reading

/-- The second step now gives the answer that the call would have given at once. -/
def Served (r : Reading) (d : Disk) : Prop :=
  ∃ answer, r.expected = .ok answer ∧ r.read.finish d = .ok answer

/-- No file that the second step opens was unlinked since the capture. -/
def Spared (r : Reading) : Prop := ∀ ref ∈ r.read.opens, ref.1.number ∉ r.removed

/-- What is known of the files that a read will open: those that were not unlinked are the
ones captured, and no number is used again. -/
structure Covered (db : DB) (r : Reading) : Prop where
  expected : r.expected = .ok r.read.answer
  number_lt : ∀ ref ∈ r.read.opens, ref.1.number < db.versions.nextFileNumber
  kept : ∀ ref ∈ r.read.opens, ref.1.number ∉ r.removed →
    db.disk.tables ref.1.number = some ref.2
  lost : ∀ ref ∈ r.read.opens, ref.1.number ∈ r.removed → db.disk.tables ref.1.number = none

theorem Covered.served_iff {db : DB} {r : Reading} (h : r.Covered db) :
    r.Served db.disk ↔ r.Spared := by
  constructor
  · rintro ⟨answer, _, hfinish⟩ ref href hmem
    have hopen := ((PendingRead.finish_eq_ok_iff db.disk r.read answer).mp hfinish).2 ref href
    rw [h.lost ref href hmem] at hopen
    cases hopen
  · intro hspared
    refine ⟨r.read.answer, h.expected,
      (PendingRead.finish_eq_ok_iff db.disk r.read _).mpr ⟨rfl, fun ref href => ?_⟩⟩
    rw [h.kept ref href (hspared ref href)]
    rfl

theorem Covered.keeps {db db' : DB} {r : Reading} (h : r.Covered db)
    (hk : DB.KeepsTables db db') : r.Covered db' := by
  have hsame := fun ref href => hk.same _ (h.number_lt ref href)
  refine ⟨h.expected, fun ref href => (h.number_lt ref href).trans_le hk.next_le,
    fun ref href hno => ?_, fun ref href hmem => ?_⟩
  · rw [hsame ref href]
    exact h.kept ref href hno
  · rw [hsame ref href]
    exact h.lost ref href hmem

/-- Unlinking files takes them from the reads that have captured them, and nothing else. -/
theorem Covered.delete {db db' : DB} {r : Reading} (h : r.Covered db)
    {removed : List Nat} (hversions : db'.versions = db.versions)
    (htables : ∀ n, db'.disk.tables n = if n ∈ removed then none else db.disk.tables n) :
    ({ r with removed := r.removed ++ removed } : Reading).Covered db' := by
  refine ⟨h.expected, fun ref href => ?_, fun ref href hno => ?_, fun ref href hmem => ?_⟩
  · rw [hversions]
    exact h.number_lt ref href
  · rw [List.mem_append, not_or] at hno
    rw [htables, if_neg hno.2]
    exact h.kept ref href hno.1
  · rw [htables]
    rcases List.mem_append.mp hmem with hmem | hmem
    · rw [h.lost ref href hmem, ite_self]
    · exact if_pos hmem

end Reading

namespace ReadSystem

def CompactionPhase.Fits : CompactionPhase → DB → Prop
  | .idle, db => db.Synced
  | .prepared publication, db => db.Synced ∧ ∃ task outs, db.Ready publication task outs
  | .published publication, db => db.Gone publication
  | .refreshed publication, db => db.Synced ∧ db.Gone publication

structure Ok (s : ReadSystem) : Prop where
  live : s.db.Live
  opened : s.db.ListsOpened
  phase : CompactionPhase.Fits s.phase s.db
  readings : ∀ r ∈ s.readings, r.Covered s.db

variable {s : ReadSystem}

theorem ok_start (env : Env) (options : Options) (path : String) :
    (start env options path).Ok :=
  have h := (DB.ok_created env options path).sound
  ⟨h.live, h.tables.opened, h.tables, fun r hr => by cases hr⟩

theorem Ok.capture (h : s.Ok) {expected : Except Error Answer} {read : PendingRead}
    (hin : read.opens ⊆ s.db.state.l0Tables ++ s.db.state.levelTables.flatten)
    (hexpected : expected = read.finish s.db.disk) :
    (s.capture expected (.ok read)).Ok := by
  refine ⟨h.live, h.opened, h.phase, fun r hr => ?_⟩
  rcases List.mem_append.mp hr with hr | hr
  · exact h.readings r hr
  · obtain rfl := List.mem_singleton.mp hr
    have htable : ∀ ref ∈ read.opens, s.db.disk.tables ref.1.number = some ref.2 := fun ref href =>
      (h.opened ref (hin href)).1
    refine ⟨hexpected.trans ((PendingRead.finish_eq_ok_iff _ _ _).mpr
      ⟨rfl, fun ref href => by rw [htable ref href]; rfl⟩), fun ref href => ?_,
      fun ref href _ => htable ref href, fun ref href hmem => by cases hmem⟩
    by_contra hno
    have hnone := h.live.freshTables _ (not_lt.mp hno)
    rw [htable ref href] at hnone
    cases hnone

theorem Ok.undisturbed (h : s.Ok) {db' : DB} (hu : DB.Undisturbed s.db db') :
    ({ s with db := db' } : ReadSystem).Ok := by
  refine ⟨hu.live, hu.opened h.opened, ?_, fun r hr => (h.readings r hr).keeps hu.keeps⟩
  have hphase := h.phase
  cases hp : s.phase with
  | idle =>
    rw [hp] at hphase
    exact hu.synced hphase
  | prepared publication =>
    rw [hp] at hphase
    obtain ⟨hs, task, outs, hr⟩ := hphase
    exact ⟨hu.synced hs, task, outs, hu.ready _ _ _ hr⟩
  | published publication =>
    rw [hp] at hphase
    exact hu.gone _ hphase
  | refreshed publication =>
    rw [hp] at hphase
    exact ⟨hu.synced hphase.1, hu.gone _ hphase.2⟩

theorem captureGet_opens {db : DB} {key : Bytes} {snapshot : Option Nat} {read : PendingRead}
    (hc : db.captureGet key snapshot = .ok read) :
    read.opens ⊆ db.state.l0Tables ++ db.state.levelTables.flatten := by
  unfold DB.captureGet at hc
  cases hclosed : db.state.closed with
  | true => simp [hclosed, throw, throwThe, MonadExceptOf.throw, bind, Except.bind] at hc
  | false =>
    simp only [hclosed, Bool.false_eq_true, if_false, bind, Except.bind, pure, Except.pure] at hc
    split at hc
    · cases hc
      exact List.nil_subset _
    · cases hc
      exact PendingRead.opens_get_subset _ _ _ _

theorem captureScan_opens {db : DB} {lower upper : Bound} {snapshot : Option Nat}
    {read : PendingRead} (hc : db.captureScan lower upper snapshot = .ok read) :
    read.opens ⊆ db.state.l0Tables ++ db.state.levelTables.flatten := by
  unfold DB.captureScan at hc
  cases hclosed : db.state.closed with
  | true => simp [hclosed, throw, throwThe, MonadExceptOf.throw, bind, Except.bind] at hc
  | false =>
    rw [hclosed] at hc
    cases hc
    exact List.Subset.refl _

theorem Ok.get (h : s.Ok) (key : Bytes) (snapshot : Option Nat) :
    (s.step (.get key snapshot)).Ok := by
  rw [ReadSystem.step, s.db.getOpt_eq_capture key snapshot]
  cases hc : s.db.captureGet key snapshot with
  | error err => exact h
  | ok read => exact h.capture (captureGet_opens hc) rfl

theorem Ok.scan (h : s.Ok) (lower upper : Bound) (snapshot : Option Nat) :
    (s.step (.scan lower upper snapshot)).Ok := by
  rw [ReadSystem.step, s.db.scanOpt_eq_capture lower upper snapshot]
  cases hc : s.db.captureScan lower upper snapshot with
  | error err => exact h
  | ok read => exact h.capture (captureScan_opens hc) rfl

theorem Ok.prepare (h : s.Ok) (lower upper : Bound) : (s.step (.prepare lower upper)).Ok := by
  have hphase := h.phase
  rw [ReadSystem.step]
  cases hp : s.phase with
  | idle =>
    rw [hp] at hphase
    rcases h.live.prepare lower upper with hrun | ⟨publication, refs, task, outs, hrun, hlive,
      hkeeps, hready⟩
    · rw [hrun]
      exact ⟨h.live, h.opened, hphase, h.readings⟩
    · rw [hrun]
      have hsynced : (s.db.prepared refs).Synced := hphase.congr fun f hf =>
        hkeeps.same _ (h.live.file_number_lt hf)
      exact ⟨hlive, hsynced.opened, ⟨hsynced, task, outs, hready⟩,
        fun r hr => (h.readings r hr).keeps hkeeps⟩
  | _ => exact h

theorem Ok.publish (h : s.Ok) : (s.step .publish).Ok := by
  have hphase := h.phase
  rw [ReadSystem.step]
  cases hp : s.phase with
  | prepared publication =>
    rw [hp] at hphase
    obtain ⟨hsynced, task, outs, hready⟩ := hphase
    obtain ⟨db', hrun, hlive, hkeeps, hgone, hstate, htables⟩ := h.live.publish hready
    simp only [hrun, move]
    refine ⟨hlive, ?_, hgone, fun r hr => (h.readings r hr).keeps hkeeps⟩
    intro ref href
    change ref ∈ db'.state.l0Tables ++ db'.state.levelTables.flatten at href
    rw [hstate] at href
    change db'.disk.tables _ = _ ∧ _
    rw [htables]
    exact h.opened ref href
  | _ => exact h

theorem Ok.refresh (h : s.Ok) : (s.step .refresh).Ok := by
  have hphase := h.phase
  rw [ReadSystem.step]
  cases hp : s.phase with
  | published publication =>
    rw [hp] at hphase
    obtain ⟨db', hrun, hlive, hkeeps, hsynced, hversions, hdisk⟩ := h.live.refresh
    simp only [hrun, move]
    refine ⟨hlive, hsynced.opened, ⟨hsynced, ?_⟩, fun r hr => (h.readings r hr).keeps hkeeps⟩
    unfold DB.Gone
    rw [hversions]
    exact hphase
  | _ => exact h

theorem Ok.delete (h : s.Ok) : (s.step .delete).Ok := by
  have hphase := h.phase
  rw [ReadSystem.step]
  cases hp : s.phase with
  | refreshed publication =>
    rw [hp] at hphase
    obtain ⟨db', hrun, hlive, hsynced, hversions, htables⟩ := h.live.delete hphase.2 hphase.1
    simp only [hrun, move]
    refine ⟨hlive, hsynced.opened, hsynced, fun r hr => ?_⟩
    obtain ⟨r₀, hr₀, rfl⟩ := List.mem_map.mp hr
    exact (h.readings r₀ hr₀).delete hversions htables
  | _ => exact h

theorem Ok.step (h : s.Ok) (step : ReadStep) : (s.step step).Ok := by
  cases step with
  | get key snapshot => exact h.get key snapshot
  | scan lower upper snapshot => exact h.scan lower upper snapshot
  | finish slot =>
    exact ⟨h.live, h.opened, h.phase, fun r hr => h.readings r (List.mem_of_mem_eraseIdx hr)⟩
  | writer step => exact h.undisturbed (h.live.section_undisturbed step)
  | snapshot => exact h.undisturbed (h.live.withWatermark_undisturbed _)
  | dropSnapshot readSeq => exact h.undisturbed (h.live.withWatermark_undisturbed _)
  | prepare lower upper => exact h.prepare lower upper
  | publish => exact h.publish
  | refresh => exact h.refresh
  | delete => exact h.delete

theorem ok_run (env : Env) (options : Options) (path : String) (steps : List ReadStep) :
    (run steps (start env options path)).Ok :=
  List.foldlRecOn steps _ (ok_start env options path) fun _ h step _ => h.step step

end ReadSystem

/-- Whatever runs beside a read, its second step gives the answer of its capture step exactly
when no file that it opens was unlinked in between; the other captured files are unchanged. -/
theorem reading_served_iff (env : Env) (options : Options) (path : String)
    (steps : List ReadStep) {r : Reading}
    (hr : r ∈ (ReadSystem.run steps (.start env options path)).readings) :
    (r.Served (ReadSystem.run steps (.start env options path)).db.disk ↔ r.Spared) ∧
      ∀ ref ∈ r.read.opens, ref.1.number ∉ r.removed →
        (ReadSystem.run steps (.start env options path)).db.disk.tables ref.1.number =
          some ref.2 := by
  have h := (ReadSystem.ok_run env options path steps).readings r hr
  exact ⟨h.served_iff, h.kept⟩

/-- A read captures the only table, and the compaction of that table starts. -/
def racingSteps : List ReadStep :=
  [.writer (.group [⟨⟨[.put [97] [49]]⟩, {}⟩]), .writer .flush, .get [97] none,
    .prepare .unbounded .unbounded, .publish, .refresh]

theorem racing_read : ∃ r ∈ (ReadSystem.run racingSteps (.start .inOrder {} "db")).readings,
    r.removed = [] ∧ r.read.opens ≠ [] := by
  decide +kernel

theorem lost_read :
    ∃ r ∈ (ReadSystem.run (racingSteps ++ [.delete]) (.start .inOrder {} "db")).readings,
      r.expected.toBool = true ∧ (r.read.finish (ReadSystem.run (racingSteps ++ [.delete])
        (.start .inOrder {} "db")).db.disk).toBool = false := by
  decide +kernel

/-- Once the compaction unlinks its input, the read fails instead of answering. -/
theorem reading_loses_file :
    ∃ r ∈ (ReadSystem.run (racingSteps ++ [.delete]) (.start .inOrder {} "db")).readings,
      ¬ r.Served (ReadSystem.run (racingSteps ++ [.delete]) (.start .inOrder {} "db")).db.disk := by
  obtain ⟨r, hr, _, hfail⟩ := lost_read
  refine ⟨r, hr, ?_⟩
  rintro ⟨answer, _, hok⟩
  rw [hok] at hfail
  cases hfail

/-- Before that the read still answers. -/
theorem reading_served_small :
    ∃ r ∈ (ReadSystem.run racingSteps (.start .inOrder {} "db")).readings,
      r.Served (ReadSystem.run racingSteps (.start .inOrder {} "db")).db.disk := by
  obtain ⟨r, hr, hremoved, _⟩ := racing_read
  refine ⟨r, hr, (reading_served_iff .inOrder {} "db" racingSteps hr).1.mpr fun ref _ => ?_⟩
  rw [hremoved]
  exact List.not_mem_nil

end TyLsm
