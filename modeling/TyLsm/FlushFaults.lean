import TyLsm.FlushView

/-! A flush in which file operations fail. Whatever a failing operation leaves of the file that it
is about, the memory ends as it was, and flushes that succeed later show the same to every read. -/

namespace TyLsm

/-- The file operations of a flush, in their order. The table is built in a temporary file, which
nothing reads before the rename; one operation stands for all of its writes. -/
inductive FlushCall where
  | buildTable
  | rename
  | metadataLen
  | openTable
  | readTable
  | addFile
  | lastSequence
  | createWal
  | logNumber
  deriving DecidableEq

/-- A failing operation: its error, and a disk that shows in which condition it leaves its file. -/
structure Fault where
  error : Error
  left : Disk

/-- The operations of one flush that fail. -/
abbrev Faults := FlushCall → Option Fault

/-- Perform an operation, or fail and leave its own file as the fault says. -/
def attempt {α : Type} (fault : Option Fault) (leave : Disk → Disk → Disk) (x : DBM α) : DBM α :=
  match fault with
  | none => x
  | some fault => do
    modify fun db => { db with disk := leave fault.left db.disk }
    throw fault.error

namespace Disk

/-- The operation is about no file that reads can see. -/
def leaveNothing (_ d : Disk) : Disk := d

def leaveTable (number : Nat) (left d : Disk) : Disk :=
  { d with tables := Function.update d.tables number (left.tables number) }

def leaveManifest (left d : Disk) : Disk := { d with manifest := left.manifest }

def leaveWal (number : Nat) (left d : Disk) : Disk :=
  { d with wals := Function.update d.wals number (left.wals number) }

end Disk

namespace DB

def writeTableAmid (faults : Faults) (entries : List Entry) (number : Nat) : DBM TableRef := do
  let db ← MonadState.get
  let table := buildTable db.options.blockSize entries
  attempt (faults .buildTable) Disk.leaveNothing (pure ())
  attempt (faults .rename) (Disk.leaveTable number) (act (.renameTable number table))
  attempt (faults .metadataLen) Disk.leaveNothing (pure ())
  attempt (faults .openTable) Disk.leaveNothing (pure ())
  let file ← attempt (faults .readTable) Disk.leaveNothing
    (ofExcept (fileMetaFromTable number (db.env.metadataLen table) table))
  return (file, table)

def writeL0TableAmid (faults : Faults) (memtable : MemTable) (fileNumber : Nat) :
    DBM TableRef := do
  let db ← MonadState.get
  if (db.disk.tables fileNumber).isSome then
    throw (.corruption
      ("table file already exists: " ++ db.disk.path ++ "/" ++ tableFileName fileNumber))
  writeTableAmid faults memtable.entries fileNumber

def logAndApplyAmid (fault : Option Fault) (edit : VersionEdit) : DBM Unit := do
  attempt fault Disk.leaveManifest (act (.appendManifest edit))
  let db ← MonadState.get
  let (versions, result) := db.versions.applyEdit edit
  set { db with versions := versions }
  ofExcept result

def publishL0TableAmid (faults : Faults) (file : FileMeta) (lastSequence : Nat) : DBM Unit := do
  logAndApplyAmid (faults .addFile) (.addFile 0 file)
  logAndApplyAmid (faults .lastSequence) (.lastSequence lastSequence)
  let newLogNumber ← allocateFileNumber
  attempt (faults .createWal) (Disk.leaveWal newLogNumber) (act (.openWal newLogNumber))
  logAndApplyAmid (faults .logNumber) (.logNumber newLogNumber)
  modify fun db => { db with wal := newLogNumber }

/-- `flush` under faults. -/
def flushAmid (faults : Faults) : DBM Unit := do
  let db ← MonadState.get
  if db.state.closed then throw .closed
  match db.state.takeOldestFlushableMemtable db.options.memtableKind with
  | none => return ()
  | some (memtable, source, state) =>
    set { db with state := state }
    let fileNumber ← allocateFileNumber
    let ref ←
      tryCatch (do
        let ref ← writeL0TableAmid faults memtable fileNumber
        publishL0TableAmid faults ref.1 state.lastSequence
        return ref)
      (fun err => do
        modify fun db => { db with state := db.state.restoreFlushMemtable memtable source }
        throw err)
    modify fun db => { db with state := { db.state with l0Tables := ref :: db.state.l0Tables } }

end DB

/-! Where no operation fails, the flush is the one without faults. -/

/-- Wherever `x` succeeds, `y` does the same. -/
def OkAs {α : Type} (x y : DBM α) : Prop := ∀ db a db', x db = .ok a db' → y db = .ok a db'

namespace OkAs

variable {α β : Type}

theorem rfl {x : DBM α} : OkAs x x := fun _ _ _ h => h

theorem bind {x y : DBM α} {f g : α → DBM β} (hx : OkAs x y) (hf : ∀ a, OkAs (f a) (g a)) :
    OkAs (x >>= f) (y >>= g) := by
  intro db b db' h
  obtain ⟨a, t, hxa, hfa⟩ := bind_eq_ok h
  rw [run_bind_ok (hx db a t hxa)]
  exact hf a t b db' hfa

theorem skip {x : DBM PUnit} {f : PUnit → DBM β} {y : DBM β} (hx : OkAs x (pure ⟨⟩))
    (hf : OkAs (f ⟨⟩) y) : OkAs (x >>= f) y := by
  intro db b db' h
  obtain ⟨a, t, hxa, hfa⟩ := bind_eq_ok h
  have hsame := hx db a t hxa
  rw [run_pure] at hsame
  cases hsame
  exact hf db b db' hfa

theorem attempt {fault : Option Fault} {leave : Disk → Disk → Disk} {x : DBM α} :
    OkAs (attempt fault leave x) x := by
  intro db a db' h
  cases fault with
  | none => exact h
  | some fault =>
    rw [TyLsm.attempt, run_bind_ok (run_modify _ _), run_throw] at h
    cases h

theorem ite {c : Prop} [Decidable c] {x x' y y' : DBM α} (hx : OkAs x x') (hy : OkAs y y') :
    OkAs (if c then x else y) (if c then x' else y') := by
  by_cases hc : c
  · rw [if_pos hc, if_pos hc]
    exact hx
  · rw [if_neg hc, if_neg hc]
    exact hy

theorem throw {err : Error} {f : α → DBM β} {y : DBM β} : OkAs (throw err >>= f) y := by
  intro db b db' h
  rw [run_bind_error (run_throw _ _)] at h
  cases h

theorem tryCatch {x y : DBM α} {handle : Error → DBM α} (h : OkAs x y)
    (hthrows : ∀ err db, ∃ err' db', handle err db = .error err' db') :
    OkAs (tryCatch x handle) (tryCatch y handle) := fun db a db' hrun =>
  run_tryCatch_ok (h db a db' (tryCatch_eq_ok hrun hthrows))

end OkAs

/-- No edit lowers the next file number, not even one that is refused. -/
theorem VersionSet.next_le_applyEdit (vs : VersionSet) (edit : VersionEdit) :
    vs.nextFileNumber ≤ (vs.applyEdit edit).1.nextFileNumber := by
  cases edit with
  | nextFileNumber number => exact le_max_left _ _
  | lastSequence sequence => exact le_rfl
  | logNumber number => exact le_max_left _ _
  | addFile level file =>
    simp only [applyEdit]
    cases vs.current.addFile level file with
    | ok next => exact le_max_left _ _
    | error err => exact le_max_left _ _
  | deleteFile level number =>
    simp only [applyEdit]
    cases vs.current.deleteFile level number with
    | ok next => exact le_rfl
    | error err => exact le_rfl

namespace DB

theorem writeTableAmid_ok (faults : Faults) (entries : List Entry) (number : Nat) :
    OkAs (writeTableAmid faults entries number) (writeTable entries number) := by
  refine .bind .rfl fun db => .skip .attempt (.bind .attempt fun _ => ?_)
  exact .skip .attempt (.skip .attempt (.bind .attempt fun file => .rfl))

theorem writeL0TableAmid_ok (faults : Faults) (memtable : MemTable) (number : Nat) :
    OkAs (writeL0TableAmid faults memtable number) (writeL0Table memtable number) :=
  .bind .rfl fun _ => .ite .throw (writeTableAmid_ok _ _ _)

theorem logAndApplyAmid_ok (fault : Option Fault) (edit : VersionEdit) :
    OkAs (logAndApplyAmid fault edit) (logAndApply edit) := .bind .attempt fun _ => .rfl

theorem publishL0TableAmid_ok (faults : Faults) (file : FileMeta) (lastSequence : Nat) :
    OkAs (publishL0TableAmid faults file lastSequence) (publishL0Table file lastSequence) := by
  refine .bind (logAndApplyAmid_ok _ _) fun _ => .bind (logAndApplyAmid_ok _ _) fun _ => ?_
  refine .bind .rfl fun newLogNumber => .bind .attempt fun _ => ?_
  exact .bind (logAndApplyAmid_ok _ _) fun _ => .rfl

theorem flushAmid_ok (faults : Faults) : OkAs (flushAmid faults) flush := by
  refine .bind .rfl fun db => .ite .throw ?_
  cases db.state.takeOldestFlushableMemtable db.options.memtableKind with
  | none => exact .rfl
  | some taken =>
    refine .bind .rfl fun _ => .bind .rfl fun number => .bind (.tryCatch ?_ ?_) fun ref => .rfl
    · refine .bind (writeL0TableAmid_ok _ _ _) fun ref => ?_
      exact .bind (publishL0TableAmid_ok _ _ _) fun _ => .rfl
    · exact fun err db => ⟨err, _, rfl⟩

theorem writeL0TableAmid_none (memtable : MemTable) (number : Nat) :
    writeL0TableAmid (fun _ => none) memtable number = writeL0Table memtable number := rfl

theorem publishL0TableAmid_none (file : FileMeta) (lastSequence : Nat) :
    publishL0TableAmid (fun _ => none) file lastSequence = publishL0Table file lastSequence := rfl

theorem flushAmid_none : flushAmid (fun _ => none) = flush := by
  funext db
  rw [flushAmid, flush, run_bind_ok (run_get db), run_bind_ok (run_get db)]
  cases htake : db.state.takeOldestFlushableMemtable db.options.memtableKind with
  | none => rfl
  | some taken =>
    obtain ⟨memtable, source, rest⟩ := taken
    simp only [writeL0TableAmid_none, publishL0TableAmid_none]

/-! Where an operation fails, the memory, the tables that were there and the numbers below the
first one that it gave out stay. -/

structure Spares (bound : Nat) (db db' : DB) : Prop where
  state : db'.state = db.state
  env : db'.env = db.env
  options : db'.options = db.options
  tables : ∀ number table, db.disk.tables number = some table →
    db'.disk.tables number = some table
  below : ∀ number < bound, db'.disk.tables number = db.disk.tables number
  next : db.versions.nextFileNumber ≤ db'.versions.nextFileNumber

namespace Spares

variable {bound : Nat} {db db' : DB}

theorem rfl : Spares bound db db :=
  ⟨Eq.refl _, Eq.refl _, Eq.refl _, fun _ _ h => h, fun _ _ => Eq.refl _, le_refl _⟩

instance : Std.Refl (Spares bound) := ⟨fun _ => rfl⟩

instance : IsTrans DB (Spares bound) where
  trans _ _ _ h h' :=
    { state := h'.state.trans h.state
      env := h'.env.trans h.env
      options := h'.options.trans h.options
      tables := fun n t ht => h'.tables n t (h.tables n t ht)
      below := fun n hn => (h'.below n hn).trans (h.below n hn)
      next := h.next.trans h'.next }

theorem of_tables (hstate : db'.state = db.state) (henv : db'.env = db.env)
    (hoptions : db'.options = db.options) (h : db'.disk.tables = db.disk.tables)
    (hnext : db.versions.nextFileNumber ≤ db'.versions.nextFileNumber) : Spares bound db db' :=
  ⟨hstate, henv, hoptions, fun n _ ht => (congrFun h n).trans ht, fun n _ => congrFun h n, hnext⟩

theorem of_update {number : Nat} {disk : Disk} {journal : List DiskOp} {found : Option Table}
    (hbound : bound ≤ number) (hfree : db.disk.tables number = none)
    (h : disk.tables = Function.update db.disk.tables number found) :
    Spares bound db { db with disk := disk, journal := journal } := by
  have hother : ∀ n ≠ number, disk.tables n = db.disk.tables n := fun n hne => by
    rw [h, Function.update_of_ne hne]
  refine ⟨Eq.refl _, Eq.refl _, Eq.refl _, fun n t ht => ?_, fun n hn => ?_, le_refl _⟩
  · have hne : n ≠ number := by
      intro he
      rw [he, hfree] at ht
      cases ht
    exact (hother n hne).trans ht
  · exact hother n (by omega)

end Spares

/-- Neither success nor failure of the program touches what `Spares` says. -/
abbrev Safe {α : Type} (bound : Nat) (x : DBM α) (db : DB) : Prop :=
  Within (Spares bound) (fun _ => True) x db

namespace Safe

variable {α : Type} {bound : Nat} {db : DB}

theorem ofExcept (x : Except Error α) : Safe bound (ofExcept x) db := by
  cases x with
  | ok a => exact Within.of_ok (run_ofExcept_ok _ _) .rfl
  | error err => exact Within.of_error (run_ofExcept_error _ _) .rfl trivial

theorem attempt {fault : Option Fault} {leave : Disk → Disk → Disk} {x : DBM α}
    (hleave : ∀ left, Spares bound db { db with disk := leave left db.disk })
    (hx : Safe bound x db) : Safe bound (attempt fault leave x) db := by
  cases fault with
  | none => exact hx
  | some fault =>
    exact Within.of_error ((run_bind_ok (run_modify _ _)).trans (run_throw _ _)) (hleave fault.left)
      trivial

theorem attempt_bind {fault : Option Fault} {f : PUnit → DBM α} (hf : Safe bound (f ⟨⟩) db) :
    Safe bound (TyLsm.attempt fault Disk.leaveNothing (pure ⟨⟩) >>= f) db := by
  refine Within.bind (attempt (fun _ => .rfl) (Within.pure _)) fun a t h => ?_
  have hsame := OkAs.attempt db a t h
  rw [run_pure] at hsame
  cases hsame
  exact hf

end Safe

section

variable {bound : Nat}

theorem safe_writeTableAmid (faults : Faults) (entries : List Entry) {number : Nat} {db : DB}
    (hbound : bound ≤ number) (hfree : db.disk.tables number = none) :
    Safe bound (writeTableAmid faults entries number) db := by
  refine .get_bind (Safe.attempt_bind (.bind (Safe.attempt ?_ ?_) fun _ t _ => ?_))
  · exact fun left => .of_update hbound hfree rfl
  · exact Within.of_ok (run_act _ _) (.of_update hbound hfree rfl)
  · refine Safe.attempt_bind (Safe.attempt_bind (.bind ?_ fun file t _ => Within.pure _))
    exact Safe.attempt (fun _ => .rfl) (Safe.ofExcept _)

theorem safe_logAndApplyAmid (fault : Option Fault) (edit : VersionEdit) (db : DB) :
    Safe bound (logAndApplyAmid fault edit) db := by
  refine .bind (Safe.attempt ?_ ?_) fun _ t _ => .get_bind ?_
  · exact fun left => .of_tables rfl rfl rfl rfl le_rfl
  · exact Within.of_ok (run_act _ _) (.of_tables rfl rfl rfl rfl le_rfl)
  · refine .bind (Within.of_ok (run_set _ _) ?_) fun _ _ _ => Safe.ofExcept _
    exact .of_tables rfl rfl rfl rfl (VersionSet.next_le_applyEdit _ _)

theorem safe_publishL0TableAmid (faults : Faults) (file : FileMeta) (lastSequence : Nat) (db : DB) :
    Safe bound (publishL0TableAmid faults file lastSequence) db := by
  refine .bind (safe_logAndApplyAmid _ _ _) fun _ _ _ => ?_
  refine .bind (safe_logAndApplyAmid _ _ _) fun _ _ _ => ?_
  refine .bind (Within.of_ok (run_allocateFileNumber _) ?_) fun number t _ => ?_
  · exact .of_tables rfl rfl rfl rfl (Nat.le_succ _)
  refine .bind (Safe.attempt ?_ ?_) fun _ _ _ => ?_
  · exact fun left => .of_tables rfl rfl rfl rfl le_rfl
  · exact Within.of_ok (run_act _ _) (.of_tables rfl rfl rfl rfl le_rfl)
  · exact .bind (safe_logAndApplyAmid _ _ _) fun _ _ _ =>
      Within.of_ok (run_modify _ _) (.of_tables rfl rfl rfl rfl le_rfl)

theorem safe_writeL0TableAmid (faults : Faults) (memtable : MemTable) {number : Nat}
    (hbound : bound ≤ number) (db : DB) :
    Safe bound (writeL0TableAmid faults memtable number) db := by
  refine .get_bind ?_
  cases hfree : db.disk.tables number with
  | some table =>
    simp only [Option.isSome_some, if_true]
    exact Within.of_error (run_bind_error (run_throw _ _)) .rfl trivial
  | none =>
    simp only [Option.isSome_none, Bool.false_eq_true, if_false]
    exact safe_writeTableAmid faults memtable.entries hbound hfree

theorem safe_writeAndPublish (faults : Faults) (memtable : MemTable) {number : Nat}
    (hbound : bound ≤ number) (lastSequence : Nat) (db : DB) : Safe bound (do
      let ref ← writeL0TableAmid faults memtable number
      publishL0TableAmid faults ref.1 lastSequence
      return ref) db := by
  refine .bind (safe_writeL0TableAmid _ _ hbound _) fun ref _ _ => ?_
  exact .bind (safe_publishL0TableAmid _ _ _ _) fun _ _ _ => Within.pure _

end

end DB

theorem DBState.restore_taken {state rest : DBState} {kind : MemTableKind} {memtable : MemTable}
    {source : FlushSource}
    (h : state.takeOldestFlushableMemtable kind = some (memtable, source, rest)) :
    rest.restoreFlushMemtable memtable source = state := by
  obtain ⟨mutable, immutables, l0Tables, levelTables, lastSequence, closed⟩ := state
  unfold takeOldestFlushableMemtable at h
  cases immutables with
  | cons m ms =>
    simp only [Option.some.injEq, Prod.mk.injEq] at h
    obtain ⟨rfl, rfl, rfl⟩ := h
    rfl
  | nil =>
    simp only at h
    split at h
    · cases h
    · simp only [Option.some.injEq, Prod.mk.injEq] at h
      obtain ⟨rfl, rfl, rfl⟩ := h
      simp [restoreFlushMemtable, (MemTable.isEmpty_iff _).mpr]

namespace DB

/-- A flush that fails leaves the memory as it was, every table that was on the disk, and every
number that had been given out. -/
theorem flushAmid_error {faults : Faults} {db db' : DB} {err : Error}
    (h : flushAmid faults db = .error err db') :
    Spares db.versions.nextFileNumber db db' := by
  rw [flushAmid, run_bind_ok (run_get db)] at h
  cases hclosed : db.state.closed with
  | true =>
    simp only [hclosed, if_true, run_bind_error (run_throw _ _)] at h
    cases h
    exact .rfl
  | false =>
    simp only [hclosed, Bool.false_eq_true, if_false] at h
    cases htake : db.state.takeOldestFlushableMemtable db.options.memtableKind with
    | none =>
      simp only [htake] at h
      cases h
    | some taken =>
      obtain ⟨memtable, source, rest⟩ := taken
      simp only [htake] at h
      rw [run_bind_ok (run_set _ _), run_bind_ok (run_allocateFileNumber _)] at h
      rcases bind_eq_error h with h | ⟨ref, t, -, h⟩
      · set opened : DB := { db with
          state := rest
          versions := { db.versions with nextFileNumber := db.versions.nextFileNumber + 1 } }
        have hsafe := safe_writeAndPublish faults memtable
          (le_refl db.versions.nextFileNumber) rest.lastSequence opened
        cases hbody : (do
          let ref ← writeL0TableAmid faults memtable db.versions.nextFileNumber
          publishL0TableAmid faults ref.1 rest.lastSequence
          return ref : DBM TableRef) opened with
        | ok ref t =>
          rw [run_tryCatch_ok hbody] at h
          cases h
        | error err₁ t =>
          have hspares := (hsafe.error err₁ t hbody).1
          rw [run_tryCatch_error hbody, run_bind_ok (run_modify _ _), run_throw] at h
          cases h
          have hnext : db.versions.nextFileNumber ≤ t.versions.nextFileNumber :=
            (Nat.le_succ _).trans hspares.next
          refine ⟨?_, hspares.env, hspares.options, hspares.tables, hspares.below, hnext⟩
          change t.state.restoreFlushMemtable memtable source = db.state
          rw [hspares.state]
          exact DBState.restore_taken htake
      · cases h

/-- Every read sees the same in both databases, at every sequence number. -/
structure SameView (db db' : DB) : Prop where
  get : ∀ key snapshot, db'.getOpt key snapshot = db.getOpt key snapshot
  scan : ∀ lower upper snapshot,
    db'.scanOpt lower upper snapshot = db.scanOpt lower upper snapshot

theorem SameView.trans {db₁ db₂ db₃ : DB} (h : SameView db₁ db₂) (h' : SameView db₂ db₃) :
    SameView db₁ db₃ where
  get key snapshot := (h'.get key snapshot).trans (h.get key snapshot)
  scan lower upper snapshot := (h'.scan lower upper snapshot).trans (h.scan lower upper snapshot)

theorem SameView.symm {db db' : DB} (h : SameView db db') : SameView db' db where
  get key snapshot := (h.get key snapshot).symm
  scan lower upper snapshot := (h.scan lower upper snapshot).symm

/-! Reads look at a table by its range, its filter and its entries, not by its number. -/

/-- The same table, there on both disks or on neither. -/
structure SameTable (d d' : Disk) (ref ref' : TableRef) : Prop where
  table : ref'.2 = ref.2
  smallest : ref'.1.smallest = ref.1.smallest
  largest : ref'.1.largest = ref.1.largest
  opens : d'.openTable ref'.1.number = d.openTable ref.1.number

namespace SameTable

variable {d d' : Disk}

theorem of_tables {ref : TableRef} (h : d'.tables ref.1.number = d.tables ref.1.number) :
    SameTable d d' ref ref :=
  ⟨rfl, rfl, rfl, by rw [Disk.openTable, Disk.openTable, h]⟩

theorem searchTable {ref ref' : TableRef} (h : SameTable d d' ref ref') (key : Bytes)
    (readSeq : Nat) :
    TyLsm.searchTable d' key readSeq ref' = TyLsm.searchTable d key readSeq ref := by
  rw [TyLsm.searchTable, TyLsm.searchTable, h.opens, h.table]

theorem searchL0 {refs refs' : List TableRef} (h : List.Forall₂ (SameTable d d') refs refs')
    (key : Bytes) (readSeq : Nat) :
    TyLsm.searchL0 d' key readSeq refs' = TyLsm.searchL0 d key readSeq refs := by
  induction h with
  | nil => rfl
  | cons href _ ih =>
    rw [TyLsm.searchL0, TyLsm.searchL0, fileOverlapsUserKey, fileOverlapsUserKey, href.smallest,
      href.largest, href.searchTable, ih]

theorem storageIters {refs refs' : List TableRef} (h : List.Forall₂ (SameTable d d') refs refs') :
    TyLsm.storageIters d' refs' = TyLsm.storageIters d refs := by
  induction h with
  | nil => rfl
  | cons href _ ih => rw [TyLsm.storageIters, TyLsm.storageIters, href.opens, href.table, ih]

theorem entries {refs refs' : List TableRef} (h : List.Forall₂ (SameTable d d') refs refs') :
    refs'.flatMap (fun ref => ref.2.entries) = refs.flatMap fun ref => ref.2.entries := by
  induction h with
  | nil => rfl
  | cons href _ ih => rw [List.flatMap_cons, List.flatMap_cons, href.table, ih]

end SameTable

/-- Two databases with the same memory but for the numbers of tables in L0. -/
structure SameReads (db db' : DB) : Prop where
  memtables : db'.state.memtables = db.state.memtables
  lastSequence : db'.state.lastSequence = db.state.lastSequence
  closed : db'.state.closed = db.state.closed
  l0Tables : List.Forall₂ (SameTable db.disk db'.disk) db.state.l0Tables db'.state.l0Tables
  levelTables : db'.state.levelTables = db.state.levelTables
  levels : ∀ ref ∈ db.state.levelTables.flatten,
    db'.disk.tables ref.1.number = db.disk.tables ref.1.number

theorem SameReads.sameView {db db' : DB} (h : SameReads db db') : SameView db db' := by
  constructor
  · intro key snapshot
    have hlevels : ∀ ref ∈ (db.state.levelTables.drop 1).flatten,
        db'.disk.tables ref.1.number = db.disk.tables ref.1.number := by
      intro ref href
      obtain ⟨level, hlevel, href⟩ := List.mem_flatten.mp href
      exact h.levels ref (List.mem_flatten.mpr ⟨level, List.mem_of_mem_drop hlevel, href⟩)
    rw [getOpt, getOpt, h.closed, h.lastSequence, h.memtables, h.levelTables]
    simp only [SameTable.searchL0 h.l0Tables, searchLevels_congr hlevels]
  · intro lower upper snapshot
    have hrefs : List.Forall₂ (SameTable db.disk db'.disk)
        (db.state.l0Tables ++ db.state.levelTables.flatten)
        (db'.state.l0Tables ++ db'.state.levelTables.flatten) := by
      refine List.rel_append h.l0Tables ?_
      rw [h.levelTables]
      exact List.forall₂_same.mpr fun ref href => .of_tables (h.levels ref href)
    have hmem : db'.state.memEntries = db.state.memEntries := by
      rw [DBState.memEntries, DBState.memEntries, h.memtables]
    rw [scanOpt, scanOpt, h.closed, h.lastSequence, hmem]
    simp only [SameTable.storageIters hrefs, SameTable.entries hrefs]

/-- A table that is listed in memory is on the disk, or its number has been given out. -/
def Numbered (db : DB) : Prop :=
  ∀ ref ∈ db.tableRefs, ref.1.number < db.versions.nextFileNumber ∨
    (db.disk.tables ref.1.number).isSome = true

instance (db : DB) : Decidable db.Numbered :=
  inferInstanceAs (Decidable (∀ ref ∈ db.tableRefs, _ ∨ _))

/-- So it is in every state of a run, whatever the order of its sources. -/
theorem Sound.numbered {db : DB} (h : db.Sound) : db.Numbered := by
  intro ref href
  rw [(h.tables.opened ref href).1]
  exact .inr rfl

/-- A flush takes its number for a new table. -/
theorem Numbered.flushed {db : DB} (h : db.Numbered)
    (hfree : db.disk.tables db.versions.nextFileNumber = none) (rest : DBState) (new : TableRef)
    {ref : TableRef} (href : ref ∈ db.tableRefs) :
    (db.flushed rest new).disk.tables ref.1.number = db.disk.tables ref.1.number := by
  have hne : ref.1.number ≠ db.versions.nextFileNumber := by
    rcases h ref href with hlt | hsome
    · omega
    · intro he
      rw [he, hfree] at hsome
      cases hsome
  exact Function.update_of_ne hne _ _

theorem Spares.listed {db db' : DB} (h : Spares db.versions.nextFileNumber db db')
    (hdb : db.Numbered) {ref : TableRef} (href : ref ∈ db.tableRefs) :
    db'.disk.tables ref.1.number = db.disk.tables ref.1.number := by
  rcases hdb ref href with hlt | hsome
  · exact h.below _ hlt
  · obtain ⟨table, htable⟩ := Option.isSome_iff_exists.mp hsome
    rw [htable, h.tables _ _ htable]

theorem Spares.numbered {db db' : DB} (h : Spares db.versions.nextFileNumber db db')
    (hdb : db.Numbered) : db'.Numbered := by
  intro ref href
  rw [tableRefs, h.state] at href
  rw [h.listed hdb href]
  exact (hdb ref href).imp_left fun hlt => hlt.trans_le h.next

/-- The metadata of one table under two numbers. -/
theorem sameTable_of_meta {d d' : Disk} {table : Table} {number number' len len' : Nat}
    {file file' : FileMeta} (h : fileMetaFromTable number len table = .ok file)
    (h' : fileMetaFromTable number' len' table = .ok file')
    (hopens : d'.openTable number' = d.openTable number) :
    SameTable d d' (file, table) (file', table) := by
  obtain ⟨e, es, -, hsmallest, hlargest, hfile⟩ := fileMetaFromTable_eq h
  obtain ⟨e', es', -, hsmallest', hlargest', hfile'⟩ := fileMetaFromTable_eq h'
  refine ⟨rfl, ?_, ?_, ?_⟩
  · exact Option.some.inj (hsmallest'.symm.trans hsmallest)
  · exact Option.some.inj (hlargest'.symm.trans hlargest)
  · rw [(extracted_of_ok h).1, (extracted_of_ok h').1, hopens]

theorem Spares.sameReads {db db' : DB} (h : Spares db.versions.nextFileNumber db db')
    (hdb : db.Numbered) : SameReads db db' := by
  refine ⟨by rw [h.state], by rw [h.state], by rw [h.state], ?_, by rw [h.state], ?_⟩
  · rw [h.state]
    exact List.forall₂_same.mpr fun ref href =>
      .of_tables (h.listed hdb (List.mem_append.mpr (.inl href)))
  · exact fun ref href => h.listed hdb (List.mem_append.mpr (.inr href))

/-- The next flush that succeeds writes the table that it would have written without the failed
one, under a later number. -/
theorem Spares.flush {db db' later other : DB} (h : Spares db.versions.nextFileNumber db db')
    (hdb : db.Numbered) (hlater : DB.flush db' = .ok () later) (hother : DB.flush db = .ok () other) :
    SameReads other later := by
  obtain ⟨-, hlater⟩ := flush_eq_ok hlater
  obtain ⟨-, hother⟩ := flush_eq_ok hother
  rw [h.state, h.options] at hlater
  cases htake : db.state.takeOldestFlushableMemtable db.options.memtableKind with
  | none =>
    rw [htake] at hlater hother
    subst hlater hother
    exact h.sameReads hdb
  | some taken =>
    obtain ⟨memtable, source, rest⟩ := taken
    rw [htake] at hlater hother
    obtain ⟨file', hfree', hfile', rfl⟩ := hlater
    obtain ⟨file, hfree, hfile, rfl⟩ := hother
    obtain ⟨-, -, -, hl0, hlevels, -⟩ := DBState.takeOldest_spec htake
    set table := buildTable db.options.blockSize memtable.entries
    have hsame : ∀ ref ∈ db.tableRefs,
        (db'.flushed rest (file', table)).disk.tables ref.1.number =
          (db.flushed rest (file, table)).disk.tables ref.1.number := by
      intro ref href
      have href' : ref ∈ db'.tableRefs := by
        rw [tableRefs, h.state]
        exact href
      rw [(h.numbered hdb).flushed hfree' rest _ href', hdb.flushed hfree rest _ href]
      exact h.listed hdb href
    have hopens : (db'.flushed rest (file', table)).disk.openTable db'.versions.nextFileNumber =
        (db.flushed rest (file, table)).disk.openTable db.versions.nextFileNumber := by
      have hnew : (db.flushed rest (file, table)).disk.tables db.versions.nextFileNumber =
          some table := Function.update_self _ _ _
      have hnew' : (db'.flushed rest (file', table)).disk.tables db'.versions.nextFileNumber =
          some table := Function.update_self _ _ _
      rw [Disk.openTable, Disk.openTable, hnew, hnew']
    refine ⟨Eq.refl _, Eq.refl _, Eq.refl _, ?_, Eq.refl _, fun ref href => hsame ref ?_⟩
    · refine .cons (sameTable_of_meta hfile hfile' hopens) ?_
      refine List.forall₂_same.mpr fun ref href => .of_tables (hsame ref ?_)
      rw [tableRefs, ← hl0]
      exact List.mem_append.mpr (.inl href)
    · rw [tableRefs, ← hlevels]
      exact List.mem_append.mpr (.inr href)

/-- The tables in memory are those on the disk, and the sources are in search order. -/
structure Searched (db : DB) : Prop where
  opened : Opened db.disk db.tableRefs
  matched : ∀ e ∈ db.state.memEntries, Matched e
  order : SearchOrder db.readSources

theorem Spares.searched {bound : Nat} {db db' : DB} (h : Spares bound db db') (hdb : db.Searched) : db'.Searched := by
  refine ⟨fun ref href => ?_, ?_, ?_⟩
  · rw [tableRefs, h.state] at href
    obtain ⟨htable, hdesc⟩ := hdb.opened ref href
    exact ⟨h.tables _ _ htable, hdesc⟩
  · rw [h.state]
    exact hdb.matched
  · rw [readSources, tableRefs, h.state]
    exact hdb.order

theorem Spares.sameView {bound : Nat} {db db' : DB} (h : Spares bound db db')
    (hdb : db.Searched) : SameView db db' := by
  cases hclosed : db.state.closed with
  | true =>
    refine ⟨fun key snapshot => ?_, fun lower upper snapshot => ?_⟩
    · rw [getOpt, getOpt, h.state, hclosed]
      rfl
    · rw [scanOpt, scanOpt, h.state, hclosed]
      rfl
  | false =>
    have hsame : SameSources db db' := by
      refine ⟨?_, ?_, ?_, hclosed, ?_, hdb.opened, (h.searched hdb).opened⟩
      · rw [h.state]
      · rw [h.state]
      · rw [h.state]
      · rw [h.state, hclosed]
    exact ⟨hsame.getOpt, hsame.scanOpt hdb.order⟩

theorem Searched.flush {db db' : DB} (hdb : db.Searched) (h : DB.flush db = .ok () db') :
    db'.Searched ∧ SameView db db' := by
  obtain ⟨hclosed, hcases⟩ := flush_eq_ok h
  cases htake : db.state.takeOldestFlushableMemtable db.options.memtableKind with
  | none =>
    rw [htake] at hcases
    obtain rfl : db' = db := hcases
    exact ⟨hdb, fun _ _ => rfl, fun _ _ _ => rfl⟩
  | some taken =>
    obtain ⟨memtable, source, rest⟩ := taken
    obtain ⟨ref, hmoved⟩ := flush_moved hdb.matched h htake
    have hsame := hmoved.sameSources htake hclosed hdb.opened
    refine ⟨⟨hsame.opened', fun e he => hdb.matched e ?_, hmoved.pairwise htake ?_ hdb.order⟩,
      hsame.getOpt, hsame.scanOpt hdb.order⟩
    · rw [hmoved.state] at he
      rw [(DBState.takeOldest_spec htake).1]
      exact List.mem_append.mpr (.inl he)
    · intro l a ha
      cases ha

/-- The database after flushes one of which after the other was tried, each under its faults. -/
def flushes : List Faults → DB → DB
  | [], db => db
  | faults :: plans, db =>
    match flushAmid faults db with
    | .ok _ db' => flushes plans db'
    | .error _ db' => flushes plans db'

theorem Searched.flushes {db : DB} (h : db.Searched) (plans : List Faults) :
    SameView db (flushes plans db) := by
  induction plans generalizing db with
  | nil => exact ⟨fun _ _ => rfl, fun _ _ _ => rfl⟩
  | cons faults plans ih =>
    rw [DB.flushes]
    cases hrun : flushAmid faults db with
    | ok u db' =>
      obtain ⟨hdb', hview⟩ := h.flush (flushAmid_ok faults db u db' hrun)
      exact hview.trans (ih hdb')
    | error err db' =>
      have hspares := flushAmid_error hrun
      exact (hspares.sameView h).trans (ih (hspares.searched h))

end DB

/-- A failed flush leaves the memory as it was, and no read can tell after the next flush that
succeeds whether it was tried. Where the sources are in search order, no read can tell after any
further flushes that fail or succeed. -/
theorem failed_flush_leaves_no_trace {faults : Faults} {db db' : DB} {err : Error}
    (hfail : DB.flushAmid faults db = .error err db') :
    db'.state = db.state ∧
    (db.Numbered → DB.SameView db db' ∧ ∀ later other, DB.flush db' = .ok () later →
      DB.flush db = .ok () other → DB.SameView other later) ∧
    (db.Searched → ∀ plans plans',
      DB.SameView (DB.flushes plans db) (DB.flushes plans' db')) := by
  have hspares := DB.flushAmid_error hfail
  refine ⟨hspares.state, fun hdb => ⟨(hspares.sameReads hdb).sameView, ?_⟩, fun hdb => ?_⟩
  · exact fun later other hlater hother => (hspares.flush hdb hlater hother).sameView
  · intro plans plans'
    have hview := hspares.sameView hdb
    exact ((hdb.flushes plans).symm.trans hview).trans ((hspares.searched hdb).flushes plans')

/-- The manifest cannot be extended once the new table is in it. -/
def afterAddFile : Faults
  | .lastSequence => some ⟨.io .other "No space left on device", Disk.empty "db"⟩
  | _ => none

/-- The run fails and leaves a state with the given property. -/
def FailsIn (p : DB → Prop) : EStateM.Result Error DB Unit → Prop
  | .ok _ _ => False
  | .error _ db => p db

instance (p : DB → Prop) [DecidablePred p] (r : EStateM.Result Error DB Unit) :
    Decidable (FailsIn p r) :=
  match r with
  | .ok _ _ => isFalse id
  | .error _ db => inferInstanceAs (Decidable (p db))

theorem FailsIn.exists_error {p : DB → Prop} {r : EStateM.Result Error DB Unit}
    (h : FailsIn p r) : ∃ err db, r = .error err db ∧ p db := by
  cases r with
  | ok a db => exact absurd h id
  | error err db => exact ⟨err, db, rfl, h⟩

/-- The next flush lists its table next to the one from the failed flush. -/
def ListsTwice (db : DB) : Prop :=
  db.versions.current.l0Files.length = 1 ∧
    EndsIn (fun later : DB => later.versions.current.l0Files.length = 2) (DB.flush db)

instance (db : DB) : Decidable (ListsTwice db) :=
  inferInstanceAs (Decidable (_ ∧ EndsIn _ _))

theorem failed_flush_leaves_no_trace_small : ∃ err db' later other,
    DB.flushAmid afterAddFile threeVersions = .error err db' ∧
      db'.versions.current.l0Files.length = 1 ∧ db'.state = threeVersions.state ∧
      DB.flush db' = .ok () later ∧ later.versions.current.l0Files.length = 2 ∧
      DB.flush threeVersions = .ok () other ∧ DB.SameView other later ∧
      DB.SameView (DB.flushes [fun _ => none] threeVersions)
        (DB.flushes [afterAddFile, fun _ => none] db') := by
  have hfails : FailsIn ListsTwice (DB.flushAmid afterAddFile threeVersions) := by
    decide +kernel
  have hother : EndsIn (fun _ => True) (DB.flush threeVersions) := by decide +kernel
  obtain ⟨err, db', hfail, hlisted, hlater⟩ := hfails.exists_error
  obtain ⟨later, hlater, htwice⟩ := hlater.exists_ok
  obtain ⟨other, hother, -⟩ := hother.exists_ok
  have hnumbered : threeVersions.Numbered := by decide +kernel
  have hsearched : threeVersions.Searched :=
    ⟨twoVersions_opened, by unfold Matched; decide +kernel,
      by unfold DB.SearchOrder; decide +kernel⟩
  obtain ⟨hstate, hview, hplans⟩ := failed_flush_leaves_no_trace hfail
  exact ⟨err, db', later, other, hfail, hlisted, hstate, hlater, htwice, hother,
    (hview hnumbered).2 later other hlater hother, hplans hsearched _ _⟩

end TyLsm
