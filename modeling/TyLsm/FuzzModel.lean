import TyLsm.Gives
import TyLsm.Oracle
import TyLsm.Rendering

/-! The model-based fuzz harness. It drives a database and an ordered map side by side and
compares what they answer after every operation. -/

namespace TyLsm

namespace FuzzModel

/-- How a case of the harness can end early: a call returns an error, or `assert_eq!` fails. -/
inductive Failure where
  | returned (err : Error)
  | asserted
  deriving DecidableEq, Repr

structure Case where
  db : DB
  oracle : OrderedMap Bytes Bytes

abbrev CaseM := EStateM Failure Case

def padded (width number : Nat) : String :=
  let digits := toString number
  String.ofList (List.replicate (width - digits.length) '0') ++ digits

def fuzzOptions : Options where
  memtableKind := .skipList
  memtableSize := 256
  blockSize := 256
  targetFileSizeBase := 512
  maxSubcompactions := 3

/-- A call on the database, with `?` behind it. -/
def call (program : DBM Unit) : CaseM Unit := fun c =>
  match program c.db with
  | .ok _ db => .ok () { c with db := db }
  | .error err db => .error (.returned err) { c with db := db }

/-- A read, with `?` behind it, compared with what the map holds. -/
def assertEq {α : Type} [DecidableEq α] (answer : DB → Except Error α)
    (expected : OrderedMap Bytes Bytes → α) : CaseM Unit := fun c =>
  match answer c.db with
  | .error err => .error (.returned err) c
  | .ok found => if found = expected c.oracle then .ok () c else .error .asserted c

def updateOracle (record : BatchRecord) : CaseM Unit :=
  modify fun c => { c with oracle := record.applyTo c.oracle }

def assertScanMatches : CaseM Unit :=
  assertEq (fun db => db.scan .unbounded .unbounded) fun oracle => oracle.entries

/-- The database is dropped and its directory opened again. -/
def reopen : CaseM Unit := fun c =>
  match DB.open c.db.env c.db.disk fuzzOptions with
  | .ok db => .ok () { c with db := db }
  | .error err => .error (.returned err) c

/-- What the first byte of a chunk asks for. -/
def runOp (op : Nat) (key value : Bytes) : CaseM Unit :=
  match op with
  | 0 | 1 => do
    call (DB.put key value)
    updateOracle (.put key value)
  | 2 => do
    call (DB.delete key)
    updateOracle (.delete key)
  | 3 => assertEq (fun db => db.get key) fun oracle => oracle.get? key
  | 4 => assertScanMatches
  | 5 => call DB.flush
  | _ => do
    call (DB.compactRange .unbounded .unbounded)
    reopen

/-- The body of the loop in `run_case`. -/
def runChunk (chunk : List UInt8) : CaseM Unit := do
  let op := (chunk[0]?.getD 0).toNat % 7
  let keyId := (chunk[1]?.getD 0).toNat % 32
  let valueId := (chunk[2]?.getD 0).toNat
  runOp op (utf8 ("fk-" ++ padded 2 keyId)) (utf8 ("fv-" ++ padded 3 valueId))
  assertScanMatches

/-- `run_case`, from the directory that it has just emptied. -/
def runCase (env : Env) (path : String) (input : List UInt8) : Except Failure Unit :=
  match DB.open env { Disk.empty path with dirExists := true } fuzzOptions with
  | .error err => .error (.returned err)
  | .ok db =>
    match runAll runChunk (input.toChunks 3) ⟨db, .empty⟩ with
    | .ok _ _ => .ok ()
    | .error failure _ => .error failure

variable {c : Case}

/-- The database refines the map. -/
def Case.Matches (c : Case) : Prop := c.db.Refines fuzzOptions c.oracle

theorem run_call {program : DBM Unit} {db' : DB} (h : program c.db = .ok () db') :
    call program c = .ok () { c with db := db' } := by
  simp only [call, h]

theorem run_assertEq {α : Type} [DecidableEq α] {answer : DB → Except Error α}
    {expected : OrderedMap Bytes Bytes → α} (h : answer c.db = .ok (expected c.oracle)) :
    assertEq answer expected c = .ok () c := by
  simp [assertEq, h]

theorem run_assertScanMatches (h : c.Matches) : assertScanMatches c = .ok () c := by
  apply run_assertEq
  have hscan := h.ok.scan_of_shows h.shows .unbounded .unbounded
  simpa [withinBounds, Bound.lowerOk, Bound.upperOk] using hscan

theorem run_write {program : DBM Unit} {record : BatchRecord} (h : c.Matches)
    (hprogram : program = DB.write (.ok ()) ⟨[record]⟩ {}) :
    ∃ c', (do
      call program
      updateOracle record) c = .ok () c' ∧ c'.Matches := by
  have hlogged : WriteOptions.disableWal {} = false := rfl
  obtain ⟨db', hrun, hdb'⟩ := h.write rfl ⟨[record]⟩ hlogged
  refine ⟨⟨db', record.applyTo c.oracle⟩, ?_, hdb'⟩
  rw [hprogram, bind_of_ok (run_call hrun)]
  rfl

theorem run_reopen (h : c.Matches) : ∃ c', reopen c = .ok () c' ∧ c'.Matches := by
  obtain ⟨db', hrun, hdb'⟩ := h.reopen rfl
  refine ⟨{ c with db := db' }, ?_, hdb'⟩
  have hopen : DB.open c.db.env c.db.disk fuzzOptions = .ok db' := by
    rw [DB.reopen, h.options_eq] at hrun
    cases ho : DB.open c.db.env c.db.disk fuzzOptions with
    | error err =>
      rw [ho] at hrun
      cases hrun
    | ok db =>
      rw [ho] at hrun
      injection hrun with _ heq
      rw [heq]
  simp only [reopen, hopen]

theorem run_runOp (h : c.Matches) (op : Nat) (key value : Bytes) :
    ∃ c', runOp op key value c = .ok () c' ∧ c'.Matches := by
  unfold runOp
  split
  · exact run_write h rfl
  · exact run_write h rfl
  · exact run_write h rfl
  · exact ⟨c, run_assertEq (h.ok.get_of_shows h.shows key), h⟩
  · exact ⟨c, run_assertScanMatches h, h⟩
  · obtain ⟨db', hrun, hdb'⟩ := h.flush
    exact ⟨{ c with db := db' }, run_call hrun, hdb'⟩
  · obtain ⟨db', hrun, hdb'⟩ := h.compactRange
    rw [bind_of_ok (run_call hrun)]
    exact run_reopen hdb'

theorem run_runChunk (h : c.Matches) (chunk : List UInt8) :
    ∃ c', runChunk chunk c = .ok () c' ∧ c'.Matches := by
  obtain ⟨c', hrun, hc'⟩ := run_runOp h ((chunk[0]?.getD 0).toNat % 7)
    (utf8 ("fk-" ++ padded 2 ((chunk[1]?.getD 0).toNat % 32)))
    (utf8 ("fv-" ++ padded 3 (chunk[2]?.getD 0).toNat))
  exact ⟨c', by rw [runChunk, bind_of_ok hrun, run_assertScanMatches hc'], hc'⟩

/-- The directory is there already, but nothing is in it. -/
theorem open_emptied (env : Env) (path : String) :
    DB.open env { Disk.empty path with dirExists := true } fuzzOptions =
      .ok (DB.created env fuzzOptions path) := by
  have h := DB.open_empty env fuzzOptions path
  rw [if_pos (show fuzzOptions.createIfMissing = true from rfl)] at h
  exact h

end FuzzModel

/-- Whatever bytes the harness reads, no call returns an error and no assertion fails. -/
theorem fuzz_model_never_fails (env : Env) (path : String) (input : List UInt8) :
    FuzzModel.runCase env path input = .ok () := by
  have hstart : FuzzModel.Case.Matches ⟨DB.created env FuzzModel.fuzzOptions path, .empty⟩ :=
    DB.refines_created env FuzzModel.fuzzOptions path
  have halong : Along FuzzModel.runChunk (fun _ _ => True) (input.toChunks 3)
      ⟨DB.created env FuzzModel.fuzzOptions path, .empty⟩ :=
    along_of_forall (fun _ _ _ => trivial) _
  obtain ⟨c, hrun, -⟩ := runAll_invariant (n := fun _ u => u) (C := fun _ _ => True)
    (I := fun _ c => FuzzModel.Case.Matches c) (f := FuzzModel.runChunk)
    (fun chunk _ c hc _ => FuzzModel.run_runChunk hc chunk) (g := ()) hstart halong
  rw [FuzzModel.runCase, FuzzModel.open_emptied]
  simp only [hrun]

end TyLsm
