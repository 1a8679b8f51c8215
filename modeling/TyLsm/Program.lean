import TyLsm.DB

/-! How the programs over the database run: the monad's own laws, and the final
state of each call in the cases in which it succeeds. -/

namespace TyLsm

section

variable {α β : Type} (db : DB)

@[simp] theorem run_pure (a : α) : (pure a : DBM α) db = .ok a db := rfl

@[simp] theorem run_get : (MonadState.get : DBM DB) db = .ok db db := rfl

@[simp] theorem run_set (db' : DB) : (set db' : DBM PUnit) db = .ok ⟨⟩ db' := rfl

@[simp] theorem run_modify (f : DB → DB) : (modify f : DBM PUnit) db = .ok ⟨⟩ (f db) := rfl

@[simp] theorem run_throw (err : Error) : (throw err : DBM α) db = .error err db := rfl

@[simp] theorem run_act (op : DiskOp) : act op db =
    .ok () { db with disk := db.disk.apply op, journal := db.journal ++ [op] } := rfl

@[simp] theorem run_ofExcept_ok (a : α) : ofExcept (.ok a) db = .ok a db := rfl

@[simp] theorem run_ofExcept_error (err : Error) :
    (ofExcept (.error err) : DBM α) db = .error err db := rfl

variable {db}

theorem run_bind_ok {x : DBM α} {f : α → DBM β} {a : α} {db' : DB} (h : x db = .ok a db') :
    (x >>= f) db = f a db' := by
  change EStateM.bind x f db = _
  rw [EStateM.bind, h]

theorem run_bind_error {x : DBM α} {f : α → DBM β} {err : Error} {db' : DB}
    (h : x db = .error err db') : (x >>= f) db = .error err db' := by
  change EStateM.bind x f db = _
  rw [EStateM.bind, h]

theorem run_discard_ok {x : DBM α} {a : α} {db' : DB} (h : x db = .ok a db') :
    (discard x) db = .ok () db' := by
  change EStateM.bind x (fun _ => pure PUnit.unit) db = _
  rw [EStateM.bind, h]
  rfl

theorem run_discard_error {x : DBM α} {err : Error} {db' : DB} (h : x db = .error err db') :
    (discard x) db = .error err db' := by
  change EStateM.bind x (fun _ => pure PUnit.unit) db = _
  rw [EStateM.bind, h]

theorem run_discard_congr {x y : DBM α} (h : x db = y db) : discard x db = discard y db := by
  cases hy : y db with
  | ok a db' => rw [run_discard_ok hy, run_discard_ok (h.trans hy)]
  | error err db' => rw [run_discard_error hy, run_discard_error (h.trans hy)]

theorem run_tryCatch_ok {x : DBM α} {handle : Error → DBM α} {a : α} {db' : DB}
    (h : x db = .ok a db') : (tryCatch x handle) db = .ok a db' := by
  change EStateM.tryCatch x handle db = _
  rw [EStateM.tryCatch, h]

theorem run_tryCatch_error {x : DBM α} {handle : Error → DBM α} {err : Error} {db' : DB}
    (h : x db = .error err db') : (tryCatch x handle) db = handle err db' := by
  change EStateM.tryCatch x handle db = _
  rw [EStateM.tryCatch, h]
  rfl

end

namespace DB

/-- The state after the disk operations `ops`. -/
def performed (db : DB) (ops : List DiskOp) : DB :=
  { db with disk := db.disk.applyAll ops, journal := db.journal ++ ops }

theorem performed_performed (db : DB) (l r : List DiskOp) :
    (db.performed l).performed r = db.performed (l ++ r) := by
  simp [performed, Disk.applyAll_append]

theorem run_logAndApply {db : DB} {edit : VersionEdit} {versions : VersionSet}
    (h : db.versions.applyEdit edit = (versions, .ok ())) :
    logAndApply edit db =
      .ok () { db.performed [.appendManifest edit] with versions := versions } := by
  rw [logAndApply, run_bind_ok (run_act db _), run_bind_ok (run_get _)]
  simp only [h, run_bind_ok (run_set _ _), run_ofExcept_ok]
  rfl

theorem run_logAndApplyAll {db : DB} {edits : List VersionEdit} {versions : VersionSet}
    (h : db.versions.replay edits = .ok versions) :
    logAndApplyAll edits db =
      .ok () { db.performed (edits.map .appendManifest) with versions := versions } := by
  induction edits generalizing db with
  | nil =>
    obtain rfl : db.versions = versions := Except.ok.inj h
    simp [logAndApplyAll, performed]
  | cons edit edits ih =>
    simp only [VersionSet.replay] at h
    cases he : db.versions.applyEdit edit with
    | mk vs result =>
      cases result with
      | error err => simp [he] at h
      | ok u =>
        simp only [he] at h
        rw [logAndApplyAll, run_bind_ok (run_logAndApply he), ih h]
        simp [performed]

theorem run_allocateFileNumber (db : DB) : allocateFileNumber db =
    .ok db.versions.nextFileNumber { db with
      versions := { db.versions with nextFileNumber := db.versions.nextFileNumber + 1 } } := rfl

theorem run_writeTable {db : DB} {entries : List Entry} {number : Nat} {file : FileMeta}
    (h : fileMetaFromTable number (db.env.metadataLen (buildTable db.options.blockSize entries))
      (buildTable db.options.blockSize entries) = .ok file) :
    writeTable entries number db =
      .ok (file, buildTable db.options.blockSize entries)
        (db.performed [.renameTable number (buildTable db.options.blockSize entries)]) := by
  rw [writeTable, run_bind_ok (run_get db), run_bind_ok (run_act db _), h,
    run_bind_ok (run_ofExcept_ok _ _), run_pure]
  rfl

end DB

end TyLsm
