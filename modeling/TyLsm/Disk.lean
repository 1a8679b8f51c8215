import TyLsm.Compact

/-! The database directory and the operations that change it. The manifest and
the logs hold decoded records, a table file its decoded table. Every operation
that a crash can separate from the next one is a `DiskOp`. -/

namespace TyLsm

structure Disk where
  path : String
  dirExists : Bool
  current : Bool
  manifest : List VersionEdit
  wals : Nat → Option (List (Nat × WriteBatch))
  tables : Nat → Option Table

inductive DiskOp where
  | createDir
  /-- Opening with truncation. -/
  | createManifest
  | appendManifest (edit : VersionEdit)
  | setCurrent
  /-- Opening in append mode, which creates a missing file. -/
  | openWal (number : Nat)
  | appendWal (number startSequence : Nat) (batch : WriteBatch)
  /-- A finished table receives its final name. -/
  | renameTable (number : Nat) (table : Table)
  | removeTable (number : Nat)

namespace Disk

def empty (path : String) : Disk := ⟨path, false, false, [], fun _ => none, fun _ => none⟩

def apply (d : Disk) : DiskOp → Disk
  | .createDir => { d with dirExists := true }
  | .createManifest => { d with manifest := [] }
  | .appendManifest edit => { d with manifest := d.manifest ++ [edit] }
  | .setCurrent => { d with current := true }
  | .openWal number =>
    { d with wals := Function.update d.wals number (some ((d.wals number).getD [])) }
  | .appendWal number startSequence batch =>
    let records := (d.wals number).getD [] ++ [(startSequence, batch)]
    { d with wals := Function.update d.wals number (some records) }
  | .renameTable number table =>
    { d with tables := Function.update d.tables number (some table) }
  | .removeTable number => { d with tables := Function.update d.tables number none }

def applyAll (d : Disk) (ops : List DiskOp) : Disk := ops.foldl apply d

@[simp] theorem applyAll_nil (d : Disk) : d.applyAll [] = d := rfl

@[simp] theorem applyAll_cons (d : Disk) (op : DiskOp) (ops : List DiskOp) :
    d.applyAll (op :: ops) = (d.apply op).applyAll ops := rfl

theorem applyAll_append (d : Disk) (l r : List DiskOp) :
    d.applyAll (l ++ r) = (d.applyAll l).applyAll r := List.foldl_append

end Disk

/-- What a run depends on besides its calls: the length of a written table file,
and the order in which the workers of a split compaction draw file numbers. -/
structure Env where
  metadataLen : Table → Nat
  workerOrder : Nat → Nat → List Nat
  workerOrder_perm : ∀ next count, (workerOrder next count).Perm (List.range count)

/-- Workers that draw their numbers in the order of the chunks. -/
def Env.inOrder : Env := ⟨fun _ => 0, fun _ count => List.range count, fun _ _ => List.Perm.refl _⟩

end TyLsm
