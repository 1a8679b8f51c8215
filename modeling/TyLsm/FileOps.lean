import Mathlib

/-! A directory of files, the operations on it, and what a stop in the middle of them leaves.
A sync changes no contents and is left out. -/

namespace TyLsm

structure Directory where
  made : Bool
  files : String → Option (List UInt8)

structure WritableFileOptions where
  create : Bool
  truncate : Bool
  append : Bool
  read : Bool
  deriving DecidableEq, Repr

/-- `create()`: write a file from its beginning. -/
def WritableFileOptions.fresh : WritableFileOptions := ⟨true, true, false, false⟩

/-- `append()`: write behind what a file holds. -/
def WritableFileOptions.appending : WritableFileOptions := ⟨true, false, true, true⟩

inductive FileOp where
  | createDirAll
  | openWritable (name : String) (options : WritableFileOptions)
  /-- At the end of a file that is open. -/
  | writeAll (name : String) (bytes : List UInt8)
  | rename (source target : String)
  | removeFile (name : String)

namespace FileOp

/-- The names whose files an operation can change. -/
def names : FileOp → List String
  | createDirAll => []
  | openWritable name _ => [name]
  | writeAll name _ => [name]
  | rename source target => [source, target]
  | removeFile name => [name]

/-- What is left of an operation in which the process stops: of a write the first `n` bytes. -/
def begun (n : Nat) : FileOp → List FileOp
  | writeAll name bytes => [writeAll name (bytes.take n)]
  | _ => []

end FileOp

namespace Directory

def empty : Directory := ⟨false, fun _ => none⟩

def apply (d : Directory) : FileOp → Directory
  | .createDirAll => { d with made := true }
  | .openWritable name options =>
    if (d.files name).isSome && !options.truncate || (d.files name).isNone && !options.create then d
    else { d with files := Function.update d.files name (some []) }
  | .writeAll name bytes =>
    { d with files := Function.update d.files name (some ((d.files name).getD [] ++ bytes)) }
  | .rename source target =>
    match d.files source with
    | none => d
    | some bytes =>
      { d with files := Function.update (Function.update d.files source none) target (some bytes) }
  | .removeFile name => { d with files := Function.update d.files name none }

def applyAll (d : Directory) (ops : List FileOp) : Directory := ops.foldl apply d

@[simp] theorem applyAll_nil (d : Directory) : d.applyAll [] = d := rfl

@[simp] theorem applyAll_cons (d : Directory) (op : FileOp) (ops : List FileOp) :
    d.applyAll (op :: ops) = (d.apply op).applyAll ops := rfl

theorem applyAll_append (d : Directory) (l r : List FileOp) :
    d.applyAll (l ++ r) = (d.applyAll l).applyAll r := List.foldl_append

/-- The directory when the process stops in the operation after the first `i`, of which it
has written `n` bytes at most. -/
def stopped (d : Directory) (ops : List FileOp) (i n : Nat) : Directory :=
  (d.applyAll (ops.take i)).applyAll ((ops.drop i).head?.elim [] (FileOp.begun n))

variable {d : Directory}

theorem apply_openFresh (d : Directory) (name : String) :
    d.apply (.openWritable name .fresh) =
      { d with files := Function.update d.files name (some []) } := by
  simp [apply, WritableFileOptions.fresh]

theorem apply_openAppending (d : Directory) (name : String) :
    d.apply (.openWritable name .appending) =
      { d with files := Function.update d.files name (some ((d.files name).getD [])) } := by
  cases hfile : d.files name with
  | none => simp [apply, WritableFileOptions.appending, hfile]
  | some bytes =>
    have hsame : Function.update d.files name (some bytes) = d.files := by
      rw [← hfile, Function.update_eq_self]
    simp [apply, WritableFileOptions.appending, hfile, hsame]

theorem files_writeAll_self (d : Directory) (name : String) (bytes : List UInt8) :
    (d.apply (.writeAll name bytes)).files name = some ((d.files name).getD [] ++ bytes) :=
  Function.update_self _ _ _

theorem files_writeAll_of_ne (d : Directory) {name name' : String} (bytes : List UInt8)
    (h : name' ≠ name) : (d.apply (.writeAll name bytes)).files name' = d.files name' :=
  Function.update_of_ne h _ _

/-- Write a file under another name and give it its own when it is finished. -/
def replaceOps (tmp target : String) (bytes : List UInt8) : List FileOp :=
  [.openWritable tmp .fresh, .writeAll tmp bytes, .rename tmp target]

theorem applyAll_replaceOps (d : Directory) (tmp target : String) (bytes : List UInt8) :
    d.applyAll (replaceOps tmp target bytes) = { d with
      files := Function.update (Function.update d.files tmp none) target (some bytes) } := by
  simp only [replaceOps, applyAll_cons, applyAll_nil, apply_openFresh]
  simp [apply]

theorem files_apply_of_not_mem {op : FileOp} {name : String} (h : name ∉ op.names) :
    (d.apply op).files name = d.files name := by
  cases op with
  | createDirAll => rfl
  | openWritable name' options =>
    have hne : name ≠ name' := by simpa [FileOp.names] using h
    simp only [apply]
    split
    · rfl
    · exact Function.update_of_ne hne _ _
  | writeAll name' bytes =>
    have hne : name ≠ name' := by simpa [FileOp.names] using h
    exact Function.update_of_ne hne _ _
  | rename source target =>
    have hne : name ≠ source ∧ name ≠ target := by simpa [FileOp.names] using h
    simp only [apply]
    cases d.files source with
    | none => rfl
    | some bytes =>
      change Function.update (Function.update d.files source none) target (some bytes) name = _
      rw [Function.update_of_ne hne.2, Function.update_of_ne hne.1]
  | removeFile name' =>
    have hne : name ≠ name' := by simpa [FileOp.names] using h
    exact Function.update_of_ne hne _ _

theorem files_applyAll_of_not_mem {ops : List FileOp} {name : String}
    (h : ∀ op ∈ ops, name ∉ op.names) : (d.applyAll ops).files name = d.files name := by
  induction ops generalizing d with
  | nil => rfl
  | cons op ops ih =>
    rw [applyAll_cons, ih (fun op' hop => h op' (by simp [hop])),
      files_apply_of_not_mem (h op (by simp))]

theorem stopped_append (l r : List FileOp) (i n : Nat) :
    d.stopped (l ++ r) i n =
      if i < l.length then d.stopped l i n else (d.applyAll l).stopped r (i - l.length) n := by
  by_cases hi : i < l.length
  · have hhead : ((l ++ r).drop i).head? = (l.drop i).head? := by
      rw [List.head?_drop, List.head?_drop, List.getElem?_append_left hi]
    rw [if_pos hi, stopped, stopped, hhead, List.take_append_of_le_length (by omega)]
  · have hhead : ((l ++ r).drop i).head? = (r.drop (i - l.length)).head? := by
      rw [List.head?_drop, List.head?_drop, List.getElem?_append_right (by omega)]
    rw [if_neg hi, stopped, stopped, hhead, List.take_append, List.take_of_length_le (by omega),
      applyAll_append]

@[simp] theorem stopped_nil (i n : Nat) : d.stopped [] i n = d := by simp [stopped]

@[simp] theorem stopped_zero (op : FileOp) (ops : List FileOp) (n : Nat) :
    d.stopped (op :: ops) 0 n = d.applyAll (op.begun n) := rfl

@[simp] theorem stopped_succ (op : FileOp) (ops : List FileOp) (i n : Nat) :
    d.stopped (op :: ops) (i + 1) n = (d.apply op).stopped ops i n := rfl

end Directory

end TyLsm
