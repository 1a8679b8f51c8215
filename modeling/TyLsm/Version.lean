import TyLsm.Options

/-! Versions: which table files make up each level, the edits that change them,
and the version set that applies edits and replays a manifest. -/

namespace TyLsm

structure FileMeta where
  number : Nat
  fileSize : Nat
  smallest : InternalKey
  largest : InternalKey
  smallestSeq : Nat
  largestSeq : Nat
  deriving DecidableEq, Repr

structure Version where
  l0Files : List FileMeta
  levels : List (List FileMeta)
  deriving DecidableEq, Repr

/-- The stable sort by smallest key that `add_file` runs on a level. -/
def sortBySmallest (files : List FileMeta) : List FileMeta :=
  files.insertionSort (fun left right => left.smallest ≤ right.smallest)

def invalidLevel (level : Nat) : Error := .invalidArgument ("invalid level: " ++ toString level)

namespace Version

def new (maxLevels : Nat) : Version := ⟨[], List.replicate maxLevels []⟩

def addFile (v : Version) (level : Nat) (file : FileMeta) : Except Error Version :=
  if level = 0 then .ok { v with l0Files := file :: v.l0Files }
  else
    match v.levels[level]? with
    | some files => .ok { v with levels := v.levels.set level (sortBySmallest (files ++ [file])) }
    | none => .error (invalidLevel level)

def deleteFile (v : Version) (level number : Nat) : Except Error Version :=
  if level = 0 then .ok { v with l0Files := v.l0Files.filter (fun file => file.number ≠ number) }
  else
    match v.levels[level]? with
    | some files =>
      .ok { v with levels := v.levels.set level (files.filter (fun file => file.number ≠ number)) }
    | none => .error (invalidLevel level)

/-- Every file of the version, L0 first. -/
def files (v : Version) : List FileMeta := v.l0Files ++ v.levels.flatten

end Version

inductive VersionEdit where
  | nextFileNumber (number : Nat)
  | lastSequence (sequence : Nat)
  | logNumber (number : Nat)
  | addFile (level : Nat) (file : FileMeta)
  | deleteFile (level number : Nat)
  deriving DecidableEq, Repr

structure VersionSet where
  current : Version
  nextFileNumber : Nat
  lastSequence : Nat
  logNumber : Nat
  deriving DecidableEq, Repr

namespace VersionSet

/-- The version set that `create` returns and from which `recover` starts. -/
def newEmpty (maxLevels : Nat) : VersionSet := ⟨Version.new maxLevels, 2, 0, 1⟩

/-- The edits that `create` writes to a fresh manifest. -/
def createEdits : List VersionEdit := [.nextFileNumber 2, .logNumber 1, .lastSequence 0]

/-- An edit that fails may already have raised the next file number. -/
def applyEdit (vs : VersionSet) : VersionEdit → VersionSet × Except Error Unit
  | .nextFileNumber number =>
    ({ vs with nextFileNumber := max vs.nextFileNumber number }, .ok ())
  | .lastSequence sequence => ({ vs with lastSequence := max vs.lastSequence sequence }, .ok ())
  | .logNumber number =>
    ({ vs with
      logNumber := number
      nextFileNumber := max vs.nextFileNumber (number + 1) }, .ok ())
  | .addFile level file =>
    let vs := { vs with nextFileNumber := max vs.nextFileNumber (file.number + 1) }
    match vs.current.addFile level file with
    | .ok next => ({ vs with current := next }, .ok ())
    | .error err => (vs, .error err)
  | .deleteFile level number =>
    match vs.current.deleteFile level number with
    | .ok next => ({ vs with current := next }, .ok ())
    | .error err => (vs, .error err)

/-- The loop of `recover` over the edits of the manifest. -/
def replay (vs : VersionSet) : List VersionEdit → Except Error VersionSet
  | [] => .ok vs
  | edit :: edits =>
    match vs.applyEdit edit with
    | (vs, .ok ()) => replay vs edits
    | (_, .error err) => .error err

theorem replay_append (vs : VersionSet) (l r : List VersionEdit) :
    vs.replay (l ++ r) = (vs.replay l).bind (fun vs => vs.replay r) := by
  induction l generalizing vs with
  | nil => rfl
  | cons edit l ih =>
    simp only [List.cons_append, replay]
    split
    · exact ih _
    · rfl

theorem replay_createEdits (maxLevels : Nat) :
    (newEmpty maxLevels).replay createEdits = .ok (newEmpty maxLevels) := rfl

end VersionSet

theorem set_append_length {α : Type} (l : List α) (a b : α) (r : List α) :
    (l ++ a :: r).set l.length b = l ++ b :: r := by
  simp

theorem getElem?_append_length {α : Type} (l : List α) (a : α) (r : List α) :
    (l ++ a :: r)[l.length]? = some a := by
  simp

theorem sortBySmallest_perm (files : List FileMeta) : (sortBySmallest files).Perm files :=
  List.perm_insertionSort _ files

instance : Std.Total (fun a b : FileMeta => a.smallest ≤ b.smallest) :=
  ⟨fun a b => le_total a.smallest b.smallest⟩

instance : IsTrans FileMeta (fun a b => a.smallest ≤ b.smallest) := ⟨fun _ _ _ => le_trans⟩

theorem sortBySmallest_sorted (files : List FileMeta) :
    (sortBySmallest files).Pairwise (fun a b => a.smallest ≤ b.smallest) :=
  List.pairwise_insertionSort _ files

namespace Version

theorem replay_deletes_zero (vs : VersionSet) (numbers : List Nat) :
    vs.replay (numbers.map (VersionEdit.deleteFile 0)) = .ok { vs with
      current := { vs.current with
        l0Files := vs.current.l0Files.filter (fun file => file.number ∉ numbers) } } := by
  induction numbers generalizing vs with
  | nil => simp [VersionSet.replay]
  | cons n numbers ih =>
    simp only [List.map_cons, VersionSet.replay, VersionSet.applyEdit, deleteFile, if_true, ih,
      List.filter_filter]
    congr 4
    funext file
    by_cases h : file.number = n <;> simp [h]

theorem replay_deletes_level {vs : VersionSet} {pre post : List (List FileMeta)}
    {level : List FileMeta} (h : vs.current.levels = pre ++ level :: post) (hpre : pre ≠ [])
    (numbers : List Nat) :
    vs.replay (numbers.map (VersionEdit.deleteFile pre.length)) = .ok { vs with
      current := { vs.current with
        levels := pre ++ level.filter (fun file => file.number ∉ numbers) :: post } } := by
  induction numbers generalizing vs level with
  | nil => simp [VersionSet.replay, ← h]
  | cons n numbers ih =>
    have hlen : pre.length ≠ 0 := fun he => hpre (List.length_eq_zero_iff.mp he)
    simp only [List.map_cons, VersionSet.replay, VersionSet.applyEdit, deleteFile, hlen, if_false,
      h, getElem?_append_length, set_append_length]
    rw [@ih { vs with current := { vs.current with
      levels := pre ++ level.filter (fun file => file.number ≠ n) :: post } }
      (level.filter (fun file => file.number ≠ n)) rfl]
    simp only [List.filter_filter]
    congr 7
    funext file
    by_cases h : file.number = n <;> simp [h]

/-- The next file number after adding the files. -/
def nextAfter (next : Nat) (files : List FileMeta) : Nat :=
  files.foldl (fun n file => max n (file.number + 1)) next

theorem le_nextAfter (next : Nat) (files : List FileMeta) : next ≤ nextAfter next files := by
  induction files generalizing next with
  | nil => exact le_rfl
  | cons file files ih => exact (le_max_left _ _).trans (ih _)

theorem nextAfter_le {next bound : Nat} {files : List FileMeta} (hn : next ≤ bound)
    (h : ∀ f ∈ files, f.number < bound) : nextAfter next files ≤ bound := by
  induction files generalizing next with
  | nil => exact hn
  | cons file files ih => exact ih (max_le hn (h file (by simp))) fun f hf => h f (by simp [hf])

theorem nextAfter_eq {next : Nat} {files : List FileMeta} (h : ∀ f ∈ files, f.number < next) :
    nextAfter next files = next :=
  le_antisymm (nextAfter_le le_rfl h) (le_nextAfter next files)

theorem lt_nextAfter {next : Nat} {files : List FileMeta} {f : FileMeta} (h : f ∈ files) :
    f.number < nextAfter next files := by
  induction files generalizing next with
  | nil => cases h
  | cons file files ih =>
    rcases List.mem_cons.mp h with rfl | h
    · exact lt_of_lt_of_le (Nat.lt_succ_self _) ((le_max_right _ _).trans (le_nextAfter _ _))
    · exact ih h

theorem replay_adds_zero (vs : VersionSet) (files : List FileMeta) :
    vs.replay (files.map (VersionEdit.addFile 0)) = .ok { vs with
      current := { vs.current with l0Files := files.reverse ++ vs.current.l0Files }
      nextFileNumber := nextAfter vs.nextFileNumber files } := by
  induction files generalizing vs with
  | nil => rfl
  | cons file files ih =>
    simp [VersionSet.replay, VersionSet.applyEdit, addFile, ih, nextAfter]

/-- The files of a level after adding `files` one after the other. -/
def addedTo (level files : List FileMeta) : List FileMeta :=
  files.foldl (fun level file => sortBySmallest (level ++ [file])) level

theorem replay_adds_level {vs : VersionSet} {pre post : List (List FileMeta)}
    {level : List FileMeta} (h : vs.current.levels = pre ++ level :: post) (hpre : pre ≠ [])
    (files : List FileMeta) :
    vs.replay (files.map (VersionEdit.addFile pre.length)) = .ok { vs with
      current := { vs.current with levels := pre ++ addedTo level files :: post }
      nextFileNumber := nextAfter vs.nextFileNumber files } := by
  induction files generalizing vs level with
  | nil => simp [VersionSet.replay, addedTo, nextAfter, ← h]
  | cons file files ih =>
    have hlen : pre.length ≠ 0 := fun he => hpre (List.length_eq_zero_iff.mp he)
    simp only [List.map_cons, VersionSet.replay, VersionSet.applyEdit, addFile, hlen, if_false,
      h, getElem?_append_length, set_append_length]
    rw [@ih { vs with
      nextFileNumber := max vs.nextFileNumber (file.number + 1)
      current := { vs.current with levels := pre ++ sortBySmallest (level ++ [file]) :: post } }
      (sortBySmallest (level ++ [file])) rfl]
    rfl

theorem addedTo_perm (level files : List FileMeta) : (addedTo level files).Perm (level ++ files) := by
  induction files generalizing level with
  | nil => simp [addedTo]
  | cons file files ih =>
    have hsort := (sortBySmallest_perm (level ++ [file])).append_right files
    simpa [addedTo] using (ih (sortBySmallest (level ++ [file]))).trans hsort

theorem addedTo_sorted {level : List FileMeta}
    (h : level.Pairwise (fun a b => a.smallest ≤ b.smallest)) (files : List FileMeta) :
    (addedTo level files).Pairwise (fun a b => a.smallest ≤ b.smallest) := by
  induction files generalizing level with
  | nil => exact h
  | cons file files ih => exact ih (sortBySmallest_sorted _)

end Version

end TyLsm
