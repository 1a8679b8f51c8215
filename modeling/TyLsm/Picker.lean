import TyLsm.Panics
import TyLsm.Task

/-! The compaction picker with the places where it can panic, and with any scoring of the
levels. Whatever it picks is closed at the output level: no other file reaches into the range
of the task. -/

namespace TyLsm

open Panicking

/-- The arithmetic of the scores, which the source does with floating-point numbers. -/
structure Scoring (S : Type) where
  score : Nat → Nat → S
  gt : S → S → Bool
  belowOne : S → Bool
  maxBytesForLevel : Nat → Nat

namespace Checked

def userKeyRange (files : List FileMeta) : Panicking Error (Bytes × Bytes) := do
  let smallest ← expect (files.map fun file => file.smallest.userKey).min?
  let largest ← expect (files.map fun file => file.largest.userKey).max?
  return (smallest, largest)

def taskForFiles (version : Version) (inputLevel : Nat) (inputFiles : List FileMeta)
    (isManual : Bool) : Panicking Error CompactionTask := do
  let outputLevel := min (inputLevel + 1) (version.levels.length - 1)
  let inputRange ← userKeyRange inputFiles
  let overlapFiles :=
    match version.levels[outputLevel]? with
    | some level =>
      if inputLevel = 0 then level
      else level.filter (fun file => file.userKeyOverlaps inputRange.1 inputRange.2)
    | none => []
  let range ←
    if overlapFiles.isEmpty then pure inputRange else userKeyRange (inputFiles ++ overlapFiles)
  return ⟨inputLevel, outputLevel, inputFiles, overlapFiles, range.1, range.2, isManual⟩

/-- The sum of the file sizes, which may not leave the `u64`. -/
def sumSizes : Nat → List FileMeta → Panicking Error Nat
  | bytes, [] => return bytes
  | bytes, file :: files =>
    if 2 ^ 64 ≤ bytes + file.fileSize then panics else sumSizes (bytes + file.fileSize) files

variable {S : Type} (scoring : Scoring S)

/-- The loop of `best_score` over the levels that have a level below them. -/
def bestScoreLoop (version : Version) : Nat × S → List Nat → Panicking Error (Nat × S)
  | best, [] => return best
  | best, level :: levels => do
    let files ← index version.levels level
    let bytes ← sumSizes 0 files
    let score := scoring.score bytes (max (scoring.maxBytesForLevel level) 1)
    bestScoreLoop version (if scoring.gt score best.2 then (level, score) else best) levels

def bestScore (level0FileNumCompactionTrigger : Nat) (version : Version) :
    Panicking Error (Nat × S) :=
  let l0Trigger := max level0FileNumCompactionTrigger 1
  bestScoreLoop scoring version (0, scoring.score version.l0Files.length l0Trigger)
    (List.range' 1 (version.levels.length - 1 - 1))

def pickLevel (version : Version) (level : Nat) (isManual : Bool) :
    Panicking Error (Option CompactionTask) :=
  if level = 0 then
    if version.l0Files.isEmpty then return none
    else return some (← taskForFiles version 0 version.l0Files isManual)
  else
    match version.levels[level]?.bind List.head? with
    | none => return none
    | some file => return some (← taskForFiles version level [file] isManual)

def pick (level0FileNumCompactionTrigger : Nat) (version : Version) :
    Panicking Error (Option CompactionTask) := do
  let (level, score) ← bestScore scoring level0FileNumCompactionTrigger version
  if scoring.belowOne score then return none else pickLevel version level false

def pickL0Manual (version : Version) (lower upper : Bound) :
    Panicking Error (Option CompactionTask) :=
  let files := version.l0Files.filter (fun file => fileOverlapsRange file lower upper)
  if files.isEmpty then return none else return some (← taskForFiles version 0 files true)

/-- The loop of `pick_manual` over the levels that have a level below them. -/
def pickManualLoop (version : Version) (lower upper : Bound) :
    List Nat → Panicking Error (Option CompactionTask)
  | [] => return none
  | level :: levels => do
    let files ← index version.levels level
    match files.find? (fun file => fileOverlapsRange file lower upper) with
    | none => pickManualLoop version lower upper levels
    | some file => return some (← taskForFiles version level [file] true)

def pickManual (version : Version) (lower upper : Bound) :
    Panicking Error (Option CompactionTask) := do
  match ← pickL0Manual version lower upper with
  | some task => return some task
  | none =>
    pickManualLoop version lower upper (List.range' 1 (version.levels.length - 1 - 1))

end Checked

/-! The ends of a range are ends of files. -/

theorem userKeyRange_attained {files : List FileMeta} (hne : files ≠ []) :
    (∃ f ∈ files, (userKeyRange files).1 = f.smallest.userKey) ∧
      ∃ f ∈ files, (userKeyRange files).2 = f.largest.userKey := by
  cases files with
  | nil => exact absurd rfl hne
  | cons file files =>
    have hmin : (((file :: files).map fun f => f.smallest.userKey).min?) =
        some (userKeyRange (file :: files)).1 := by
      simp only [List.map_cons, List.min?, userKeyRange, List.foldl_map]
    have hmax : (((file :: files).map fun f => f.largest.userKey).max?) =
        some (userKeyRange (file :: files)).2 := by
      simp only [List.map_cons, List.max?, userKeyRange, List.foldl_map]
    obtain ⟨f, hf, hsmallest⟩ := List.mem_map.mp (List.min?_mem hmin)
    obtain ⟨g, hg, hlargest⟩ := List.mem_map.mp (List.max?_mem hmax)
    exact ⟨⟨f, hf, hsmallest.symm⟩, g, hg, hlargest.symm⟩

theorem taskForFiles_attained (v : Version) (level : Nat) {files : List FileMeta} (hne : files ≠ [])
    (manual : Bool) :
    let task := CompactionPicker.taskForFiles v level files manual
    (∃ f ∈ task.allInputFiles, task.smallestUserKey = f.smallest.userKey) ∧
      ∃ f ∈ task.allInputFiles, task.largestUserKey = f.largest.userKey := by
  intro task
  have hrange : (task.smallestUserKey, task.largestUserKey) =
      if task.overlapFiles.isEmpty then userKeyRange files
      else userKeyRange (files ++ task.overlapFiles) := rfl
  have hall : task.allInputFiles = files ++ task.overlapFiles := rfl
  by_cases hempty : task.overlapFiles.isEmpty = true
  · rw [if_pos hempty] at hrange
    have h := userKeyRange_attained hne
    rw [← hrange] at h
    rw [hall, List.isEmpty_iff.mp hempty, List.append_nil]
    exact h
  · rw [if_neg hempty] at hrange
    have h := @userKeyRange_attained (files ++ task.overlapFiles) (by simp [hne])
    rw [← hrange] at h
    rw [hall]
    exact h

theorem Beside.apart {v : Version} {level : Nat} {files : List FileMeta} {manual : Bool}
    {g : FileMeta} (hne : files ≠ [])
    (h : Beside (CompactionPicker.taskForFiles v level files manual) g) :
    g.largest.userKey < (CompactionPicker.taskForFiles v level files manual).smallestUserKey ∨
      (CompactionPicker.taskForFiles v level files manual).largestUserKey < g.smallest.userKey := by
  obtain ⟨⟨f, hf, hsmallest⟩, ⟨f', hf', hlargest⟩⟩ := taskForFiles_attained v level hne manual
  rcases h with h | h
  · rw [hsmallest]
    exact .inl (h f hf)
  · rw [hlargest]
    exact .inr (h f' hf')

/-! Closed tasks. -/

/-- The files of a level, where level 0 is kept apart. -/
def Version.filesAt (v : Version) (level : Nat) : List FileMeta :=
  if level = 0 then v.l0Files else v.levels.getD level []

/-- A task that moves files one level down and takes everything there that its range meets. -/
structure CompactionTask.Closed (v : Version) (task : CompactionTask) : Prop where
  nonempty : task.inputFiles ≠ []
  taken : task.inputFiles.Sublist (v.filesAt task.inputLevel)
  down : task.outputLevel = task.inputLevel + 1
  there : task.outputLevel < v.levels.length
  overlaps : task.overlapFiles.Sublist (v.filesAt task.outputLevel)
  apart : ∀ g ∈ v.filesAt task.outputLevel, g ∉ task.overlapFiles →
    g.largest.userKey < task.smallestUserKey ∨ task.largestUserKey < g.smallest.userKey
  replaced : ∀ outs level, RangesDisjoint outs → (∀ f ∈ outs,
      task.smallestUserKey ≤ f.smallest.userKey ∧ f.largest.userKey ≤ task.largestUserKey) →
    level.Perm ((v.filesAt task.outputLevel).filter (fun g => g ∉ task.overlapFiles) ++ outs) →
    RangesDisjoint level

/-- What the claim about the picker assumes of a version. -/
structure Version.Ranged (v : Version) : Prop where
  two : 2 ≤ v.levels.length
  files : ∀ f ∈ v.files, f.smallest.userKey ≤ f.largest.userKey
  disjoint : ∀ level ∈ v.levels.tail, RangesDisjoint level

theorem RangesDisjoint.perm {l l' : List FileMeta} (h : RangesDisjoint l) (hp : l'.Perm l) :
    RangesDisjoint l' :=
  (hp.pairwise_iff fun hab => hab.symm).mpr h

theorem Version.Ranged.filesAt {v : Version} (h : v.Ranged) {level : Nat}
    (hlt : level + 1 < v.levels.length) : RangesDisjoint (v.filesAt (level + 1)) := by
  rw [Version.filesAt, if_neg (Nat.succ_ne_zero level), List.getD_eq_getElem _ _ hlt]
  apply h.disjoint
  rw [← List.getElem_tail (by rw [List.length_tail]; omega)]
  exact List.getElem_mem _

theorem replaced_of_apart {target overlaps outs level : List FileMeta} {smallest largest : Bytes}
    (hdis : RangesDisjoint target)
    (hapart : ∀ g ∈ target, g ∉ overlaps →
      g.largest.userKey < smallest ∨ largest < g.smallest.userKey)
    (houts : RangesDisjoint outs)
    (hin : ∀ f ∈ outs, smallest ≤ f.smallest.userKey ∧ f.largest.userKey ≤ largest)
    (hperm : level.Perm (target.filter (fun g => g ∉ overlaps) ++ outs)) : RangesDisjoint level := by
  refine RangesDisjoint.perm ?_ hperm
  refine List.pairwise_append.mpr ⟨hdis.sublist List.filter_sublist, houts, fun g hg f hf => ?_⟩
  obtain ⟨hg, hno⟩ := List.mem_filter.mp hg
  obtain ⟨hlow, hhigh⟩ := hin f hf
  rcases hapart g hg (of_decide_eq_true hno) with hlt | hlt
  · exact .inl (hlt.trans_le hlow)
  · exact .inr (hhigh.trans_lt hlt)

theorem taskForFiles_down {v : Version} {level : Nat} (hlt : level + 1 < v.levels.length)
    (files : List FileMeta) (manual : Bool) :
    (CompactionPicker.taskForFiles v level files manual).outputLevel = level + 1 ∧
      (CompactionPicker.taskForFiles v level files manual).overlapFiles =
        if level = 0 then v.filesAt (level + 1)
        else (v.filesAt (level + 1)).filter fun f =>
          f.userKeyOverlaps (userKeyRange files).1 (userKeyRange files).2 := by
  have hmin : min (level + 1) (v.levels.length - 1) = level + 1 := by omega
  have hfiles : v.filesAt (level + 1) = v.levels[level + 1] := by
    rw [Version.filesAt, if_neg (Nat.succ_ne_zero level), List.getD_eq_getElem _ _ hlt]
  refine ⟨hmin, ?_⟩
  simp only [CompactionPicker.taskForFiles, hmin, List.getElem?_eq_getElem hlt, hfiles]

theorem closed_of_beside {v : Version} (h : v.Ranged) {level : Nat}
    (hlt : level + 1 < v.levels.length) {files : List FileMeta} (hne : files ≠ [])
    (hfiles : files.Sublist (v.filesAt level)) {manual : Bool}
    (hbeside : ∀ g ∈ v.filesAt (level + 1),
      g ∉ (CompactionPicker.taskForFiles v level files manual).overlapFiles →
        Beside (CompactionPicker.taskForFiles v level files manual) g) :
    (CompactionPicker.taskForFiles v level files manual).Closed v := by
  obtain ⟨hdown, hover⟩ := taskForFiles_down hlt files manual
  have hapart : ∀ g ∈ v.filesAt (level + 1),
      g ∉ (CompactionPicker.taskForFiles v level files manual).overlapFiles →
        g.largest.userKey < (CompactionPicker.taskForFiles v level files manual).smallestUserKey ∨
          (CompactionPicker.taskForFiles v level files manual).largestUserKey <
            g.smallest.userKey :=
    fun g hg hno => (hbeside g hg hno).apart hne
  refine ⟨hne, hfiles, hdown, hdown ▸ hlt, ?_, hdown.symm ▸ hapart, ?_⟩
  · rw [hdown, hover]
    by_cases hzero : level = 0
    · rw [if_pos hzero]
    · rw [if_neg hzero]
      exact List.filter_sublist
  · rw [hdown]
    intro outs files' houts hin hperm
    exact replaced_of_apart (h.filesAt hlt) hapart houts hin hperm

theorem closed_l0 {v : Version} (h : v.Ranged) {files : List FileMeta} (hne : files ≠ [])
    (hfiles : files.Sublist v.l0Files) (manual : Bool) :
    (CompactionPicker.taskForFiles v 0 files manual).Closed v := by
  have hlt : 0 + 1 < v.levels.length := h.two
  have hover := (taskForFiles_down hlt files manual).2
  rw [if_pos rfl] at hover
  refine closed_of_beside h hlt hne hfiles fun g hg hno => ?_
  rw [hover] at hno
  exact absurd hg hno

theorem closed_level {v : Version} (h : v.Ranged) {level : Nat} (hpos : 0 < level)
    (hlt : level + 1 < v.levels.length) {file : FileMeta} (hfile : file ∈ v.filesAt level)
    (manual : Bool) : (CompactionPicker.taskForFiles v level [file] manual).Closed v := by
  have hover := (taskForFiles_down hlt [file] manual).2
  rw [if_neg hpos.ne'] at hover
  refine closed_of_beside h hlt (List.cons_ne_nil _ _) (by simpa using hfile) fun g hg hno => ?_
  have hall : (CompactionPicker.taskForFiles v level [file] manual).allInputFiles =
      file :: (CompactionPicker.taskForFiles v level [file] manual).overlapFiles := rfl
  have hdesc : ∀ f ∈ v.filesAt (level + 1), f.smallest.userKey ≤ f.largest.userKey := by
    intro f hf
    rw [Version.filesAt, if_neg (Nat.succ_ne_zero level), List.getD_eq_getElem _ _ hlt] at hf
    apply h.files
    rw [Version.files, List.mem_append, List.mem_flatten]
    exact .inr ⟨_, List.getElem_mem _, hf⟩
  rw [hover] at hno
  rw [Beside, hall, hover]
  exact beside_overlaps (h.filesAt hlt) hdesc hg fun hyes => hno (List.mem_filter.mpr ⟨hg, hyes⟩)

/-! The picker does not panic. -/

theorem Checked.userKeyRange_eq {files : List FileMeta} (hne : files ≠ []) :
    Checked.userKeyRange files = pure (TyLsm.userKeyRange files) := by
  cases files with
  | nil => exact absurd rfl hne
  | cons file files =>
    simp only [Checked.userKeyRange, List.map_cons, List.min?, List.max?, List.foldl_map,
      TyLsm.userKeyRange]
    rfl

theorem Checked.taskForFiles_eq (v : Version) (level : Nat) {files : List FileMeta}
    (hne : files ≠ []) (manual : Bool) :
    Checked.taskForFiles v level files manual =
      pure (CompactionPicker.taskForFiles v level files manual) := by
  have hrange : ∀ (output : Nat) (overlaps : List FileMeta), (do
      let range ← if overlaps.isEmpty then pure (TyLsm.userKeyRange files)
        else Checked.userKeyRange (files ++ overlaps)
      return ⟨level, output, files, overlaps, range.1, range.2, manual⟩ :
        Panicking Error CompactionTask) =
      let range := if overlaps.isEmpty then TyLsm.userKeyRange files
        else TyLsm.userKeyRange (files ++ overlaps)
      pure ⟨level, output, files, overlaps, range.1, range.2, manual⟩ := by
    intro output overlaps
    by_cases hempty : overlaps.isEmpty = true
    · rw [if_pos hempty, if_pos hempty, pure_bind]
    · rw [if_neg hempty, if_neg hempty, Checked.userKeyRange_eq (by simp [hne]), pure_bind]
  rw [Checked.taskForFiles, Checked.userKeyRange_eq hne, pure_bind]
  exact hrange _ _

theorem Checked.sumSizes_eq {files : List FileMeta} {bytes : Nat}
    (h : bytes + (files.map FileMeta.fileSize).sum < 2 ^ 64) :
    Checked.sumSizes bytes files = pure (bytes + (files.map FileMeta.fileSize).sum) := by
  induction files generalizing bytes with
  | nil => rfl
  | cons file files ih =>
    rw [List.map_cons, List.sum_cons] at h ⊢
    rw [Checked.sumSizes, if_neg (by omega), ih (by omega), Nat.add_assoc]

theorem Checked.index_level {v : Version} {level : Nat} (h : level < v.levels.length) :
    (index v.levels level : Panicking Error (List FileMeta)) = pure v.levels[level] := by
  rw [index, List.getElem?_eq_getElem h]
  rfl

theorem Checked.bestScoreLoop_spec {S : Type} (scoring : Scoring S) {v : Version}
    (hsize : (v.files.map FileMeta.fileSize).sum < 2 ^ 64) {levels : List Nat}
    (hlevels : ∀ level ∈ levels, level < v.levels.length) (best : Nat × S) :
    ∃ best', Checked.bestScoreLoop scoring v best levels = pure best' ∧
      (best'.1 = best.1 ∨ best'.1 ∈ levels) := by
  induction levels generalizing best with
  | nil => exact ⟨best, rfl, .inl rfl⟩
  | cons level levels ih =>
    have hlt := hlevels level (by simp)
    have hpart : v.levels[level].Sublist v.files :=
      (List.sublist_flatten_of_mem (List.getElem_mem hlt)).trans (List.sublist_append_right _ _)
    have hsum : 0 + (v.levels[level].map FileMeta.fileSize).sum < 2 ^ 64 := by
      have hle := (hpart.map FileMeta.fileSize).sum_le_sum fun _ _ => Nat.zero_le _
      omega
    rw [Checked.bestScoreLoop, Checked.index_level hlt, pure_bind, Checked.sumSizes_eq hsum,
      pure_bind]
    obtain ⟨best', hloop, hmem⟩ := ih (fun l hl => hlevels l (by simp [hl])) _
    refine ⟨best', hloop, ?_⟩
    rcases hmem with hmem | hmem
    · split at hmem
      · exact .inr (by simp [hmem])
      · exact .inl hmem
    · exact .inr (by simp [hmem])

theorem Checked.pickLevel_spec {v : Version} (h : v.Ranged) {level : Nat}
    (hlt : level + 1 < v.levels.length) (manual : Bool) :
    ∃ result, Checked.pickLevel v level manual = pure result ∧ ∀ task ∈ result, task.Closed v := by
  rw [Checked.pickLevel]
  by_cases hzero : level = 0
  · rw [if_pos hzero]
    by_cases hempty : v.l0Files.isEmpty = true
    · rw [if_pos hempty]
      exact ⟨none, rfl, by simp⟩
    · have hne : v.l0Files ≠ [] := by simpa using hempty
      rw [if_neg hempty, Checked.taskForFiles_eq v 0 hne, pure_bind]
      refine ⟨_, rfl, fun task htask => ?_⟩
      rw [← Option.some.inj htask]
      exact closed_l0 h hne (List.Sublist.refl _) manual
  · rw [if_neg hzero]
    cases hhead : v.levels[level]?.bind List.head? with
    | none => exact ⟨none, rfl, by simp⟩
    | some file =>
      dsimp only
      rw [Checked.taskForFiles_eq v level (List.cons_ne_nil _ _), pure_bind]
      refine ⟨_, rfl, fun task htask => ?_⟩
      rw [← Option.some.inj htask]
      refine closed_level h (Nat.pos_of_ne_zero hzero) hlt ?_ manual
      rw [List.getElem?_eq_getElem (by omega), Option.bind_some] at hhead
      rw [Version.filesAt, if_neg hzero, List.getD_eq_getElem _ _ (by omega)]
      exact List.mem_of_head? hhead

theorem Checked.pickManualLoop_eq (v : Version) (lower upper : Bound) {levels : List Nat}
    (hlevels : ∀ level ∈ levels, level < v.levels.length) :
    Checked.pickManualLoop v lower upper levels = pure (levels.findSome? fun level =>
      ((v.levels.getD level []).find? (fun file => fileOverlapsRange file lower upper)).map
        (fun file => CompactionPicker.taskForFiles v level [file] true)) := by
  induction levels with
  | nil => rfl
  | cons level levels ih =>
    have hlt := hlevels level (by simp)
    rw [Checked.pickManualLoop, Checked.index_level hlt, pure_bind, List.findSome?_cons,
      List.getD_eq_getElem _ _ hlt]
    cases v.levels[level].find? fun file => fileOverlapsRange file lower upper with
    | none => exact ih fun l hl => hlevels l (by simp [hl])
    | some file =>
      dsimp only
      rw [Checked.taskForFiles_eq v level (List.cons_ne_nil _ _), pure_bind]
      rfl

theorem range_lt_length (v : Version) :
    ∀ level ∈ List.range' 1 (v.levels.length - 1 - 1), level < v.levels.length := by
  intro level hlevel
  rw [List.mem_range'_1] at hlevel
  omega

theorem Checked.pickManual_eq (v : Version) (lower upper : Bound) :
    Checked.pickManual v lower upper = pure (CompactionPicker.pickManual v lower upper) := by
  have hloop := Checked.pickManualLoop_eq v lower upper (range_lt_length v)
  rw [Checked.pickManual, Checked.pickL0Manual, CompactionPicker.pickManual,
    CompactionPicker.pickL0Manual]
  by_cases hempty : (v.l0Files.filter fun file => fileOverlapsRange file lower upper).isEmpty = true
  · simp only [if_pos hempty, pure_bind]
    exact hloop
  · have hne : v.l0Files.filter (fun file => fileOverlapsRange file lower upper) ≠ [] := by
      simpa using hempty
    simp only [if_neg hempty, Checked.taskForFiles_eq v 0 hne, pure_bind]

theorem closed_of_pickManual {v : Version} (h : v.Ranged) {lower upper : Bound}
    {task : CompactionTask} (hpick : CompactionPicker.pickManual v lower upper = some task) :
    task.Closed v := by
  rcases pickManual_some hpick with ⟨rfl, hne⟩ | ⟨pre, source, target, post, file, hl, hpre, hfile, rfl⟩
  · exact closed_l0 h hne List.filter_sublist true
  · have hpos : 0 < pre.length := List.length_pos_iff.mpr hpre
    refine closed_level h hpos (by simp [hl]) ?_ true
    rw [Version.filesAt, if_neg hpos.ne', hl]
    simpa using hfile

/-- With whatever scores and options, the picker does not panic, and its tasks are closed at
their output level. -/
theorem picker_task_closed {v : Version} (h : v.Ranged)
    (hsize : (v.files.map FileMeta.fileSize).sum < 2 ^ 64) :
    (∀ {S : Type} (scoring : Scoring S) (level0FileNumCompactionTrigger : Nat),
      ∃ result, Checked.pick scoring level0FileNumCompactionTrigger v = pure result ∧
        ∀ task ∈ result, task.Closed v) ∧
    ∀ lower upper, ∃ result, Checked.pickManual v lower upper = pure result ∧
      ∀ task ∈ result, task.Closed v := by
  refine ⟨fun scoring trigger => ?_, fun lower upper =>
    ⟨_, Checked.pickManual_eq v lower upper, fun task htask => closed_of_pickManual h htask⟩⟩
  have htwo := h.two
  obtain ⟨⟨level, score⟩, hbest, hmem⟩ := Checked.bestScoreLoop_spec scoring hsize
    (range_lt_length v) (0, scoring.score v.l0Files.length (max trigger 1))
  have hlt : level + 1 < v.levels.length := by
    rcases hmem with hzero | hmem
    · dsimp only at hzero
      omega
    · rw [List.mem_range'_1] at hmem
      omega
  rw [Checked.pick, Checked.bestScore, hbest, pure_bind]
  by_cases hbelow : scoring.belowOne score = true
  · refine ⟨none, ?_, by simp⟩
    exact if_pos hbelow
  · obtain ⟨result, hpick, hclosed⟩ := Checked.pickLevel_spec h hlt false
    refine ⟨result, ?_, hclosed⟩
    rw [← hpick]
    exact if_neg hbelow

theorem picker_task_closed_small :
    let file := fun (number : Nat) (smallest largest : Bytes) =>
      (⟨number, 10, ⟨smallest, 2, .put⟩, ⟨largest, 1, .put⟩, 1, 2⟩ : FileMeta)
    let v : Version := ⟨[], [[], [file 3 [2] [5]], [file 1 [1] [3], file 2 [7] [9]]]⟩
    ∃ task, CompactionPicker.pickManual v .unbounded .unbounded = some task ∧
      task.overlapFiles = [file 1 [1] [3]] ∧ task.Closed v := by
  intro file v
  have hv : v.Ranged := by
    constructor
    · decide
    · decide
    · simp only [v, List.tail_cons, List.forall_mem_cons, List.not_mem_nil, false_implies,
        implies_true, and_true]
      exact ⟨List.pairwise_singleton _ _, List.pairwise_pair.mpr (by decide)⟩
  obtain ⟨result, hpick, hclosed⟩ := (picker_task_closed hv (by decide)).2 .unbounded .unbounded
  have hresult : Checked.pickManual v .unbounded .unbounded =
      pure (some (CompactionPicker.taskForFiles v 1 [file 3 [2] [5]] true)) := rfl
  rw [hresult] at hpick
  cases hpick
  exact ⟨_, rfl, rfl, hclosed _ rfl⟩

end TyLsm
