import TyLsm.Flush

/-! What the picker hands to a compaction, and the version that publishing the
compaction's edits leads to. -/

namespace TyLsm

theorem foldl_min_userKey_le (files : List FileMeta) (key : Bytes) :
    files.foldl (fun key f => min key f.smallest.userKey) key ≤ key ∧
      ∀ f ∈ files, files.foldl (fun key f => min key f.smallest.userKey) key ≤
        f.smallest.userKey := by
  induction files generalizing key with
  | nil => simp
  | cons file files ih =>
    obtain ⟨h1, h2⟩ := ih (min key file.smallest.userKey)
    refine ⟨h1.trans (min_le_left _ _), fun f hf => ?_⟩
    rcases List.mem_cons.mp hf with rfl | hf
    · exact h1.trans (min_le_right _ _)
    · exact h2 f hf

theorem le_foldl_max_userKey (files : List FileMeta) (key : Bytes) :
    key ≤ files.foldl (fun key f => max key f.largest.userKey) key ∧
      ∀ f ∈ files, f.largest.userKey ≤
        files.foldl (fun key f => max key f.largest.userKey) key := by
  induction files generalizing key with
  | nil => simp
  | cons file files ih =>
    obtain ⟨h1, h2⟩ := ih (max key file.largest.userKey)
    refine ⟨(le_max_left _ _).trans h1, fun f hf => ?_⟩
    rcases List.mem_cons.mp hf with rfl | hf
    · exact (le_max_right _ _).trans h1
    · exact h2 f hf

theorem userKeyRange_spec {files : List FileMeta} {f : FileMeta} (hf : f ∈ files) :
    (userKeyRange files).1 ≤ f.smallest.userKey ∧ f.largest.userKey ≤ (userKeyRange files).2 := by
  cases files with
  | nil => cases hf
  | cons file files =>
    obtain ⟨hmin, hmins⟩ := foldl_min_userKey_le files file.smallest.userKey
    obtain ⟨hmax, hmaxs⟩ := le_foldl_max_userKey files file.largest.userKey
    rcases List.mem_cons.mp hf with rfl | hf
    · exact ⟨hmin, hmax⟩
    · exact ⟨hmins f hf, hmaxs f hf⟩

/-- The task's key range covers all its files. -/
def CompactionTask.Covers (task : CompactionTask) : Prop :=
  ∀ f ∈ task.allInputFiles,
    task.smallestUserKey ≤ f.smallest.userKey ∧ f.largest.userKey ≤ task.largestUserKey

theorem taskForFiles_covers (v : Version) (level : Nat) (files : List FileMeta) (manual : Bool) :
    (CompactionPicker.taskForFiles v level files manual).Covers := by
  intro f hf
  set task := CompactionPicker.taskForFiles v level files manual
  have hrange : (task.smallestUserKey, task.largestUserKey) =
      if task.overlapFiles.isEmpty then userKeyRange files
      else userKeyRange (files ++ task.overlapFiles) := rfl
  have hf' : f ∈ files ++ task.overlapFiles := hf
  cases hempty : task.overlapFiles.isEmpty with
  | true =>
    rw [List.isEmpty_iff.mp hempty, List.append_nil] at hf'
    rw [hempty, if_pos rfl] at hrange
    have := userKeyRange_spec hf'
    rwa [← hrange] at this
  | false =>
    rw [hempty, if_neg Bool.false_ne_true] at hrange
    have := userKeyRange_spec hf'
    rwa [← hrange] at this

theorem pickL0Manual_some {v : Version} {lower upper : Bound} {task : CompactionTask}
    (h : CompactionPicker.pickL0Manual v lower upper = some task) :
    task = CompactionPicker.taskForFiles v 0
        (v.l0Files.filter (fun file => fileOverlapsRange file lower upper)) true ∧
      v.l0Files.filter (fun file => fileOverlapsRange file lower upper) ≠ [] := by
  unfold CompactionPicker.pickL0Manual at h
  simp only at h
  split at h
  · cases h
  · rename_i hne
    exact ⟨(Option.some.inj h).symm, fun he => hne (by rw [he]; rfl)⟩

/-- Either the task takes files of L0, or one file of a level that has a level below it. -/
theorem pickManual_some {v : Version} {lower upper : Bound} {task : CompactionTask}
    (h : CompactionPicker.pickManual v lower upper = some task) :
    (task = CompactionPicker.taskForFiles v 0
        (v.l0Files.filter (fun file => fileOverlapsRange file lower upper)) true ∧
      v.l0Files.filter (fun file => fileOverlapsRange file lower upper) ≠ []) ∨
    ∃ pre source target post file, v.levels = pre ++ source :: target :: post ∧ pre ≠ [] ∧
      file ∈ source ∧ task = CompactionPicker.taskForFiles v pre.length [file] true := by
  unfold CompactionPicker.pickManual at h
  split at h
  · rename_i t ht
    rw [← Option.some.inj h]
    exact .inl (pickL0Manual_some ht)
  · right
    obtain ⟨level, hlevel, hpick⟩ := List.exists_of_findSome?_eq_some h
    obtain ⟨file, hfile, rfl⟩ := Option.map_eq_some_iff.mp hpick
    rw [List.mem_range'_1] at hlevel
    have hlt : level + 1 < v.levels.length := by omega
    refine ⟨v.levels.take level, v.levels[level], v.levels[level + 1], v.levels.drop (level + 2),
      file, ?_, ?_, ?_, ?_⟩
    · rw [List.cons_getElem_drop_succ, List.cons_getElem_drop_succ, List.take_append_drop]
    · rw [ne_eq, List.take_eq_nil_iff]
      rintro (h0 | hnil)
      · omega
      · simp [hnil] at hlt
    · have := List.mem_of_find?_eq_some hfile
      rwa [List.getD_eq_getElem _ _ (by omega)] at this
    · rw [List.length_take_of_le (by omega)]

/-- The entire line of keys of a file lies on one side of all the task's files. -/
def Beside (task : CompactionTask) (g : FileMeta) : Prop :=
  (∀ f ∈ task.allInputFiles, g.largest.userKey < f.smallest.userKey) ∨
  (∀ f ∈ task.allInputFiles, f.largest.userKey < g.smallest.userKey)

/-- A task that moves files one level down. The files of the version are cut into
those searched before, the level it takes files from, the level it writes to,
and those searched after; publishing its edits changes the two in the middle. -/
structure Shift (v : Version) (task : CompactionTask)
    (above source target below : List FileMeta) : Prop where
  files : v.files = above ++ source ++ target ++ below
  inputs : task.inputFiles.Sublist source
  overlaps : task.overlapFiles.Sublist target
  level : target ∈ v.levels
  below_eq : below = (v.levels.drop (task.outputLevel + 1)).flatten
  covers : task.Covers
  publish : ∀ outs : List FileMeta, ∃ v' : Version,
      v'.files = above ++ source.filter (fun f => f.number ∉ task.inputFiles.map FileMeta.number) ++
        Version.addedTo (target.filter
          (fun f => f.number ∉ task.overlapFiles.map FileMeta.number)) outs ++ below ∧
      (∀ level, v'.levels.head? = some level → level = []) ∧
      (∀ level ∈ v'.levels, (∃ l ∈ v.levels, level.Sublist l) ∨
        level = Version.addedTo (target.filter
          (fun f => f.number ∉ task.overlapFiles.map FileMeta.number)) outs) ∧
      ∀ vs : VersionSet, vs.current = v →
        vs.replay (DB.deleteEdits task ++ outs.map (VersionEdit.addFile task.outputLevel)) =
          .ok { vs with
            current := v'
            nextFileNumber := Version.nextAfter vs.nextFileNumber outs }

/-- Moreover the files that stay in the output level are out of the task's way. -/
structure Stage (v : Version) (task : CompactionTask)
    (above source target below : List FileMeta) : Prop
    extends Shift v task above source target below where
  beside : ∀ g ∈ target, g ∉ task.overlapFiles → Beside task g

theorem deleteEdits_eq {task : CompactionTask}
    (h : ∀ f ∈ task.overlapFiles, ∀ g ∈ task.inputFiles, g.number ≠ f.number) :
    DB.deleteEdits task =
      (task.inputFiles.map FileMeta.number).map (VersionEdit.deleteFile task.inputLevel) ++
        (task.overlapFiles.map FileMeta.number).map
          (VersionEdit.deleteFile task.outputLevel) := by
  simp only [DB.deleteEdits, CompactionTask.allInputFiles, List.map_append, List.map_map]
  congr 1
  · refine List.map_congr_left fun f hf => ?_
    have hany : task.inputFiles.any (fun input => input.number == f.number) = true :=
      List.any_eq_true.mpr ⟨f, hf, by simp⟩
    simp [hany]
  · refine List.map_congr_left fun f hf => ?_
    have hany : task.inputFiles.any (fun input => input.number == f.number) = false := by
      refine List.any_eq_false.mpr fun g hg => ?_
      simpa using h f hf g hg
    simp [hany]

theorem Version.Listed.number_ne {v : Version} {tables : Nat → Option Table}
    (h : v.Listed tables) {pre mid post : List FileMeta} (hf : v.files = pre ++ mid ++ post)
    {f g : FileMeta} (hfm : f ∈ pre) (hgm : g ∈ mid) : f.number ≠ g.number := by
  have hnd := h.nodup
  rw [hf, List.map_append, List.map_append] at hnd
  have hdis := (List.nodup_append.mp (List.nodup_append.mp hnd).1).2.2
  exact hdis _ (List.mem_map.mpr ⟨f, hfm, rfl⟩) _ (List.mem_map.mpr ⟨g, hgm, rfl⟩)

theorem Version.Listed.eq_of_number {v : Version} {tables : Nat → Option Table}
    (h : v.Listed tables) {f g : FileMeta} (hf : f ∈ v.files) (hg : g ∈ v.files)
    (hn : f.number = g.number) : f = g :=
  List.inj_on_of_nodup_map h.nodup hf hg hn

theorem Ranges.sublist {l l' : List FileMeta} (h : Ranges l) (hs : l'.Sublist l) : Ranges l' :=
  List.Pairwise.sublist hs h

theorem shift_zero {v : Version} {tables : Nat → Option Table} (hst : v.Listed tables)
    {zero one : List FileMeta} {post : List (List FileMeta)} (hl : v.levels = zero :: one :: post)
    {task : CompactionTask} (hlev : task.inputLevel = 0) (hout : task.outputLevel = 1)
    (hinputs : task.inputFiles.Sublist v.l0Files) (hoverlaps : task.overlapFiles.Sublist one)
    (hcovers : task.Covers) : Shift v task [] v.l0Files one post.flatten := by
  have hzero : zero = [] := hst.levelZero zero (by rw [hl]; rfl)
  subst hzero
  have hvf : v.files = [] ++ v.l0Files ++ one ++ post.flatten := by simp [Version.files, hl]
  refine ⟨hvf, hinputs, hoverlaps, by simp [hl], by rw [hout, hl]; rfl, hcovers, ?_⟩
  intro outs
  have hne : ∀ f ∈ task.overlapFiles, ∀ g ∈ task.inputFiles, g.number ≠ f.number := by
    intro f hf g hg
    exact hst.number_ne (show v.files = v.l0Files ++ one ++ post.flatten by
      rw [hvf, List.nil_append]) (hinputs.subset hg) (hoverlaps.subset hf)
  refine ⟨{
    l0Files := v.l0Files.filter (fun f => f.number ∉ task.inputFiles.map FileMeta.number)
    levels := [] :: Version.addedTo (one.filter
      (fun f => f.number ∉ task.overlapFiles.map FileMeta.number)) outs :: post }, ?_, ?_, ?_, ?_⟩
  · simp [Version.files]
  · rintro level hlevel
    simpa using hlevel.symm
  · intro level hlevel
    rcases List.mem_cons.mp hlevel with rfl | hlevel
    · exact .inl ⟨[], by simp [hl], List.Sublist.refl _⟩
    · rcases List.mem_cons.mp hlevel with rfl | hlevel
      · exact .inr rfl
      · exact .inl ⟨level, by simp [hl, hlevel], List.Sublist.refl _⟩
  · rintro vs rfl
    have hl' : vs.current.levels = [[]] ++ one :: post := hl
    rw [deleteEdits_eq hne, hout, hlev, List.append_assoc, VersionSet.replay_append,
      Version.replay_deletes_zero]
    simp only [Except.bind]
    have hdel := @Version.replay_deletes_level { vs with current := { vs.current with
      l0Files := vs.current.l0Files.filter
        (fun f => f.number ∉ task.inputFiles.map FileMeta.number) } }
      [[]] _ _ hl' (by simp) (task.overlapFiles.map FileMeta.number)
    rw [List.length_singleton] at hdel
    rw [VersionSet.replay_append, hdel]
    simp only [Except.bind]
    exact @Version.replay_adds_level _ [[]] post (one.filter
      (fun f => f.number ∉ task.overlapFiles.map FileMeta.number)) rfl (by simp) outs

theorem shift_l0 {v : Version} {tables : Nat → Option Table} (hst : v.Listed tables)
    {zero one : List FileMeta} {post : List (List FileMeta)} (hl : v.levels = zero :: one :: post)
    (files : List FileMeta) (hfiles : files.Sublist v.l0Files) :
    Shift v (CompactionPicker.taskForFiles v 0 files true) [] v.l0Files one post.flatten := by
  have hout : (CompactionPicker.taskForFiles v 0 files true).outputLevel = 1 := by
    simp [CompactionPicker.taskForFiles, hl]
  have hover : (CompactionPicker.taskForFiles v 0 files true).overlapFiles = one := by
    simp [CompactionPicker.taskForFiles, hl]
  apply shift_zero hst hl rfl hout hfiles _ (taskForFiles_covers v 0 files true)
  rw [hover]

theorem stage_l0 {v : Version} {tables : Nat → Option Table} (hst : v.Stored tables)
    {zero one : List FileMeta} {post : List (List FileMeta)} (hl : v.levels = zero :: one :: post)
    (files : List FileMeta) (hfiles : files.Sublist v.l0Files) :
    Stage v (CompactionPicker.taskForFiles v 0 files true) [] v.l0Files one post.flatten := by
  refine ⟨shift_l0 hst.toListed hl files hfiles, fun g hg hno => ?_⟩
  have hover : (CompactionPicker.taskForFiles v 0 files true).overlapFiles = one := by
    simp [CompactionPicker.taskForFiles, hl]
  rw [hover] at hno
  exact absurd hg hno

theorem taskForFiles_level {v : Version} {pre post : List (List FileMeta)}
    {source target : List FileMeta} (hl : v.levels = pre ++ source :: target :: post)
    (hpre : pre ≠ []) (file : FileMeta) :
    (CompactionPicker.taskForFiles v pre.length [file] true).outputLevel = pre.length + 1 ∧
      (CompactionPicker.taskForFiles v pre.length [file] true).overlapFiles = target.filter
        (fun f => f.userKeyOverlaps file.smallest.userKey file.largest.userKey) := by
  have hlen : pre.length ≠ 0 := fun he => hpre (List.length_eq_zero_iff.mp he)
  have hmin : min (pre.length + 1) (v.levels.length - 1) = pre.length + 1 := by
    rw [hl, List.length_append, List.length_cons, List.length_cons]
    omega
  have hget : v.levels[pre.length + 1]? = some target := by
    rw [hl, List.getElem?_append_right (by omega)]
    simp
  exact ⟨hmin, by simp [CompactionPicker.taskForFiles, hmin, hget, hlen, userKeyRange]⟩

theorem shift_down {v : Version} {tables : Nat → Option Table} (hst : v.Listed tables)
    {pre post : List (List FileMeta)} {source target : List FileMeta}
    (hl : v.levels = pre ++ source :: target :: post) (hpre : pre ≠ []) {task : CompactionTask}
    (hlev : task.inputLevel = pre.length) (hout : task.outputLevel = pre.length + 1)
    (hinputs : task.inputFiles.Sublist source) (hoverlaps : task.overlapFiles.Sublist target)
    (hcovers : task.Covers) :
    Shift v task (v.l0Files ++ pre.flatten) source target post.flatten := by
  have hvf : v.files = v.l0Files ++ pre.flatten ++ source ++ target ++ post.flatten := by
    simp [Version.files, hl]
  refine ⟨hvf, hinputs, hoverlaps, by simp [hl], ?_, hcovers, ?_⟩
  · rw [hout, hl, show pre.length + 1 + 1 = (pre ++ [source, target]).length by simp,
      show pre ++ source :: target :: post = (pre ++ [source, target]) ++ post by simp,
      List.drop_left]
  · intro outs
    have hne : ∀ f ∈ task.overlapFiles, ∀ g ∈ task.inputFiles, g.number ≠ f.number := by
      intro f hf g hg
      exact hst.number_ne hvf (List.mem_append.mpr (.inr (hinputs.subset hg))) (hoverlaps.subset hf)
    refine ⟨{
      l0Files := v.l0Files
      levels := pre ++ source.filter (fun f => f.number ∉ task.inputFiles.map FileMeta.number) ::
        Version.addedTo (target.filter
          (fun f => f.number ∉ task.overlapFiles.map FileMeta.number)) outs :: post }, ?_, ?_, ?_, ?_⟩
    · simp [Version.files]
    · intro level hlevel
      obtain ⟨a, rest, hcons⟩ := List.exists_cons_of_ne_nil hpre
      refine hst.levelZero level ?_
      rw [hl]
      simpa [hcons] using hlevel
    · intro level hlevel
      rcases List.mem_append.mp hlevel with hlevel | hlevel
      · exact .inl ⟨level, by simp [hl, hlevel], List.Sublist.refl _⟩
      · rcases List.mem_cons.mp hlevel with rfl | hlevel
        · exact .inl ⟨source, by simp [hl], List.filter_sublist⟩
        · rcases List.mem_cons.mp hlevel with rfl | hlevel
          · exact .inr rfl
          · exact .inl ⟨level, by simp [hl, hlevel], List.Sublist.refl _⟩
    · rintro vs rfl
      rw [deleteEdits_eq hne, hout, hlev, List.append_assoc, VersionSet.replay_append,
        Version.replay_deletes_level hl hpre]
      simp only [Except.bind]
      have hmid : ∀ s : List FileMeta, pre ++ s :: target :: post = (pre ++ [s]) ++ target :: post :=
        fun s => by simp
      have hlen' : ∀ s : List FileMeta, pre.length + 1 = (pre ++ [s]).length := fun s => by simp
      rw [VersionSet.replay_append,
        hlen' (source.filter (fun f => f.number ∉ task.inputFiles.map FileMeta.number)),
        Version.replay_deletes_level (hmid _) (by simp)]
      simp only [Except.bind]
      rw [@Version.replay_adds_level _ (pre ++ [source.filter
        (fun f => f.number ∉ task.inputFiles.map FileMeta.number)]) post (target.filter
        (fun f => f.number ∉ task.overlapFiles.map FileMeta.number)) rfl (by simp)]
      simp

theorem shift_level {v : Version} {tables : Nat → Option Table} (hst : v.Listed tables)
    {pre post : List (List FileMeta)} {source target : List FileMeta}
    (hl : v.levels = pre ++ source :: target :: post) (hpre : pre ≠ []) {file : FileMeta}
    (hfile : file ∈ source) :
    Shift v (CompactionPicker.taskForFiles v pre.length [file] true) (v.l0Files ++ pre.flatten)
      source target post.flatten := by
  obtain ⟨hout, hover⟩ := taskForFiles_level hl hpre file
  apply shift_down hst hl hpre rfl hout (List.singleton_sublist.mpr hfile) _
    (taskForFiles_covers v _ _ true)
  rw [hover]
  exact List.filter_sublist

theorem beside_overlaps {target : List FileMeta} (hdis : RangesDisjoint target)
    (hdesc : ∀ f ∈ target, f.smallest.userKey ≤ f.largest.userKey) {file g : FileMeta}
    (hg : g ∈ target)
    (hno : ¬ g.userKeyOverlaps file.smallest.userKey file.largest.userKey = true) :
    (∀ f ∈ file :: target.filter
      (fun f => f.userKeyOverlaps file.smallest.userKey file.largest.userKey),
        g.largest.userKey < f.smallest.userKey) ∨
    ∀ f ∈ file :: target.filter
      (fun f => f.userKeyOverlaps file.smallest.userKey file.largest.userKey),
        f.largest.userKey < g.smallest.userKey := by
  have hnot : ¬ (g.smallest.userKey ≤ file.largest.userKey ∧
      file.smallest.userKey ≤ g.largest.userKey) := by
    simpa [FileMeta.userKeyOverlaps] using hno
  have hapart : ∀ h ∈ target,
      h.userKeyOverlaps file.smallest.userKey file.largest.userKey = true →
        g.largest.userKey < h.smallest.userKey ∨ h.largest.userKey < g.smallest.userKey := by
    intro h hh hov
    have hne : g ≠ h := fun he => hno (he ▸ hov)
    have hs : Std.Symm (fun a b : FileMeta => a.largest.userKey < b.smallest.userKey ∨
        b.largest.userKey < a.smallest.userKey) := ⟨fun _ _ hab => hab.symm⟩
    exact List.Pairwise.forall hdis hg hh hne
  by_cases hside : g.smallest.userKey ≤ file.largest.userKey
  · have hlow : g.largest.userKey < file.smallest.userKey :=
      not_le.mp fun hle => hnot ⟨hside, hle⟩
    refine .inl (List.forall_mem_cons.mpr ⟨hlow, fun h hh => ?_⟩)
    obtain ⟨hmem, hov⟩ := List.mem_filter.mp hh
    rcases hapart h hmem hov with hlt | hlt
    · exact hlt
    · have hreach : file.smallest.userKey ≤ h.largest.userKey := by
        simp only [FileMeta.userKeyOverlaps, Bool.and_eq_true, decide_eq_true_eq] at hov
        exact hov.2
      exact absurd (hlt.trans_le (hdesc g hg)) (not_lt.mpr (hlow.le.trans hreach))
  · have hhigh : file.largest.userKey < g.smallest.userKey := not_le.mp hside
    refine .inr (List.forall_mem_cons.mpr ⟨hhigh, fun h hh => ?_⟩)
    obtain ⟨hmem, hov⟩ := List.mem_filter.mp hh
    rcases hapart h hmem hov with hlt | hlt
    · have hreach : h.smallest.userKey ≤ file.largest.userKey := by
        simp only [FileMeta.userKeyOverlaps, Bool.and_eq_true, decide_eq_true_eq] at hov
        exact hov.1
      exact absurd ((hdesc g hg).trans_lt hlt) (not_lt.mpr (hreach.trans hhigh.le))
    · exact hlt

theorem stage_level {v : Version} {tables : Nat → Option Table} (hst : v.Stored tables)
    {pre post : List (List FileMeta)} {source target : List FileMeta}
    (hl : v.levels = pre ++ source :: target :: post) (hpre : pre ≠ []) {file : FileMeta}
    (hfile : file ∈ source) :
    Stage v (CompactionPicker.taskForFiles v pre.length [file] true) (v.l0Files ++ pre.flatten)
      source target post.flatten := by
  have hvf : v.files = v.l0Files ++ pre.flatten ++ source ++ target ++ post.flatten := by
    simp [Version.files, hl]
  refine ⟨shift_level hst.toListed hl hpre hfile, ?_⟩
  set task := CompactionPicker.taskForFiles v pre.length [file] true with htask
  have hover := (taskForFiles_level hl hpre file).2
  rw [← htask] at hover
  have hdesc : ∀ f ∈ target, f.smallest.userKey ≤ f.largest.userKey := fun f hf => by
    obtain ⟨t, _, hd⟩ := hst.described f (by rw [hvf]; simp [hf])
    exact hd.smallest_le_largest
  have hdis : RangesDisjoint target := (hst.ranges target (by simp [hl])).disjoint
  have hall : task.allInputFiles = file :: task.overlapFiles := rfl
  intro g hg hno
  rw [Beside, hall, hover]
  refine beside_overlaps hdis hdesc hg fun hyes => hno ?_
  rw [hover]
  exact List.mem_filter.mpr ⟨hg, hyes⟩

end TyLsm
