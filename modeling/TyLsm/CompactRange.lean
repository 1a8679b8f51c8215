import TyLsm.CompactionOk

/-! `compact_range` on the files that the picker chooses. The L0 files within the
range move without those outside of it, which is only safe when the files left
behind share no key with the files taken. -/

namespace TyLsm

instance (l r : List Entry) : Decidable (Apart l r) :=
  inferInstanceAs (Decidable (∀ a ∈ l, ∀ b ∈ r, Ranked.key a ≠ Ranked.key b))

namespace DB

/-- No L0 file that the range selects shares a user key with an older one left out. -/
def LeavesNoOlder (db : DB) (lower upper : Bound) : Prop :=
  db.versions.current.l0Files.Pairwise (fun newer older =>
    fileOverlapsRange newer lower upper = true → fileOverlapsRange older lower upper = false →
      Apart (fileEntries db.disk.tables newer) (fileEntries db.disk.tables older))

/-- No L0 file that the range selects shares a user key with a newer one left out. -/
def LeavesNoNewer (db : DB) (lower upper : Bound) : Prop :=
  db.versions.current.l0Files.Pairwise (fun newer older =>
    fileOverlapsRange newer lower upper = false → fileOverlapsRange older lower upper = true →
      Apart (fileEntries db.disk.tables newer) (fileEntries db.disk.tables older))

instance (db : DB) (lower upper : Bound) : Decidable (db.LeavesNoOlder lower upper) :=
  inferInstanceAs (Decidable (List.Pairwise _ _))

instance (db : DB) (lower upper : Bound) : Decidable (db.LeavesNoNewer lower upper) :=
  inferInstanceAs (Decidable (List.Pairwise _ _))

/-- What keeps the search order: the merged files go below the rest of L0, or, without
lower levels, in front of it. -/
def KeepsOrder (db : DB) (lower upper : Bound) : Prop :=
  if 2 ≤ db.versions.current.levels.length then db.LeavesNoOlder lower upper
  else db.LeavesNoNewer lower upper

instance (db : DB) (lower upper : Bound) : Decidable (db.KeepsOrder lower upper) :=
  inferInstanceAs (Decidable (if 2 ≤ db.versions.current.levels.length
    then db.LeavesNoOlder lower upper else db.LeavesNoNewer lower upper))

variable {db : DB}

@[simp] theorem fileOverlapsRange_unbounded (file : FileMeta) :
    fileOverlapsRange file .unbounded .unbounded = true := rfl

theorem leavesNoOlder_unbounded (db : DB) : db.LeavesNoOlder .unbounded .unbounded :=
  List.pairwise_of_forall (by simp)

theorem leavesNoNewer_unbounded (db : DB) : db.LeavesNoNewer .unbounded .unbounded :=
  List.pairwise_of_forall (by simp)

theorem keepsOrder_unbounded (db : DB) : db.KeepsOrder .unbounded .unbounded := by
  unfold KeepsOrder
  split
  · exact db.leavesNoOlder_unbounded
  · exact db.leavesNoNewer_unbounded

theorem l0_above {v : Version} {tables : Nat → Option Table} {mem : List Entry}
    (h : NewestFirst (mem ++ v.entries tables)) : v.l0Files.Pairwise (fun a b =>
      Above (fileEntries tables a) (fileEntries tables b)) := by
  have hv := (newestFirst_append.mp h).2.1
  rw [Version.entries, List.flatMap_def] at hv
  have hpw := List.pairwise_map.mp (newestFirst_flatten.mp hv).2
  exact (List.pairwise_append.mp hpw).1

/-- If no chosen file shares a key with an older one that is not, the others are newer than it. -/
theorem above_of_apart {l : List FileMeta} {tables : Nat → Option Table} {P : FileMeta → Prop}
    (habove : l.Pairwise (fun a b => Above (fileEntries tables a) (fileEntries tables b)))
    (hapart : l.Pairwise (fun newer older => P newer → ¬ P older →
      Apart (fileEntries tables newer) (fileEntries tables older)))
    {f g : FileMeta} (hf : f ∈ l) (hg : g ∈ l) (hfP : ¬ P f) (hgP : P g) :
    Above (fileEntries tables f) (fileEntries tables g) := by
  set R : FileMeta → FileMeta → Prop := fun a b =>
    (¬ P a → P b → Above (fileEntries tables a) (fileEntries tables b)) ∧
    (¬ P b → P a → Above (fileEntries tables b) (fileEntries tables a)) with hR
  have hs : Std.Symm R := ⟨fun _ _ hab => ⟨hab.2, hab.1⟩⟩
  have hpw : l.Pairwise R := (habove.and hapart).imp fun {a b} hab =>
    ⟨fun _ _ => hab.1, fun hb ha => (hab.2 ha hb).symm.above⟩
  have hne : f ≠ g := by
    rintro rfl
    exact hfP hgP
  exact (hpw.forall hf hg hne).1 hfP hgP

variable {lower upper : Bound}

/-- If the range leaves no older file behind, what stays in L0 is newer than what goes. -/
theorem Ok.unselected_above (h : db.Ok) (hno : db.LeavesNoOlder lower upper) {f g : FileMeta}
    (hf : f ∈ db.versions.current.l0Files) (hg : g ∈ db.versions.current.l0Files)
    (hfs : fileOverlapsRange f lower upper = false)
    (hgs : fileOverlapsRange g lower upper = true) :
    Above (fileEntries db.disk.tables f) (fileEntries db.disk.tables g) :=
  above_of_apart (P := fun file => fileOverlapsRange file lower upper = true)
    (l0_above h.stateOk.newestFirst)
    (hno.imp fun hab hnewer holder => hab hnewer (Bool.eq_false_iff.mpr holder)) hf hg
    (Bool.eq_false_iff.mp hfs) hgs

/-- If the range leaves no newer file behind, what goes is newer than what stays in L0. -/
theorem Ok.selected_above (h : db.Ok) (hno : db.LeavesNoNewer lower upper) {f g : FileMeta}
    (hf : f ∈ db.versions.current.l0Files) (hg : g ∈ db.versions.current.l0Files)
    (hfs : fileOverlapsRange f lower upper = false)
    (hgs : fileOverlapsRange g lower upper = true) :
    Above (fileEntries db.disk.tables g) (fileEntries db.disk.tables f) :=
  above_of_apart (P := fun file => fileOverlapsRange file lower upper = false)
    (l0_above h.stateOk.newestFirst)
    (hno.imp fun hab hnewer holder => hab hnewer (Bool.not_eq_false _ ▸ holder)) hg hf
    (by simp [hgs]) hfs

theorem not_selected {v : Version} {task : CompactionTask}
    (hin : task.inputFiles = v.l0Files.filter (fun file => fileOverlapsRange file lower upper))
    {f : FileMeta} (hf : f ∈ v.l0Files) (hn : f.number ∉ task.numbers) :
    fileOverlapsRange f lower upper = false := by
  by_contra hsel
  refine hn (List.mem_map.mpr ⟨f, List.mem_append.mpr (.inl ?_), rfl⟩)
  rw [hin]
  exact List.mem_filter.mpr ⟨hf, by simpa using hsel⟩

/-- Cutting the outputs is safe when there is one output, or no snapshot is held. -/
def SplitOk (db : DB) : Prop := db.options.maxSubcompactions ≤ 1 ∨ db.watermark.oldest = none

theorem Ok.splitSafe (h : db.Ok) (hs : db.SplitOk) {task : CompactionTask}
    (hsub : (task.entries db.disk.tables).Sublist (db.versions.current.entries db.disk.tables)) :
    db.SplitSafe task := by
  refine hs.imp_right fun hw => ?_
  have hle : ∀ e ∈ task.entries db.disk.tables, e.1.sequence ≤ db.gcWatermark := by
    intro e he
    rw [gcWatermark, hw]
    exact h.stateOk.sequences e (List.mem_append.mpr (.inr (hsub.subset he)))
  refine (compactEntries_userKey_ne ((newestFirst_append.mp h.stateOk.newestFirst).2.1.sublist
    hsub) hle).imp fun {a b} hab ha hb => hab (ha.trans hb.symm)

section

variable {task : CompactionTask}

/-- What the range leaves behind in L0 is newer than what goes to L1. -/
theorem Ok.unselected_l0_above (h : db.Ok) (hold : db.LeavesNoOlder lower upper)
    (hin : task.inputFiles = db.versions.current.l0Files.filter
      (fun file => fileOverlapsRange file lower upper)) :
    Above ((db.versions.current.l0Files.filter (fun f => f.number ∉ task.numbers)).flatMap
      (fileEntries db.disk.tables)) (task.inputFiles.flatMap (fileEntries db.disk.tables)) := by
  intro a ha b hb
  obtain ⟨f, hf, ha⟩ := List.mem_flatMap.mp ha
  obtain ⟨g, hg, hb⟩ := List.mem_flatMap.mp hb
  obtain ⟨hf, hn⟩ := List.mem_filter.mp hf
  rw [hin] at hg
  obtain ⟨hg, hgs⟩ := List.mem_filter.mp hg
  exact h.unselected_above hold hf hg (not_selected hin hf (of_decide_eq_true hn)) hgs a ha b hb

/-- A merge within L0 leaves the files that the range does not select. -/
theorem Front.mem_remaining (fr : Front db.versions.current task)
    (hin : task.inputFiles = db.versions.current.l0Files.filter
      (fun file => fileOverlapsRange file lower upper)) {a : Entry}
    (ha : a ∈ (db.versions.current.remaining task).flatMap (fileEntries db.disk.tables)) :
    ∃ f ∈ db.versions.current.l0Files,
      fileOverlapsRange f lower upper = false ∧ a ∈ fileEntries db.disk.tables f := by
  obtain ⟨f, hf, ha⟩ := List.mem_flatMap.mp ha
  obtain ⟨hf, hn⟩ := List.mem_filter.mp hf
  rw [fr.files] at hf
  exact ⟨f, hf, not_selected hin hf (of_decide_eq_true hn), ha⟩

theorem Front.mem_entries (fr : Front db.versions.current task)
    (hin : task.inputFiles = db.versions.current.l0Files.filter
      (fun file => fileOverlapsRange file lower upper)) {b : Entry}
    (hb : b ∈ task.entries db.disk.tables) :
    ∃ g ∈ db.versions.current.l0Files,
      fileOverlapsRange g lower upper = true ∧ b ∈ fileEntries db.disk.tables g := by
  obtain ⟨g, hg, hb⟩ := List.mem_flatMap.mp hb
  rw [fr.allInputFiles_eq, hin] at hg
  obtain ⟨hg, hgs⟩ := List.mem_filter.mp hg
  exact ⟨g, hg, hgs, hb⟩

/-- The other files of a lower level have other keys than the one that moves. -/
theorem Ok.level_above (h : db.Ok) {source : List FileMeta} {file : FileMeta}
    (hsource : source ∈ db.versions.current.levels) (hfile : file ∈ source)
    (hin : task.inputFiles = [file]) :
    Above ((source.filter (fun f => f.number ∉ task.numbers)).flatMap
      (fileEntries db.disk.tables)) (task.inputFiles.flatMap (fileEntries db.disk.tables)) := by
  have hsep := (h.stored.ranges source hsource).separate
  have hlisted : ∀ f ∈ source, f ∈ db.versions.current.files := fun f hf =>
    List.mem_append.mpr (.inr (List.mem_flatten.mpr ⟨source, hsource, hf⟩))
  intro a ha b hb
  obtain ⟨f, hf, ha⟩ := List.mem_flatMap.mp ha
  obtain ⟨g, hg, hb⟩ := List.mem_flatMap.mp hb
  obtain ⟨hf, hn⟩ := List.mem_filter.mp hf
  rw [hin, List.mem_singleton] at hg
  subst hg
  have hne : f ≠ g := by
    rintro rfl
    refine of_decide_eq_true hn (List.mem_map.mpr ⟨f, List.mem_append.mpr (.inl ?_), rfl⟩)
    simp [hin]
  have hs : Std.Symm Separate := ⟨fun _ _ hab => hab.symm⟩
  exact (apart_of_separate (h.stored.described f (hlisted f hf))
    (h.stored.described g (hlisted g hfile)) (hsep.forall hf hfile hne)).above a ha b hb

/-- What the picker can hand out. A task either moves files one level down, where what
stays in the level it takes them from is newer, or merges files within L0. -/
theorem Ok.task_cases (h : db.Ok)
    (hpick : CompactionPicker.pickManual db.versions.current lower upper = some task) :
    task.inputFiles ≠ [] ∧
    ((∃ above source target below, Stage db.versions.current task above source target below ∧
      (db.KeepsOrder lower upper ∨ db.LeavesNoOlder lower upper →
        Above ((source.filter (fun f => f.number ∉ task.numbers)).flatMap
          (fileEntries db.disk.tables)) (task.inputFiles.flatMap (fileEntries db.disk.tables)))) ∨
    (Front db.versions.current task ∧
      (db.KeepsOrder lower upper → Above (task.entries db.disk.tables)
        ((db.versions.current.remaining task).flatMap (fileEntries db.disk.tables))) ∧
      (db.LeavesNoOlder lower upper →
        Above ((db.versions.current.remaining task).flatMap (fileEntries db.disk.tables))
          (task.entries db.disk.tables)))) := by
  rcases pickManual_some hpick with ⟨htask, hne⟩ |
    ⟨pre, source, target, post, file, hl, hpre, hfile, htask⟩
  · have hin : task.inputFiles = db.versions.current.l0Files.filter
        (fun file => fileOverlapsRange file lower upper) := by rw [htask]; rfl
    refine ⟨hin ▸ hne, ?_⟩
    by_cases hlen : 2 ≤ db.versions.current.levels.length
    · -- the selected files join L1
      obtain ⟨zero, one, post, hl⟩ : ∃ zero one post,
          db.versions.current.levels = zero :: one :: post := by
        match hlev : db.versions.current.levels, hlen with
        | zero :: one :: post, _ => exact ⟨zero, one, post, rfl⟩
      have st := stage_l0 h.stored hl _ (List.filter_sublist
        (p := fun file => fileOverlapsRange file lower upper))
      rw [← htask] at st
      refine .inl ⟨_, _, _, _, st, fun horder => h.unselected_l0_above ?_ hin⟩
      rwa [KeepsOrder, if_pos hlen, or_self] at horder
    · -- there is no L1, and the selected files are merged within L0
      have fr := front_l0 h.stored.toListed (by omega) _ (List.filter_sublist
        (p := fun file => fileOverlapsRange file lower upper))
      rw [← htask] at fr
      refine .inr ⟨fr, fun horder b hb a ha => ?_, fun hold a ha b hb => ?_⟩
      · rw [KeepsOrder, if_neg hlen] at horder
        obtain ⟨f, hf, hfs, ha⟩ := Front.mem_remaining fr hin ha
        obtain ⟨g, hg, hgs, hb⟩ := Front.mem_entries fr hin hb
        exact h.selected_above horder hf hg hfs hgs b hb a ha
      · obtain ⟨f, hf, hfs, ha⟩ := Front.mem_remaining fr hin ha
        obtain ⟨g, hg, hgs, hb⟩ := Front.mem_entries fr hin hb
        exact h.unselected_above hold hf hg hfs hgs a ha b hb
  · -- one file of a lower level, whose neighbours have other keys
    have st := stage_level h.stored hl hpre hfile
    rw [← htask] at st
    have hin : task.inputFiles = [file] := by rw [htask]; rfl
    exact ⟨by simp [hin], .inl ⟨_, _, _, _, st, fun _ => h.level_above (by simp [hl]) hfile hin⟩⟩

end

theorem Ok.entries_sublist (h : db.Ok) {task : CompactionTask}
    (hpick : CompactionPicker.pickManual db.versions.current lower upper = some task) :
    (task.entries db.disk.tables).Sublist (db.versions.current.entries db.disk.tables) :=
  h.stored.toListed.entries_sublist hpick

/-- Cutting the outputs of a compaction of the range is safe. -/
def SplitsSafely (db : DB) (lower upper : Bound) : Prop :=
  ∀ task, CompactionPicker.pickManual db.versions.current lower upper = some task →
    db.SplitSafe task

theorem Ok.splitsSafely (h : db.Ok) (hs : db.SplitOk) (lower upper : Bound) :
    db.SplitsSafely lower upper :=
  fun _ hpick => h.splitSafe hs (h.entries_sublist hpick)

/-- The tasks that the picker hands out keep the invariant as long as they keep the search
order. If moreover nothing older stays behind, reads from the watermark on do not change. -/
theorem Ok.compactRange (h : db.Ok) (horder : db.KeepsOrder lower upper)
    (hsplit : db.SplitsSafely lower upper) :
    ∃ db', DB.compactRange lower upper db = .ok () db' ∧ db'.Ok ∧ TablesChanged db db' ∧
      (db.LeavesNoOlder lower upper → ∀ k s, db.gcWatermark ≤ s →
        visible k s db'.allEntries = visible k s db.allEntries) := by
  cases hpick : CompactionPicker.pickManual db.versions.current lower upper with
  | none =>
    refine ⟨db, ?_, h, TablesChanged.refl db, fun _ _ _ _ => rfl⟩
    rw [DB.compactRange, run_bind_ok (run_get db), hpick]
    rfl
  | some task =>
    have hexec : ∃ db', executeCompaction task db = .ok true db' ∧ db'.Ok ∧ TablesChanged db db' ∧
        (db.LeavesNoOlder lower upper → ∀ k s, db.gcWatermark ≤ s →
          visible k s db'.allEntries = visible k s db.allEntries) := by
      obtain ⟨_, ⟨_, _, _, _, st, habove⟩ | ⟨fr, habove, hnewer⟩⟩ := h.task_cases hpick
      · obtain ⟨db', hrun, hok, hframe, hvis⟩ := h.execute_stage hpick st (habove (.inl horder))
          (hsplit task hpick)
        exact ⟨db', hrun, hok, hframe, fun _ => hvis⟩
      · obtain ⟨db', hrun, hok, hframe, hvis⟩ := h.execute_front hpick fr (habove horder)
          (hsplit task hpick)
        exact ⟨db', hrun, hok, hframe, fun hold => hvis (hnewer hold)⟩
    obtain ⟨db', hrun, hrest⟩ := hexec
    refine ⟨db', ?_, hrest⟩
    rw [DB.compactRange, run_bind_ok (run_get db), hpick]
    exact run_discard_ok hrun

/-- Where tombstones may be dropped and the range leaves no older file behind, everything
outside the task's files is newer than what has the same key inside. -/
theorem Ok.outside_newer (h : db.Ok) (hold : db.LeavesNoOlder lower upper) {task : CompactionTask}
    (hpick : CompactionPicker.pickManual db.versions.current lower upper = some task)
    (hdrop : canDropTombstones db.versions.current task = true) {e a : Entry}
    (he : e ∈ task.entries db.disk.tables)
    (ha : a ∈ db.state.memEntries ∨
      a ∈ (db.versions.current.remaining task).flatMap (fileEntries db.disk.tables))
    (hk : a.1.userKey = e.1.userKey) : e.1.sequence < a.1.sequence := by
  have hnew := h.stateOk.newestFirst
  rcases (h.task_cases hpick).2 with ⟨_, _, _, _, st, habove⟩ | ⟨fr, _, hnewer⟩
  · exact Published.newer_of_remaining st h.stored hnew (habove (.inr hold)) hdrop he ha hk
  · rcases ha with ha | ha
    · exact (newestFirst_append.mp hnew).2.2 a ha e (fr.entries_sublist.subset he) hk
    · exact hnewer hold a ha e he hk

end DB

end TyLsm
