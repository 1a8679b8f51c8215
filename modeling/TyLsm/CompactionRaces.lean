import TyLsm.Compactors

/-! Compactions that run at the same time. Nothing marks the files of a task, so a compaction may
publish after others have changed the version that its task was picked from. It does no harm as
long as the files of the task are still in their places. -/

namespace TyLsm

/-- The files from which a task of the level takes its input. -/
def Version.levelFiles (v : Version) (level : Nat) : List FileMeta :=
  if level = 0 then v.l0Files else v.levels.getD level []

/-- The files of the task are where the task found them, and what else its output level holds
lies beside them. -/
structure Version.StillHolds (v : Version) (task : CompactionTask) : Prop where
  inputs : task.inputFiles.Sublist (v.levelFiles task.inputLevel)
  overlaps : task.overlapFiles.Sublist (v.levels.getD task.outputLevel [])
  beside : ∀ g ∈ v.levels.getD task.outputLevel [], g ∉ task.overlapFiles → Beside task g

/-- No file of L0 that the task takes shares a user key with an older one that it leaves, nor,
where its outputs go to the front of L0, with a newer one. -/
def Version.LeavesInOrder (v : Version) (tables : Nat → Option Table) (task : CompactionTask) :
    Prop :=
  v.l0Files.Pairwise fun newer older =>
    (newer.number ∈ task.numbers → older.number ∉ task.numbers →
      Apart (fileEntries tables newer) (fileEntries tables older)) ∧
    (v.levels.length < 2 → newer.number ∉ task.numbers → older.number ∈ task.numbers →
      Apart (fileEntries tables newer) (fileEntries tables older))

/-- What holds of every task that is picked from a version with so many levels. -/
structure CompactionTask.Shaped (levels : Nat) (task : CompactionTask) : Prop where
  covers : task.Covers
  levels : task.outputLevel = task.inputLevel + 1 ∧ task.outputLevel < levels ∨
    levels < 2 ∧ task.inputLevel = 0 ∧ task.outputLevel = 0 ∧ task.overlapFiles = []

instance (task : CompactionTask) (g : FileMeta) : Decidable (Beside task g) :=
  inferInstanceAs (Decidable (_ ∨ _))

instance (v : Version) (task : CompactionTask) : Decidable (v.StillHolds task) :=
  decidable_of_iff (task.inputFiles.Sublist (v.levelFiles task.inputLevel) ∧
      task.overlapFiles.Sublist (v.levels.getD task.outputLevel []) ∧
      ∀ g ∈ v.levels.getD task.outputLevel [], g ∉ task.overlapFiles → Beside task g)
    ⟨fun h => ⟨h.1, h.2.1, h.2.2⟩, fun h => ⟨h.inputs, h.overlaps, h.beside⟩⟩

instance (v : Version) (tables : Nat → Option Table) (task : CompactionTask) :
    Decidable (v.LeavesInOrder tables task) := by
  unfold Version.LeavesInOrder
  infer_instance

section

variable {v : Version} {tables : Nat → Option Table} {task : CompactionTask}
  {lower upper : Bound} {mem : List Entry}

theorem shaped_of_pick (hst : v.Listed tables)
    (hpick : CompactionPicker.pickManual v lower upper = some task) :
    task.Shaped v.levels.length := by
  rcases Version.fits_of_pick hpick with ⟨files, -, -, rfl⟩ |
    ⟨pre, source, target, post, file, hl, hpre, -, rfl⟩
  · refine ⟨taskForFiles_covers v 0 files true, ?_⟩
    by_cases hlen : v.levels.length < 2
    · right
      obtain ⟨hout, hover⟩ := taskForFiles_shallow hst hlen files
      exact ⟨hlen, rfl, hout, hover⟩
    · left
      show min (0 + 1) (v.levels.length - 1) = 0 + 1 ∧ min (0 + 1) (v.levels.length - 1) < _
      omega
  · refine ⟨taskForFiles_covers v _ _ true, .inl ?_⟩
    obtain ⟨hout, -⟩ := taskForFiles_level hl hpre file
    have hlen : v.levels.length = pre.length + (post.length + 2) := by
      rw [hl, List.length_append]
      rfl
    rw [hout, hlen]
    exact ⟨rfl, by omega⟩

/-- A task whose files are in their places moves them one level down, or to the front of L0. -/
theorem Version.StillHolds.cases (h : v.StillHolds task) (hst : v.Listed tables)
    (hshape : task.Shaped v.levels.length) :
    (∃ above target below,
      Stage v task above (v.levelFiles task.inputLevel) target below) ∨
    (v.levels.length < 2 ∧ Front v task) := by
  rcases hshape.levels with ⟨hout, hlt⟩ | ⟨hlen, hlev, hout, hover⟩
  · left
    have hinputs := h.inputs
    have hoverlaps := h.overlaps
    have hbeside := h.beside
    by_cases hzero : task.inputLevel = 0
    · rw [hzero] at hout
      obtain ⟨zero, one, post, hl⟩ : ∃ zero one post, v.levels = zero :: one :: post := by
        match hlev : v.levels, (show 2 ≤ v.levels.length by omega) with
        | zero :: one :: post, _ => exact ⟨zero, one, post, rfl⟩
      rw [hout, hl] at hoverlaps hbeside
      rw [Version.levelFiles, if_pos hzero] at hinputs ⊢
      exact ⟨_, _, _, shift_zero hst hl hzero hout hinputs hoverlaps hshape.covers, hbeside⟩
    · have hl : v.levels = v.levels.take task.inputLevel ++
          v.levels[task.inputLevel] :: v.levels[task.inputLevel + 1] ::
            v.levels.drop (task.inputLevel + 2) := by
        rw [List.cons_getElem_drop_succ, List.cons_getElem_drop_succ, List.take_append_drop]
      have hpre : v.levels.take task.inputLevel ≠ [] := by
        rw [ne_eq, List.take_eq_nil_iff]
        rintro (h0 | hnil)
        · exact hzero h0
        · rw [hnil] at hlt
          cases hlt
      have hlen : (v.levels.take task.inputLevel).length = task.inputLevel :=
        List.length_take_of_le (by omega)
      rw [List.getD_eq_getElem _ _ hlt] at hoverlaps hbeside
      rw [Version.levelFiles, if_neg hzero, List.getD_eq_getElem _ _ (by omega)] at hinputs ⊢
      have htarget : v.levels[task.outputLevel] = v.levels[task.inputLevel + 1] := by
        simp only [hout]
      rw [htarget] at hoverlaps hbeside
      exact ⟨_, _, _, shift_down hst hl hpre hlen.symm (by rw [hlen, hout]) hinputs hoverlaps
        hshape.covers, hbeside⟩
  · right
    have hinputs := h.inputs
    rw [Version.levelFiles, if_pos hlev] at hinputs
    exact ⟨hlen, front_zero hst hlen hlev hout hover hinputs⟩

theorem mem_files_of_levelFiles {level : Nat} {f : FileMeta} (h : f ∈ v.levelFiles level) :
    f ∈ v.files := by
  unfold Version.levelFiles at h
  split at h
  · exact List.mem_append.mpr (.inl h)
  · rw [List.getD_eq_getElem?_getD] at h
    cases hget : v.levels[level]? with
    | none => simp [hget] at h
    | some files =>
      rw [hget] at h
      exact List.mem_append.mpr (.inr (List.mem_flatten.mpr
        ⟨files, List.mem_of_getElem? hget, h⟩))

theorem Version.StillHolds.left_above (h : v.StillHolds task) (hst : v.Stored tables)
    (hnew : NewestFirst (mem ++ v.entries tables)) (horder : v.LeavesInOrder tables task) :
    Above (((v.levelFiles task.inputLevel).filter (fun f => f.number ∉ task.numbers)).flatMap
      (fileEntries tables)) (task.inputFiles.flatMap (fileEntries tables)) := by
  intro a ha b hb
  obtain ⟨f, hf, ha⟩ := List.mem_flatMap.mp ha
  obtain ⟨g, hg, hb⟩ := List.mem_flatMap.mp hb
  obtain ⟨hf, hfn⟩ := List.mem_filter.mp hf
  have hfn : f.number ∉ task.numbers := of_decide_eq_true hfn
  have hgn : g.number ∈ task.numbers :=
    List.mem_map.mpr ⟨g, List.mem_append.mpr (.inl hg), rfl⟩
  have hg := h.inputs.subset hg
  have habove : Above (fileEntries tables f) (fileEntries tables g) := by
    by_cases hzero : task.inputLevel = 0
    · rw [Version.levelFiles, if_pos hzero] at hf hg
      exact DB.above_of_apart (P := fun file => file.number ∈ task.numbers) (DB.l0_above hnew)
        (horder.imp fun hab => hab.1) hf hg hfn hgn
    · have hdesc : ∀ {x}, x ∈ v.levelFiles task.inputLevel →
          ∃ t, tables x.number = some t ∧ x.Describes t := fun {x} hx =>
        hst.described x (mem_files_of_levelFiles hx)
      have hne : f ≠ g := by
        rintro rfl
        exact hfn hgn
      have hranges : Ranges (v.levelFiles task.inputLevel) := by
        rw [Version.levelFiles, if_neg hzero, List.getD_eq_getElem?_getD]
        cases hget : v.levels[task.inputLevel]? with
        | none => exact List.Pairwise.nil
        | some files => exact hst.ranges files (List.mem_of_getElem? hget)
      have hs : Std.Symm Separate := ⟨fun _ _ hab => hab.symm⟩
      exact (apart_of_separate (hdesc hf) (hdesc hg)
        (hranges.separate.forall hf hg hne)).above
  exact habove a ha b hb

theorem Front.left_apart (fr : Front v task) (hlen : v.levels.length < 2)
    (hnew : NewestFirst (mem ++ v.entries tables)) (horder : v.LeavesInOrder tables task) :
    Above ((v.remaining task).flatMap (fileEntries tables)) (task.entries tables) ∧
      Above (task.entries tables) ((v.remaining task).flatMap (fileEntries tables)) := by
  have hfiles : ∀ {f g : FileMeta}, f ∈ v.remaining task → g ∈ task.allInputFiles →
      f ∈ v.l0Files ∧ g ∈ v.l0Files ∧ f.number ∉ task.numbers ∧ g.number ∈ task.numbers := by
    intro f g hf hg
    obtain ⟨hf, hfn⟩ := List.mem_filter.mp hf
    rw [fr.files] at hf
    refine ⟨hf, ?_, of_decide_eq_true hfn, List.mem_map_of_mem hg⟩
    rw [fr.allInputFiles_eq] at hg
    exact fr.inputs.subset hg
  constructor
  · intro a ha b hb
    obtain ⟨f, hf, ha⟩ := List.mem_flatMap.mp ha
    obtain ⟨g, hg, hb⟩ := List.mem_flatMap.mp hb
    obtain ⟨hf, hg, hfn, hgn⟩ := hfiles hf hg
    exact DB.above_of_apart (P := fun file => file.number ∈ task.numbers) (DB.l0_above hnew)
      (horder.imp fun hab => hab.1) hf hg hfn hgn a ha b hb
  · intro b hb a ha
    obtain ⟨f, hf, ha⟩ := List.mem_flatMap.mp ha
    obtain ⟨g, hg, hb⟩ := List.mem_flatMap.mp hb
    obtain ⟨hf, hg, hfn, hgn⟩ := hfiles hf hg
    exact DB.above_of_apart (P := fun file => file.number ∉ task.numbers) (DB.l0_above hnew)
      (horder.imp fun hab hnewer holder => hab.2 hlen hnewer (not_not.mp holder)) hg hf
      (not_not.mpr hgn) hfn b hb a ha

/-- The version after a publication, seen from the memory. -/
structure PublishedSafely (v : Version) (task : CompactionTask) (tables : Nat → Option Table)
    (mem : List Entry) (watermark : Nat) (outs : List FileMeta) (v' : Version) : Prop where
  replay : ∀ vs : VersionSet, vs.current = v →
    vs.replay (DB.deleteEdits task ++ outs.map (VersionEdit.addFile task.outputLevel)) =
      .ok { vs with
        current := v'
        nextFileNumber := Version.nextAfter vs.nextFileNumber outs }
  stored : v'.Stored tables
  perm : v'.files.Perm (v.remaining task ++ outs)
  levels : v'.levels.length = v.levels.length
  newestFirst : NewestFirst (mem ++ v'.entries tables)
  visible : ∀ k s, watermark ≤ s →
    visible k s (mem ++ v'.entries tables) = visible k s (mem ++ v.entries tables)

theorem Version.StillHolds.publish (h : v.StillHolds task) (hst : v.Stored tables)
    (hshape : task.Shaped v.levels.length) (hnew : NewestFirst (mem ++ v.entries tables))
    (horder : v.LeavesInOrder tables task) {drop : Bool}
    (hdrop : drop = true → canDropTombstones v task = true) {outs : List FileMeta}
    (ho : Outputs v task tables outs) {watermark : Nat}
    (houts : ∀ e, e ∈ outs.flatMap (fileEntries tables) ↔
      e ∈ compactEntries (task.entries tables) watermark drop)
    (hnewest : ∀ o ∈ outs, NewestFirst (fileEntries tables o)) :
    ∃ v', PublishedSafely v task tables mem watermark outs v' := by
  have hsub : ∀ e ∈ outs.flatMap (fileEntries tables), e ∈ task.entries tables := fun e he =>
    (mem_compactEntries.mp ((houts e).mp he)).1
  have hlen : ∀ {v' : Version}, (∀ vs : VersionSet, vs.current = v →
      vs.replay (DB.deleteEdits task ++ outs.map (VersionEdit.addFile task.outputLevel)) =
        .ok { vs with
          current := v'
          nextFileNumber := Version.nextAfter vs.nextFileNumber outs }) →
      v'.levels.length = v.levels.length := fun hreplay =>
    VersionSet.length_replay (hreplay ⟨v, 0, 0, 0⟩ rfl)
  rcases h.cases hst.toListed hshape with ⟨above, target, below, st⟩ | ⟨hlevels, fr⟩
  · have habove := h.left_above hst hnew horder
    obtain ⟨v', hp, hreplay⟩ := st.published hst.toListed outs
    have hnew' := hp.newestFirst st hst ho hnew habove hsub hnewest
    exact ⟨v', hreplay, hp.stored st hst ho, hp.files_perm st.toShift hst.toListed, hlen hreplay,
      hnew', fun k s hs => hp.visible_eq st hst hnew hnew' habove hdrop houts hs⟩
  · obtain ⟨hnewer, holder⟩ := fr.left_apart hlevels hnew horder
    have hnew' := fr.newestFirst ho hnew holder hsub hnewest
    have hreplay := fun vs hvs => fr.publish vs hvs outs
    exact ⟨_, hreplay, fr.stored hst ho, fr.files_perm outs, hlen hreplay, hnew',
      fun k s hs => fr.visible_eq hst.toListed hnew hnew' hnewer houts hs⟩

end

end TyLsm
