import TyLsm.Task

/-! What publishing a compaction does to a stored version: it stays stored, the
entries stay newest first, and reads from the watermark on stay the same. -/

namespace TyLsm

/-- Two files whose key ranges do not meet. -/
def Separate (a b : FileMeta) : Prop :=
  a.largest.userKey < b.smallest.userKey ∨ b.largest.userKey < a.smallest.userKey

theorem Separate.symm {a b : FileMeta} (h : Separate a b) : Separate b a := Or.symm h

theorem ranges_of_sorted {l : List FileMeta}
    (hs : l.Pairwise (fun a b => a.smallest ≤ b.smallest)) (hd : l.Pairwise Separate)
    (hle : ∀ f ∈ l, f.smallest.userKey ≤ f.largest.userKey) : Ranges l := by
  refine List.Pairwise.imp_of_mem (fun {a b} ha hb h => ?_) (hs.and hd)
  rcases h.2 with hlt | hlt
  · exact hlt
  · have hab := InternalKey.userKey_le_of_le h.1
    exact absurd (lt_of_le_of_lt (hle b hb) hlt) (not_lt.mpr hab)

theorem fileEntries_userKey_mem {tables : Nat → Option Table} {f : FileMeta}
    (h : ∃ t, tables f.number = some t ∧ f.Describes t) {e : Entry} (he : e ∈ fileEntries tables f) :
    f.smallest.userKey ≤ e.1.userKey ∧ e.1.userKey ≤ f.largest.userKey := by
  obtain ⟨t, ht, hd⟩ := h
  rw [fileEntries_eq ht] at he
  exact hd.userKey_mem he

theorem apart_of_separate {tables : Nat → Option Table} {f g : FileMeta}
    (hf : ∃ t, tables f.number = some t ∧ f.Describes t)
    (hg : ∃ t, tables g.number = some t ∧ g.Describes t) (h : Separate f g) :
    Apart (fileEntries tables f) (fileEntries tables g) := by
  intro a ha b hb hk
  obtain ⟨ha1, ha2⟩ := fileEntries_userKey_mem hf ha
  obtain ⟨hb1, hb2⟩ := fileEntries_userKey_mem hg hb
  simp only [entry_key] at hk
  rcases h with h | h
  · exact absurd (ha2.trans_lt (h.trans_le hb1)) (hk ▸ lt_irrefl _)
  · exact absurd (hb2.trans_lt (h.trans_le ha1)) (hk ▸ lt_irrefl _)

theorem newestFirst_of_separate {tables : Nat → Option Table} {level : List FileMeta}
    (hd : ∀ f ∈ level, ∃ t, tables f.number = some t ∧ f.Describes t)
    (hsep : level.Pairwise Separate) (hn : ∀ f ∈ level, NewestFirst (fileEntries tables f)) :
    NewestFirst (level.flatMap (fileEntries tables)) := by
  rw [List.flatMap_def]
  refine newestFirst_flatten.mpr ⟨?_, ?_⟩
  · intro l hl
    obtain ⟨f, hf, rfl⟩ := List.mem_map.mp hl
    exact hn f hf
  · rw [List.pairwise_map]
    exact List.Pairwise.imp_of_mem
      (fun {f g} hf hg h => (apart_of_separate (hd f hf) (hd g hg) h).above) hsep

theorem Ranges.separate {l : List FileMeta} (h : Ranges l) : l.Pairwise Separate :=
  h.imp fun hab => .inl hab

theorem separate_of_perm {l l' : List FileMeta} (hp : l.Perm l') (h : l'.Pairwise Separate) :
    l.Pairwise Separate :=
  (hp.pairwise_iff fun hab => Separate.symm hab).mpr h

/-- The numbers of the files that a task replaces. -/
def CompactionTask.numbers (task : CompactionTask) : List Nat :=
  task.allInputFiles.map FileMeta.number

/-- The files of a version that a task leaves in place. -/
def Version.remaining (v : Version) (task : CompactionTask) : List FileMeta :=
  v.files.filter (fun f => f.number ∉ task.numbers)

/-- The files a compaction writes, or moves, in place of its input. -/
structure Placed (v : Version) (task : CompactionTask) (tables : Nat → Option Table)
    (outs : List FileMeta) : Prop where
  described : ∀ o ∈ outs, ∃ t, tables o.number = some t ∧ o.Describes t
  nodup : (outs.map FileMeta.number).Nodup
  fresh : ∀ o ∈ outs, ∀ f ∈ v.remaining task, f.number ≠ o.number

theorem Placed.listed {v v' : Version} {task : CompactionTask} {tables : Nat → Option Table}
    {outs : List FileMeta} (ho : Placed v task tables outs) (hst : v.Listed tables)
    (hperm : v'.files.Perm (v.remaining task ++ outs))
    (hzero : ∀ level, v'.levels.head? = some level → level = []) : v'.Listed tables := by
  refine ⟨?_, ?_, hzero⟩
  · intro f hf
    rcases List.mem_append.mp (hperm.mem_iff.mp hf) with hf | hf
    · exact hst.described f (List.mem_filter.mp hf).1
    · exact ho.described f hf
  · rw [(hperm.map FileMeta.number).nodup_iff, List.map_append]
    refine List.nodup_append.mpr ⟨?_, ho.nodup, ?_⟩
    · exact hst.nodup.sublist (List.filter_sublist.map _)
    · intro a ha b hb
      obtain ⟨f, hf, rfl⟩ := List.mem_map.mp ha
      obtain ⟨o, hout, rfl⟩ := List.mem_map.mp hb
      exact ho.fresh o hout f hf

/-- Moreover they have disjoint ranges within that of the input. -/
structure Outputs (v : Version) (task : CompactionTask) (tables : Nat → Option Table)
    (outs : List FileMeta) : Prop extends Placed v task tables outs where
  ranges : Ranges outs
  lower : ∀ o ∈ outs, ∃ f ∈ task.allInputFiles, f.smallest.userKey ≤ o.smallest.userKey
  upper : ∀ o ∈ outs, ∃ f ∈ task.allInputFiles, o.largest.userKey ≤ f.largest.userKey

theorem filter_eq_self_of_number {l : List FileMeta} {numbers : List Nat}
    (h : ∀ f ∈ l, f.number ∉ numbers) : l.filter (fun f => f.number ∉ numbers) = l :=
  List.filter_eq_self.mpr fun f hf => decide_eq_true (h f hf)

namespace Shift

variable {v : Version} {task : CompactionTask} {above source target below : List FileMeta}
  {tables : Nat → Option Table}

theorem source_mem (st : Shift v task above source target below) {f : FileMeta} (hf : f ∈ source) :
    f ∈ v.files := by
  rw [st.files]
  simp [hf]

theorem target_mem (st : Shift v task above source target below) {f : FileMeta} (hf : f ∈ target) :
    f ∈ v.files := by
  rw [st.files]
  simp [hf]

theorem input_mem (st : Shift v task above source target below) {f : FileMeta}
    (hf : f ∈ task.allInputFiles) : f ∈ v.files := by
  rcases List.mem_append.mp hf with hf | hf
  · exact st.source_mem (st.inputs.subset hf)
  · exact st.target_mem (st.overlaps.subset hf)

theorem number_ne (st : Shift v task above source target below) (hst : v.Listed tables) :
    (∀ f ∈ above, ∀ g ∈ source ++ target, f.number ≠ g.number) ∧
    (∀ f ∈ source, ∀ g ∈ target, f.number ≠ g.number) ∧
    (∀ f ∈ below, ∀ g ∈ source ++ target, f.number ≠ g.number) := by
  have hnd := hst.nodup
  rw [st.files, List.append_assoc above, List.map_append, List.map_append] at hnd
  obtain ⟨hleft, _, hbelow⟩ := List.nodup_append.mp hnd
  obtain ⟨_, hmid, habove⟩ := List.nodup_append.mp hleft
  rw [List.map_append] at hmid
  have hst' := (List.nodup_append.mp hmid).2.2
  refine ⟨fun f hf g hg => ?_, fun f hf g hg => ?_, fun f hf g hg => ?_⟩
  · exact habove _ (List.mem_map.mpr ⟨f, hf, rfl⟩) _ (List.mem_map.mpr ⟨g, hg, rfl⟩)
  · exact hst' _ (List.mem_map.mpr ⟨f, hf, rfl⟩) _ (List.mem_map.mpr ⟨g, hg, rfl⟩)
  · refine (hbelow _ (List.mem_append.mpr (.inr (List.mem_map.mpr ⟨g, hg, rfl⟩))) _
      (List.mem_map.mpr ⟨f, hf, rfl⟩)).symm

theorem not_mem_numbers (st : Shift v task above source target below) {f : FileMeta}
    (h : ∀ g ∈ source ++ target, f.number ≠ g.number) : f.number ∉ task.numbers := by
  intro hmem
  obtain ⟨g, hg, he⟩ := List.mem_map.mp hmem
  refine h g ?_ he.symm
  rcases List.mem_append.mp hg with hg | hg
  · exact List.mem_append.mpr (.inl (st.inputs.subset hg))
  · exact List.mem_append.mpr (.inr (st.overlaps.subset hg))

theorem source_filter (st : Shift v task above source target below) (hst : v.Listed tables) :
    source.filter (fun f => f.number ∉ task.inputFiles.map FileMeta.number) =
      source.filter (fun f => f.number ∉ task.numbers) := by
  refine List.filter_congr fun f hf => ?_
  have hno : f.number ∉ task.overlapFiles.map FileMeta.number := by
    intro hmem
    obtain ⟨g, hg, he⟩ := List.mem_map.mp hmem
    exact (st.number_ne hst).2.1 f hf g (st.overlaps.subset hg) he.symm
  rw [CompactionTask.numbers, CompactionTask.allInputFiles, List.map_append]
  simp only [List.mem_append, hno, or_false]

theorem target_filter (st : Shift v task above source target below) (hst : v.Listed tables) :
    target.filter (fun f => f.number ∉ task.overlapFiles.map FileMeta.number) =
      target.filter (fun f => f.number ∉ task.numbers) := by
  refine List.filter_congr fun f hf => ?_
  have hno : f.number ∉ task.inputFiles.map FileMeta.number := by
    intro hmem
    obtain ⟨g, hg, he⟩ := List.mem_map.mp hmem
    exact (st.number_ne hst).2.1 g (st.inputs.subset hg) f hf he
  rw [CompactionTask.numbers, CompactionTask.allInputFiles, List.map_append]
  simp only [List.mem_append, hno, false_or]

theorem remaining_eq (st : Shift v task above source target below) (hst : v.Listed tables) :
    v.remaining task = above ++ source.filter (fun f => f.number ∉ task.numbers) ++
      target.filter (fun f => f.number ∉ task.numbers) ++ below := by
  have ha : above.filter (fun f => f.number ∉ task.numbers) = above :=
    filter_eq_self_of_number fun f hf => st.not_mem_numbers ((st.number_ne hst).1 f hf)
  have hb : below.filter (fun f => f.number ∉ task.numbers) = below :=
    filter_eq_self_of_number fun f hf => st.not_mem_numbers ((st.number_ne hst).2.2 f hf)
  rw [Version.remaining, st.files, List.filter_append, List.filter_append, List.filter_append, ha, hb]

end Shift

namespace Stage

variable {v : Version} {task : CompactionTask} {above source target below : List FileMeta}
  {tables : Nat → Option Table}

theorem separate_output (st : Stage v task above source target below)
    {outs : List FileMeta} (ho : Outputs v task tables outs) {g o : FileMeta}
    (hg : g ∈ target.filter (fun f => f.number ∉ task.numbers)) (hout : o ∈ outs) :
    Separate g o := by
  obtain ⟨hgt, hgn⟩ := List.mem_filter.mp hg
  have hno : g ∉ task.overlapFiles := by
    intro hmem
    refine (of_decide_eq_true hgn) ?_
    exact List.mem_map.mpr ⟨g, List.mem_append.mpr (.inr hmem), rfl⟩
  rcases st.beside g hgt hno with h | h
  · obtain ⟨f, hf, hle⟩ := ho.lower o hout
    exact .inl ((h f hf).trans_le hle)
  · obtain ⟨f, hf, hle⟩ := ho.upper o hout
    exact .inr (hle.trans_lt (h f hf))

theorem separate_level (st : Stage v task above source target below) (hst : v.Stored tables)
    {outs : List FileMeta} (ho : Outputs v task tables outs) :
    (Version.addedTo (target.filter (fun f => f.number ∉ task.numbers)) outs).Pairwise Separate := by
  refine separate_of_perm (Version.addedTo_perm _ _) (List.pairwise_append.mpr
    ⟨((hst.ranges target st.level).sublist List.filter_sublist).separate, ho.ranges.separate, ?_⟩)
  exact fun g hg o hout => st.separate_output ho hg hout

end Stage

/-- The version that a stage publishes. -/
structure Published (v : Version) (task : CompactionTask)
    (above source target below outs : List FileMeta) (v' : Version) : Prop where
  files : v'.files = above ++ source.filter (fun f => f.number ∉ task.numbers) ++
    Version.addedTo (target.filter (fun f => f.number ∉ task.numbers)) outs ++ below
  levelZero : ∀ level, v'.levels.head? = some level → level = []
  levels : ∀ level ∈ v'.levels, (∃ l ∈ v.levels, level.Sublist l) ∨
    level = Version.addedTo (target.filter (fun f => f.number ∉ task.numbers)) outs

theorem Shift.published {v : Version} {task : CompactionTask}
    {above source target below : List FileMeta} {tables : Nat → Option Table}
    (st : Shift v task above source target below) (hst : v.Listed tables) (outs : List FileMeta) :
    ∃ v', Published v task above source target below outs v' ∧
      ∀ vs : VersionSet, vs.current = v →
        vs.replay (DB.deleteEdits task ++ outs.map (VersionEdit.addFile task.outputLevel)) =
          .ok { vs with
            current := v'
            nextFileNumber := Version.nextAfter vs.nextFileNumber outs } := by
  obtain ⟨v', hfiles, hzero, hlevels, hreplay⟩ := st.publish outs
  rw [st.source_filter hst, st.target_filter hst] at hfiles
  rw [st.target_filter hst] at hlevels
  exact ⟨v', ⟨hfiles, hzero, hlevels⟩, hreplay⟩

namespace Published

variable {v v' : Version} {task : CompactionTask}
  {above source target below outs : List FileMeta} {tables : Nat → Option Table}

theorem files_perm (hp : Published v task above source target below outs v')
    (st : Shift v task above source target below) (hst : v.Listed tables) :
    v'.files.Perm (v.remaining task ++ outs) := by
  rw [hp.files, st.remaining_eq hst]
  have hadd := Version.addedTo_perm (target.filter (fun f => f.number ∉ task.numbers)) outs
  refine ((hadd.append_left _).append_right below).trans ?_
  simp only [List.append_assoc]
  have hcomm : (outs ++ below).Perm (below ++ outs) := List.perm_append_comm
  exact ((hcomm.append_left _).append_left _).append_left _

theorem stored (hp : Published v task above source target below outs v')
    (st : Stage v task above source target below) (hst : v.Stored tables)
    (ho : Outputs v task tables outs) :
    v'.Stored tables := by
  have hlisted := ho.listed hst.toListed (hp.files_perm st.toShift hst.toListed) hp.levelZero
  refine ⟨hlisted, ?_⟩
  · intro level hlevel
    rcases hp.levels level hlevel with ⟨l, hl, hsub⟩ | rfl
    · exact (hst.ranges l hl).sublist hsub
    · refine ranges_of_sorted (Version.addedTo_sorted ?_ outs) (st.separate_level hst ho) ?_
      · refine List.Pairwise.sublist List.filter_sublist
          (List.Pairwise.imp_of_mem ?_ (hst.ranges target st.level))
        intro a b ha hb hab
        obtain ⟨_, _, hd⟩ := hst.described a (st.target_mem ha)
        have hlt := hd.smallest_le_largest.trans_lt hab
        exact ((InternalKey.lt_iff _ _).mpr (.inl hlt)).le
      · intro f hf
        have hmem : f ∈ v'.files := by
          rw [Version.files]
          exact List.mem_append.mpr (.inr (List.mem_flatten.mpr ⟨_, hlevel, hf⟩))
        obtain ⟨_, _, hd⟩ := hlisted.described f hmem
        exact hd.smallest_le_largest

theorem mem_entries (hp : Published v task above source target below outs v')
    (st : Shift v task above source target below) (hst : v.Listed tables) {e : Entry} :
    e ∈ v'.entries tables ↔ e ∈ (v.remaining task).flatMap (fileEntries tables) ∨
      e ∈ outs.flatMap (fileEntries tables) := by
  rw [Version.entries, ((hp.files_perm st hst).flatMap_right _).mem_iff, List.flatMap_append,
    List.mem_append]

/-- The entries stay newest first when the files that stay in the input level are
newer than those that leave it. -/
theorem newestFirst (hp : Published v task above source target below outs v')
    (st : Stage v task above source target below) (hst : v.Stored tables)
    (ho : Outputs v task tables outs) {mem : List Entry}
    (h : NewestFirst (mem ++ v.entries tables))
    (habove : Above ((source.filter (fun f => f.number ∉ task.numbers)).flatMap (fileEntries tables))
      (task.inputFiles.flatMap (fileEntries tables)))
    (hsub : ∀ e ∈ outs.flatMap (fileEntries tables),
      e ∈ task.allInputFiles.flatMap (fileEntries tables))
    (hnew : ∀ o ∈ outs, NewestFirst (fileEntries tables o)) :
    NewestFirst (mem ++ v'.entries tables) := by
  have hlist : mem ++ v.entries tables =
      (mem ++ above.flatMap (fileEntries tables)) ++ source.flatMap (fileEntries tables) ++
        target.flatMap (fileEntries tables) ++ below.flatMap (fileEntries tables) := by
    simp [Version.entries, st.files]
  have hlist' : mem ++ v'.entries tables =
      (mem ++ above.flatMap (fileEntries tables)) ++
        (source.filter (fun f => f.number ∉ task.numbers)).flatMap (fileEntries tables) ++
        (Version.addedTo (target.filter (fun f => f.number ∉ task.numbers)) outs).flatMap
          (fileEntries tables) ++ below.flatMap (fileEntries tables) := by
    simp [Version.entries, hp.files]
  have hadded := fun f => (Version.addedTo_perm
    (target.filter (fun f => f.number ∉ task.numbers)) outs).mem_iff (a := f)
  rw [hlist] at h
  rw [hlist']
  have htargetNew : NewestFirst (target.flatMap (fileEntries tables)) :=
    (newestFirst_append.mp (newestFirst_append.mp h).1).2.1
  refine h.merge (S := task.inputFiles.flatMap (fileEntries tables))
    (List.filter_sublist.flatMap _) (st.inputs.flatMap _).subset habove ?_ ?_
  · refine newestFirst_of_separate ?_ (st.separate_level hst ho) ?_
    · intro f hf
      rcases List.mem_append.mp ((hadded f).mp hf) with hf | hf
      · exact hst.described f (st.target_mem (List.mem_filter.mp hf).1)
      · exact ho.described f hf
    · intro f hf
      rcases List.mem_append.mp ((hadded f).mp hf) with hf | hf
      · rw [List.flatMap_def] at htargetNew
        exact (newestFirst_flatten.mp htargetNew).1 _
          (List.mem_map.mpr ⟨f, (List.mem_filter.mp hf).1, rfl⟩)
      · exact hnew f hf
  · intro e he
    obtain ⟨f, hf, he⟩ := List.mem_flatMap.mp he
    rcases List.mem_append.mp ((hadded f).mp hf) with hf | hf
    · exact .inr (List.mem_flatMap.mpr ⟨f, (List.mem_filter.mp hf).1, he⟩)
    · have := hsub e (List.mem_flatMap.mpr ⟨f, hf, he⟩)
      rw [CompactionTask.allInputFiles, List.flatMap_append] at this
      rcases List.mem_append.mp this with he | he
      · exact .inl he
      · exact .inr ((st.overlaps.flatMap _).subset he)

end Published

/-- The entries that a task reads. -/
def CompactionTask.entries (task : CompactionTask) (tables : Nat → Option Table) : List Entry :=
  task.allInputFiles.flatMap (fileEntries tables)

theorem Shift.allInputFiles_sublist {v : Version} {task : CompactionTask}
    {above source target below : List FileMeta} (st : Shift v task above source target below) :
    task.allInputFiles.Sublist v.files := by
  have h1 : (task.inputFiles ++ task.overlapFiles).Sublist (source ++ target) :=
    st.inputs.append st.overlaps
  have h2 : (source ++ target).Sublist v.files := by
    rw [st.files, List.append_assoc above]
    exact (List.sublist_append_right above _).trans (List.sublist_append_left _ below)
  exact h1.trans h2

theorem Shift.entries_sublist {v : Version} {task : CompactionTask}
    {above source target below : List FileMeta} {tables : Nat → Option Table}
    (st : Shift v task above source target below) :
    (task.entries tables).Sublist (v.entries tables) :=
  st.allInputFiles_sublist.flatMap _

namespace Stage

variable {v : Version} {task : CompactionTask} {above source target below : List FileMeta}
  {tables : Nat → Option Table}

theorem apart_below (st : Stage v task above source target below) (hst : v.Stored tables)
    (hdrop : canDropTombstones v task = true) :
    Apart (task.entries tables) (below.flatMap (fileEntries tables)) := by
  intro a ha b hb hk
  obtain ⟨f, hf, ha⟩ := List.mem_flatMap.mp ha
  obtain ⟨g, hg, hb⟩ := List.mem_flatMap.mp hb
  have hgv : g ∈ v.files := by
    rw [st.files]
    simp [hg]
  obtain ⟨hg1, hg2⟩ := fileEntries_userKey_mem (hst.described g hgv) hb
  obtain ⟨hf1, hf2⟩ := fileEntries_userKey_mem (hst.described f (st.input_mem hf)) ha
  obtain ⟨hc1, hc2⟩ := st.covers f hf
  rw [st.below_eq] at hg
  have hno : g.userKeyOverlaps task.smallestUserKey task.largestUserKey = false := by
    simp only [canDropTombstones, Bool.not_eq_true', List.any_eq_false, Bool.not_eq_true] at hdrop
    exact hdrop g hg
  have hyes : g.userKeyOverlaps task.smallestUserKey task.largestUserKey = true := by
    simp only [entry_key] at hk
    simp only [FileMeta.userKeyOverlaps, Bool.and_eq_true, decide_eq_true_eq]
    exact ⟨hg1.trans (hk ▸ hf2.trans hc2), (hc1.trans hf1).trans (hk ▸ hg2)⟩
  simp [hno] at hyes

theorem apart_target (st : Stage v task above source target below) (hst : v.Stored tables) :
    Apart (task.entries tables)
      ((target.filter (fun f => f.number ∉ task.numbers)).flatMap (fileEntries tables)) := by
  intro a ha b hb hk
  obtain ⟨f, hf, ha⟩ := List.mem_flatMap.mp ha
  obtain ⟨g, hg, hb⟩ := List.mem_flatMap.mp hb
  obtain ⟨hgt, hgn⟩ := List.mem_filter.mp hg
  have hno : g ∉ task.overlapFiles := by
    intro hmem
    refine (of_decide_eq_true hgn) ?_
    exact List.mem_map.mpr ⟨g, List.mem_append.mpr (.inr hmem), rfl⟩
  have hsep : Separate f g := by
    rcases st.beside g hgt hno with h | h
    · exact .inr (h f hf)
    · exact .inl (h f hf)
  exact apart_of_separate (hst.described f (st.input_mem hf)) (hst.described g (st.target_mem hgt))
    hsep a ha b hb hk

end Stage

namespace Published

variable {v v' : Version} {task : CompactionTask}
  {above source target below outs : List FileMeta} {tables : Nat → Option Table}

theorem newer_of_remaining (st : Stage v task above source target below) (hst : v.Stored tables)
    {mem : List Entry} (h : NewestFirst (mem ++ v.entries tables))
    (habove : Above ((source.filter (fun f => f.number ∉ task.numbers)).flatMap (fileEntries tables))
      (task.inputFiles.flatMap (fileEntries tables)))
    (hdrop : canDropTombstones v task = true) {e a : Entry} (he : e ∈ task.entries tables)
    (ha : a ∈ mem ∨ a ∈ (v.remaining task).flatMap (fileEntries tables))
    (hk : a.1.userKey = e.1.userKey) : e.1.sequence < a.1.sequence := by
  have hlist : mem ++ v.entries tables =
      (mem ++ above.flatMap (fileEntries tables)) ++ (source.flatMap (fileEntries tables) ++
        target.flatMap (fileEntries tables)) ++ below.flatMap (fileEntries tables) := by
    simp [Version.entries, st.files]
  rw [hlist] at h
  obtain ⟨hleft, _, _⟩ := newestFirst_append.mp h
  obtain ⟨_, hmid, hX⟩ := newestFirst_append.mp hleft
  obtain ⟨_, _, hLR⟩ := newestFirst_append.mp hmid
  have hemid : e ∈ source.flatMap (fileEntries tables) ++ target.flatMap (fileEntries tables) := by
    rw [CompactionTask.entries, CompactionTask.allInputFiles, List.flatMap_append] at he
    rcases List.mem_append.mp he with he | he
    · exact List.mem_append.mpr (.inl ((st.inputs.flatMap _).subset he))
    · exact List.mem_append.mpr (.inr ((st.overlaps.flatMap _).subset he))
  rcases ha with ha | ha
  · exact hX a (List.mem_append.mpr (.inl ha)) e hemid hk
  · rw [st.remaining_eq hst.toListed, List.flatMap_append, List.flatMap_append, List.flatMap_append] at ha
    simp only [List.mem_append] at ha
    rcases ha with ((ha | ha) | ha) | ha
    · exact hX a (List.mem_append.mpr (.inr ha)) e hemid hk
    · rw [CompactionTask.entries, CompactionTask.allInputFiles, List.flatMap_append] at he
      rcases List.mem_append.mp he with he | he
      · exact habove a ha e he hk
      · exact hLR a ((List.filter_sublist.flatMap _).subset ha) e
          ((st.overlaps.flatMap _).subset he) hk
    · exact absurd hk.symm (st.apart_target hst e he a ha)
    · exact absurd hk.symm (st.apart_below hst hdrop e he a ha)

theorem visible_eq (hp : Published v task above source target below outs v')
    (st : Stage v task above source target below) (hst : v.Stored tables) {mem : List Entry}
    (h : NewestFirst (mem ++ v.entries tables)) (h' : NewestFirst (mem ++ v'.entries tables))
    (habove : Above ((source.filter (fun f => f.number ∉ task.numbers)).flatMap (fileEntries tables))
      (task.inputFiles.flatMap (fileEntries tables))) {w : Nat} {drop : Bool}
    (hdrop : drop = true → canDropTombstones v task = true)
    (houts : ∀ e, e ∈ outs.flatMap (fileEntries tables) ↔
      e ∈ compactEntries (task.entries tables) w drop)
    {k : Bytes} {s : Nat} (hs : w ≤ s) :
    visible k s (mem ++ v'.entries tables) = visible k s (mem ++ v.entries tables) := by
  have hM : NewestFirst (task.entries tables) :=
    (newestFirst_append.mp h).2.1.sublist st.entries_sublist
  have hMsub : task.entries tables ⊆ mem ++ v.entries tables := fun e he =>
    List.mem_append.mpr (.inr (st.entries_sublist.subset he))
  have hmem := fun e => hp.mem_entries st.toShift hst.toListed (e := e)
  refine visible_of_droppable h h' ?_ ?_ hs
  · intro e he
    rcases List.mem_append.mp he with he | he
    · exact List.mem_append.mpr (.inl he)
    · rcases (hmem e).mp he with he | he
      · refine List.mem_append.mpr (.inr ?_)
        exact (List.filter_sublist.flatMap _).subset he
      · exact hMsub (mem_compactEntries.mp ((houts e).mp he)).1
  · intro e he hno
    have hno' : e ∉ compactEntries (task.entries tables) w drop := by
      intro hc
      exact hno (List.mem_append.mpr (.inr ((hmem e).mpr (.inr ((houts e).mpr hc)))))
    have heM : e ∈ task.entries tables := by
      rcases List.mem_append.mp he with he | he
      · exact absurd (List.mem_append.mpr (.inl he)) hno
      · obtain ⟨f, hf, hef⟩ := List.mem_flatMap.mp he
        by_cases hn : f.number ∈ task.numbers
        · obtain ⟨g, hg, hgn⟩ := List.mem_map.mp hn
          obtain rfl := hst.eq_of_number (st.input_mem hg) hf hgn
          exact List.mem_flatMap.mpr ⟨g, hg, hef⟩
        · have hrem : f ∈ v.remaining task := List.mem_filter.mpr ⟨hf, decide_eq_true hn⟩
          exact absurd (List.mem_append.mpr (.inr ((hmem e).mpr
            (.inl (List.mem_flatMap.mpr ⟨f, hrem, hef⟩))))) hno
    refine droppable_of_compactEntries hM hMsub heM hno' fun htrue a ha hac hk => ?_
    refine newer_of_remaining st hst h habove (hdrop htrue) heM ?_ hk
    rcases List.mem_append.mp ha with ha | ha
    · exact .inl ha
    · rcases (hmem a).mp ha with ha | ha
      · exact .inr ha
      · exact absurd ((houts a).mp ha) hac

end Published

/-- L0 files of a database without lower levels are merged in front of L0. -/
structure Front (v : Version) (task : CompactionTask) : Prop where
  files : v.files = v.l0Files
  inputs : task.inputFiles.Sublist v.l0Files
  overlaps : task.overlapFiles = []
  inputLevel : task.inputLevel = 0
  outputLevel : task.outputLevel = 0
  publish : ∀ vs : VersionSet, vs.current = v → ∀ outs : List FileMeta,
    vs.replay (DB.deleteEdits task ++ outs.map (VersionEdit.addFile task.outputLevel)) =
      .ok { vs with
        current := { v with l0Files := outs.reverse ++ v.remaining task }
        nextFileNumber := Version.nextAfter vs.nextFileNumber outs }

theorem front_zero {v : Version} {tables : Nat → Option Table} (hst : v.Listed tables)
    (hl : v.levels.length < 2) {task : CompactionTask} (hlev : task.inputLevel = 0)
    (hout : task.outputLevel = 0) (hover : task.overlapFiles = [])
    (hinputs : task.inputFiles.Sublist v.l0Files) : Front v task := by
  have hflat : v.levels.flatten = [] := by
    cases hlev : v.levels with
    | nil => rfl
    | cons level levels =>
      have hzero := hst.levelZero level (by rw [hlev]; rfl)
      have hnil : levels = [] := by
        rw [hlev, List.length_cons] at hl
        exact List.length_eq_zero_iff.mp (by omega)
      simp [hzero, hnil]
  have hvf : v.files = v.l0Files := by rw [Version.files, hflat, List.append_nil]
  refine ⟨hvf, hinputs, hover, hlev, hout, ?_⟩
  rintro vs rfl outs
  have hnums : task.numbers = task.inputFiles.map FileMeta.number := by
    rw [CompactionTask.numbers, CompactionTask.allInputFiles, hover, List.append_nil]
  rw [deleteEdits_eq (by simp [hover]), hover, hout, VersionSet.replay_append,
    List.map_nil, List.map_nil, List.append_nil, hlev,
    Version.replay_deletes_zero vs (task.inputFiles.map FileMeta.number)]
  simp only [Except.bind]
  rw [Version.replay_adds_zero, Version.remaining, hvf, hnums]

theorem taskForFiles_shallow {v : Version} {tables : Nat → Option Table} (hst : v.Listed tables)
    (hl : v.levels.length < 2) (files : List FileMeta) :
    (CompactionPicker.taskForFiles v 0 files true).outputLevel = 0 ∧
      (CompactionPicker.taskForFiles v 0 files true).overlapFiles = [] := by
  have hout : min (0 + 1) (v.levels.length - 1) = 0 := by omega
  refine ⟨hout, ?_⟩
  simp only [CompactionPicker.taskForFiles, hout, if_true]
  cases hlev : v.levels with
  | nil => rfl
  | cons level levels => exact hst.levelZero level (by rw [hlev]; rfl)

theorem front_l0 {v : Version} {tables : Nat → Option Table} (hst : v.Listed tables)
    (hl : v.levels.length < 2) (files : List FileMeta) (hfiles : files.Sublist v.l0Files) :
    Front v (CompactionPicker.taskForFiles v 0 files true) := by
  obtain ⟨hout, hover⟩ := taskForFiles_shallow hst hl files
  exact front_zero hst hl rfl hout hover hfiles

namespace Front

variable {v : Version} {task : CompactionTask} {tables : Nat → Option Table}

theorem allInputFiles_eq (fr : Front v task) : task.allInputFiles = task.inputFiles := by
  rw [CompactionTask.allInputFiles, fr.overlaps, List.append_nil]

theorem input_mem (fr : Front v task) {f : FileMeta} (hf : f ∈ task.allInputFiles) :
    f ∈ v.files := by
  rw [fr.files]
  exact fr.inputs.subset (fr.allInputFiles_eq ▸ hf)

theorem entries_sublist (fr : Front v task) : (task.entries tables).Sublist (v.entries tables) := by
  rw [CompactionTask.entries, fr.allInputFiles_eq, Version.entries, fr.files]
  exact fr.inputs.flatMap _

theorem files_published (fr : Front v task) (outs : List FileMeta) :
    ({ v with l0Files := outs.reverse ++ v.remaining task } : Version).files =
      outs.reverse ++ v.remaining task := by
  have hflat : v.levels.flatten = [] := by
    have := fr.files
    rw [Version.files] at this
    exact List.append_right_eq_self.mp this
  rw [Version.files, hflat, List.append_nil]

theorem files_perm (fr : Front v task) (outs : List FileMeta) :
    ({ v with l0Files := outs.reverse ++ v.remaining task } : Version).files.Perm
      (v.remaining task ++ outs) := by
  rw [fr.files_published]
  exact ((List.reverse_perm _).append_right _).trans List.perm_append_comm

theorem listed (fr : Front v task) (hst : v.Listed tables) {outs : List FileMeta}
    (ho : Placed v task tables outs) :
    ({ v with l0Files := outs.reverse ++ v.remaining task } : Version).Listed tables :=
  ho.listed hst (fr.files_perm outs) hst.levelZero

theorem stored (fr : Front v task) (hst : v.Stored tables) {outs : List FileMeta}
    (ho : Outputs v task tables outs) :
    ({ v with l0Files := outs.reverse ++ v.remaining task } : Version).Stored tables :=
  ⟨fr.listed hst.toListed ho.toPlaced, hst.ranges⟩

theorem entries_published (fr : Front v task) (outs : List FileMeta) :
    ({ v with l0Files := outs.reverse ++ v.remaining task } : Version).entries tables =
      outs.reverse.flatMap (fileEntries tables) ++
        (v.remaining task).flatMap (fileEntries tables) := by
  rw [Version.entries, fr.files_published, List.flatMap_append]

theorem newestFirst (fr : Front v task) {outs : List FileMeta}
    (ho : Outputs v task tables outs) {mem : List Entry}
    (h : NewestFirst (mem ++ v.entries tables))
    (habove : Above (task.entries tables) ((v.remaining task).flatMap (fileEntries tables)))
    (hsub : ∀ e ∈ outs.flatMap (fileEntries tables), e ∈ task.entries tables)
    (hnew : ∀ o ∈ outs, NewestFirst (fileEntries tables o)) :
    NewestFirst (mem ++ ({ v with l0Files := outs.reverse ++ v.remaining task } : Version).entries
      tables) := by
  rw [fr.entries_published]
  refine h.mergeFront (S := task.entries tables) (List.filter_sublist.flatMap _)
    (fr.entries_sublist.subset) habove ?_ ?_
  · refine newestFirst_of_separate (fun f hf => ho.described f (List.mem_reverse.mp hf)) ?_
      fun f hf => hnew f (List.mem_reverse.mp hf)
    exact separate_of_perm (List.reverse_perm outs) ho.ranges.separate
  · intro e he
    obtain ⟨f, hf, he⟩ := List.mem_flatMap.mp he
    exact hsub e (List.mem_flatMap.mpr ⟨f, List.mem_reverse.mp hf, he⟩)

theorem visible_eq (fr : Front v task) (hst : v.Listed tables) {outs : List FileMeta}
    {mem : List Entry} (h : NewestFirst (mem ++ v.entries tables))
    (h' : NewestFirst (mem ++ ({ v with l0Files := outs.reverse ++ v.remaining task } :
      Version).entries tables))
    (hnewer : Above ((v.remaining task).flatMap (fileEntries tables)) (task.entries tables))
    {w : Nat} {drop : Bool} (houts : ∀ e, e ∈ outs.flatMap (fileEntries tables) ↔
      e ∈ compactEntries (task.entries tables) w drop) {k : Bytes} {s : Nat} (hs : w ≤ s) :
    visible k s (mem ++ ({ v with l0Files := outs.reverse ++ v.remaining task } :
      Version).entries tables) = visible k s (mem ++ v.entries tables) := by
  have hmem : ∀ e, e ∈ mem ++ ({ v with l0Files := outs.reverse ++ v.remaining task } :
      Version).entries tables ↔ e ∈ mem ∨ e ∈ compactEntries (task.entries tables) w drop ∨
        e ∈ (v.remaining task).flatMap (fileEntries tables) := by
    intro e
    rw [fr.entries_published, List.mem_append, List.mem_append,
      ((List.reverse_perm outs).flatMap_right _).mem_iff, houts]
  have hM : NewestFirst (task.entries tables) :=
    (newestFirst_append.mp h).2.1.sublist fr.entries_sublist
  have hMsub : task.entries tables ⊆ mem ++ v.entries tables := fun e he =>
    List.mem_append.mpr (.inr (fr.entries_sublist.subset he))
  have habove := (newestFirst_append.mp h).2.2
  refine visible_of_droppable h h' ?_ ?_ hs
  · intro e he
    rcases (hmem e).mp he with he | he | he
    · exact List.mem_append.mpr (.inl he)
    · exact hMsub (mem_compactEntries.mp he).1
    · exact List.mem_append.mpr (.inr ((List.filter_sublist.flatMap _).subset he))
  · intro e he hno
    rw [hmem, not_or, not_or] at hno
    have heM : e ∈ task.entries tables := by
      rcases List.mem_append.mp he with he | he
      · exact absurd he hno.1
      · obtain ⟨f, hf, hef⟩ := List.mem_flatMap.mp he
        by_cases hn : f.number ∈ task.numbers
        · obtain ⟨g, hg, hgn⟩ := List.mem_map.mp hn
          obtain rfl := hst.eq_of_number (fr.input_mem hg) hf hgn
          exact List.mem_flatMap.mpr ⟨g, hg, hef⟩
        · exact absurd (List.mem_flatMap.mpr
            ⟨f, List.mem_filter.mpr ⟨hf, decide_eq_true hn⟩, hef⟩) hno.2.2
    refine droppable_of_compactEntries hM hMsub heM hno.2.1 fun _ a ha hac hk => ?_
    rcases (hmem a).mp ha with ha | ha | ha
    · exact habove a ha e (fr.entries_sublist.subset heM) hk
    · exact absurd ha hac
    · exact hnewer a ha e heM hk

end Front

end TyLsm
