import TyLsm.Oracle

/-! Stopping the process inside a compaction. Its manifest edits are logged one by one,
so that a crash leaves a version without some of the input files and with only some
of the outputs. -/

namespace TyLsm

/-- `v'` has only some of the files of `v`. -/
structure Version.Part (v' v : Version) : Prop where
  l0 : v'.l0Files.Sublist v.l0Files
  levels : List.Forall₂ List.Sublist v'.levels v.levels

namespace Version.Part

variable {v v' v'' : Version}

theorem refl (v : Version) : Part v v :=
  ⟨List.Sublist.refl _, List.forall₂_same.mpr fun _ _ => List.Sublist.refl _⟩

theorem trans (h : Part v'' v') (h' : Part v' v) : Part v'' v := by
  refine ⟨h.l0.trans h'.l0, ?_⟩
  have hl := h.levels
  have hl' := h'.levels
  generalize v''.levels = a at hl
  generalize v'.levels = b at hl hl'
  generalize v.levels = c at hl'
  induction hl generalizing c with
  | nil => exact hl'
  | cons hab _ ih =>
    cases hl' with
    | cons hbc hrest => exact .cons (hab.trans hbc) (ih _ hrest)

theorem flatten_sublist {levels levels' : List (List FileMeta)}
    (h : List.Forall₂ List.Sublist levels' levels) : levels'.flatten.Sublist levels.flatten := by
  induction h with
  | nil => exact List.Sublist.refl _
  | cons hab _ ih => exact hab.append ih

theorem exists_level {levels levels' : List (List FileMeta)}
    (h : List.Forall₂ List.Sublist levels' levels) {level : List FileMeta} (hl : level ∈ levels') :
    ∃ l ∈ levels, level.Sublist l := by
  induction h with
  | nil => cases hl
  | @cons a b _ _ hab _ ih =>
    rcases List.mem_cons.mp hl with rfl | hl
    · exact ⟨b, by simp, hab⟩
    · obtain ⟨l, hmem, hsub⟩ := ih hl
      exact ⟨l, by simp [hmem], hsub⟩

theorem files (h : Part v' v) : v'.files.Sublist v.files :=
  h.l0.append (flatten_sublist h.levels)

theorem listed {tables : Nat → Option Table} (h : Part v' v) (hst : v.Listed tables) :
    v'.Listed tables := by
  refine ⟨fun f hf => hst.described f (h.files.subset hf),
    hst.nodup.sublist (h.files.map _), fun level hlevel => ?_⟩
  have hl := h.levels
  cases hv' : v'.levels with
  | nil => simp [hv'] at hlevel
  | cons a as =>
    rw [hv', List.head?_cons, Option.some.injEq] at hlevel
    subst hlevel
    rw [hv'] at hl
    obtain ⟨b, bs, hab, _, hv⟩ := List.forall₂_cons_left_iff.mp hl
    have hb := hst.levelZero b (by rw [hv]; rfl)
    rw [hb] at hab
    exact List.sublist_nil.mp hab

theorem stored {tables : Nat → Option Table} (h : Part v' v) (hst : v.Stored tables) :
    v'.Stored tables := by
  refine ⟨h.listed hst.toListed, fun level hlevel => ?_⟩
  obtain ⟨l, hl, hsub⟩ := exists_level h.levels hlevel
  exact (hst.ranges l hl).sublist hsub

theorem set_filter (levels : List (List FileMeta)) (i : Nat) (l : List FileMeta)
    (hl : levels[i]? = some l) (p : FileMeta → Bool) :
    List.Forall₂ List.Sublist (levels.set i (l.filter p)) levels := by
  induction levels generalizing i with
  | nil => simp at hl
  | cons a as ih =>
    cases i with
    | zero =>
      obtain rfl : a = l := by simpa using hl
      exact .cons List.filter_sublist (List.forall₂_same.mpr fun _ _ => List.Sublist.refl _)
    | succ i => exact .cons (List.Sublist.refl _) (ih i (by simpa using hl))

end Version.Part

theorem Version.deleteFile_part {v v' : Version} {level number : Nat}
    (h : v.deleteFile level number = .ok v') :
    v'.Part v ∧ ∀ f ∈ v.files, f.number ≠ number → f ∈ v'.files := by
  unfold Version.deleteFile at h
  split at h
  · obtain rfl := Except.ok.inj h
    refine ⟨⟨List.filter_sublist, List.forall₂_same.mpr fun _ _ => List.Sublist.refl _⟩, ?_⟩
    intro f hf hne
    rcases List.mem_append.mp hf with hf | hf
    · exact List.mem_append.mpr (.inl (List.mem_filter.mpr ⟨hf, by simpa using hne⟩))
    · exact List.mem_append.mpr (.inr hf)
  · split at h
    · rename_i files hfiles
      obtain rfl := Except.ok.inj h
      refine ⟨⟨List.Sublist.refl _, Part.set_filter _ _ _ hfiles _⟩, ?_⟩
      intro f hf hne
      rcases List.mem_append.mp hf with hf | hf
      · exact List.mem_append.mpr (.inl hf)
      · refine List.mem_append.mpr (.inr ?_)
        obtain ⟨l, hl, hfl⟩ := List.mem_flatten.mp hf
        obtain ⟨i, hi⟩ := List.mem_iff_getElem?.mp hl
        by_cases hil : i = level
        · subst hil
          rw [hfiles] at hi
          obtain rfl := Option.some.inj hi
          refine List.mem_flatten.mpr ⟨_, List.mem_of_getElem? (List.getElem?_set_self ?_), ?_⟩
          · exact (List.getElem?_eq_some_iff.mp hfiles).1
          · exact List.mem_filter.mpr ⟨hfl, by simpa using hne⟩
        · refine List.mem_flatten.mpr ⟨l, List.mem_of_getElem? (i := i) ?_, hfl⟩
          rw [List.getElem?_set_ne (fun he => hil he.symm)]
          exact hi
    · cases h

theorem VersionSet.replay_deletes {edits : List VersionEdit} {numbers : List Nat}
    (hd : ∀ edit ∈ edits, ∃ level n, edit = .deleteFile level n ∧ n ∈ numbers)
    {vs vs' : VersionSet} (h : vs.replay edits = .ok vs') :
    vs' = { vs with current := vs'.current } ∧ vs'.current.Part vs.current ∧
      ∀ f ∈ vs.current.files, f.number ∉ numbers → f ∈ vs'.current.files := by
  induction edits generalizing vs with
  | nil =>
    obtain rfl := Except.ok.inj h
    exact ⟨rfl, Version.Part.refl _, fun f hf _ => hf⟩
  | cons edit edits ih =>
    obtain ⟨level, n, rfl, hn⟩ := hd edit (by simp)
    cases hdel : vs.current.deleteFile level n with
    | error err => simp [VersionSet.replay, VersionSet.applyEdit, hdel] at h
    | ok next =>
      simp only [VersionSet.replay, VersionSet.applyEdit, hdel] at h
      obtain ⟨heq, hpart, hkeep⟩ := ih (fun e he => hd e (by simp [he])) h
      obtain ⟨hpart', hkeep'⟩ := Version.deleteFile_part hdel
      exact ⟨heq, hpart.trans hpart', fun f hf hno =>
        hkeep f (hkeep' f hf fun he => hno (he ▸ hn)) hno⟩

theorem Placed.sublist {v : Version} {task : CompactionTask} {tables : Nat → Option Table}
    {outs outs' : List FileMeta} (h : Placed v task tables outs) (hs : outs'.Sublist outs) :
    Placed v task tables outs' :=
  ⟨fun o ho => h.described o (hs.subset ho), h.nodup.sublist (hs.map _),
    fun o ho => h.fresh o (hs.subset ho)⟩

theorem Outputs.sublist {v : Version} {task : CompactionTask} {tables : Nat → Option Table}
    {outs outs' : List FileMeta} (h : Outputs v task tables outs) (hs : outs'.Sublist outs) :
    Outputs v task tables outs' :=
  ⟨h.toPlaced.sublist hs, h.ranges.sublist hs, fun o ho => h.lower o (hs.subset ho),
    fun o ho => h.upper o (hs.subset ho)⟩

namespace DB

variable {db : DB} {task : CompactionTask} {lower upper : Bound}

theorem Ok.allInputFiles_sublist (h : db.Ok)
    (hpick : CompactionPicker.pickManual db.versions.current lower upper = some task) :
    task.allInputFiles.Sublist db.versions.current.files :=
  h.stored.toListed.allInputFiles_sublist hpick

theorem Ok.publishes (h : db.Ok)
    (hpick : CompactionPicker.pickManual db.versions.current lower upper = some task)
    {tables : Nat → Option Table}
    (hagree : ∀ f ∈ db.versions.current.files, tables f.number = db.disk.tables f.number)
    {outs : List FileMeta} (ho : Outputs db.versions.current task tables outs)
    (hsub : ∀ e ∈ outs.flatMap (fileEntries tables), e ∈ task.entries tables)
    (hnew : ∀ o ∈ outs, NewestFirst (fileEntries tables o)) :
    ∃ v', Replaces db.versions.current task tables outs v' ∧ v'.Stored tables ∧
      (db.KeepsOrder lower upper → NewestFirst (db.state.memEntries ++ v'.entries tables)) := by
  have hst := h.stored.congr hagree
  have hall : NewestFirst (db.state.memEntries ++ db.versions.current.entries tables) := by
    rw [Version.entries_congr hagree]
    exact h.stateOk.newestFirst
  have hin := (h.allInputFiles_sublist hpick).subset
  have hinputs : task.inputFiles.flatMap (fileEntries tables) =
      task.inputFiles.flatMap (fileEntries db.disk.tables) :=
    flatMap_fileEntries_congr fun f hf => hagree f (hin (List.mem_append.mpr (.inl hf)))
  rcases (h.task_cases hpick).2 with ⟨above, source, target, below, st, habove⟩ | ⟨fr, habove, _⟩
  · obtain ⟨v', hp, hreplay⟩ := st.published hst.toListed outs
    have hst' := hp.stored st hst ho
    refine ⟨v', ⟨hreplay, hst'.toListed, hp.files_perm st.toShift hst.toListed⟩, hst',
      fun horder => ?_⟩
    refine hp.newestFirst st hst ho hall ?_ hsub hnew
    rw [hinputs, flatMap_fileEntries_congr fun f hf =>
      hagree f (st.source_mem (List.mem_filter.mp hf).1)]
    exact habove (.inl horder)
  · have hst' := fr.stored hst ho
    refine ⟨_, ⟨fun vs hvs => fr.publish vs hvs _, hst'.toListed, fr.files_perm outs⟩, hst',
      fun horder => ?_⟩
    refine fr.newestFirst ho hall ?_ hsub hnew
    have hrem : (db.versions.current.remaining task).flatMap (fileEntries tables) =
        (db.versions.current.remaining task).flatMap (fileEntries db.disk.tables) :=
      flatMap_fileEntries_congr fun f hf => hagree f (List.mem_filter.mp hf).1
    have htask : task.entries tables = task.entries db.disk.tables :=
      flatMap_fileEntries_congr fun f hf => hagree f (hin hf)
    rw [hrem, htask]
    exact habove horder

/-- The files that are listed after the first `j` edits of a task that publishes `outs`. -/
def ListedAfter (db : DB) (task : CompactionTask) (outs : List FileMeta) (j : Nat)
    (f : FileMeta) : Prop :=
  (f ∈ db.versions.current.files ∧ f.number ∉ task.numbers.take j) ∨
    f ∈ outs.take (j - task.numbers.length)

theorem deleteFile_of_mem {l : List FileMeta} {level : FileMeta → Nat} {edit : VersionEdit}
    (he : edit ∈ l.map (fun file => VersionEdit.deleteFile (level file) file.number)) :
    ∃ level n, edit = .deleteFile level n ∧ n ∈ l.map FileMeta.number := by
  obtain ⟨f, hf, rfl⟩ := List.mem_map.mp he
  exact ⟨_, _, rfl, List.mem_map.mpr ⟨f, hf, rfl⟩⟩

/-- The first `j` delete edits unlist the first `j` files of the task, and no others. -/
theorem Sound.logged_deletes (h : db.Sound)
    (hpick : CompactionPicker.pickManual db.versions.current lower upper = some task) (j : Nat) :
    ∃ v', db.versions.replay ((deleteEdits task).take j) =
        .ok { db.versions with current := v' } ∧ v'.Part db.versions.current ∧
      ∀ f, f ∈ v'.files ↔ f ∈ db.versions.current.files ∧ f.number ∉ task.numbers.take j := by
  have hnd : task.numbers.Nodup :=
    h.listed.nodup.sublist ((h.listed.allInputFiles_sublist hpick).map _)
  have hd₁ : ∀ edit ∈ (deleteEdits task).take j,
      ∃ level n, edit = .deleteFile level n ∧ n ∈ task.numbers.take j := by
    rw [deleteEdits, ← List.map_take, CompactionTask.numbers, ← List.map_take]
    exact fun edit => deleteFile_of_mem
  have hd₂ : ∀ edit ∈ (deleteEdits task).drop j,
      ∃ level n, edit = .deleteFile level n ∧ n ∈ task.numbers.drop j := by
    rw [deleteEdits, ← List.map_drop, CompactionTask.numbers, ← List.map_drop]
    exact fun edit => deleteFile_of_mem
  -- all delete edits together succeed and leave none of the input files
  have hnone : Placed db.versions.current task db.disk.tables [] :=
    ⟨fun _ ho => absurd ho List.not_mem_nil, List.nodup_nil,
      fun _ ho => absurd ho List.not_mem_nil⟩
  obtain ⟨v₀, hr⟩ := h.listed.publishes hpick hnone
  have hfull := hr.replay db.versions rfl
  rw [List.map_nil, List.append_nil, ← List.take_append_drop j (deleteEdits task),
    VersionSet.replay_append] at hfull
  cases hmid : db.versions.replay ((deleteEdits task).take j) with
  | error err =>
    rw [hmid] at hfull
    cases hfull
  | ok vs =>
    rw [hmid] at hfull
    obtain ⟨hvs, hpart, hkeep⟩ := VersionSet.replay_deletes hd₁ hmid
    obtain ⟨_, _, hkeep'⟩ := VersionSet.replay_deletes hd₂ hfull
    refine ⟨vs.current, congrArg Except.ok hvs, hpart, fun f => ⟨fun hf => ?_, fun hf => ?_⟩⟩
    · refine ⟨hpart.files.subset hf, fun hmem => ?_⟩
      -- a file whose edit is logged and that is still listed would stay to the end
      have hnot : f.number ∉ task.numbers.drop j := by
        rw [← List.take_append_drop j task.numbers] at hnd
        exact fun hmem' => (List.nodup_append.mp hnd).2.2 _ hmem _ hmem' rfl
      have hin := hr.perm.mem_iff.mp (hkeep' f hf hnot)
      rw [List.append_nil] at hin
      exact of_decide_eq_true (List.mem_filter.mp hin).2 (List.mem_of_mem_take hmem)
    · exact hkeep f hf.1 hf.2

theorem Sound.logged (h : db.Sound)
    (hpick : CompactionPicker.pickManual db.versions.current lower upper = some task)
    {tables : Nat → Option Table}
    (hagree : ∀ f ∈ db.versions.current.files, tables f.number = db.disk.tables f.number)
    {outs : List FileMeta} (ho : Placed db.versions.current task tables outs) (j : Nat) :
    ∃ v', db.versions.replay
        ((deleteEdits task ++ outs.map (VersionEdit.addFile task.outputLevel)).take j) =
          .ok { db.versions with
            current := v'
            nextFileNumber := Version.nextAfter db.versions.nextFileNumber
              (outs.take (j - task.numbers.length)) } ∧
      v'.Listed tables ∧ (∀ f, f ∈ v'.files ↔ db.ListedAfter task outs j f) ∧
      (j ≤ task.numbers.length ∧ v'.Part db.versions.current ∨ task.numbers.length < j ∧
        Replaces db.versions.current task tables (outs.take (j - task.numbers.length)) v') := by
  have hlisted := h.listed.congr hagree
  have hlen : (deleteEdits task).length = task.numbers.length := by
    simp [deleteEdits, CompactionTask.numbers]
  by_cases hj : j ≤ task.numbers.length
  · have hno : outs.take (j - task.numbers.length) = [] := by
      rw [Nat.sub_eq_zero_of_le hj, List.take_zero]
    obtain ⟨v', hreplay, hpart, hfiles⟩ := h.logged_deletes hpick j
    refine ⟨v', ?_, hpart.listed hlisted, fun f => ?_, .inl ⟨hj, hpart⟩⟩
    · rw [hno, List.take_append, hlen, Nat.sub_eq_zero_of_le hj, List.take_zero, List.append_nil]
      exact hreplay
    · rw [hfiles, ListedAfter, hno]
      simp
  · obtain ⟨v', hr⟩ := hlisted.publishes hpick
      (ho.sublist (List.take_sublist (j - task.numbers.length) outs))
    refine ⟨v', ?_, hr.listed, fun f => ?_, .inr ⟨by omega, hr⟩⟩
    · rw [List.take_append, hlen, List.take_of_length_le (by omega), ← List.map_take]
      exact hr.replay db.versions rfl
    · have htake : task.numbers.take j = task.numbers := List.take_of_length_le (by omega)
      rw [hr.perm.mem_iff, List.mem_append, Version.remaining, List.mem_filter, ListedAfter, htake]
      simp

theorem Ok.logged (h : db.Ok)
    (hpick : CompactionPicker.pickManual db.versions.current lower upper = some task)
    {tables : Nat → Option Table}
    (hagree : ∀ f ∈ db.versions.current.files, tables f.number = db.disk.tables f.number)
    {outs : List FileMeta} (ho : Outputs db.versions.current task tables outs)
    (hsub : ∀ e ∈ outs.flatMap (fileEntries tables), e ∈ task.entries tables)
    (hnew : ∀ o ∈ outs, NewestFirst (fileEntries tables o)) (j : Nat) :
    ∃ v', db.versions.replay
        ((deleteEdits task ++ outs.map (VersionEdit.addFile task.outputLevel)).take j) =
          .ok { db.versions with
            current := v'
            nextFileNumber := Version.nextAfter db.versions.nextFileNumber
              (outs.take (j - task.numbers.length)) } ∧
      v'.Stored tables ∧ (∀ f, f ∈ v'.files ↔ db.ListedAfter task outs j f) ∧
      (j ≤ task.numbers.length ∨ db.KeepsOrder lower upper →
        NewestFirst (db.state.memEntries ++ v'.entries tables)) := by
  obtain ⟨v', hreplay, _, hfiles, hcases⟩ := h.sound.logged hpick hagree ho.toPlaced j
  rcases hcases with ⟨_, hpart⟩ | ⟨hj, hr⟩
  · refine ⟨v', hreplay, hpart.stored (h.stored.congr hagree), hfiles, fun _ => ?_⟩
    refine NewestFirst.sublist ?_ ((List.Sublist.refl _).append (hpart.files.flatMap _))
    have := h.stateOk.newestFirst
    rwa [← Version.entries_congr hagree] at this
  · obtain ⟨v, hr', hst, horder⟩ := h.publishes hpick hagree
      (ho.sublist (List.take_sublist (j - task.numbers.length) outs))
      (fun e he => hsub e (((List.take_sublist _ _).flatMap _).subset he))
      (fun o hmem => hnew o (List.mem_of_mem_take hmem))
    obtain rfl : v = v' := congrArg VersionSet.current
      (Except.ok.inj ((hr'.replay db.versions rfl).symm.trans (hr.replay db.versions rfl)))
    exact ⟨v, hreplay, hst, hfiles, fun hcond => horder (hcond.resolve_left (by omega))⟩

/-- What a compaction of a searchable database does: the outputs lie side by side within
the range of the input, and each is in search order. -/
structure Executes (db db' : DB) (task : CompactionTask) (refs : List TableRef)
    (outs : List FileMeta) (removed : List Nat) : Prop
    extends Performs db db' task refs outs removed where
  outputs : Outputs db.versions.current task (db.disk.withTables refs) outs
  newestFirst : ∀ o ∈ outs, NewestFirst (fileEntries (db.disk.withTables refs) o)

theorem Executes.subset {db' : DB} {refs : List TableRef} {outs : List FileMeta}
    {removed : List Nat} (he : Executes db db' task refs outs removed) :
    ∀ e ∈ outs.flatMap (fileEntries (db.disk.withTables refs)), e ∈ task.entries db.disk.tables :=
  fun _ hmem => (mem_compactEntries.mp (he.mem_outs.mp hmem)).1

theorem Ok.execute (h : db.Ok)
    (hpick : CompactionPicker.pickManual db.versions.current lower upper = some task)
    (hsplit : db.SplitSafe task) :
    ∃ db' refs outs removed, executeCompaction task db = .ok true db' ∧
      Executes db db' task refs outs removed := by
  obtain ⟨db', refs, outs, removed, hrun, hp⟩ := h.sound.execute hpick
  have hin := (h.allInputFiles_sublist hpick).subset
  refine ⟨db', refs, outs, removed, hrun, hp, hp.outputs h.sound (fun f hf => hin hf)
    hsplit.emptyKeyFits, ?_⟩
  exact hp.newestFirst_outs ((newestFirst_append.mp h.stateOk.newestFirst).2.1.sublist
    (h.entries_sublist hpick))

/-- The directory when the process stops after the first `i` operations that lead from
`db` to `db'`. -/
def crashed (db db' : DB) (i : Nat) : Disk :=
  db.disk.applyAll ((db'.journal.drop db.journal.length).take i)

/-- Opening the directory leads to the same reads from the watermark on. -/
def RecoversFrom (db : DB) (disk : Disk) : Prop :=
  ∃ r, DB.open db.env disk db.options = .ok r ∧ ∀ s, db.gcWatermark ≤ s →
    (∀ k, r.getOpt k (some s) = db.getOpt k (some s)) ∧
    ∀ lower upper, r.scanOpt lower upper (some s) = db.scanOpt lower upper (some s)

/-- The newest record of a key up to a sequence, whatever the order of `l`. -/
def NewestUpTo (l : List Entry) (k : Bytes) (s : Nat) (e : Entry) : Prop :=
  e ∈ l ∧ e.1.userKey = k ∧ e.1.sequence ≤ s ∧
    ∀ a ∈ l, a.1.userKey = k → a.1.sequence ≤ s → a.1.sequence ≤ e.1.sequence

/-- Some read from `w` on finds the record: no newer one of its key is at or below `w`. -/
def Exposed (w : Nat) (l : List Entry) (e : Entry) : Prop :=
  ∀ a ∈ l, a.1.userKey = e.1.userKey → e.1.sequence < a.1.sequence → w < a.1.sequence

/-- `rest` makes up for the record: it repeats the next older record of its key, or it is a
tombstone with nothing older below it. -/
def Redundant (rest : List Entry) (e : Entry) : Prop :=
  (∃ a ∈ rest, NewestUpTo rest e.1.userKey e.1.sequence a ∧
    a.2.intoVisibleValue = e.2.intoVisibleValue) ∨
  e.2.intoVisibleValue = none ∧
    ∀ a ∈ rest, a.1.userKey = e.1.userKey → e.1.sequence < a.1.sequence

/-- The records that stay listed when the first `j` files of the task are not. -/
def withoutInputs (db : DB) (task : CompactionTask) (j : Nat) : List Entry :=
  db.state.memEntries ++
    (db.versions.current.files.filter (fun f => f.number ∉ task.numbers.take j)).flatMap
      (fileEntries db.disk.tables)

/-- The first `j` files of the task may go before anything takes their place: each of their
records that a read from the watermark on finds is made up for by what stays. -/
def InputsSpare (db : DB) (task : CompactionTask) (j : Nat) : Prop :=
  ∀ e ∈ (task.allInputFiles.take j).flatMap (fileEntries db.disk.tables),
    Exposed db.gcWatermark db.allEntries e → Redundant (db.withoutInputs task j) e

instance (l : List Entry) (k : Bytes) (s : Nat) (e : Entry) : Decidable (NewestUpTo l k s e) :=
  inferInstanceAs (Decidable (_ ∧ _))

instance (w : Nat) (l : List Entry) (e : Entry) : Decidable (Exposed w l e) :=
  inferInstanceAs (Decidable (∀ a ∈ l, _))

instance (rest : List Entry) (e : Entry) : Decidable (Redundant rest e) :=
  inferInstanceAs (Decidable (_ ∨ _))

instance (db : DB) (task : CompactionTask) (j : Nat) : Decidable (db.InputsSpare task j) :=
  inferInstanceAs (Decidable (∀ e ∈ _, _))

/-- The number of edits by which the manifest is longer when the process stops after the first
`i` operations that lead from `db` to `db'`. -/
def editsLogged (db db' : DB) (i : Nat) : Nat :=
  (db.crashed db' i).manifest.length - db.disk.manifest.length

theorem newestUpTo_iff {l : List Entry} (h : NewestFirst l) {k : Bytes} {s : Nat} {e : Entry} :
    NewestUpTo l k s e ↔ newest k s l = some e := by
  rw [h.newest_eq_some_iff]
  rfl

theorem redundant_congr {l l' : List Entry} {e : Entry}
    (hm : ∀ a, a.1.userKey = e.1.userKey → a.1.sequence ≤ e.1.sequence → (a ∈ l ↔ a ∈ l')) :
    Redundant l e ↔ Redundant l' e := by
  have himp : ∀ {l l' : List Entry}, (∀ a, a.1.userKey = e.1.userKey →
      a.1.sequence ≤ e.1.sequence → (a ∈ l ↔ a ∈ l')) → Redundant l e → Redundant l' e := by
    intro l l' hm h
    rcases h with ⟨a, ha, ⟨_, hk, hs, hmax⟩, hval⟩ | ⟨hval, hnone⟩
    · have ha' := (hm a hk hs).mp ha
      exact .inl ⟨a, ha', ⟨ha', hk, hs, fun b hb hbk hbs => hmax b ((hm b hbk hbs).mpr hb) hbk hbs⟩,
        hval⟩
    · refine .inr ⟨hval, fun a ha hk => ?_⟩
      by_contra hle
      exact hle (hnone a ((hm a hk (not_lt.mp hle)).mpr ha) hk)
  exact ⟨himp hm, himp fun a hk hs => (hm a hk hs).symm⟩

theorem Exposed.newestUpTo {w : Nat} {l : List Entry} {e : Entry} (h : Exposed w l e)
    (he : e ∈ l) : NewestUpTo l e.1.userKey (max w e.1.sequence) e := by
  refine ⟨he, rfl, le_max_right _ _, fun a ha hk hs => ?_⟩
  by_contra hlt
  have := h a ha hk (not_le.mp hlt)
  omega

theorem NewestUpTo.exposed {w s : Nat} {l : List Entry} {k : Bytes} {e : Entry}
    (h : NewestUpTo l k s e) (hs : w ≤ s) : Exposed w l e := by
  obtain ⟨_, hk, _, hmax⟩ := h
  intro a ha hak hlt
  by_contra hle
  have := hmax a ha (hak.trans hk) (by omega)
  omega

/-- Up to a sequence, the part of a list has nothing newer of a key than the list has. -/
theorem NewestUpTo.le_of_subset {s : Nat} {l l' : List Entry} {k : Bytes} {e a : Entry}
    (h : NewestUpTo l k s e) (hsub : ∀ e ∈ l', e ∈ l) (ha : a ∈ l') (hk : a.1.userKey = k)
    (hs : a.1.sequence ≤ s) : a.1.sequence ≤ e.1.sequence :=
  h.2.2.2 a (hsub a ha) hk hs

theorem visible_of_redundant {s : Nat} {l l' : List Entry} {e : Entry} (h' : NewestFirst l')
    (hsub : ∀ e ∈ l', e ∈ l) (hnew : NewestUpTo l e.1.userKey s e) (hred : Redundant l' e) :
    visible e.1.userKey s l' = e.2.intoVisibleValue := by
  rcases hred with ⟨a, ha, ⟨_, hk, hs, hmax⟩, hval⟩ | ⟨hval, hnone⟩
  · have hna : NewestUpTo l' e.1.userKey s a := by
      refine ⟨ha, hk, hs.trans hnew.2.2.1, fun b hb hbk hbs => ?_⟩
      exact hmax b hb hbk (hnew.le_of_subset hsub hb hbk hbs)
    rw [visible, (newestUpTo_iff h').mp hna, Option.bind_some, hval]
  · have hno : newest e.1.userKey s l' = none := by
      refine newest_eq_none_iff.mpr fun a ha hk => ?_
      by_contra hle
      have hlt := hnone a ha hk
      have := hnew.le_of_subset hsub ha hk (not_lt.mp hle)
      omega
    rw [visible, hno, Option.bind_none, hval]

theorem redundant_of_visible {s : Nat} {l l' : List Entry} {e : Entry} (h' : NewestFirst l')
    (hsub : ∀ e ∈ l', e ∈ l) (hnew : NewestUpTo l e.1.userKey s e)
    (hvis : visible e.1.userKey s l' = e.2.intoVisibleValue) : Redundant l' e := by
  rw [visible] at hvis
  cases hn : newest e.1.userKey s l' with
  | none =>
    rw [hn, Option.bind_none] at hvis
    refine .inr ⟨hvis.symm, fun a ha hk => ?_⟩
    have hlt : s < a.1.sequence := newest_eq_none_iff.mp hn a ha hk
    exact hnew.2.2.1.trans_lt hlt
  | some a =>
    rw [hn, Option.bind_some] at hvis
    obtain ⟨ha, hk, hs, hmax⟩ := (newestUpTo_iff h').mpr hn
    refine .inl ⟨a, ha, ⟨ha, hk, hnew.le_of_subset hsub ha hk hs, fun b hb hbk hbs => ?_⟩, hvis⟩
    exact hmax b hb hbk (hbs.trans hnew.2.2.1)

theorem redundant_of_mem {rest : List Entry} {e : Entry} (he : e ∈ rest) : Redundant rest e :=
  .inl ⟨e, he, ⟨he, rfl, le_rfl, fun _ _ _ h => h⟩, rfl⟩

/-- Part of a list shows the same from `w` on exactly when it makes up for what a read finds. -/
theorem visible_iff_redundant {l l' : List Entry} (h : NewestFirst l) (h' : NewestFirst l')
    (hsub : ∀ e ∈ l', e ∈ l) {w : Nat} :
    (∀ s, w ≤ s → ∀ k, visible k s l' = visible k s l) ↔
      ∀ e ∈ l, Exposed w l e → Redundant l' e := by
  constructor
  · intro hvis e he hexp
    have hnew := hexp.newestUpTo he
    refine redundant_of_visible h' hsub hnew ?_
    rw [hvis _ (le_max_left _ _), visible, (newestUpTo_iff h).mp hnew, Option.bind_some]
  · intro hred s hs k
    cases he : newest k s l with
    | none =>
      have hnone : newest k s l' = none := newest_eq_none_iff.mpr fun a ha hk =>
        newest_eq_none_iff.mp he a (hsub a ha) hk
      rw [visible, visible, he, hnone]
    | some e =>
      have hnew := (newestUpTo_iff h).mpr he
      obtain ⟨hmem, rfl, _⟩ := id hnew
      have hvis := visible_of_redundant h' hsub hnew (hred e hmem (hnew.exposed hs))
      rw [hvis, visible, he, Option.bind_some]

variable {db' : DB} {refs : List TableRef} {outs : List FileMeta} {removed : List Nat}

theorem Performs.crashed_eq (he : Performs db db' task refs outs removed) (i : Nat) :
    db.crashed db' i = { db.disk with
      manifest := db.disk.manifest ++
        (deleteEdits task ++ outs.map (VersionEdit.addFile task.outputLevel)).take (i - refs.length)
      tables := fun n => if n ∈ removed.take (i - (refs.length +
          (deleteEdits task ++ outs.map (VersionEdit.addFile task.outputLevel)).length))
        then none else db.disk.withTables (refs.take i) n } := by
  rw [crashed, he.journal, List.drop_left, compactionOps, List.take_append, List.take_append,
    List.length_append, List.length_map, List.length_map, ← List.map_take, ← List.map_take,
    ← List.map_take, Disk.applyAll_append, Disk.applyAll_append, Disk.applyAll_renameTable,
    Disk.applyAll_appendManifest, Disk.applyAll_removeTable]

theorem Performs.tables_listed (he : Performs db db' task refs outs removed) (h : db.Sound)
    {i : Nat} {f : FileMeta} (hf : db.ListedAfter task outs (i - refs.length) f) :
    (db.crashed db' i).tables f.number = db.disk.withTables refs f.number := by
  have hlen : (deleteEdits task ++ outs.map (VersionEdit.addFile task.outputLevel)).length =
      task.numbers.length + outs.length := by
    simp [deleteEdits, CompactionTask.numbers]
  rw [he.crashed_eq, hlen]
  by_cases hi : i < refs.length
  · -- no edit is logged yet, and the tables written so far have other numbers
    have hlisted : f ∈ db.versions.current.files := by
      rcases hf with hf | hf
      · exact hf.1
      · rw [show i - refs.length = 0 by omega, Nat.zero_sub, List.take_zero] at hf
        cases hf
    have hne : ∀ ref ∈ refs, ref.1.number ≠ f.number := fun ref href => by
      have := (he.numbers ref href).1
      have := h.file_number_lt hlisted
      omega
    have hnone : removed.take (i - (refs.length + (task.numbers.length + outs.length))) = [] := by
      rw [show i - (refs.length + (task.numbers.length + outs.length)) = 0 by omega, List.take_zero]
    simp only [hnone, List.not_mem_nil, if_false]
    rw [Disk.withTables_of_ne _ hne,
      Disk.withTables_of_ne _ fun ref href => hne ref (List.mem_of_mem_take href)]
  · rw [List.take_of_length_le (not_lt.mp hi)]
    refine if_neg fun hmem => ?_
    have hpos : task.numbers.length ≤ i - refs.length := by
      by_contra hlt
      rw [show i - (refs.length + (task.numbers.length + outs.length)) = 0 by omega,
        List.take_zero] at hmem
      cases hmem
    have hnum := he.removed.1 (List.mem_of_mem_take hmem)
    rcases hf with hf | hf
    · rw [List.take_of_length_le hpos] at hf
      exact hf.2 hnum
    · rcases he.removed.2 with hnil | hout
      · rw [hnil, List.take_nil] at hmem
        cases hmem
      · exact hout f (List.mem_of_mem_take hf) hnum

theorem Performs.editsLogged (he : Performs db db' task refs outs removed) (i : Nat) :
    db.editsLogged db' i = min (i - refs.length) (task.numbers.length + outs.length) := by
  rw [DB.editsLogged, he.crashed_eq]
  simp [deleteEdits, CompactionTask.numbers]

theorem Performs.agree (he : Performs db db' task refs outs removed) (h : db.Ok) :
    ∀ f ∈ db.versions.current.files,
      db.disk.withTables refs f.number = db.disk.tables f.number := fun _ hf =>
  he.tables_agree h.sound hf

theorem Executes.mem_listed (he : Executes db db' task refs outs removed) (h : db.Ok)
    {v : Version} {j : Nat} (hv : ∀ f, f ∈ v.files ↔ db.ListedAfter task outs j f) {e : Entry} :
    e ∈ db.state.memEntries ++ v.entries (db.disk.withTables refs) ↔
      e ∈ db.withoutInputs task j ∨
        e ∈ (outs.take (j - task.numbers.length)).flatMap
          (fileEntries (db.disk.withTables refs)) := by
  rw [withoutInputs, List.mem_append, List.mem_append, or_assoc]
  refine or_congr Iff.rfl ?_
  simp only [Version.entries, List.mem_flatMap, hv, ListedAfter, or_and_right, exists_or]
  refine or_congr ?_ Iff.rfl
  constructor
  · rintro ⟨f, ⟨hf, hn⟩, hef⟩
    rw [fileEntries, he.agree h f hf] at hef
    exact ⟨f, List.mem_filter.mpr ⟨hf, decide_eq_true hn⟩, hef⟩
  · rintro ⟨f, hf, hef⟩
    obtain ⟨hf, hn⟩ := List.mem_filter.mp hf
    refine ⟨f, ⟨hf, of_decide_eq_true hn⟩, ?_⟩
    rw [fileEntries, he.agree h f hf]
    exact hef

theorem Ok.mem_withoutInputs_or (h : db.Ok)
    (hpick : CompactionPicker.pickManual db.versions.current lower upper = some task) {j : Nat}
    {e : Entry} (he : e ∈ db.allEntries) :
    e ∈ db.withoutInputs task j ∨
      e ∈ (task.allInputFiles.take j).flatMap (fileEntries db.disk.tables) := by
  rcases List.mem_append.mp he with he | he
  · exact .inl (List.mem_append.mpr (.inl he))
  · obtain ⟨f, hf, hef⟩ := List.mem_flatMap.mp he
    by_cases hn : f.number ∈ task.numbers.take j
    · rw [CompactionTask.numbers, ← List.map_take] at hn
      obtain ⟨g, hg, hgn⟩ := List.mem_map.mp hn
      obtain rfl := h.stored.eq_of_number
        ((h.allInputFiles_sublist hpick).subset (List.mem_of_mem_take hg)) hf hgn
      exact .inr (List.mem_flatMap.mpr ⟨g, hg, hef⟩)
    · refine .inl (List.mem_append.mpr (.inr ?_))
      exact List.mem_flatMap.mpr ⟨f, List.mem_filter.mpr ⟨hf, decide_eq_true hn⟩, hef⟩

theorem withoutInputs_subset (db : DB) (task : CompactionTask) (j : Nat) :
    ∀ e ∈ db.withoutInputs task j, e ∈ db.allEntries := by
  intro e he
  rcases List.mem_append.mp he with he | he
  · exact List.mem_append.mpr (.inl he)
  · obtain ⟨f, hf, hef⟩ := List.mem_flatMap.mp he
    refine List.mem_append.mpr (.inr ?_)
    exact List.mem_flatMap.mpr ⟨f, (List.mem_filter.mp hf).1, hef⟩

theorem Ok.inputsSpare_iff (h : db.Ok)
    (hpick : CompactionPicker.pickManual db.versions.current lower upper = some task) {j : Nat} :
    db.InputsSpare task j ↔ ∀ e ∈ db.allEntries, Exposed db.gcWatermark db.allEntries e →
      Redundant (db.withoutInputs task j) e := by
  constructor
  · intro hspare e he hexp
    rcases h.mem_withoutInputs_or hpick he with hin | hin
    · exact redundant_of_mem hin
    · exact hspare e hin hexp
  · intro hred e he hexp
    refine hred e (List.mem_append.mpr (.inr ?_)) hexp
    obtain ⟨f, hf, hef⟩ := List.mem_flatMap.mp he
    refine List.mem_flatMap.mpr ⟨f, ?_, hef⟩
    exact (h.allInputFiles_sublist hpick).subset (List.mem_of_mem_take hf)

theorem reopened_tabled {env : Env} {options : Options} {disk : Disk} {versions : VersionSet}
    {l0 : List TableRef} {levels : List (List TableRef)}
    (hst : versions.current.Listed disk.tables) (ht : TablesOf disk versions.current l0 levels) :
    (reopened env options disk versions l0 levels).Tabled := by
  obtain ⟨hc, h0, hl⟩ := recoverWal_tables (DBState.fresh options.memtableKind l0 levels
    versions.lastSequence) ((disk.wals versions.logNumber).getD [])
  have h0' : (reopened env options disk versions l0 levels).state.l0Tables = l0 := h0
  have hl' : (reopened env options disk versions l0 levels).state.levelTables = levels := hl
  refine ⟨hc, hst, ?_⟩
  rw [h0', hl']
  exact ht.congr fun _ _ => rfl

theorem reopened_readable {env : Env} {options : Options} {disk : Disk} {versions : VersionSet}
    {l0 : List TableRef} {levels : List (List TableRef)}
    (hst : versions.current.Stored disk.tables) (ht : TablesOf disk versions.current l0 levels) :
    (reopened env options disk versions l0 levels).Readable :=
  have h : (reopened env options disk versions l0 levels).Tabled := reopened_tabled hst.toListed ht
  ⟨h.isOpen, hst, h.tables⟩

theorem Durable.reopened_memEntries (hd : db.Durable) {disk : Disk} {versions : VersionSet}
    (hwals : disk.wals = db.disk.wals) (hlog : versions.logNumber = db.versions.logNumber)
    (hlast : versions.lastSequence = db.versions.lastSequence) (l0 : List TableRef)
    (levels : List (List TableRef)) :
    (reopened db.env db.options disk versions l0 levels).state.memEntries =
      db.state.memEntries := by
  have hstate : (reopened db.env db.options disk versions l0 levels).state =
      { db.state with l0Tables := l0, levelTables := levels } := by
    rw [hd.state_eq, recovered, reopened, hlast, hlog, hwals, ← hd.wal,
      ← DBState.recoverWal_withTables]
    rfl
  rw [hstate]
  rfl

/-- The directory at a crash point opens if the edits logged so far lead to a version. -/
theorem Performs.reopens (hp : Performs db db' task refs outs removed) (h : db.Sound)
    (hr : db.Recorded) (herr : db.options.errorIfExists = false) {i : Nat} {vs : VersionSet}
    (hreplay : db.versions.replay ((deleteEdits task ++
      outs.map (VersionEdit.addFile task.outputLevel)).take (i - refs.length)) = .ok vs)
    (hlisted : vs.current.Listed (db.disk.withTables refs))
    (hfiles : ∀ f ∈ vs.current.files, db.ListedAfter task outs (i - refs.length) f) :
    ∃ l0 levels, vs.current.Listed (db.crashed db' i).tables ∧
      TablesOf (db.crashed db' i) vs.current l0 levels ∧
      DB.open db.env (db.crashed db' i) db.options =
        .ok (reopened db.env db.options (db.crashed db' i) vs l0 levels) := by
  have hst := hlisted.congr fun f hf => hp.tables_listed h (hfiles f hf)
  have hcrash := hp.crashed_eq i
  have hopen := @open_ok db.env db.options (db.crashed db' i) vs
    (by rw [hcrash]; exact hr.dirExists) herr (by rw [hcrash]; exact hr.current)
    (by
      rw [hcrash]
      simp only
      rw [VersionSet.replay_append, hr.manifest]
      exact hreplay) hst
  obtain ⟨l0, levels, ht, hopen⟩ := hopen
  exact ⟨l0, levels, hst, ht, hopen⟩

theorem listedAfter_min {j : Nat} {f : FileMeta} :
    db.ListedAfter task outs (min j (task.numbers.length + outs.length)) f ↔
      db.ListedAfter task outs j f := by
  have htake : task.numbers.take (min j (task.numbers.length + outs.length)) =
      task.numbers.take j := List.take_eq_take_iff.mpr (by omega)
  have houts : outs.take (min j (task.numbers.length + outs.length) - task.numbers.length) =
      outs.take (j - task.numbers.length) := List.take_eq_take_iff.mpr (by omega)
  rw [ListedAfter, ListedAfter, htake, houts]

theorem Executes.subset_allEntries (he : Executes db db' task refs outs removed) (h : db.Ok)
    (hpick : CompactionPicker.pickManual db.versions.current lower upper = some task)
    {outs' : List FileMeta} (hsub : outs'.Sublist outs) :
    ∀ e ∈ outs'.flatMap (fileEntries (db.disk.withTables refs)), e ∈ db.allEntries := by
  intro e hmem
  have htask := he.subset e ((hsub.flatMap _).subset hmem)
  exact List.mem_append.mpr (.inr ((h.entries_sublist hpick).subset htask))

/-- Wherever the process stops, the directory opens and holds the records of what is listed
by then. -/
theorem Executes.stops (he : Executes db db' task refs outs removed) (h : db.Ok) (hd : db.Durable)
    (herr : db.options.errorIfExists = false)
    (hpick : CompactionPicker.pickManual db.versions.current lower upper = some task) (i : Nat) :
    ∃ r, DB.open db.env (db.crashed db' i) db.options = .ok r ∧ r.Readable ∧
      (∀ e, e ∈ r.allEntries ↔ e ∈ db.withoutInputs task (db.editsLogged db' i) ∨
        e ∈ (outs.take (db.editsLogged db' i - task.numbers.length)).flatMap
          (fileEntries (db.disk.withTables refs))) ∧
      (db.editsLogged db' i ≤ task.numbers.length ∨ db.KeepsOrder lower upper →
        NewestFirst r.allEntries) := by
  have hlogged := he.editsLogged i
  generalize db.editsLogged db' i = j at hlogged ⊢
  have htask : task.entries (db.disk.withTables refs) = task.entries db.disk.tables :=
    flatMap_fileEntries_congr fun f hf => he.agree h f ((h.allInputFiles_sublist hpick).subset hf)
  obtain ⟨v, hreplay, hstored, hfiles, hnewest⟩ := h.logged hpick (he.agree h) he.outputs
    (by rw [htask]; exact he.subset) he.newestFirst j
  have htake : (deleteEdits task ++ outs.map (VersionEdit.addFile task.outputLevel)).take j =
      (deleteEdits task ++ outs.map (VersionEdit.addFile task.outputLevel)).take
        (i - refs.length) := by
    refine List.take_eq_take_iff.mpr ?_
    simp only [deleteEdits, List.length_append, List.length_map]
    simp only [CompactionTask.numbers, List.length_map] at hlogged
    omega
  have hafter : ∀ f, f ∈ v.files → db.ListedAfter task outs (i - refs.length) f := fun f hf =>
    listedAfter_min.mp (hlogged ▸ (hfiles f).mp hf)
  rw [htake] at hreplay
  set vs : VersionSet := { db.versions with
    current := v
    nextFileNumber := Version.nextAfter db.versions.nextFileNumber
      (outs.take (j - task.numbers.length)) } with hvs
  obtain ⟨l0, levels, _, ht, hopen⟩ := he.toPerforms.reopens h.sound hd.toRecorded herr hreplay
    hstored.toListed hafter
  have htables : ∀ f ∈ v.files, (db.crashed db' i).tables f.number =
      db.disk.withTables refs f.number := fun f hf => he.tables_listed h.sound (hafter f hf)
  set r := reopened db.env db.options (db.crashed db' i) vs l0 levels with hr
  have hall : r.allEntries = db.state.memEntries ++ v.entries (db.disk.withTables refs) := by
    have hmem := hd.reopened_memEntries
      (show (db.crashed db' i).wals = db.disk.wals by rw [he.crashed_eq])
      (show vs.logNumber = db.versions.logNumber from rfl) rfl l0 levels
    rw [allEntries, hr, hmem]
    exact congrArg _ (Version.entries_congr htables)
  refine ⟨r, hopen, reopened_readable (hstored.congr htables) ht, fun e => ?_, ?_⟩
  · rw [hall, he.mem_listed h hfiles]
  · rw [hall]
    exact hnewest

theorem Ok.recoversFrom_iff (h : db.Ok) {disk : Disk} {r : DB}
    (hopen : DB.open db.env disk db.options = .ok r) (hread : r.Readable)
    (hn : NewestFirst r.allEntries) (hsub : ∀ e ∈ r.allEntries, e ∈ db.allEntries) :
    db.RecoversFrom disk ↔ ∀ e ∈ db.allEntries, Exposed db.gcWatermark db.allEntries e →
      Redundant r.allEntries e := by
  have hnew : NewestFirst db.allEntries := h.stateOk.newestFirst
  rw [← visible_iff_redundant hnew hn hsub]
  constructor
  · rintro ⟨r', hopen', hreads⟩ s hs k
    obtain rfl : r = r' := Except.ok.inj (hopen.symm.trans hopen')
    have hget := (hreads s hs).1 k
    rw [hread.getOpt_eq, h.toReadable.getOpt_eq] at hget
    exact Except.ok.inj hget
  · intro hvis
    exact ⟨r, hopen, fun s hs =>
      h.toReadable.reads_congr hread hnew hn (hvis s hs)⟩

/-- While only `DeleteFile` edits are logged, what counts is whether the unlisted files can
be spared. -/
theorem Executes.recoversFrom_iff (he : Executes db db' task refs outs removed) (h : db.Ok)
    (hd : db.Durable) (herr : db.options.errorIfExists = false)
    (hpick : CompactionPicker.pickManual db.versions.current lower upper = some task) {i : Nat}
    (hi : db.editsLogged db' i ≤ task.numbers.length) :
    db.RecoversFrom (db.crashed db' i) ↔ db.InputsSpare task (db.editsLogged db' i) := by
  obtain ⟨r, hopen, hread, hmem, hn⟩ := he.stops h hd herr hpick i
  have hlisted : ∀ e, e ∈ r.allEntries ↔ e ∈ db.withoutInputs task (db.editsLogged db' i) := by
    intro e
    rw [hmem e, Nat.sub_eq_zero_of_le hi]
    simp
  rw [h.recoversFrom_iff hopen hread (hn (.inl hi)) fun e he =>
    withoutInputs_subset db task _ e ((hlisted e).mp he), h.inputsSpare_iff hpick]
  exact forall₂_congr fun e _ => imp_congr_right fun _ =>
    redundant_congr fun a _ _ => hlisted a

/-- A chunk that is listed holds nothing older of a key of which another record of the task
is not listed. -/
theorem Executes.no_older_listed (he : Executes db db' task refs outs removed) (h : db.Ok)
    (hsplit : db.SplitSafe task)
    (hpick : CompactionPicker.pickManual db.versions.current lower upper = some task) {k : Nat}
    {e a : Entry} (hte : e ∈ task.entries db.disk.tables)
    (hno : e ∉ (outs.take k).flatMap (fileEntries (db.disk.withTables refs)))
    (ha : a ∈ (outs.take k).flatMap (fileEntries (db.disk.withTables refs)))
    (hk : a.1.userKey = e.1.userKey) : e.1.sequence < a.1.sequence := by
  by_contra hle
  have hM : NewestFirst (task.entries db.disk.tables) :=
    (newestFirst_append.mp h.stateOk.newestFirst).2.1.sublist (h.entries_sublist hpick)
  have hkept := he.mem_outs.mp ((((List.take_sublist k outs).flatMap _).subset ha))
  have hta := (mem_compactEntries.mp hkept).1
  have hne : a.1.sequence ≠ e.1.sequence := fun heq =>
    hno (hM.eq_of_rank_eq hta hte hk heq ▸ ha)
  -- the older record would not have been kept if the newer one is not above the watermark
  have hw : db.gcWatermark < e.1.sequence := by
    by_contra hw
    rcases (mem_compactEntries.mp hkept).2 with hlt | ⟨hnewest, _⟩
    · omega
    · have := ((newestFirst_sortEntries hM).newest_eq_some_iff.mp hnewest).2.2.2 e
        (mem_sortEntries.mpr hte) hk.symm (not_lt.mp hw)
      simp only [entry_rank] at this
      omega
  have hout := he.mem_outs.mpr (mem_compactEntries.mpr ⟨hte, .inl hw⟩)
  rw [← List.take_append_drop k outs, List.flatMap_append] at hout
  have hrest := (List.mem_append.mp hout).resolve_left hno
  obtain ⟨f, hf, haf⟩ := List.mem_flatMap.mp ha
  obtain ⟨g, hg, heg⟩ := List.mem_flatMap.mp hrest
  have hbelow := hsplit.emptyKeyFits.chunks_below
  rw [← he.chunks, ← List.take_append_drop k outs, List.map_append, List.pairwise_append] at hbelow
  have hlt := hbelow.2.2 _ (List.mem_map.mpr ⟨f, hf, rfl⟩) _ (List.mem_map.mpr ⟨g, hg, rfl⟩)
    a haf e heg
  exact absurd (hk ▸ hlt) (lt_irrefl _)

/-- If all input files can be spared, listing the outputs one by one does no harm. -/
theorem Executes.recoversFrom_of_spare (he : Executes db db' task refs outs removed) (h : db.Ok)
    (hd : db.Durable) (herr : db.options.errorIfExists = false)
    (hpick : CompactionPicker.pickManual db.versions.current lower upper = some task)
    (hsplit : db.SplitSafe task) (horder : db.KeepsOrder lower upper)
    (hspare : db.InputsSpare task task.numbers.length) {i : Nat}
    (hi : task.numbers.length ≤ db.editsLogged db' i) :
    db.RecoversFrom (db.crashed db' i) := by
  obtain ⟨r, hopen, hread, hmem, hn⟩ := he.stops h hd herr hpick i
  have hall : db.withoutInputs task (db.editsLogged db' i) =
      db.withoutInputs task task.numbers.length := by
    rw [withoutInputs, withoutInputs, List.take_of_length_le hi, List.take_length]
  rw [hall] at hmem
  rw [h.recoversFrom_iff hopen hread (hn (.inr horder)) fun e hre => ?_]
  · intro e hae hexp
    by_cases hre : e ∈ r.allEntries
    · exact redundant_of_mem hre
    · have hno := fun h => hre ((hmem e).mpr h)
      have hred := (h.inputsSpare_iff hpick).mp hspare e hae hexp
      have hte : e ∈ task.entries db.disk.tables := by
        rw [CompactionTask.entries]
        simpa [CompactionTask.numbers] using
          (h.mem_withoutInputs_or hpick hae).resolve_left fun hin => hno (.inl hin)
      refine (redundant_congr fun a hak has => ?_).mp hred
      rw [hmem a]
      refine ⟨.inl, fun ha => ha.resolve_right fun hout => ?_⟩
      have := he.no_older_listed h hsplit hpick hte (fun hin => hno (.inr hin)) hout hak
      omega
  · rcases (hmem e).mp hre with hin | hout
    · exact withoutInputs_subset db task _ e hin
    · exact he.subset_allEntries h hpick (List.take_sublist _ _) e hout

/-- With all edits logged, reads from the watermark on find what they found before. -/
theorem Executes.recoversFrom_of_done (he : Executes db db' task refs outs removed) (h : db.Ok)
    (hd : db.Durable) (herr : db.options.errorIfExists = false)
    (hpick : CompactionPicker.pickManual db.versions.current lower upper = some task)
    (horder : db.KeepsOrder lower upper) (hold : db.LeavesNoOlder lower upper) {i : Nat}
    (hi : task.numbers.length + outs.length ≤ db.editsLogged db' i) :
    db.RecoversFrom (db.crashed db' i) := by
  obtain ⟨r, hopen, hread, hmem, hn⟩ := he.stops h hd herr hpick i
  have houts : outs.take (db.editsLogged db' i - task.numbers.length) = outs :=
    List.take_of_length_le (by omega)
  have hrest : db.withoutInputs task (db.editsLogged db' i) = db.state.memEntries ++
      (db.versions.current.remaining task).flatMap (fileEntries db.disk.tables) := by
    rw [withoutInputs, List.take_of_length_le (by omega), Version.remaining]
  rw [houts] at hmem
  have hsub : ∀ e ∈ r.allEntries, e ∈ db.allEntries := by
    intro e hre
    rcases (hmem e).mp hre with hin | hout
    · exact withoutInputs_subset db task _ e hin
    · exact he.subset_allEntries h hpick (List.Sublist.refl _) e hout
  have hM : NewestFirst (task.entries db.disk.tables) :=
    (newestFirst_append.mp h.stateOk.newestFirst).2.1.sublist (h.entries_sublist hpick)
  refine ⟨r, hopen, fun s hs => h.toReadable.reads_congr hread h.stateOk.newestFirst
    (hn (.inr horder)) fun k => ?_⟩
  refine visible_of_droppable h.stateOk.newestFirst (hn (.inr horder)) hsub (fun e hae hno => ?_) hs
  have hlost := not_or.mp fun h => hno ((hmem e).mpr h)
  have hte : e ∈ task.entries db.disk.tables := by
    rcases h.mem_withoutInputs_or hpick hae with hin | hin
    · exact absurd hin hlost.1
    · exact ((List.take_sublist _ _).flatMap _).subset hin
  have hgone : e ∉ compactEntries (task.entries db.disk.tables) db.gcWatermark
      (canDropTombstones db.versions.current task) := fun hkept =>
    hlost.2 (he.mem_outs.mpr hkept)
  refine droppable_of_compactEntries hM
    (fun a ha => List.mem_append.mpr (.inr ((h.entries_sublist hpick).subset ha))) hte hgone
    fun hdrop a ha hno hk => ?_
  have hin := ((hmem a).mp ha).resolve_right fun hout => hno (he.mem_outs.mp hout)
  rw [hrest, List.mem_append] at hin
  exact h.outside_newer hold hpick hdrop hte hin hk

/-- What a read finds when the compaction of a range stops after `i` operations and the
directory is opened again. -/
def getAfterCrash (db : DB) (lower upper : Bound) (i : Nat) (key : Bytes) (readSeq : Nat) :
    Option (Except Error (Option Bytes)) :=
  (CompactionPicker.pickManual db.versions.current lower upper).bind fun task =>
    match executeCompaction task db with
    | .error _ _ => none
    | .ok _ db' =>
      match DB.open db.env (db.crashed db' i) db.options with
      | .error _ => none
      | .ok r => some (r.getOpt key (some readSeq))

theorem getAfterCrash_ok (h : db.Ok) (hs : db.SplitsSafely lower upper) {i : Nat} {key : Bytes}
    {readSeq : Nat} {result : Except Error (Option Bytes)}
    (hget : db.getAfterCrash lower upper i key readSeq = some result) :
    ∃ task db', CompactionPicker.pickManual db.versions.current lower upper = some task ∧
      executeCompaction task db = .ok true db' ∧
      ∃ r, DB.open db.env (db.crashed db' i) db.options = .ok r ∧
        r.getOpt key (some readSeq) = result := by
  obtain ⟨task, hpick, hget⟩ := Option.bind_eq_some_iff.mp hget
  obtain ⟨db', _, _, _, hrun, _⟩ := h.execute hpick (hs task hpick)
  rw [hrun] at hget
  cases hopen : DB.open db.env (db.crashed db' i) db.options with
  | error err => simp [hopen] at hget
  | ok r =>
    simp only [hopen, Option.some.injEq] at hget
    exact ⟨task, db', hpick, hrun, r, hopen, hget⟩

end DB

/-- A key that was written and flushed. -/
def flushedCalls : List Call := [.put [97] [1], .flush]

theorem flushedCalls_end : EndsIn (fun db : DB => db.getOpt [97] (some 1) = .ok (some [1]) ∧
    db.gcWatermark = 1 ∧
    db.getAfterCrash .unbounded .unbounded 2 [97] 1 = some (.ok none))
    (runAll Call.run flushedCalls (DB.created .inOrder {} "db")) := by
  decide +kernel

theorem plain_refines {calls : List Call} (hplain : ∀ call ∈ calls, call.Plain) {db : DB}
    (hrun : runAll Call.run calls (DB.created .inOrder {} "db") = .ok () db) :
    DB.Refines {} (oracle calls) db := by
  obtain ⟨db₁, hrun₁, hdb⟩ := runAll_invariant (DB.Refines.step rfl)
    (DB.refines_created .inOrder {} "db")
    (along_of_forall (fun call hc _ => ⟨hplain call hc, fun _ => rfl⟩) _)
  obtain rfl : db = db₁ := by
    have := hrun.symm.trans hrun₁
    injection this
  exact hdb

/-- The same value written twice, each time to a table of its own. -/
def repeatedCalls : List Call := [.put [97] [1], .flush, .put [97] [1], .flush]

/-- A tombstone alone in a table. -/
def tombstoneCalls : List Call := [.delete [97], .flush]

theorem repeatedCalls_end : EndsIn (fun db : DB =>
    ∃ task ∈ CompactionPicker.pickManual db.versions.current .unbounded .unbounded,
      1 < task.numbers.length ∧ db.InputsSpare task 1 ∧ ¬ db.InputsSpare task 2)
    (runAll Call.run repeatedCalls (DB.created .inOrder {} "db")) := by
  decide +kernel

theorem tombstoneCalls_end : EndsIn (fun db : DB =>
    ∃ task ∈ CompactionPicker.pickManual db.versions.current .unbounded .unbounded,
      ∀ j ≤ task.numbers.length, db.InputsSpare task j)
    (runAll Call.run tombstoneCalls (DB.created .inOrder {} "db")) := by
  decide +kernel

end TyLsm
