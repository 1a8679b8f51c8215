import TyLsm.Execute

/-! Compactions keep the invariant and do not change what reads at or above the
watermark see, provided the files they leave behind in L0 are out of the way. -/

namespace TyLsm

theorem compactEntries_userKey_ne {M : List Entry} {w : Nat} {drop : Bool} (hM : NewestFirst M)
    (hw : ∀ e ∈ M, e.1.sequence ≤ w) :
    (compactEntries M w drop).Pairwise (fun a b => a.1.userKey ≠ b.1.userKey) := by
  have hn : NewestFirst (compactEntries M w drop) :=
    (newestFirst_sortEntries hM).sublist (compactLoop_sublist w drop [] _)
  refine List.Pairwise.imp_of_mem (fun {a b} ha hb hab hk => ?_) hn
  have hnew : ∀ {e}, e ∈ compactEntries M w drop →
      newest e.1.userKey w (sortEntries M) = some e := by
    intro e he
    obtain ⟨hm, hlt | ⟨hn, _⟩⟩ := mem_compactEntries.mp he
    · exact absurd (hw e hm) (not_le.mpr hlt)
    · exact hn
  have heq : a = b := Option.some.inj ((hnew ha).symm.trans (hk ▸ hnew hb))
  exact absurd (hab hk) (heq ▸ Nat.lt_irrefl _)

theorem Placed.outputs {v : Version} {task : CompactionTask} {tables : Nat → Option Table}
    {outs : List FileMeta} (hp : Placed v task tables outs)
    (hbelow : (outs.map (fileEntries tables)).Pairwise KeysBelow)
    (hrange : ∀ o ∈ outs, ∀ e ∈ fileEntries tables o, ∃ f ∈ task.allInputFiles,
      f.smallest.userKey ≤ e.1.userKey ∧ e.1.userKey ≤ f.largest.userKey) :
    Outputs v task tables outs := by
  refine ⟨hp, ?_, ?_, ?_⟩
  · rw [List.pairwise_map] at hbelow
    refine List.Pairwise.imp_of_mem (fun {a b} ha hb hab => ?_) hbelow
    obtain ⟨t, ht, hd⟩ := hp.described a ha
    obtain ⟨u, hu, hd'⟩ := hp.described b hb
    obtain ⟨x, hx, hxl⟩ := hd.exists_largest
    obtain ⟨y, hy, hys⟩ := hd'.exists_smallest
    rw [← hxl, ← hys]
    exact hab x (fileEntries_eq ht ▸ hx) y (fileEntries_eq hu ▸ hy)
  · intro o ho
    obtain ⟨t, ht, hd⟩ := hp.described o ho
    obtain ⟨e, he, hes⟩ := hd.exists_smallest
    obtain ⟨f, hf, hle, _⟩ := hrange o ho e (fileEntries_eq ht ▸ he)
    exact ⟨f, hf, hes ▸ hle⟩
  · intro o ho
    obtain ⟨t, ht, hd⟩ := hp.described o ho
    obtain ⟨e, he, hel⟩ := hd.exists_largest
    obtain ⟨f, hf, _, hle⟩ := hrange o ho e (fileEntries_eq ht ▸ he)
    exact ⟨f, hf, hel ▸ hle⟩

namespace DB

variable {db db' : DB} {task : CompactionTask} {refs : List TableRef} {outs : List FileMeta}
  {removed : List Nat}

/-- The condition under which cutting the outputs never separates versions of the empty key. -/
def SplitSafe (db : DB) (task : CompactionTask) : Prop :=
  db.options.maxSubcompactions ≤ 1 ∨
    (compactEntries (task.entries db.disk.tables) db.gcWatermark
      (canDropTombstones db.versions.current task)).Pairwise
        (fun a b => a.1.userKey = [] → b.1.userKey ≠ [])

/-- No cut of the outputs separates versions of the empty key: the file moves as it is, only
one output is allowed, or the versions that survive, but for the last, do not fill a file. -/
def EmptyKeyFits (db : DB) (task : CompactionTask) : Prop :=
  db.movesTrivially task = true ∨ db.options.maxSubcompactions ≤ 1 ∨
    emptyKeySize (compactEntries (task.entries db.disk.tables) db.gcWatermark
      (canDropTombstones db.versions.current task)) < max db.options.targetFileSizeBase 1

theorem SplitSafe.emptyKeyFits (hs : db.SplitSafe task) : db.EmptyKeyFits task :=
  .inr (hs.imp_right fun hpw => by
    rw [emptyKeySize_eq_zero hpw]
    omega)

theorem EmptyKeyFits.chunks_below (hs : db.EmptyKeyFits task) :
    (db.outputChunks task).Pairwise KeysBelow := by
  unfold outputChunks
  split
  · exact List.pairwise_singleton _ _
  · rename_i hmoves
    exact splitCompactionEntries_keysBelow (compactEntries_rising _ _ _) (hs.resolve_left hmoves)

theorem Performs.outputs (hp : Performs db db' task refs outs removed) (h : db.Sound)
    (hin : ∀ f ∈ task.allInputFiles, f ∈ db.versions.current.files) (hs : db.EmptyKeyFits task) :
    Outputs db.versions.current task (db.disk.withTables refs) outs := by
  have hbelow := hs.chunks_below
  rw [← hp.chunks] at hbelow
  apply hp.placed.outputs hbelow
  intro o ho e he
  have hmem := hp.mem_outs.mp (List.mem_flatMap.mpr ⟨o, ho, he⟩)
  obtain ⟨f, hf, hef⟩ := List.mem_flatMap.mp (mem_compactEntries.mp hmem).1
  exact ⟨f, hf, fileEntries_userKey_mem (h.listed.described f (hin f hf)) hef⟩

theorem Performs.newestFirst_outs (hp : Performs db db' task refs outs removed)
    (hM : NewestFirst (task.entries db.disk.tables)) :
    ∀ o ∈ outs, NewestFirst (fileEntries (db.disk.withTables refs) o) := by
  intro o ho
  have hmem : fileEntries (db.disk.withTables refs) o ∈ db.outputChunks task := by
    rw [← hp.chunks]
    exact List.mem_map.mpr ⟨o, ho, rfl⟩
  have hC : NewestFirst (compactEntries (task.entries db.disk.tables) db.gcWatermark
      (canDropTombstones db.versions.current task)) :=
    (newestFirst_sortEntries hM).sublist (compactLoop_sublist _ _ [] _)
  unfold outputChunks at hmem
  split at hmem
  · rw [List.mem_singleton.mp hmem]
    exact hM
  · refine hC.sublist ?_
    have := List.sublist_flatten_of_mem hmem
    rwa [splitCompactionEntries_flatten] at this

/-- What a compaction achieves: it succeeds, keeps the invariant, changes nothing but
tables, and no read from the watermark on sees it. -/
def Compacts (db : DB) (run : DBM α) (result : α) : Prop :=
  ∃ db', run db = .ok result db' ∧ db'.Ok ∧ TablesChanged db db' ∧
    ∀ k s, db.gcWatermark ≤ s → visible k s db'.allEntries = visible k s db.allEntries

theorem Ok.performed (h : db.Ok) (hp : Performs db db' task refs outs removed)
    (hsub : task.allInputFiles.Sublist db.versions.current.files)
    (hstored : db'.versions.current.Stored (db.disk.withTables refs))
    (hnew : NewestFirst (db.state.memEntries ++
      db'.versions.current.entries (db.disk.withTables refs))) : db'.Ok := by
  have hs := hp.sound h.sound hsub
  have hentries : db'.versions.current.entries db'.disk.tables =
      db'.versions.current.entries (db.disk.withTables refs) := hp.entries_withTables
  refine ⟨⟨hs.isOpen, hstored.congr fun _ hf => hp.tables hf, hs.tables⟩,
    ⟨?_, hs.sequences, hs.matched, hs.frozen⟩, hs.freshTables, hs.freshWals⟩
  rw [hp.memEntries, hentries]
  exact hnew

theorem Performs.allEntries (hp : Performs db db' task refs outs removed) :
    db'.allEntries =
      db.state.memEntries ++ db'.versions.current.entries (db.disk.withTables refs) := by
  rw [DB.allEntries, hp.memEntries, hp.entries_withTables]

theorem Performs.current_eq (hp : Performs db db' task refs outs removed) {v' : Version}
    (hreplay : ∀ vs : VersionSet, vs.current = db.versions.current →
      vs.replay (deleteEdits task ++ outs.map (VersionEdit.addFile task.outputLevel)) =
        .ok { vs with
          current := v'
          nextFileNumber := Version.nextAfter vs.nextFileNumber outs }) :
    db'.versions.current = v' := by
  have := (hp.replaces.replay db.versions rfl).symm.trans (hreplay db.versions rfl)
  exact congrArg VersionSet.current (Except.ok.inj this)

theorem Ok.execute_stage (h : db.Ok) {lower upper : Bound}
    (hpick : CompactionPicker.pickManual db.versions.current lower upper = some task)
    {above source target below : List FileMeta}
    (st : Stage db.versions.current task above source target below)
    (habove : Above ((source.filter (fun f => f.number ∉ task.numbers)).flatMap
      (fileEntries db.disk.tables)) (task.inputFiles.flatMap (fileEntries db.disk.tables)))
    (hsplit : db.SplitSafe task) : db.Compacts (executeCompaction task) true := by
  obtain ⟨db', refs, outs, removed, hrun, hp⟩ := h.sound.execute hpick
  have hin : ∀ f ∈ task.allInputFiles, f ∈ db.versions.current.files := fun f hf => st.input_mem hf
  have hagree := fun f hf => hp.tables_agree h.sound (f := f) hf
  have hst := h.stored.congr hagree
  have hent := Version.entries_congr hagree
  have hnew : NewestFirst (db.state.memEntries ++
      db.versions.current.entries (db.disk.withTables refs)) := by
    rw [hent]
    exact h.stateOk.newestFirst
  have htask : task.entries (db.disk.withTables refs) = task.entries db.disk.tables :=
    flatMap_fileEntries_congr fun f hf => hagree f (hin f hf)
  have habove' : Above ((source.filter (fun f => f.number ∉ task.numbers)).flatMap
      (fileEntries (db.disk.withTables refs)))
      (task.inputFiles.flatMap (fileEntries (db.disk.withTables refs))) := by
    rw [flatMap_fileEntries_congr fun f hf => hagree f (st.source_mem (List.mem_filter.mp hf).1),
      flatMap_fileEntries_congr fun f hf => hagree f (hin f (List.mem_append.mpr (.inl hf)))]
    exact habove
  have hM : NewestFirst (task.entries db.disk.tables) :=
    (newestFirst_append.mp h.stateOk.newestFirst).2.1.sublist st.entries_sublist
  have hout := hp.outputs h.sound hin hsplit.emptyKeyFits
  obtain ⟨v', hpub, hreplay⟩ := st.published hst.toListed outs
  obtain rfl := hp.current_eq hreplay
  have hnew' := hpub.newestFirst st hst hout hnew habove'
    (fun e he => by
      rw [← CompactionTask.entries, htask]
      exact (mem_compactEntries.mp (hp.mem_outs.mp he)).1)
    (hp.newestFirst_outs hM)
  refine ⟨db', hrun, h.performed hp st.allInputFiles_sublist (hpub.stored st hst hout) hnew',
    hp.tablesChanged h.sound st.allInputFiles_sublist, fun k s hs => ?_⟩
  rw [hp.allEntries, hpub.visible_eq st hst hnew hnew' habove' id
    (fun e => by rw [hp.mem_outs, htask]) hs, hent]
  rfl

/-- A merge within L0 keeps the invariant if the files it leaves are older than those it
takes; no read sees it if they share no key. -/
theorem Ok.execute_front (h : db.Ok) {lower upper : Bound}
    (hpick : CompactionPicker.pickManual db.versions.current lower upper = some task)
    (fr : Front db.versions.current task)
    (habove : Above (task.entries db.disk.tables)
      ((db.versions.current.remaining task).flatMap (fileEntries db.disk.tables)))
    (hsplit : db.SplitSafe task) :
    ∃ db', executeCompaction task db = .ok true db' ∧ db'.Ok ∧ TablesChanged db db' ∧
      (Above ((db.versions.current.remaining task).flatMap (fileEntries db.disk.tables))
          (task.entries db.disk.tables) →
        ∀ k s, db.gcWatermark ≤ s → visible k s db'.allEntries = visible k s db.allEntries) := by
  obtain ⟨db', refs, outs, removed, hrun, hp⟩ := h.sound.execute hpick
  have hsub := h.stored.toListed.allInputFiles_sublist hpick
  have hin : ∀ f ∈ task.allInputFiles, f ∈ db.versions.current.files := fun f hf => hsub.subset hf
  have hagree := fun f hf => hp.tables_agree h.sound (f := f) hf
  have hst := h.stored.congr hagree
  have hent := Version.entries_congr hagree
  have hnew : NewestFirst (db.state.memEntries ++
      db.versions.current.entries (db.disk.withTables refs)) := by
    rw [hent]
    exact h.stateOk.newestFirst
  have htask : task.entries (db.disk.withTables refs) = task.entries db.disk.tables :=
    flatMap_fileEntries_congr fun f hf => hagree f (hin f hf)
  have hrem : (db.versions.current.remaining task).flatMap
      (fileEntries (db.disk.withTables refs)) =
      (db.versions.current.remaining task).flatMap (fileEntries db.disk.tables) :=
    flatMap_fileEntries_congr fun f hf => hagree f (List.mem_filter.mp hf).1
  have hM : NewestFirst (task.entries db.disk.tables) :=
    (newestFirst_append.mp h.stateOk.newestFirst).2.1.sublist fr.entries_sublist
  have hout := hp.outputs h.sound hin hsplit.emptyKeyFits
  have hcur := hp.current_eq fun vs hvs => fr.publish vs hvs outs
  have hnew' := fr.newestFirst hout hnew (by rw [htask, hrem]; exact habove)
    (fun e he => by
      rw [htask]
      exact (mem_compactEntries.mp (hp.mem_outs.mp he)).1)
    (hp.newestFirst_outs hM)
  refine ⟨db', hrun, h.performed hp hsub (hcur ▸ fr.stored hst hout) (hcur ▸ hnew'),
    hp.tablesChanged h.sound hsub, fun hnewer k s hs => ?_⟩
  rw [hp.allEntries, hcur, fr.visible_eq hst.toListed hnew hnew' (by rw [htask, hrem]; exact hnewer)
    (fun e => by rw [hp.mem_outs, htask]) hs, hent]
  rfl

end DB

end TyLsm
