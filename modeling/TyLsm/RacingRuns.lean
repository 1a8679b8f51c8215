import TyLsm.Closed
import TyLsm.CompactionRaces

/-! Runs in which only compactions take steps. Between the steps the table lists may be behind;
what matters is the version with the tables on the disk. -/

namespace TyLsm

/-- The compactions on their way. -/
def Compactors.active (s : Compactors) : List Progress := s.running.filterMap id

namespace Progress

/-- The files that the compaction took, or that it will unlink. -/
def held : Progress → List Nat
  | picked task | bounded task _ | surveyed task _ _ | rewriting task _ _ | gathered task _ _
  | ready task _ _ => task.numbers
  | published removed | reading _ removed | opened _ _ _ removed | deleting removed => removed

/-- The files that the compaction has written and not yet published. -/
def unpublished : Progress → List Nat
  | ready task _ publication => (publication.edits.filterMap fun edit =>
      match edit with
      | .addFile _ file => some file.number
      | _ => none).filter (fun n => n ∉ task.numbers)
  | _ => []

/-- The files that the compaction will unlink, after its publication. -/
def removing : Progress → List Nat
  | published removed | reading _ removed | opened _ _ _ removed | deleting removed => removed
  | _ => []

end Progress

/-- Open tables are those on the disk, as long as they are there. -/
def Faithful (db : DB) (refs : List TableRef) : Prop :=
  ∀ ref ∈ refs, ref.1.number < db.versions.nextFileNumber ∧
    ∀ t, db.disk.tables ref.1.number = some t → t = ref.2

/-- The readers in the cache are those of the files on the disk, as long as they are there. -/
def Retains (cached : Nat → Option Table) (db : DB) : Prop :=
  ∀ n t, cached n = some t → n < db.versions.nextFileNumber ∧
    ∀ t', db.disk.tables n = some t' → t' = t

/-- What is known of a task, also when some of its files are gone. -/
structure Known (db : DB) (task : CompactionTask) : Prop where
  shaped : task.Shaped db.versions.current.levels.length
  lt : ∀ f ∈ task.allInputFiles, f.number < db.versions.nextFileNumber
  described : ∀ f ∈ task.allInputFiles, ∀ t, db.disk.tables f.number = some t → f.Describes t
  newestFirst : NewestFirst (task.entries db.disk.tables)

/-- All files of the task are on the disk. -/
def Present (db : DB) (task : CompactionTask) : Prop :=
  ∀ f ∈ task.allInputFiles, ∃ t, db.disk.tables f.number = some t

/-- The publication of a task whose only file changes its level as it is. -/
structure Moves (watermark : Nat) (db : DB) (task : CompactionTask) (drop : Bool)
    (publication : Publication) (file : FileMeta) : Prop where
  alone : task.allInputFiles = [file]
  publication_eq : publication =
    ⟨DB.deleteEdits task ++ [file].map (VersionEdit.addFile task.outputLevel), []⟩
  perm : Present db task → (compactEntries (task.entries db.disk.tables) watermark drop).Perm
    (task.entries db.disk.tables)

/-- The publication of a task that was written again. -/
structure Wrote (watermark : Nat) (db : DB) (task : CompactionTask) (drop : Bool)
    (publication : Publication) (outs : List FileMeta) : Prop where
  publication_eq : publication =
    ⟨DB.deleteEdits task ++ outs.map (VersionEdit.addFile task.outputLevel), task.numbers⟩
  described : ∀ o ∈ outs, ∃ t, db.disk.tables o.number = some t ∧ o.Describes t
  fresh : ∀ o ∈ outs, o.number ∉ task.numbers
  below : (outs.map (fileEntries db.disk.tables)).Pairwise KeysBelow
  entries : Present db task → outs.flatMap (fileEntries db.disk.tables) =
    compactEntries (task.entries db.disk.tables) watermark drop

/-- What is known of a compaction on its way. -/
def Progress.Good (watermark : Nat) (db : DB) : Progress → Prop
  | picked task => Known db task
  | bounded task gcWatermark | surveyed task gcWatermark _ | rewriting task gcWatermark _ =>
    Known db task ∧ gcWatermark = watermark
  | gathered task drop entries => Known db task ∧ SortedEntries entries ∧
      (∀ e ∈ entries, Matched e) ∧
      (Present db task → entries = compactEntries (task.entries db.disk.tables) watermark drop)
  | ready task drop publication => Known db task ∧
      ((∃ file, Moves watermark db task drop publication file) ∨
        ∃ outs, Wrote watermark db task drop publication outs)
  | opened version l0Tables levelTables _ => l0Tables.map Prod.fst = version.l0Files ∧
      levelTables.map (List.map Prod.fst) = version.levels ∧
      Faithful db (l0Tables ++ levelTables.flatten)
  | _ => True

/-- The version and the tables on the disk serve the reads that `base` served. -/
structure Intact (base db : DB) : Prop where
  memory : DB.SameMemory base db
  options : db.options = base.options
  watermark : db.watermark = base.watermark
  stored : db.versions.current.Stored db.disk.tables
  newestFirst : NewestFirst db.allEntries
  visible : ∀ k s, base.gcWatermark ≤ s → visible k s db.allEntries = visible k s base.allEntries
  freshTables : ∀ n, db.versions.nextFileNumber ≤ n → db.disk.tables n = none
  faithful : Faithful db db.tableRefs

/-- The compactions on their way do not get at each other's files. -/
structure Unshared (db : DB) (active : List Progress) : Prop where
  held_lt : ∀ p ∈ active, ∀ n ∈ p.held, n < db.versions.nextFileNumber
  unpublished_lt : ∀ p ∈ active, ∀ n ∈ p.unpublished, n < db.versions.nextFileNumber
  nodup : (active.flatMap Progress.unpublished).Nodup
  unlisted : ∀ p ∈ active, ∀ n ∈ p.unpublished, ∀ f ∈ db.versions.current.files, f.number ≠ n
  unheld : ∀ p ∈ active, ∀ n ∈ p.unpublished, ∀ q ∈ active, n ∉ q.held
  gone : ∀ p ∈ active, ∀ n ∈ p.removing, ∀ f ∈ db.versions.current.files, f.number ≠ n

/-- The table lists are those of the current version. -/
def ListsCurrent (db : DB) : Prop :=
  db.state.l0Tables.map Prod.fst = db.versions.current.l0Files ∧
    db.state.levelTables.map (List.map Prod.fst) = db.versions.current.levels

instance (db : DB) : Decidable (ListsCurrent db) := inferInstanceAs (Decidable (_ ∧ _))

/-- The invariant of a run, without regard to the threads. -/
structure Races (base db : DB) (active : List Progress) : Prop where
  intact : Intact base db
  good : ∀ p ∈ active, p.Good base.gcWatermark db
  unshared : Unshared db active
  lists : (∃ p ∈ active, Progress.awaitsRefresh (some p) = true) ∨ ListsCurrent db

/-- The step that a compaction takes; one that fails ends the compaction. -/
inductive Progress.Takes (p : Progress) (cached : Nat → Option Table) (db : DB) :
    Option Progress → DB → Prop where
  | ok {next : Option Progress} {db' : DB} (h : p.advance cached db = .ok next db') :
      Takes p cached db next db'
  | error {err : Error} {db' : DB} (h : p.advance cached db = .error err db') :
      Takes p cached db none db'

/-- The invariant holds again after the step of the first compaction, which takes no number
back. -/
def Races.Advances (cached : Nat → Option Table) (base db : DB) (p : Progress)
    (rest : List Progress) : Prop :=
  ∃ next db', p.Takes cached db next db' ∧
    db.versions.nextFileNumber ≤ db'.versions.nextFileNumber ∧ Races base db' (next.toList ++ rest)

/-- Between `db` and `db'` some files got lost, and others may have been written. -/
structure Changes (lost : List Nat) (db db' : DB) : Prop where
  next : db.versions.nextFileNumber ≤ db'.versions.nextFileNumber
  tables : ∀ n < db.versions.nextFileNumber, db'.disk.tables n = db.disk.tables n ∨
    n ∈ lost ∧ db'.disk.tables n = none
  levels : db'.versions.current.levels.length = db.versions.current.levels.length

namespace Changes

variable {lost : List Nat} {db db' : DB} {task : CompactionTask}

theorem table_eq (h : Changes lost db db') {n : Nat} (hn : n < db.versions.nextFileNumber)
    {t : Table} (ht : db'.disk.tables n = some t) : db.disk.tables n = some t := by
  rcases h.tables n hn with hsame | ⟨-, hnone⟩
  · exact hsame ▸ ht
  · rw [hnone] at ht
    cases ht

theorem fileEntries_sublist (h : Changes lost db db') {f : FileMeta}
    (hf : f.number < db.versions.nextFileNumber) :
    (fileEntries db'.disk.tables f).Sublist (fileEntries db.disk.tables f) := by
  rcases h.tables f.number hf with hsame | ⟨-, hnone⟩
  · rw [fileEntries, hsame]
    exact List.Sublist.refl _
  · rw [fileEntries, hnone]
    exact List.nil_sublist _

theorem entries_sublist (h : Changes lost db db') {files : List FileMeta}
    (hf : ∀ f ∈ files, f.number < db.versions.nextFileNumber) :
    (files.flatMap (fileEntries db'.disk.tables)).Sublist
      (files.flatMap (fileEntries db.disk.tables)) := by
  induction files with
  | nil => exact List.Sublist.refl _
  | cons f files ih =>
    rw [List.flatMap_cons, List.flatMap_cons]
    exact (h.fileEntries_sublist (hf f (by simp))).append (ih fun g hg => hf g (by simp [hg]))

theorem known (h : Changes lost db db') (hk : Known db task) : Known db' task := by
  refine ⟨?_, fun f hf => (hk.lt f hf).trans_le h.next, fun f hf t ht =>
    hk.described f hf t (h.table_eq (hk.lt f hf) ht),
    hk.newestFirst.sublist (h.entries_sublist hk.lt)⟩
  rw [h.levels]
  exact hk.shaped

theorem present (h : Changes lost db db') (hk : Known db task) (hp : Present db' task) :
    Present db task ∧ task.entries db'.disk.tables = task.entries db.disk.tables := by
  constructor
  · intro f hf
    obtain ⟨t, ht⟩ := hp f hf
    exact ⟨t, h.table_eq (hk.lt f hf) ht⟩
  · apply flatMap_fileEntries_congr
    intro f hf
    obtain ⟨t, ht⟩ := hp f hf
    rw [ht, h.table_eq (hk.lt f hf) ht]

theorem faithful (h : Changes lost db db') {refs : List TableRef} (hf : Faithful db refs) :
    Faithful db' refs := fun ref href =>
  ⟨(hf ref href).1.trans_le h.next, fun t ht =>
    (hf ref href).2 t (h.table_eq (hf ref href).1 ht)⟩

end Changes

theorem Wrote.unpublished_eq {watermark : Nat} {db : DB} {task : CompactionTask} {drop : Bool}
    {publication : Publication} {outs : List FileMeta}
    (h : Wrote watermark db task drop publication outs) :
    (Progress.ready task drop publication).unpublished = outs.map FileMeta.number := by
  have hnone : (DB.deleteEdits task).filterMap (fun edit =>
      match edit with
      | .addFile _ file => some file.number
      | _ => none) = [] := by
    rw [DB.deleteEdits, List.filterMap_map, List.filterMap_eq_nil_iff]
    exact fun _ _ => rfl
  rw [Progress.unpublished, h.publication_eq, List.filterMap_append, hnone, List.nil_append,
    List.filterMap_map]
  have hmap : List.filterMap ((fun edit : VersionEdit =>
      match edit with
      | .addFile _ file => some file.number
      | _ => none) ∘ VersionEdit.addFile task.outputLevel) outs = outs.map FileMeta.number := by
    rw [← List.filterMap_eq_map]
    rfl
  rw [hmap, List.filter_eq_self]
  intro n hn
  obtain ⟨o, ho, rfl⟩ := List.mem_map.mp hn
  exact decide_eq_true (h.fresh o ho)

theorem Moves.unpublished_eq {watermark : Nat} {db : DB} {task : CompactionTask} {drop : Bool}
    {publication : Publication} {file : FileMeta}
    (h : Moves watermark db task drop publication file) :
    (Progress.ready task drop publication).unpublished = [] := by
  have hfile : file.number ∈ task.numbers := by
    rw [CompactionTask.numbers, h.alone]
    simp
  rw [Progress.unpublished, h.publication_eq]
  rw [List.filter_eq_nil_iff]
  intro n hn hno
  rw [List.mem_filterMap] at hn
  obtain ⟨edit, hedit, hnumber⟩ := hn
  rcases List.mem_append.mp hedit with hedit | hedit
  · obtain ⟨f, -, rfl⟩ := List.mem_map.mp hedit
    cases hnumber
  · rw [List.map_singleton, List.mem_singleton] at hedit
    rw [hedit] at hnumber
    cases hnumber
    exact of_decide_eq_true hno hfile

theorem Progress.Good.changes {watermark : Nat} {lost : List Nat} {db db' : DB} {p : Progress}
    (hg : p.Good watermark db) (h : Changes lost db db')
    (hlt : ∀ n ∈ p.unpublished, n < db.versions.nextFileNumber)
    (hkept : ∀ n ∈ p.unpublished, n ∉ lost) : p.Good watermark db' := by
  cases p with
  | picked task => exact h.known hg
  | bounded task gcWatermark => exact ⟨h.known hg.1, hg.2⟩
  | surveyed task gcWatermark drop => exact ⟨h.known hg.1, hg.2⟩
  | rewriting task gcWatermark drop => exact ⟨h.known hg.1, hg.2⟩
  | gathered task drop entries =>
    obtain ⟨hk, hs, hm, he⟩ := hg
    refine ⟨h.known hk, hs, hm, fun hp => ?_⟩
    obtain ⟨hp, hsame⟩ := h.present hk hp
    rw [hsame]
    exact he hp
  | ready task drop publication =>
    obtain ⟨hk, ⟨file, hmoves⟩ | ⟨outs, hwrote⟩⟩ := hg
    · refine ⟨h.known hk, .inl ⟨file, hmoves.alone, hmoves.publication_eq, fun hp => ?_⟩⟩
      obtain ⟨hp, hsame⟩ := h.present hk hp
      rw [hsame]
      exact hmoves.perm hp
    · have houts : ∀ o ∈ outs, db'.disk.tables o.number = db.disk.tables o.number := by
        intro o ho
        have hmem : o.number ∈ (ready task drop publication).unpublished := by
          rw [hwrote.unpublished_eq]
          exact List.mem_map_of_mem ho
        rcases h.tables o.number (hlt _ hmem) with hsame | ⟨hlost, -⟩
        · exact hsame
        · exact absurd hlost (hkept _ hmem)
      refine ⟨h.known hk, .inr ⟨outs, hwrote.publication_eq, fun o ho => ?_, hwrote.fresh, ?_,
        fun hp => ?_⟩⟩
      · rw [houts o ho]
        exact hwrote.described o ho
      · have hsame : outs.map (fileEntries db'.disk.tables) =
            outs.map (fileEntries db.disk.tables) :=
          List.map_congr_left fun o ho => by rw [fileEntries, fileEntries, houts o ho]
        rw [hsame]
        exact hwrote.below
      · obtain ⟨hp, hsame⟩ := h.present hk hp
        rw [hsame, flatMap_fileEntries_congr houts]
        exact hwrote.entries hp
  | opened version l0 levels removed => exact ⟨hg.1, hg.2.1, h.faithful hg.2.2⟩
  | _ => trivial

section

variable {base db db' : DB} {active active' rest : List Progress} {p : Progress}
  {next : Option Progress} {task : CompactionTask} {cached : Nat → Option Table}

theorem Unshared.perm (h : Unshared db active) (hp : active.Perm active') :
    Unshared db active' := by
  have hmem : ∀ {q}, q ∈ active' → q ∈ active := fun hq => hp.symm.subset hq
  exact ⟨fun q hq => h.held_lt q (hmem hq), fun q hq => h.unpublished_lt q (hmem hq),
    ((hp.flatMap_right _).nodup_iff).mp h.nodup, fun q hq => h.unlisted q (hmem hq),
    fun q hq n hn r hr => h.unheld q (hmem hq) n hn r (hmem hr), fun q hq => h.gone q (hmem hq)⟩

theorem Races.perm (h : Races base db active) (hp : active.Perm active') :
    Races base db active' := by
  refine ⟨h.intact, fun q hq => h.good q (hp.symm.subset hq), h.unshared.perm hp, ?_⟩
  exact h.lists.imp_left fun ⟨q, hq, hawaits⟩ => ⟨q, hp.subset hq, hawaits⟩

/-- A compaction goes on with no more files than it had. -/
structure Progress.Follows (p : Progress) (next : Option Progress) : Prop where
  held : ∀ q, next = some q → q.held ⊆ p.held
  unpublished : ∀ q, next = some q → q.unpublished = []
  removing : ∀ q, next = some q → q.removing ⊆ p.removing

theorem Progress.follows_none (p : Progress) : p.Follows none := ⟨nofun, nofun, nofun⟩

theorem Progress.follows_some {q : Progress} (hheld : q.held ⊆ p.held)
    (hunpublished : q.unpublished = []) (hremoving : q.removing ⊆ p.removing) :
    p.Follows (some q) := by
  refine ⟨?_, ?_, ?_⟩
  · rintro r ⟨⟩
    exact hheld
  · rintro r ⟨⟩
    exact hunpublished
  · rintro r ⟨⟩
    exact hremoving

theorem Unshared.follow (h : Unshared db (p :: rest)) (hnext : p.Follows next) :
    Unshared db (next.toList ++ rest) := by
  have hcases : ∀ {q}, q ∈ next.toList ++ rest → next = some q ∨ q ∈ rest := by
    intro q hq
    rcases List.mem_append.mp hq with hq | hq
    · exact .inl (Option.mem_toList.mp hq)
    · exact .inr hq
  have hheld : ∀ {q}, q ∈ next.toList ++ rest → ∀ n ∈ q.held, ∃ r ∈ p :: rest, n ∈ r.held := by
    intro q hq n hn
    rcases hcases hq with hq | hq
    · exact ⟨p, by simp, hnext.held q hq hn⟩
    · exact ⟨q, by simp [hq], hn⟩
  have hunpublished : ∀ {q}, q ∈ next.toList ++ rest → ∀ n ∈ q.unpublished, q ∈ rest := by
    intro q hq n hn
    rcases hcases hq with hq | hq
    · rw [hnext.unpublished q hq] at hn
      cases hn
    · exact hq
  constructor
  · intro q hq n hn
    obtain ⟨r, hr, hn⟩ := hheld hq n hn
    exact h.held_lt r hr n hn
  · intro q hq n hn
    exact h.unpublished_lt q (by simp [hunpublished hq n hn]) n hn
  · have hnil : next.toList.flatMap Progress.unpublished = [] := by
      cases next with
      | none => rfl
      | some q => simp [hnext.unpublished q rfl]
    have hnodup := h.nodup
    rw [List.flatMap_cons] at hnodup
    rw [List.flatMap_append, hnil, List.nil_append]
    exact (List.nodup_append.mp hnodup).2.1
  · intro q hq n hn
    exact h.unlisted q (by simp [hunpublished hq n hn]) n hn
  · intro q hq n hn r hr hmem
    obtain ⟨r, hr, hmem⟩ := hheld hr n hmem
    exact h.unheld q (by simp [hunpublished hq n hn]) n hn r hr hmem
  · intro q hq n hn
    rcases hcases hq with hq | hq
    · exact h.gone p (by simp) n (hnext.removing q hq hn)
    · exact h.gone q (by simp [hq]) n hn

theorem Races.follow (h : Races base db (p :: rest)) (hnext : p.Follows next)
    (hgood : ∀ q, next = some q → q.Good base.gcWatermark db)
    (hlists : Progress.awaitsRefresh (some p) = true → Progress.awaitsRefresh next = true ∨
      (∃ q ∈ rest, Progress.awaitsRefresh (some q) = true) ∨ ListsCurrent db) :
    Races base db (next.toList ++ rest) := by
  refine ⟨h.intact, fun q hq => ?_, h.unshared.follow hnext, ?_⟩
  · rcases List.mem_append.mp hq with hq | hq
    · exact hgood q (Option.mem_toList.mp hq)
    · exact h.good q (by simp [hq])
  · have hrest : (∃ q ∈ rest, Progress.awaitsRefresh (some q) = true) →
        ∃ q ∈ next.toList ++ rest, Progress.awaitsRefresh (some q) = true :=
      fun ⟨q, hq, hawaits⟩ => ⟨q, List.mem_append.mpr (.inr hq), hawaits⟩
    rcases h.lists with ⟨q, hq, hawaits⟩ | hcurrent
    · rcases List.mem_cons.mp hq with rfl | hq
      · rcases hlists hawaits with hself | hother | hcurrent
        · left
          cases hn : next with
          | none =>
            rw [hn] at hself
            cases hself
          | some q' =>
            rw [hn] at hself
            exact ⟨q', by simp, hself⟩
        · exact .inl (hrest hother)
        · exact .inr hcurrent
      · exact .inl (hrest ⟨q, hq, hawaits⟩)
    · exact .inr hcurrent

theorem Races.stop (h : Races base db (p :: rest))
    (hlists : Progress.awaitsRefresh (some p) = true →
      (∃ q ∈ rest, Progress.awaitsRefresh (some q) = true) ∨ ListsCurrent db) :
    Races base db rest :=
  h.follow p.follows_none nofun fun hawaits => .inr (hlists hawaits)

theorem Races.go (h : Races base db (p :: rest)) {q : Progress} (hnext : p.Follows (some q))
    (hgood : q.Good base.gcWatermark db)
    (hlists : Progress.awaitsRefresh (some p) = true → Progress.awaitsRefresh (some q) = true) :
    Races base db (q :: rest) := by
  refine h.follow hnext ?_ fun hawaits => .inl (hlists hawaits)
  rintro r ⟨⟩
  exact hgood

theorem Races.pick (h : Races base db rest) {lower upper : Bound}
    (hpick : CompactionPicker.pickManual db.versions.current lower upper = some task) :
    Races base db (.picked task :: rest) := by
  have hst := h.intact.stored
  have hin := (hst.allInputFiles_sublist hpick).subset
  have hlt : ∀ f ∈ db.versions.current.files, f.number < db.versions.nextFileNumber := by
    intro f hf
    obtain ⟨t, ht, -⟩ := hst.described f hf
    by_contra hge
    rw [h.intact.freshTables _ (not_lt.mp hge)] at ht
    cases ht
  have hknown : Known db task := by
    refine ⟨shaped_of_pick hst.toListed hpick, fun f hf => hlt f (hin hf), fun f hf t ht => ?_, ?_⟩
    · obtain ⟨t', ht', hd⟩ := hst.described f (hin hf)
      rw [ht'] at ht
      cases ht
      exact hd
    · exact (newestFirst_append.mp h.intact.newestFirst).2.1.sublist
        (hst.toListed.entries_sublist hpick)
  have hheld : ∀ n ∈ (Progress.picked task).held, ∃ f ∈ db.versions.current.files,
      f.number = n := by
    intro n hn
    obtain ⟨f, hf, rfl⟩ := List.mem_map.mp hn
    exact ⟨f, hin hf, rfl⟩
  have hu := h.unshared
  refine ⟨h.intact, List.forall_mem_cons.mpr ⟨hknown, h.good⟩, ⟨?_, ?_, ?_, ?_, ?_, ?_⟩, ?_⟩
  · refine List.forall_mem_cons.mpr ⟨fun n hn => ?_, hu.held_lt⟩
    obtain ⟨f, hf, rfl⟩ := hheld n hn
    exact hlt f hf
  · exact List.forall_mem_cons.mpr ⟨fun n hn => absurd hn List.not_mem_nil, hu.unpublished_lt⟩
  · rw [List.flatMap_cons]
    exact hu.nodup
  · exact List.forall_mem_cons.mpr ⟨fun n hn => absurd hn List.not_mem_nil, hu.unlisted⟩
  · refine List.forall_mem_cons.mpr ⟨fun n hn => absurd hn List.not_mem_nil, fun q hq n hn => ?_⟩
    refine List.forall_mem_cons.mpr ⟨fun hmem => ?_, hu.unheld q hq n hn⟩
    obtain ⟨f, hf, he⟩ := hheld n hmem
    exact hu.unlisted q hq n hn f hf he
  · exact List.forall_mem_cons.mpr ⟨fun n hn => absurd hn List.not_mem_nil, hu.gone⟩
  · exact h.lists.imp_left fun ⟨q, hq, hawaits⟩ => ⟨q, by simp [hq], hawaits⟩

theorem Intact.gcWatermark (h : Intact base db) : db.gcWatermark = base.gcWatermark := by
  have hlast : db.state.lastSequence = base.state.lastSequence := by
    rw [h.memory]
  rw [DB.gcWatermark, DB.gcWatermark, h.watermark, hlast]

theorem Intact.memEntries (h : Intact base db) : db.state.memEntries = base.state.memEntries := by
  rw [h.memory]
  rfl

theorem readEntries_cases (files : List FileMeta) (db : DB) :
    (∀ f ∈ files, ∃ t, db.disk.tables f.number = some t) ∧
      DB.readEntries files db = .ok (files.flatMap (fileEntries db.disk.tables)) db ∨
    ∃ err, DB.readEntries files db = .error err db := by
  by_cases hall : ∀ f ∈ files, ∃ t, db.disk.tables f.number = some t
  · exact .inl ⟨hall, DB.run_readEntries hall⟩
  · right
    induction files with
    | nil => exact absurd (fun f hf => absurd hf List.not_mem_nil) hall
    | cons file files ih =>
      rw [DB.readEntries, run_bind_ok (run_get db), Disk.openTable]
      cases ht : db.disk.tables file.number with
      | none => exact ⟨notFound, run_bind_error (run_ofExcept_error db notFound)⟩
      | some t =>
        obtain ⟨err, hrun⟩ := ih fun hfiles => hall (List.forall_mem_cons.mpr ⟨⟨t, ht⟩, hfiles⟩)
        exact ⟨err, (run_bind_ok (run_ofExcept_ok db t)).trans (run_bind_error hrun)⟩

theorem moves_of_trivial {file : FileMeta} {files : List FileMeta} {w : Nat} {drop : Bool}
    (hfiles : task.inputFiles = file :: files) (htrivial : task.isTrivialMove = true)
    (hlen : (compactEntries ([file].flatMap (fileEntries db.disk.tables)) w drop).length =
      ([file].flatMap (fileEntries db.disk.tables)).length) :
    Moves w db task drop
      ⟨[.deleteFile task.inputLevel file.number, .addFile task.outputLevel file], []⟩ file := by
  simp only [CompactionTask.isTrivialMove, Bool.and_eq_true, decide_eq_true_eq, beq_iff_eq,
    hfiles, List.length_cons, List.isEmpty_iff] at htrivial
  obtain ⟨⟨-, hone⟩, hover⟩ := htrivial
  obtain rfl : files = [] := List.length_eq_zero_iff.mp (Nat.succ.inj hone)
  have hall : task.allInputFiles = [file] := by
    rw [CompactionTask.allInputFiles, hfiles, hover, List.append_nil]
  refine ⟨hall, ?_, fun _ => ?_⟩
  · simp [DB.deleteEdits, hall, hfiles]
  · have hentries : task.entries db.disk.tables =
        [file].flatMap (fileEntries db.disk.tables) := by
      rw [CompactionTask.entries, hall]
    rw [← hentries] at hlen
    have hsub := compactLoop_sublist w drop [] (sortEntries (task.entries db.disk.tables))
    have heq := hsub.eq_of_length
      (hlen.trans (sortEntries_perm (task.entries db.disk.tables)).length_eq.symm)
    rw [compactEntries, heq]
    exact sortEntries_perm _

theorem Races.surveyed {w : Nat} {drop : Bool}
    (h : Races base db (.surveyed task w drop :: rest)) :
    Races.Advances cached base db (.surveyed task w drop) rest := by
  obtain ⟨hknown, hw⟩ := h.good _ (List.mem_cons_self ..)
  have hrewrite : Races base db (.rewriting task w drop :: rest) :=
    h.go (Progress.follows_some (List.Subset.refl _) rfl (List.nil_subset _)) ⟨hknown, hw⟩ nofun
  have hend : Races base db rest := h.stop nofun
  cases hfiles : task.inputFiles with
  | nil =>
    refine ⟨none, db, .ok ?_, le_rfl, hend⟩
    simp only [Progress.advance, hfiles]
    rfl
  | cons file files =>
    by_cases htrivial : task.isTrivialMove = true
    · rcases readEntries_cases [file] db with ⟨-, hread⟩ | ⟨err, hread⟩
      · have hneeds : DB.trivialMoveNeedsRewrite file w drop db =
            .ok ((compactEntries ([file].flatMap (fileEntries db.disk.tables)) w drop).length !=
              ([file].flatMap (fileEntries db.disk.tables)).length) db := by
          rw [DB.trivialMoveNeedsRewrite, run_bind_ok hread]
          rfl
        by_cases hlen : (compactEntries ([file].flatMap (fileEntries db.disk.tables)) w
            drop).length = ([file].flatMap (fileEntries db.disk.tables)).length
        · have hrun : (Progress.surveyed task w drop).advance cached db = .ok (some (.ready task drop
              ⟨[.deleteFile task.inputLevel file.number, .addFile task.outputLevel file], []⟩))
                db := by
            simp only [Progress.advance, hfiles, if_pos htrivial]
            rw [run_bind_ok hneeds, if_neg (by simpa using hlen)]
            rfl
          have hmoves := moves_of_trivial hfiles htrivial hlen
          rw [hw] at hmoves
          exact ⟨_, db, .ok hrun, le_rfl, h.go (Progress.follows_some (List.Subset.refl _)
            hmoves.unpublished_eq (List.nil_subset _)) ⟨hknown, .inl ⟨file, hmoves⟩⟩ nofun⟩
        · have hrun : (Progress.surveyed task w drop).advance cached db =
              .ok (some (.rewriting task w drop)) db := by
            simp only [Progress.advance, hfiles, if_pos htrivial]
            rw [run_bind_ok hneeds, if_pos (by simpa using hlen)]
            rfl
          exact ⟨_, db, .ok hrun, le_rfl, hrewrite⟩
      · have hrun : (Progress.surveyed task w drop).advance cached db = .error err db := by
          simp only [Progress.advance, hfiles, if_pos htrivial]
          exact run_bind_error (run_bind_error hread)
        exact ⟨none, db, .error hrun, le_rfl, hend⟩
    · have hrun : (Progress.surveyed task w drop).advance cached db =
          .ok (some (.rewriting task w drop)) db := by
        simp only [Progress.advance, hfiles, if_neg htrivial]
        rfl
      exact ⟨_, db, .ok hrun, le_rfl, hrewrite⟩

theorem Intact.file_number_lt (h : Intact base db) {f : FileMeta}
    (hf : f ∈ db.versions.current.files) : f.number < db.versions.nextFileNumber := by
  obtain ⟨t, ht, -⟩ := h.stored.described f hf
  by_contra hge
  rw [h.freshTables _ (not_lt.mp hge)] at ht
  cases ht

theorem Progress.removing_subset (p : Progress) : p.removing ⊆ p.held := by
  cases p <;> first | exact List.Subset.refl _ | exact List.nil_subset _

/-- A step of one compaction keeps the files of all apart if it writes only new files and lists
only what it had written. -/
theorem Unshared.advance (h : Unshared db (p :: rest)) {q : Progress}
    (hnext : db.versions.nextFileNumber ≤ db'.versions.nextFileNumber)
    (hlt : ∀ f ∈ db.versions.current.files, f.number < db.versions.nextFileNumber)
    (hheld : q.held ⊆ p.held) (hnodup : q.unpublished.Nodup)
    (hnew : ∀ n ∈ q.unpublished,
      db.versions.nextFileNumber ≤ n ∧ n < db'.versions.nextFileNumber)
    (hremoving : ∀ n ∈ q.removing, ∀ f ∈ db'.versions.current.files, f.number ≠ n)
    (hfiles : ∀ f ∈ db'.versions.current.files,
      f ∈ db.versions.current.files ∨ f.number ∈ p.unpublished) : Unshared db' (q :: rest) := by
  have hp : p ∈ p :: rest := List.mem_cons_self ..
  have hrest : ∀ {r}, r ∈ rest → r ∈ p :: rest := fun hr => List.mem_cons_of_mem p hr
  have hnodup' := h.nodup
  rw [List.flatMap_cons, List.nodup_append] at hnodup'
  have hfiles_lt : ∀ f ∈ db'.versions.current.files, f.number < db.versions.nextFileNumber := by
    intro f hf
    rcases hfiles f hf with hf | hf
    · exact hlt f hf
    · exact h.unpublished_lt p hp _ hf
  have hheld_lt : ∀ r ∈ q :: rest, ∀ n ∈ r.held, n < db.versions.nextFileNumber := by
    refine List.forall_mem_cons.mpr ⟨fun n hn => h.held_lt p hp n (hheld hn), fun r hr => ?_⟩
    exact h.held_lt r (hrest hr)
  constructor
  · intro r hr n hn
    exact (hheld_lt r hr n hn).trans_le hnext
  · refine List.forall_mem_cons.mpr ⟨fun n hn => (hnew n hn).2, fun r hr n hn => ?_⟩
    exact (h.unpublished_lt r (hrest hr) n hn).trans_le hnext
  · rw [List.flatMap_cons, List.nodup_append]
    refine ⟨hnodup, hnodup'.2.1, fun n hn m hm he => ?_⟩
    obtain ⟨r, hr, hm⟩ := List.mem_flatMap.mp hm
    have := h.unpublished_lt r (hrest hr) m hm
    have := (hnew n hn).1
    omega
  · refine List.forall_mem_cons.mpr ⟨fun n hn f hf he => ?_, fun r hr n hn f hf he => ?_⟩
    · have := hfiles_lt f hf
      have := (hnew n hn).1
      omega
    · rcases hfiles f hf with hf | hf
      · exact h.unlisted r (hrest hr) n hn f hf he
      · exact hnodup'.2.2 _ hf n (List.mem_flatMap.mpr ⟨r, hr, hn⟩) he
  · refine List.forall_mem_cons.mpr ⟨fun n hn r hr hmem => ?_, fun r hr n hn => ?_⟩
    · have := hheld_lt r hr n hmem
      have := (hnew n hn).1
      omega
    · refine List.forall_mem_cons.mpr ⟨fun hmem => ?_, fun r' hr' => ?_⟩
      · exact h.unheld r (hrest hr) n hn p hp (hheld hmem)
      · exact h.unheld r (hrest hr) n hn r' (hrest hr')
  · refine List.forall_mem_cons.mpr ⟨hremoving, fun r hr n hn f hf he => ?_⟩
    rcases hfiles f hf with hf | hf
    · exact h.gone r (hrest hr) n hn f hf he
    · exact h.unheld p hp _ hf r (hrest hr) (he ▸ r.removing_subset hn)

theorem Races.good_rest (h : Races base db (p :: rest)) {lost : List Nat}
    (hchange : Changes lost db db') (hlost : ∀ n ∈ lost, n ∈ p.held) :
    ∀ q ∈ rest, q.Good base.gcWatermark db' := by
  intro q hq
  refine (h.good q (by simp [hq])).changes hchange (h.unshared.unpublished_lt q (by simp [hq]))
    fun n hn hmem => ?_
  exact h.unshared.unheld q (by simp [hq]) n hn p (by simp) (hlost n hmem)

theorem Races.rewriting {w : Nat} {drop : Bool}
    (h : Races base db (.rewriting task w drop :: rest)) :
    Races.Advances cached base db (.rewriting task w drop) rest := by
  obtain ⟨hknown, hw⟩ := h.good _ (List.mem_cons_self ..)
  rcases readEntries_cases task.allInputFiles db with ⟨hpresent, hread⟩ | ⟨err, hread⟩
  · refine ⟨_, db, .ok (run_bind_ok hread), le_rfl,
      h.go (Progress.follows_some (List.Subset.refl _) rfl (List.nil_subset _))
      ⟨hknown, ?_, fun e he => ?_, fun _ => ?_⟩ nofun⟩
    · apply sortedEntries_of_distinct (compactEntries_rising _ _ _)
      obtain ⟨l, hperm, hl⟩ := DB.compactEntries_subperm
        (task.allInputFiles.flatMap (fileEntries db.disk.tables)) w drop
      exact ((hperm.map Prod.fst).nodup_iff).mp (hknown.newestFirst.distinct.sublist (hl.map _))
    · obtain ⟨f, hf, he⟩ := List.mem_flatMap.mp (mem_compactEntries.mp he).1
      obtain ⟨t, ht⟩ := hpresent f hf
      rw [fileEntries_eq ht] at he
      exact (hknown.described f hf t ht).wellFormed.matched e he
    · rw [hw]
      rfl
  · exact ⟨none, db, .error (run_bind_error hread), le_rfl, h.stop nofun⟩

theorem Intact.changes (h : Intact base db) {lost : List Nat} (hchange : Changes lost db db')
    (hstate : db'.state = db.state) (hoptions : db'.options = db.options)
    (hwatermark : db'.watermark = db.watermark)
    (hcurrent : db'.versions.current = db.versions.current)
    (hlost : ∀ f ∈ db.versions.current.files, f.number ∉ lost)
    (hfresh : ∀ n, db'.versions.nextFileNumber ≤ n → db'.disk.tables n = none) :
    Intact base db' := by
  have hagree : ∀ f ∈ db.versions.current.files,
      db'.disk.tables f.number = db.disk.tables f.number := by
    intro f hf
    rcases hchange.tables f.number (h.file_number_lt hf) with hsame | ⟨hmem, -⟩
    · exact hsame
    · exact absurd hmem (hlost f hf)
  have hall : db'.allEntries = db.allEntries := by
    rw [DB.allEntries, DB.allEntries, hstate, hcurrent, Version.entries_congr hagree]
  refine ⟨?_, hoptions.trans h.options, hwatermark.trans h.watermark, ?_, ?_, ?_, hfresh, ?_⟩
  · unfold DB.SameMemory
    rw [hstate]
    exact h.memory
  · rw [hcurrent]
    exact h.stored.congr hagree
  · rw [hall]
    exact h.newestFirst
  · rw [hall]
    exact h.visible
  · have hrefs : db'.tableRefs = db.tableRefs := by
      rw [DB.tableRefs, DB.tableRefs, hstate]
    rw [hrefs]
    exact hchange.faithful h.faithful

theorem changes_prepared {entries : List Entry} {refs : List TableRef}
    (hw : DB.Written db entries refs) : Changes [] db (db.prepared refs) := by
  refine ⟨Nat.le_add_right _ _, fun n hn => .inl ?_, rfl⟩
  rw [DB.prepared_tables, Disk.withTables_of_ne _ fun ref href => ?_]
  have := (hw.numbers ref href).1
  omega

theorem Intact.prepared (h : Intact base db) {entries : List Entry} {refs : List TableRef}
    (hw : DB.Written db entries refs) : Intact base (db.prepared refs) := by
  apply h.changes (changes_prepared hw) rfl rfl rfl rfl
  · exact fun f _ hmem => absurd hmem List.not_mem_nil
  · intro n hn
    have hn : db.versions.nextFileNumber + refs.length ≤ n := hn
    rw [DB.prepared_tables, Disk.withTables_of_ne _ fun ref href => ?_]
    · exact h.freshTables n (by omega)
    · have := (hw.numbers ref href).2
      omega

theorem Known.wrote {drop : Bool} {entries : List Entry} {refs : List TableRef} {watermark : Nat}
    (h : Known db task) (hw : DB.Written db entries refs)
    (he : Present db task → entries = compactEntries (task.entries db.disk.tables) watermark drop)
    (hbelow : (splitCompactionEntries entries db.options.targetFileSizeBase
      db.options.maxSubcompactions).Pairwise KeysBelow) :
    Wrote watermark (db.prepared refs) task drop
      ⟨DB.deleteEdits task ++ DB.addEdits task refs, task.numbers⟩ (refs.map Prod.fst) := by
  have htables : ∀ ref ∈ refs, (db.prepared refs).disk.tables ref.1.number = some ref.2 := by
    intro ref href
    rw [DB.prepared_tables]
    exact Disk.withTables_of_mem _ hw.nodup href
  have hentries : (refs.map Prod.fst).map (fileEntries (db.prepared refs).disk.tables) =
      refs.map (fun ref => ref.2.entries) := by
    rw [List.map_map]
    exact List.map_congr_left fun ref href => fileEntries_eq (htables ref href)
  constructor
  · rw [DB.addEdits_eq]
  · intro o ho
    obtain ⟨ref, href, rfl⟩ := List.mem_map.mp ho
    exact ⟨ref.2, htables ref href, hw.described ref href⟩
  · intro o ho hmem
    obtain ⟨ref, href, rfl⟩ := List.mem_map.mp ho
    obtain ⟨f, hf, hnumber⟩ := List.mem_map.mp hmem
    have := (hw.numbers ref href).1
    have := h.lt f hf
    omega
  · rw [hentries, hw.chunks]
    exact hbelow
  · intro hp
    obtain ⟨hp, hsame⟩ := (changes_prepared hw).present h hp
    rw [List.flatMap_def, hentries, hw.flatten, hsame]
    exact he hp

theorem Races.gathered {drop : Bool} {entries : List Entry}
    (h : Races base db (.gathered task drop entries :: rest))
    (hfits : db.options.maxSubcompactions ≤ 1 ∨
      emptyKeySize entries < max db.options.targetFileSizeBase 1) :
    Races.Advances cached base db (.gathered task drop entries) rest := by
  obtain ⟨hknown, hs, hm, he⟩ := h.good _ (List.mem_cons_self ..)
  obtain ⟨refs, hw, hrun⟩ := DB.run_writeCompactionOutputs hs hm
  have hchange := changes_prepared hw
  have hwrote := hknown.wrote hw he
    (splitCompactionEntries_keysBelow (hs.imp fun hab => le_of_lt hab) hfits)
  have hun := hwrote.unpublished_eq
  rw [List.map_map] at hun
  refine ⟨some (.ready task drop ⟨_, task.numbers⟩), db.prepared refs, .ok (run_bind_ok hrun),
    hchange.next, h.intact.prepared hw, ?_, ?_, ?_⟩
  · refine List.forall_mem_cons.mpr ⟨⟨hchange.known hknown, .inr ⟨_, hwrote⟩⟩, ?_⟩
    exact h.good_rest hchange fun n hn => absurd hn List.not_mem_nil
  · refine h.unshared.advance hchange.next (fun f hf => h.intact.file_number_lt hf)
      (fun n hn => hn) ?_ ?_ ?_ ?_
    · rw [hun]
      exact hw.nodup
    · intro n hn
      rw [hun] at hn
      obtain ⟨ref, href, rfl⟩ := List.mem_map.mp hn
      exact hw.numbers ref href
    · exact fun n hn => absurd hn List.not_mem_nil
    · exact fun f hf => .inl hf
  · rcases h.lists with ⟨q, hq, hawaits⟩ | hcurrent
    · rcases List.mem_cons.mp hq with rfl | hq
      · cases hawaits
      · exact .inl ⟨q, List.mem_cons_of_mem _ hq, hawaits⟩
    · exact .inr hcurrent

theorem Version.StillHolds.mem_files {v : Version} (h : v.StillHolds task) {f : FileMeta}
    (hf : f ∈ task.allInputFiles) : f ∈ v.files := by
  rcases List.mem_append.mp hf with hf | hf
  · exact mem_files_of_levelFiles (h.inputs.subset hf)
  · have hmem := h.overlaps.subset hf
    rw [List.getD_eq_getElem?_getD] at hmem
    cases hget : v.levels[task.outputLevel]? with
    | none => simp [hget] at hmem
    | some files =>
      rw [hget] at hmem
      exact List.mem_append.mpr (.inr (List.mem_flatten.mpr
        ⟨files, List.mem_of_getElem? hget, hmem⟩))

theorem Version.StillHolds.outputs {v : Version} (h : v.StillHolds task)
    {tables : Nat → Option Table} (hst : v.Stored tables) {outs : List FileMeta}
    (hplaced : Placed v task tables outs)
    (hbelow : (outs.map (fileEntries tables)).Pairwise KeysBelow)
    (hsub : outs.flatMap (fileEntries tables) ⊆ task.entries tables) :
    Outputs v task tables outs := by
  apply hplaced.outputs hbelow
  intro o ho e he
  obtain ⟨f, hf, hef⟩ := List.mem_flatMap.mp (hsub (List.mem_flatMap.mpr ⟨o, ho, he⟩))
  exact ⟨f, hf, fileEntries_userKey_mem (hst.described f (h.mem_files hf)) hef⟩

/-- A publication that is safe for the version is safe for the compactions on their way. -/
theorem Races.publish {drop : Bool} {publication : Publication} {outs : List FileMeta}
    {v' : Version} (h : Races base db (.ready task drop publication :: rest))
    (hpub : PublishedSafely db.versions.current task db.disk.tables db.state.memEntries
      base.gcWatermark outs v')
    (hedits : publication.edits =
      DB.deleteEdits task ++ outs.map (VersionEdit.addFile task.outputLevel))
    (hremoved : publication.removed ⊆ task.numbers)
    (houts : ∀ o ∈ outs, o ∈ db.versions.current.files ∨
      o.number ∈ (Progress.ready task drop publication).unpublished)
    (hgone : ∀ n ∈ publication.removed, ∀ o ∈ outs, o.number ≠ n) :
    Races.Advances cached base db (.ready task drop publication) rest := by
  have hreplay := hpub.replay db.versions rfl
  rw [← hedits] at hreplay
  set db' : DB := { db.performed (publication.edits.map .appendManifest) with
    versions := { db.versions with
      current := v'
      nextFileNumber := Version.nextAfter db.versions.nextFileNumber outs } } with hdb'
  have htables : db'.disk.tables = db.disk.tables := by
    rw [hdb', DB.performed, Disk.applyAll_appendManifest]
  have hnext : db.versions.nextFileNumber ≤ db'.versions.nextFileNumber :=
    Version.le_nextAfter _ _
  have hchange : Changes [] db db' := ⟨hnext, fun n _ => .inl (by rw [htables]), hpub.levels⟩
  have hall : db'.allEntries = db.state.memEntries ++ v'.entries db.disk.tables := by
    rw [DB.allEntries, htables]
    rfl
  have hrun : (Progress.ready task drop publication).advance cached db =
      .ok (some (.published publication.removed)) db' := by
    rw [Progress.advance, DB.publish, run_bind_ok (DB.run_logAndApplyAll hreplay), run_pure]
  refine ⟨_, db', .ok hrun, hnext,
    ⟨h.intact.memory, h.intact.options, h.intact.watermark, ?_, ?_, ?_, ?_, ?_⟩, ?_, ?_, ?_⟩
  · rw [htables]
    exact hpub.stored
  · rw [hall]
    exact hpub.newestFirst
  · intro k s hs
    rw [hall, hpub.visible k s hs]
    exact h.intact.visible k s hs
  · intro n hn
    rw [htables]
    exact h.intact.freshTables n (hnext.trans hn)
  · exact hchange.faithful h.intact.faithful
  · refine List.forall_mem_cons.mpr ⟨trivial, ?_⟩
    exact h.good_rest hchange fun n hn => absurd hn List.not_mem_nil
  · refine h.unshared.advance hnext (fun f hf => h.intact.file_number_lt hf) hremoved
      List.nodup_nil (fun n hn => absurd hn List.not_mem_nil) ?_ ?_
    · intro n hn f hf he
      rcases List.mem_append.mp (hpub.perm.mem_iff.mp hf) with hf | hf
      · exact of_decide_eq_true (List.mem_filter.mp hf).2 (he ▸ hremoved hn)
      · exact hgone n hn f hf he
    · intro f hf
      rcases List.mem_append.mp (hpub.perm.mem_iff.mp hf) with hf | hf
      · exact .inl (List.mem_filter.mp hf).1
      · exact houts f hf
  · exact .inl ⟨_, List.mem_cons_self .., rfl⟩

theorem Races.moves {drop : Bool} {publication : Publication} {file : FileMeta}
    (h : Races base db (.ready task drop publication :: rest))
    (hstill : db.versions.current.StillHolds task)
    (hdrop : drop = true → canDropTombstones db.versions.current task = true)
    (horder : db.versions.current.LeavesInOrder db.disk.tables task)
    (hmoves : Moves base.gcWatermark db task drop publication file) :
    Races.Advances cached base db (.ready task drop publication) rest := by
  have hknown := (h.good _ (List.mem_cons_self ..)).1
  have hst := h.intact.stored
  have hfile : file ∈ db.versions.current.files := hstill.mem_files (by simp [hmoves.alone])
  have hpresent : Present db task := fun f hf =>
    (hst.described f (hstill.mem_files hf)).imp fun _ ht => ht.1
  have hentries : task.entries db.disk.tables =
      [file].flatMap (fileEntries db.disk.tables) := by
    rw [CompactionTask.entries, hmoves.alone]
  have hplaced : Placed db.versions.current task db.disk.tables [file] := by
    refine ⟨?_, List.nodup_singleton _, ?_⟩
    · exact List.forall_mem_singleton.mpr (hst.described file hfile)
    · refine List.forall_mem_singleton.mpr fun f hf he => ?_
      have hkept := of_decide_eq_true (List.mem_filter.mp hf).2
      rw [he, CompactionTask.numbers, hmoves.alone] at hkept
      exact hkept (List.mem_singleton_self _)
  have hout : Outputs db.versions.current task db.disk.tables [file] := by
    apply hstill.outputs hst hplaced (List.pairwise_singleton _ _)
    rw [hentries]
    exact List.Subset.refl _
  have hmem : ∀ e, e ∈ [file].flatMap (fileEntries db.disk.tables) ↔
      e ∈ compactEntries (task.entries db.disk.tables) base.gcWatermark drop := by
    intro e
    rw [← hentries, (hmoves.perm hpresent).mem_iff]
  have hnewest : ∀ o ∈ [file], NewestFirst (fileEntries db.disk.tables o) := by
    have hall := hknown.newestFirst
    rw [hentries, List.flatMap_singleton] at hall
    exact List.forall_mem_singleton.mpr hall
  obtain ⟨v', hpub⟩ := hstill.publish hst hknown.shaped h.intact.newestFirst horder hdrop hout hmem
    hnewest
  apply h.publish hpub (by rw [hmoves.publication_eq]) (by simp [hmoves.publication_eq])
  · exact List.forall_mem_singleton.mpr (.inl hfile)
  · simp [hmoves.publication_eq]

theorem Races.wrote {drop : Bool} {publication : Publication} {outs : List FileMeta}
    (h : Races base db (.ready task drop publication :: rest))
    (hstill : db.versions.current.StillHolds task)
    (hdrop : drop = true → canDropTombstones db.versions.current task = true)
    (horder : db.versions.current.LeavesInOrder db.disk.tables task)
    (hwrote : Wrote base.gcWatermark db task drop publication outs) :
    Races.Advances cached base db (.ready task drop publication) rest := by
  have hp : Progress.ready task drop publication ∈ .ready task drop publication :: rest :=
    List.mem_cons_self ..
  have hknown := (h.good _ hp).1
  have hst := h.intact.stored
  have hpresent : Present db task := fun f hf =>
    (hst.described f (hstill.mem_files hf)).imp fun _ ht => ht.1
  have hentries := hwrote.entries hpresent
  have hun := hwrote.unpublished_eq
  have hplaced : Placed db.versions.current task db.disk.tables outs := by
    refine ⟨hwrote.described, ?_, ?_⟩
    · have hnodup := h.unshared.nodup
      rw [List.flatMap_cons, List.nodup_append] at hnodup
      rw [← hun]
      exact hnodup.1
    · intro o ho f hf
      apply h.unshared.unlisted _ hp _ _ f (List.mem_filter.mp hf).1
      rw [hun]
      exact List.mem_map_of_mem ho
  have hmem : ∀ e, e ∈ outs.flatMap (fileEntries db.disk.tables) ↔
      e ∈ compactEntries (task.entries db.disk.tables) base.gcWatermark drop := by
    intro e
    rw [hentries]
  have hout := hstill.outputs hst hplaced hwrote.below fun e he =>
    (mem_compactEntries.mp ((hmem e).mp he)).1
  have hnewest : NewestFirst (outs.flatMap (fileEntries db.disk.tables)) := by
    rw [hentries]
    exact (newestFirst_sortEntries hknown.newestFirst).sublist (compactLoop_sublist _ _ [] _)
  rw [List.flatMap_def] at hnewest
  obtain ⟨v', hpub⟩ := hstill.publish hst hknown.shaped h.intact.newestFirst horder hdrop hout hmem
    fun o ho => (newestFirst_flatten.mp hnewest).1 _ (List.mem_map_of_mem ho)
  apply h.publish hpub (by rw [hwrote.publication_eq])
  · rw [hwrote.publication_eq]
    exact List.Subset.refl _
  · intro o ho
    right
    rw [hun]
    exact List.mem_map_of_mem ho
  · intro n hn o ho he
    rw [hwrote.publication_eq] at hn
    exact hwrote.fresh o ho (he ▸ hn)

/-- A compaction whose files are still in their places publishes what it has written. -/
theorem Races.ready {drop : Bool} {publication : Publication}
    (h : Races base db (.ready task drop publication :: rest))
    (hstill : db.versions.current.StillHolds task)
    (hdrop : drop = true → canDropTombstones db.versions.current task = true)
    (horder : db.versions.current.LeavesInOrder db.disk.tables task) :
    Races.Advances cached base db (.ready task drop publication) rest := by
  obtain ⟨-, ⟨file, hmoves⟩ | ⟨outs, hwrote⟩⟩ := h.good _ (List.mem_cons_self ..)
  · exact h.moves hstill hdrop horder hmoves
  · exact h.wrote hstill hdrop horder hwrote

theorem Races.picked (h : Races base db (.picked task :: rest)) :
    Races.Advances cached base db (.picked task) rest := by
  have hknown : Known db task := h.good _ (List.mem_cons_self ..)
  by_cases hnil : task.inputFiles.isEmpty = true
  · refine ⟨none, db, .ok ?_, le_rfl, h.stop nofun⟩
    rw [Progress.advance, if_pos hnil]
    rfl
  · refine ⟨some (.bounded task db.gcWatermark), db, .ok ?_, le_rfl, h.go (Progress.follows_some
      (List.Subset.refl _) rfl (List.nil_subset _)) ⟨hknown, h.intact.gcWatermark⟩ nofun⟩
    rw [Progress.advance, if_neg hnil]
    exact run_bind_ok (run_get db)

theorem Races.bounded {w : Nat} (h : Races base db (.bounded task w :: rest)) :
    Races.Advances cached base db (.bounded task w) rest :=
  ⟨_, db, .ok (run_bind_ok (run_get db)), le_rfl, h.go (Progress.follows_some (List.Subset.refl _) rfl
    (List.nil_subset _)) (h.good (.bounded task w) (List.mem_cons_self ..)) nofun⟩

theorem Races.published {removed : List Nat} (h : Races base db (.published removed :: rest)) :
    Races.Advances cached base db (.published removed) rest :=
  ⟨_, db, .ok (run_bind_ok (run_get db)), le_rfl, h.go (Progress.follows_some (List.Subset.refl _) rfl
    (List.Subset.refl _)) trivial fun _ => rfl⟩

theorem Retains.fill (h : Retains cached db)
    (hnext : db.versions.nextFileNumber ≤ db'.versions.nextFileNumber)
    (hfresh : ∀ n, db'.versions.nextFileNumber ≤ n → db'.disk.tables n = none) :
    Retains (fun number => (db'.disk.tables number).or (cached number)) db' := by
  intro n t ht
  rcases Option.or_eq_some_iff.mp ht with htable | ⟨hgone, hreader⟩
  · refine ⟨?_, fun t' ht' => Option.some.inj (ht'.symm.trans htable)⟩
    by_contra hge
    rw [hfresh n (not_lt.mp hge)] at htable
    cases htable
  · refine ⟨(h n t hreader).1.trans_le hnext, fun t' ht' => ?_⟩
    rw [hgone] at ht'
    cases ht'

theorem Retains.evict (h : Retains cached db) (number : Nat) :
    Retains (Function.update cached number none) db := by
  intro n t ht
  by_cases hn : n = number
  · rw [hn, Function.update_self] at ht
    cases ht
  · rw [Function.update_of_ne hn] at ht
    exact h n t ht

theorem Intact.faithful_through (h : Intact base db) (hcached : Retains cached db)
    {refs : List TableRef}
    (hrefs : ∀ ref ∈ refs, (db.disk.through cached).tables ref.1.number = some ref.2) :
    Faithful db refs := by
  intro ref href
  rcases Option.or_eq_some_iff.mp (hrefs ref href) with hreader | ⟨-, htable⟩
  · exact hcached _ _ hreader
  · refine ⟨?_, fun t ht => Option.some.inj (ht.symm.trans htable)⟩
    by_contra hge
    rw [h.freshTables _ (not_lt.mp hge)] at htable
    cases htable

theorem Races.reading {version : Version} {removed : List Nat}
    (h : Races base db (.reading version removed :: rest)) (hcached : Retains cached db)
    (htimely : (∃ q ∈ rest, Progress.awaitsRefresh (some q) = true) ∨ ListsCurrent db ∨
      ∀ file ∈ version.files, ((db.disk.through cached).tables file.number).isSome) :
    Races.Advances cached base db (.reading version removed) rest := by
  cases hopen : openVersionTables (db.disk.through cached) version with
  | ok tables =>
    obtain ⟨l0, levels⟩ := tables
    have hrun : (Progress.reading version removed).advance cached db =
        .ok (some (.opened version l0 levels removed)) db := by
      rw [Progress.advance, run_bind_ok (run_get db), hopen, run_bind_ok (run_ofExcept_ok _ _)]
      rfl
    obtain ⟨hl0, hlevels, hrefs⟩ := openVersionTables_eq_ok hopen
    exact ⟨_, db, .ok hrun, le_rfl, h.go (Progress.follows_some (List.Subset.refl _) rfl
      (List.Subset.refl _)) ⟨hl0, hlevels, h.intact.faithful_through hcached hrefs⟩ fun _ => rfl⟩
  | error err =>
    have hrun : (Progress.reading version removed).advance cached db = .error err db := by
      rw [Progress.advance, run_bind_ok (run_get db), hopen]
      exact run_bind_error (run_ofExcept_error _ _)
    refine ⟨none, db, .error hrun, le_rfl, h.stop fun _ => ?_⟩
    rcases htimely with hother | hcurrent | hpresent
    · exact .inl hother
    · exact .inr hcurrent
    · obtain ⟨tables, hok⟩ := openVersionTables_present hpresent
      rw [hok] at hopen
      cases hopen

theorem Races.opened {version : Version} {l0 : List TableRef} {levels : List (List TableRef)}
    {removed : List Nat} (h : Races base db (.opened version l0 levels removed :: rest))
    (htimely : (∃ q ∈ rest, Progress.awaitsRefresh (some q) = true) ∨
      version = db.versions.current) :
    Races.Advances cached base db (.opened version l0 levels removed) rest := by
  have hp : Progress.opened version l0 levels removed ∈ .opened version l0 levels removed :: rest :=
    List.mem_cons_self ..
  obtain ⟨hl0, hlevels, hfaithful⟩ := h.good _ hp
  set db' : DB := { db with
    state := { db.state with l0Tables := l0, levelTables := levels } } with hdb'
  have hchange : Changes [] db db' := ⟨le_rfl, fun _ _ => .inl rfl, rfl⟩
  have hi := h.intact
  refine ⟨_, db', .ok (Progress.advance_opened version l0 levels removed db), le_rfl,
    ⟨?_, hi.options, hi.watermark, hi.stored, hi.newestFirst, hi.visible, hi.freshTables,
      hchange.faithful hfaithful⟩, ?_, ?_, ?_⟩
  · have hmemory := hi.memory
    unfold DB.SameMemory at hmemory ⊢
    rw [hdb', hmemory]
  · refine List.forall_mem_cons.mpr ⟨trivial, ?_⟩
    exact h.good_rest hchange fun n hn => absurd hn List.not_mem_nil
  · exact h.unshared.advance le_rfl (fun f hf => hi.file_number_lt hf) (List.Subset.refl _)
      List.nodup_nil (fun n hn => absurd hn List.not_mem_nil)
      (h.unshared.gone (.opened version l0 levels removed) hp)
      fun f hf => .inl hf
  · rcases htimely with ⟨q, hq, hawaits⟩ | rfl
    · exact .inl ⟨q, List.mem_cons_of_mem _ hq, hawaits⟩
    · exact .inr ⟨hl0, hlevels⟩

theorem Races.deleting {removed : List Nat} (h : Races base db (.deleting removed :: rest)) :
    Races.Advances cached base db (.deleting removed) rest := by
  have hp : Progress.deleting removed ∈ .deleting removed :: rest := List.mem_cons_self ..
  cases removed with
  | nil => exact ⟨none, db, .ok rfl, le_rfl, h.stop nofun⟩
  | cons number removed =>
    set db' := db.performed [.removeTable number] with hdb'
    have hrun : (Progress.deleting (number :: removed)).advance cached db =
        .ok (some (.deleting removed)) db' := run_bind_ok (run_act db _)
    have htables : ∀ n, db'.disk.tables n = if n = number then none else db.disk.tables n := by
      intro n
      by_cases hn : n = number
      · rw [if_pos hn, hn]
        exact Function.update_self _ _ _
      · rw [if_neg hn]
        exact Function.update_of_ne hn _ _
    have hchange : Changes [number] db db' := by
      refine ⟨le_rfl, fun n _ => ?_, rfl⟩
      rw [htables]
      by_cases hn : n = number
      · right
        rw [if_pos hn, hn]
        exact ⟨List.mem_singleton_self _, rfl⟩
      · left
        rw [if_neg hn]
    have hgone := h.unshared.gone _ hp
    refine ⟨_, db', .ok hrun, le_rfl, h.intact.changes hchange rfl rfl rfl rfl ?_ ?_, ?_, ?_, ?_⟩
    · intro f hf hmem
      exact hgone number (List.mem_cons_self ..) f hf (List.mem_singleton.mp hmem)
    · intro n hn
      rw [htables]
      split
      · rfl
      · exact h.intact.freshTables n hn
    · refine List.forall_mem_cons.mpr ⟨trivial, h.good_rest hchange fun n hn => ?_⟩
      rw [List.mem_singleton.mp hn]
      exact List.mem_cons_self ..
    · exact h.unshared.advance le_rfl (fun f hf => h.intact.file_number_lt hf)
        (List.subset_cons_self _ _) List.nodup_nil (fun n hn => absurd hn List.not_mem_nil)
        (fun n hn => hgone n (List.mem_cons_of_mem _ hn)) fun f hf => .inl hf
    · rcases h.lists with ⟨q, hq, hawaits⟩ | hcurrent
      · rcases List.mem_cons.mp hq with rfl | hq
        · cases hawaits
        · exact .inl ⟨q, List.mem_cons_of_mem _ hq, hawaits⟩
      · exact .inr hcurrent

end

end TyLsm
