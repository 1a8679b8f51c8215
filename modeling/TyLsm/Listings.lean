import TyLsm.Closed
import TyLsm.FileNumbers

/-! The directory and the version set agree on the tables: none is left behind, and none
is missing. -/

namespace TyLsm

namespace DB

variable {db db' : DB} {task : CompactionTask}

/-- Every table in the directory is listed. -/
def NoOrphans (db : DB) : Prop :=
  ∀ n, db.disk.tables n ≠ none → n ∈ db.versions.current.files.map FileMeta.number

theorem NoOrphans.of_same (h : db.NoOrphans) (htables : db'.disk.tables = db.disk.tables)
    (hfiles : db'.versions.current = db.versions.current) : db'.NoOrphans := by
  intro n hn
  rw [htables] at hn
  rw [hfiles]
  exact h n hn

theorem rewrite_removes {w : Nat} {drop : Bool} (h : rewrite task w drop db = .ok () db') :
    ∀ n ∈ task.numbers, db'.disk.tables n = none := by
  obtain ⟨_, _, _, h⟩ := bind_eq_ok h
  obtain ⟨_, _, _, h⟩ := bind_eq_ok h
  obtain ⟨_, _, _, h⟩ := bind_eq_ok h
  obtain ⟨_, _, _, h⟩ := bind_eq_ok h
  rw [run_deleteObsoleteFiles] at h
  cases h
  intro n hn
  rw [performed, Disk.applyAll_removeTable]
  exact if_pos hn

theorem Performs.noOrphans {refs : List TableRef} {outs : List FileMeta} {removed : List Nat}
    (hp : Performs db db' task refs outs removed) (h : db.NoOrphans)
    (hgone : db.movesTrivially task = true ∨ ∀ n ∈ task.numbers, db'.disk.tables n = none) :
    db'.NoOrphans := by
  intro n hn
  have hlisted : ∀ f, f ∈ db.versions.current.remaining task ∨ f ∈ outs →
      f.number ∈ db'.versions.current.files.map FileMeta.number := fun f hf =>
    List.mem_map.mpr ⟨f, hp.replaces.perm.mem_iff.mpr (List.mem_append.mpr hf), rfl⟩
  by_cases hnew : ∃ ref ∈ refs, ref.1.number = n
  · -- a table that the compaction has written
    obtain ⟨ref, href, rfl⟩ := hnew
    rcases hp.written with houts | ⟨hnil, -⟩
    · exact hlisted ref.1 (.inr (houts ▸ List.mem_map_of_mem href))
    · rw [hnil] at href
      cases href
  · have hold : db.disk.tables n ≠ none := by
      rw [hp.disk] at hn
      dsimp only at hn
      by_cases hremoved : n ∈ removed
      · rw [if_pos hremoved] at hn
        exact absurd rfl hn
      · rw [if_neg hremoved, Disk.withTables_of_ne _ fun ref href he => hnew ⟨ref, href, he⟩] at hn
        exact hn
    obtain ⟨f, hf, rfl⟩ := List.mem_map.mp (h n hold)
    by_cases htaken : f.number ∈ task.numbers
    · -- a file of the task is still there only if it has moved
      rcases hgone with hmoves | hnone
      · have hrefs : refs = [] := by
          have hcount := hp.count
          rw [outputTables, if_pos hmoves] at hcount
          exact List.eq_nil_of_length_eq_zero hcount
        have houts : outs = task.allInputFiles := by
          rcases hp.written with houts | ⟨-, houts⟩
          · have hchunks := congrArg List.length hp.chunks
            rw [houts, hrefs, outputChunks, if_pos hmoves] at hchunks
            cases hchunks
          · exact houts
        obtain ⟨g, hg, he⟩ := List.mem_map.mp htaken
        rw [← he]
        exact hlisted g (.inr (houts ▸ hg))
      · exact absurd (hnone _ htaken) hn
    · exact hlisted f (.inl (List.mem_filter.mpr ⟨hf, decide_eq_true htaken⟩))

theorem NoOrphans.compactRange (h : db.NoOrphans) (hs : db.Sound) {lower upper : Bound}
    (hrun : DB.compactRange lower upper db = .ok () db') : db'.NoOrphans := by
  rw [DB.compactRange, run_bind_ok (run_get db)] at hrun
  cases hpick : CompactionPicker.pickManual db.versions.current lower upper with
  | none =>
    simp only [hpick] at hrun
    obtain rfl := (EStateM.Result.ok.inj hrun).2
    exact h
  | some task =>
    simp only [hpick] at hrun
    obtain ⟨db'', refs, outs, removed, hexec, hp⟩ := hs.execute hpick
    obtain rfl : db' = db'' :=
      (EStateM.Result.ok.inj (hrun.symm.trans (run_discard_ok hexec))).2
    have hsub := hs.listed.allInputFiles_sublist hpick
    obtain ⟨file, rest, hfiles⟩ := List.exists_cons_of_ne_nil (pickManual_cases hs.listed hpick).1
    have hfile : file ∈ db.versions.current.files :=
      hsub.subset (List.mem_append.mpr (.inl (by simp [hfiles])))
    refine hp.noOrphans h ?_
    rcases run_executeCompaction hfiles ((hs.listed.described file hfile).imp fun t ht => ht.1) with
      ⟨hmoves, -⟩ | ⟨-, hwhole⟩
    · exact .inl hmoves
    · rw [hwhole] at hexec
      obtain ⟨_, db₁, hrewrite, hpure⟩ := bind_eq_ok hexec
      obtain rfl : db₁ = db' := (EStateM.Result.ok.inj hpure).2
      exact .inr (rewrite_removes hrewrite)

theorem NoOrphans.locked (h : db.NoOrphans) (hs : db.Sound) (step : Section) :
    (after Section.run db step).NoOrphans := by
  rcases step.after_cases hs with ⟨hafter, _⟩ | ⟨requests, hafter, _⟩ |
    ⟨_, _, _, _, _, ref, _, hnum, _, _, hafter⟩
  · rw [hafter]
    exact h
  · rw [hafter]
    exact h.of_same (written_tables db requests) rfl
  · rw [hafter]
    intro n hn
    by_cases hnew : n = db.versions.nextFileNumber
    · exact List.mem_map.mpr ⟨ref.1, List.mem_cons_self, hnum.trans hnew.symm⟩
    · have hold : db.disk.tables n ≠ none := by
        refine fun hnone => hn (Eq.trans ?_ hnone)
        exact Function.update_of_ne hnew _ _
      obtain ⟨f, hf, rfl⟩ := List.mem_map.mp (h n hold)
      exact List.mem_map.mpr ⟨f, List.mem_cons_of_mem _ hf, rfl⟩

/-- The directory, the version set and the lists in memory have the same tables. -/
structure ListsExactly (db : DB) : Prop where
  once : (db.versions.current.files.map FileMeta.number).Nodup
  tables : ∀ n, db.disk.tables n ≠ none ↔ n ∈ db.versions.current.files.map FileMeta.number
  described : ∀ f ∈ db.versions.current.files,
    ∃ table, db.disk.tables f.number = some table ∧ f.Describes table
  l0Tables : db.state.l0Tables.map Prod.fst = db.versions.current.l0Files
  levelTables : db.state.levelTables.map (List.map Prod.fst) = db.versions.current.levels
  opened : ∀ ref ∈ db.state.l0Tables ++ db.state.levelTables.flatten,
    db.disk.tables ref.1.number = some ref.2

theorem NoOrphans.listsExactly (h : db.NoOrphans) (hs : db.Sound) : db.ListsExactly := by
  refine ⟨hs.listed.nodup, fun n => ⟨h n, fun hn => ?_⟩, hs.listed.described, hs.tables.l0_eq,
    hs.tables.levels_eq, fun ref href => (hs.tables.opened ref href).1⟩
  obtain ⟨f, hf, rfl⟩ := List.mem_map.mp hn
  obtain ⟨table, htable, -⟩ := hs.listed.described f hf
  simp [htable]

theorem NoOrphans.piece {env : Env} {options : Options} (h : db.NoOrphans)
    (hr : RestorableIn env options db) (piece : Piece) : (after Piece.run db piece).NoOrphans := by
  cases piece with
  | locked step => exact h.locked hr.sound step
  | compactRange lower upper =>
    obtain ⟨db', hrun, -⟩ := hr.sound.compactRange hr.recorded lower upper
    have hrun' : (Piece.compactRange lower upper).run db = .ok () db' := hrun
    rw [after_ok hrun']
    exact h.compactRange hr.sound hrun
  | snapshot => exact h
  | cloneSnapshot readSeq => exact h
  | dropSnapshot readSeq => exact h
  | reopen =>
    rcases hr.after_reopen with hafter | hafter
    · rw [hafter]
      exact h
    · rw [hafter]
      exact h

end DB

/-- Whatever the threads of a process do, piece by piece with compactions that run alone, and
however often it is started again: no table is left behind in the directory, none is missing,
and none is listed twice. -/
theorem directory_has_listed_tables (env : Env) {options : Options} (path : String) {db₀ : DB}
    (hopen : DB.open env (Disk.empty path) options = .ok db₀) (pieces : List Piece) :
    (runPieces pieces db₀).ListsExactly := by
  obtain rfl := DB.eq_created hopen
  have hstart : (DB.created env options path).NoOrphans := fun n hn => absurd rfl hn
  have hrun : DB.RestorableIn env options (runPieces pieces (DB.created env options path)) ∧
      (runPieces pieces (DB.created env options path)).NoOrphans :=
    List.foldlRecOn (motive := fun db => DB.RestorableIn env options db ∧ db.NoOrphans) pieces _
      ⟨DB.restorableIn_created env options path, hstart⟩
      fun _ h piece _ => ⟨h.1.piece piece, h.2.piece h.1 piece⟩
  exact hrun.2.listsExactly hrun.1.sound

def compactedPieces : List Piece :=
  [.locked (.group [⟨⟨[.put [97] [1]]⟩, {}⟩]), .locked .flush,
    .locked (.group [⟨⟨[.put [98] [2]]⟩, {}⟩]), .locked .flush,
    .compactRange .unbounded .unbounded, .reopen]

theorem directory_has_listed_tables_small :
    (runPieces compactedPieces (DB.created .inOrder {} "db")).disk.tables 2 = none ∧
      (runPieces compactedPieces (DB.created .inOrder {} "db")).ListsExactly :=
  ⟨by decide +kernel,
    @directory_has_listed_tables .inOrder {} "db" _ (DB.open_empty _ _ _) compactedPieces⟩

end TyLsm
