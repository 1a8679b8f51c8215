import TyLsm.Crash
import TyLsm.RacingRuns

/-! Compactions that several threads run at the same time, on a database on which nothing else
happens. -/

namespace TyLsm

/-- Only compactions take steps. -/
def ThreadStep.Compacts : ThreadStep → Prop
  | .writer _ => False
  | _ => True

instance : (step : ThreadStep) → Decidable step.Compacts
  | .writer _ => isFalse id
  | .compact _ _ _ => isTrue trivial
  | .advance _ => isTrue trivial
  | .evict _ => isTrue trivial

/-- The outputs are cut between keys, a publication finds the files of its task in their places,
and unless another refresh follows, the tables that a refresh installs are those of the current
version. -/
def Progress.Orderly (cached : Nat → Option Table) (db : DB) (follows : Bool) : Progress → Prop
  | gathered _ _ entries => db.options.maxSubcompactions ≤ 1 ∨
      emptyKeySize entries < max db.options.targetFileSizeBase 1
  | ready task dropTombstones _ => db.versions.current.StillHolds task ∧
      (dropTombstones = true → canDropTombstones db.versions.current task = true) ∧
      db.versions.current.LeavesInOrder db.disk.tables task
  | reading version _ => follows = true ∨ ListsCurrent db ∨
      ∀ file ∈ version.files, ((db.disk.through cached).tables file.number).isSome
  | opened version _ _ _ => follows = true ∨ version = db.versions.current
  | _ => True

instance (cached : Nat → Option Table) (db : DB) (follows : Bool) :
    (progress : Progress) → Decidable (progress.Orderly cached db follows)
  | .gathered _ _ _ => inferInstanceAs (Decidable (_ ∨ _))
  | .ready task _ _ => inferInstanceAs (Decidable (db.versions.current.StillHolds task ∧ _ ∧ _))
  | .reading _ _ => inferInstanceAs (Decidable (_ ∨ ListsCurrent db ∨ _))
  | .opened version _ _ _ => inferInstanceAs (Decidable (_ ∨ version = db.versions.current))
  | .picked _ | .bounded _ _ | .surveyed _ _ _ | .rewriting _ _ _ | .published _ | .deleting _ =>
    isTrue trivial

/-- What concurrent compactions must not touch. Reads below the watermark are no one's. -/
structure CompactedSafely (db db' : DB) : Prop where
  present : ∀ file ∈ db'.versions.current.files, (db'.disk.tables file.number).isSome
  numbers : (db'.versions.current.files.map FileMeta.number).Nodup
  apart : ∀ level ∈ db'.versions.current.levels, level.Pairwise fun f g =>
    Apart (fileEntries db'.disk.tables f) (fileEntries db'.disk.tables g)
  get : ∀ key snapshot, db.gcWatermark ≤ snapshot.getD db.state.lastSequence →
    db'.getOpt key snapshot = db.getOpt key snapshot
  scan : ∀ lower upper snapshot, db.gcWatermark ≤ snapshot.getD db.state.lastSequence →
    db'.scanOpt lower upper snapshot = db.scanOpt lower upper snapshot

theorem DB.getOpt_getD (db : DB) (key : Bytes) (snapshot : Option Nat) :
    db.getOpt key snapshot = db.getOpt key (some (snapshot.getD db.state.lastSequence)) := by
  cases snapshot <;> rfl

theorem DB.scanOpt_getD (db : DB) (lower upper : Bound) (snapshot : Option Nat) :
    db.scanOpt lower upper snapshot =
      db.scanOpt lower upper (some (snapshot.getD db.state.lastSequence)) := by
  cases snapshot <;> rfl

section

variable {base db : DB} {rest : List Progress} {p : Progress} {cached : Nat → Option Table}

theorem Races.start (h : db.Ok) : Races db db [] := by
  refine ⟨⟨rfl, rfl, rfl, h.stored, h.stateOk.newestFirst, fun _ _ _ => rfl, h.freshTables, ?_⟩,
    nofun, ⟨nofun, nofun, List.nodup_nil, nofun, nofun, nofun⟩,
    .inr ⟨h.tables.l0_eq, h.tables.levels_eq⟩⟩
  intro ref href
  obtain ⟨htable, -⟩ := h.tables.opened ref href
  refine ⟨?_, fun t ht => Option.some.inj (ht.symm.trans htable)⟩
  by_contra hge
  rw [h.freshTables _ (not_lt.mp hge)] at htable
  cases htable

theorem Races.advance (h : Races base db (p :: rest)) (hcached : Retains cached db)
    (horderly : p.Orderly cached db (rest.any fun q => Progress.awaitsRefresh (some q))) :
    Races.Advances cached base db p rest := by
  have hfollows : (rest.any fun q => Progress.awaitsRefresh (some q)) = true →
      ∃ q ∈ rest, Progress.awaitsRefresh (some q) = true := List.any_eq_true.mp
  cases p with
  | picked task => exact h.picked
  | bounded task gcWatermark => exact h.bounded
  | surveyed task gcWatermark drop => exact h.surveyed
  | rewriting task gcWatermark drop => exact h.rewriting
  | gathered task drop entries => exact h.gathered horderly
  | ready task drop publication =>
    obtain ⟨hstill, hdrop, horder⟩ := horderly
    exact h.ready hstill hdrop horder
  | published removed => exact h.published
  | reading version removed => exact h.reading hcached (horderly.imp_left hfollows)
  | opened version l0 levels removed => exact h.opened (horderly.imp_left hfollows)
  | deleting removed => exact h.deleting

theorem Races.compactedSafely (h : Races base db []) (hok : base.Ok) : CompactedSafely base db := by
  have hi := h.intact
  have hst := hi.stored
  obtain ⟨hl0, hlevels⟩ : ListsCurrent db := h.lists.resolve_left fun ⟨q, hq, _⟩ => by cases hq
  have hfiles : db.tableRefs.map Prod.fst = db.versions.current.files := by
    rw [DB.tableRefs, Version.files, ← hl0, ← hlevels, List.map_append, List.map_flatten]
  have hopened : Opened db.disk (db.state.l0Tables ++ db.state.levelTables.flatten) := by
    intro ref href
    have hmem : ref.1 ∈ db.versions.current.files := by
      rw [← hfiles]
      exact List.mem_map_of_mem href
    obtain ⟨t, ht, hd⟩ := hst.described ref.1 hmem
    obtain rfl := (hi.faithful ref href).2 t ht
    exact ⟨ht, hd⟩
  have hmemory : db.state.closed = base.state.closed ∧
      db.state.lastSequence = base.state.lastSequence := by
    rw [hi.memory]
    exact ⟨rfl, rfl⟩
  have hread : db.Readable := ⟨hmemory.1.trans hok.isOpen, hst, ⟨hl0, hlevels, hopened⟩⟩
  have hsame : ∀ s, base.gcWatermark ≤ s →
      (∀ k, db.getOpt k (some s) = base.getOpt k (some s)) ∧
        ∀ lower upper, db.scanOpt lower upper (some s) = base.scanOpt lower upper (some s) :=
    fun s hs => hok.toReadable.reads_congr hread hok.stateOk.newestFirst hi.newestFirst fun k =>
      hi.visible k s hs
  constructor
  · intro f hf
    obtain ⟨t, ht, -⟩ := hst.described f hf
    rw [ht]
    rfl
  · exact hst.nodup
  · intro level hlevel
    have hdescribed : ∀ f ∈ level, ∃ t, db.disk.tables f.number = some t ∧ f.Describes t :=
      fun f hf => hst.described f
        (List.mem_append.mpr (.inr (List.mem_flatten.mpr ⟨level, hlevel, hf⟩)))
    refine (hst.ranges level hlevel).separate.imp_of_mem fun {f g} hf hg hfg => ?_
    exact apart_of_separate (hdescribed f hf) (hdescribed g hg) hfg
  · intro key snapshot hs
    rw [db.getOpt_getD, base.getOpt_getD, hmemory.2]
    exact (hsame _ hs).1 key
  · intro lower upper snapshot hs
    rw [db.scanOpt_getD, base.scanOpt_getD, hmemory.2]
    exact (hsame _ hs).2 lower upper

end

namespace Compactors

variable {s : Compactors} {thread : Nat} {base : DB}

theorem active_perm {progress : Option Progress} (h : s.running[thread]? = some progress) :
    s.active.Perm (progress.toList ++ (s.running.eraseIdx thread).filterMap id) := by
  obtain ⟨hlt, rfl⟩ := List.getElem?_eq_some_iff.mp h
  have hperm := ((List.getElem_cons_eraseIdx_perm hlt).filterMap id).symm
  cases hget : s.running[thread] with
  | none =>
    rw [hget] at hperm
    exact hperm
  | some p =>
    rw [hget] at hperm
    exact hperm

theorem active_set {progress : Option Progress} (h : s.running[thread]? = some progress)
    (next : Option Progress) (db : DB) :
    (s.moveTo db (s.running.set thread next)).active.Perm
      (next.toList ++ (s.running.eraseIdx thread).filterMap id) := by
  obtain ⟨hlt, -⟩ := List.getElem?_eq_some_iff.mp h
  have hperm := (List.set_perm_cons_eraseIdx hlt next).filterMap id
  cases next <;> exact hperm

/-- An orderly step, of whichever thread. -/
def Orderly : ThreadStep → Compactors → Prop
  | .advance thread, s =>
    match s.running[thread]? with
    | some (some progress) => progress.Orderly s.cached s.db (s.refreshFollows thread)
    | _ => True
  | _, _ => True

instance : (step : ThreadStep) → (s : Compactors) → Decidable (Orderly step s)
  | .advance thread, s =>
    match hthread : s.running[thread]? with
    | some (some progress) =>
      decidable_of_iff (progress.Orderly s.cached s.db (s.refreshFollows thread))
        (by rw [Orderly, hthread])
    | some none => isTrue (by rw [Orderly, hthread]; trivial)
    | none => isTrue (by rw [Orderly, hthread]; trivial)
  | .writer _, _ => isTrue trivial
  | .compact _ _ _, _ => isTrue trivial
  | .evict _, _ => isTrue trivial

theorem refreshFollows_eq (s : Compactors) (thread : Nat) : s.refreshFollows thread =
    ((s.running.eraseIdx thread).filterMap id).any fun q => Progress.awaitsRefresh (some q) := by
  rw [refreshFollows]
  generalize s.running.eraseIdx thread = running
  induction running with
  | nil => rfl
  | cons progress running ih =>
    cases progress with
    | none => exact ih
    | some p =>
      rw [List.any_cons, ih]
      rfl

theorem step_takes {p : Progress} {next : Option Progress} {db : DB}
    (h : s.running[thread]? = some (some p)) (htakes : p.Takes s.cached s.db next db) :
    s.step (.advance thread) = s.moveTo db (s.running.set thread next) := by
  simp only [step, h]
  cases htakes with
  | ok hrun => rw [hrun]
  | error hrun => rw [hrun]

end Compactors

/-- The invariant of the system. -/
structure Compactors.Races (base : DB) (s : Compactors) : Prop where
  races : TyLsm.Races base s.db s.active
  cached : Retains s.cached s.db

theorem Compactors.Races.moveTo {s : Compactors} {base db : DB} {running : List (Option Progress)}
    (h : s.Races base) (hnext : s.db.versions.nextFileNumber ≤ db.versions.nextFileNumber)
    (hraces : TyLsm.Races base db (s.moveTo db running).active) :
    (s.moveTo db running).Races base :=
  ⟨hraces, h.cached.fill hnext hraces.intact.freshTables⟩

theorem Compactors.Races.compact {s : Compactors} {base : DB} (h : s.Races base) (thread : Nat)
    (lower upper : Bound) : (s.step (.compact thread lower upper)).Races base := by
  rw [Compactors.step]
  split
  · rename_i hthread
    have hrest := h.races.perm (Compactors.active_perm hthread)
    apply h.moveTo le_rfl
    cases hpick : CompactionPicker.pickManual s.db.versions.current lower upper with
    | none => exact hrest.perm (Compactors.active_set hthread none s.db).symm
    | some task =>
      exact (hrest.pick hpick).perm (Compactors.active_set hthread (some (.picked task)) s.db).symm
  · exact h

theorem Compactors.Races.step {s : Compactors} {base : DB} (h : s.Races base) {step : ThreadStep}
    (hcompacts : step.Compacts) (horderly : Compactors.Orderly step s) :
    (s.step step).Races base := by
  cases step with
  | writer step => exact absurd hcompacts id
  | compact thread lower upper => exact h.compact thread lower upper
  | advance thread =>
    cases hthread : s.running[thread]? with
    | none =>
      rw [Compactors.step, hthread]
      exact h
    | some progress =>
      cases progress with
      | none =>
        rw [Compactors.step, hthread]
        exact h
      | some p =>
        simp only [Compactors.Orderly, hthread] at horderly
        rw [Compactors.refreshFollows_eq] at horderly
        have hperm := h.races.perm (Compactors.active_perm hthread)
        obtain ⟨next, db', htakes, hnumber, hnext⟩ := hperm.advance h.cached horderly
        rw [Compactors.step_takes hthread htakes]
        exact h.moveTo hnumber (hnext.perm (Compactors.active_set hthread next db').symm)
  | evict number => exact ⟨h.races, h.cached.evict number⟩

theorem Compactors.Races.run {s : Compactors} {base : DB} (h : s.Races base)
    {steps : List ThreadStep} (hcompacts : ∀ step ∈ steps, step.Compacts)
    (horderly : Throughout Compactors.step Compactors.Orderly steps s) :
    (s.run steps).Races base := by
  induction steps generalizing s with
  | nil => exact h
  | cons step steps ih =>
    obtain ⟨hstep, hsteps⟩ := List.forall_mem_cons.mp hcompacts
    exact ih (h.step hstep horderly.1) hsteps horderly.2

theorem Compactors.Races.start {db : DB} (h : db.Ok) (threads : Nat) :
    (Compactors.start db threads).Races db := by
  have hactive : (Compactors.start db threads).active = [] := by
    rw [Compactors.active, Compactors.start]
    simp
  refine ⟨?_, fun n t ht => ⟨?_, fun t' ht' => Option.some.inj (ht'.symm.trans ht)⟩⟩
  · rw [hactive]
    exact .start h
  · by_contra hge
    have hnone := h.freshTables n (not_lt.mp hge)
    exact absurd (ht.symm.trans hnone) (by simp)

/-- Threads compact whatever ranges they like, their steps interleaved in any way, while nothing
else happens. Once all are done, the files of the current version are on the disk, no key is in
two files of a level, and reads return what they returned before. -/
theorem concurrent_compactions_safe {db : DB} (hok : db.Ok) (threads : Nat)
    {steps : List ThreadStep} (hcompacts : ∀ step ∈ steps, step.Compacts)
    (horderly : Throughout Compactors.step Compactors.Orderly steps (.start db threads))
    (hidle : (Compactors.run steps (.start db threads)).Idle) :
    CompactedSafely db (Compactors.run steps (.start db threads)).db := by
  have hend : (Compactors.run steps (.start db threads)).active = [] := by
    rw [Compactors.active, List.filterMap_eq_nil_iff]
    exact fun progress hmem => hidle progress hmem
  have hdone := ((Compactors.Races.start hok threads).run hcompacts horderly).races
  rw [hend] at hdone
  exact hdone.compactedSafely hok

/-- Both threads pick the only file of L0 before either publishes. -/
def samePick : List ThreadStep :=
  [.compact 0 .unbounded .unbounded, .compact 1 .unbounded .unbounded] ++
    List.replicate 5 (.advance 1) ++ List.replicate 11 (.advance 0) ++
    List.replicate 6 (.advance 1)

theorem samePick_end : EndsIn (fun db : DB => (Compactors.run samePick (.start db 2)).Idle ∧
      (Compactors.run samePick (.start db 2)).db.versions.current.numbers.2.getD 1 [] = [5, 4] ∧
      ¬ ∀ level ∈ (Compactors.run samePick (.start db 2)).db.versions.current.levels,
        level.Pairwise fun f g =>
          Apart (fileEntries (Compactors.run samePick (.start db 2)).db.disk.tables f)
            (fileEntries (Compactors.run samePick (.start db 2)).db.disk.tables g))
    (runAll Call.run flushedCalls (DB.created .inOrder {} "db")) := by
  decide +kernel

/-- The second publication deletes a file that is gone already, which the version accepts, and
adds a second copy of its keys. -/
theorem concurrent_compactions_clash : ∃ db,
    runAll Call.run flushedCalls (DB.created .inOrder {} "db") = .ok () db ∧
      (∀ step ∈ samePick, step.Compacts) ∧ ∃ s, Compactors.run samePick (.start db 2) = s ∧
        s.Idle ∧ s.db.versions.current.numbers.2.getD 1 [] = [5, 4] ∧
        ¬ CompactedSafely db s.db := by
  obtain ⟨db, hrun, hidle, hnumbers, hshared⟩ := samePick_end.exists_ok
  exact ⟨db, hrun, by decide, _, rfl, hidle, hnumbers, fun h => hshared h.apart⟩

/-- The second thread picks after the first has published. -/
def pickAfterPublication : List ThreadStep :=
  [.compact 0 .unbounded .unbounded] ++ List.replicate 7 (.advance 0) ++
    [.compact 1 .unbounded .unbounded] ++
    (List.replicate 5 [.advance 1, .advance 0]).flatten ++ List.replicate 8 (.advance 1)

theorem pickAfterPublication_end : EndsIn (fun db : DB =>
      Throughout Compactors.step Compactors.Orderly pickAfterPublication (.start db 2) ∧
      (Compactors.run pickAfterPublication (.start db 2)).Idle)
    (runAll Call.run flushedCalls (DB.created .inOrder {} "db")) := by
  decide +kernel

theorem concurrent_compactions_safe_small : ∃ db,
    runAll Call.run flushedCalls (DB.created .inOrder {} "db") = .ok () db ∧
      CompactedSafely db (Compactors.run pickAfterPublication (.start db 2)).db := by
  obtain ⟨db, hrun, horderly, hidle⟩ := pickAfterPublication_end.exists_ok
  have hdb := plain_refines (by simp [flushedCalls, Call.Plain]) hrun
  exact ⟨db, hrun, concurrent_compactions_safe hdb.ok 2 (by decide) horderly hidle⟩

end TyLsm
