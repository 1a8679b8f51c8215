import TyLsm.Publish

/-! Running a compaction: reading its input, writing its outputs, publishing the
edits and refreshing the open tables. -/

namespace TyLsm

namespace Disk

variable (d : Disk)

theorem applyAll_appendManifest (edits : List VersionEdit) :
    d.applyAll (edits.map .appendManifest) = { d with manifest := d.manifest ++ edits } := by
  induction edits generalizing d with
  | nil => simp
  | cons edit edits ih => simp [ih, apply]

theorem applyAll_removeTable (numbers : List Nat) :
    d.applyAll (numbers.map .removeTable) =
      { d with tables := fun n => if n ∈ numbers then none else d.tables n } := by
  induction numbers generalizing d with
  | nil => simp
  | cons number numbers ih =>
    simp only [List.map_cons, applyAll_cons, ih, apply]
    congr 1
    funext n
    by_cases hn : n = number
    · simp [hn]
    · simp [hn]

/-- The table files after renaming the outputs `refs` into place. -/
def withTables (refs : List TableRef) : Nat → Option Table :=
  refs.foldl (fun tables ref => Function.update tables ref.1.number (some ref.2)) d.tables

theorem applyAll_renameTable (refs : List TableRef) :
    d.applyAll (refs.map (fun ref => .renameTable ref.1.number ref.2)) =
      { d with tables := d.withTables refs } := by
  induction refs generalizing d with
  | nil => rfl
  | cons ref refs ih => simp [ih, apply, withTables]

theorem withTables_of_ne {refs : List TableRef} {n : Nat} (h : ∀ ref ∈ refs, ref.1.number ≠ n) :
    d.withTables refs n = d.tables n := by
  induction refs generalizing d with
  | nil => rfl
  | cons ref refs ih =>
    have := ih { d with tables := Function.update d.tables ref.1.number (some ref.2) }
      fun r hr => h r (by simp [hr])
    refine Eq.trans this ?_
    exact Function.update_of_ne (h ref (by simp)).symm _ _

theorem withTables_of_mem {refs : List TableRef}
    (hnd : (refs.map (fun ref => ref.1.number)).Nodup) {ref : TableRef} (h : ref ∈ refs) :
    d.withTables refs ref.1.number = some ref.2 := by
  induction refs generalizing d with
  | nil => cases h
  | cons r refs ih =>
    rw [List.map_cons, List.nodup_cons] at hnd
    rcases List.mem_cons.mp h with rfl | h
    · have hne : ∀ r ∈ refs, r.1.number ≠ ref.1.number := fun r hr he =>
        hnd.1 (List.mem_map.mpr ⟨r, hr, he⟩)
      refine Eq.trans (withTables_of_ne
        { d with tables := Function.update d.tables ref.1.number (some ref.2) } hne) ?_
      exact Function.update_self _ _ _
    · exact ih { d with tables := Function.update d.tables r.1.number (some r.2) } hnd.2 h

end Disk

namespace DB

theorem run_readEntries {db : DB} {files : List FileMeta}
    (h : ∀ f ∈ files, ∃ t, db.disk.tables f.number = some t) :
    readEntries files db = .ok (files.flatMap (fileEntries db.disk.tables)) db := by
  induction files with
  | nil => rfl
  | cons file files ih =>
    obtain ⟨t, ht⟩ := h file (by simp)
    have hopen : db.disk.openTable file.number = .ok t := by simp [Disk.openTable, ht]
    rw [readEntries, run_bind_ok (run_get db), hopen, run_bind_ok (run_ofExcept_ok _ _),
      run_bind_ok (ih fun f hf => h f (by simp [hf])), run_pure, List.flatMap_cons,
      fileEntries_eq ht]

theorem run_writeOutputs (db : DB) {pairs : List (List Entry × Nat)}
    (h : ∀ p ∈ pairs, p.1 ≠ [] ∧ SortedEntries p.1 ∧ ∀ e ∈ p.1, Matched e) :
    ∃ refs, writeOutputs pairs db = .ok refs
        (db.performed (refs.map (fun ref => .renameTable ref.1.number ref.2))) ∧
      List.Forall₂ (fun p ref => ref.1.number = p.2 ∧ ref.2.entries = p.1 ∧
        ref.1.Describes ref.2) pairs refs := by
  induction pairs generalizing db with
  | nil => exact ⟨[], by simp [writeOutputs, performed], .nil⟩
  | cons p pairs ih =>
    obtain ⟨chunk, number⟩ := p
    obtain ⟨hne, hs, hm⟩ := h (chunk, number) (by simp)
    have hwf := wellFormed_buildTable db.options.blockSize hne hs hm
    obtain ⟨file, hfile, hnum, hdesc⟩ := fileMetaFromTable_ok hwf number
      (db.env.metadataLen (buildTable db.options.blockSize chunk))
    obtain ⟨refs, hrun, hrefs⟩ := ih (db.performed
      [.renameTable number (buildTable db.options.blockSize chunk)]) fun p hp => h p (by simp [hp])
    refine ⟨(file, buildTable db.options.blockSize chunk) :: refs, ?_,
      .cons ⟨hnum, entries_buildTable hm, hdesc⟩ hrefs⟩
    rw [writeOutputs, run_bind_ok (run_writeTable hfile), run_bind_ok hrun, run_pure,
      performed_performed]
    simp [hnum]

theorem run_deleteObsoleteFiles (db : DB) (numbers : List Nat) :
    deleteObsoleteFiles numbers db = .ok () (db.performed (numbers.map .removeTable)) := by
  induction numbers generalizing db with
  | nil => simp [deleteObsoleteFiles, performed]
  | cons number numbers ih =>
    rw [deleteObsoleteFiles, run_bind_ok (run_act _ _), ih]
    simp [performed]

/-- The outputs of a compaction carry the entries that survive it, chunk by chunk. -/
structure Written (db : DB) (entries : List Entry) (refs : List TableRef) : Prop where
  chunks : refs.map (fun ref => ref.2.entries) = splitCompactionEntries entries
    db.options.targetFileSizeBase db.options.maxSubcompactions
  flatten : (refs.map (fun ref => ref.2.entries)).flatten = entries
  described : ∀ ref ∈ refs, ref.1.Describes ref.2
  numbers : ∀ ref ∈ refs, db.versions.nextFileNumber ≤ ref.1.number ∧
    ref.1.number < db.versions.nextFileNumber + refs.length
  order : refs.map (fun ref => ref.1.number) =
    (db.env.workerOrder db.versions.nextFileNumber refs.length).map
      (db.versions.nextFileNumber + ·)
  last : refs ≠ [] → ∃ ref ∈ refs, ref.1.number + 1 = db.versions.nextFileNumber + refs.length
  nodup : (refs.map (fun ref => ref.1.number)).Nodup

theorem run_writeCompactionOutputs {db : DB} {entries : List Entry} (hs : SortedEntries entries)
    (hm : ∀ e ∈ entries, Matched e) :
    ∃ refs, Written db entries refs ∧
      writeCompactionOutputs entries db = .ok refs
        { db.performed (refs.map (fun ref => .renameTable ref.1.number ref.2)) with
          versions := { db.versions with
            nextFileNumber := db.versions.nextFileNumber + refs.length } } := by
  by_cases hnil : entries = []
  · subst hnil
    have horder : db.env.workerOrder db.versions.nextFileNumber 0 = [] :=
      (db.env.workerOrder_perm db.versions.nextFileNumber 0).eq_nil
    exact ⟨[], ⟨rfl, rfl, by simp, by simp, by simp [horder], by simp, by simp⟩, by
      simp [writeCompactionOutputs, performed]⟩
  set chunks := splitCompactionEntries entries db.options.targetFileSizeBase
    db.options.maxSubcompactions with hchunks
  set next := db.versions.nextFileNumber with hnext
  set numbers := (db.env.workerOrder next chunks.length).map (next + ·) with hnumbers
  have hperm := db.env.workerOrder_perm next chunks.length
  have hlen : numbers.length = chunks.length := by
    rw [hnumbers, List.length_map, hperm.length_eq, List.length_range]
  have hflat : chunks.flatten = entries := splitCompactionEntries_flatten _ _ _
  have hsub : ∀ c ∈ chunks, c.Sublist entries := fun c hc => by
    rw [← hflat]
    exact List.sublist_flatten_of_mem hc
  have hpairs : ∀ p ∈ chunks.zip numbers,
      p.1 ≠ [] ∧ SortedEntries p.1 ∧ ∀ e ∈ p.1, Matched e := by
    intro p hp
    have hc := (List.of_mem_zip hp).1
    exact ⟨splitCompactionEntries_ne_nil p.1 hc, List.Pairwise.sublist (hsub p.1 hc) hs,
      fun e he => hm e ((hsub p.1 hc).subset he)⟩
  obtain ⟨refs, hrun, hrefs⟩ := run_writeOutputs ({ db with
    versions := { db.versions with nextFileNumber := next + chunks.length } }) hpairs
  have hlenr : refs.length = chunks.length := by
    rw [← hrefs.length_eq, List.length_zip, hlen, Nat.min_self]
  have hent : refs.map (fun ref => ref.2.entries) = chunks := by
    have hmap : (chunks.zip numbers).map Prod.fst = refs.map (fun ref => ref.2.entries) := by
      rw [← List.forall₂_eq_eq_eq, List.forall₂_map_left_iff, List.forall₂_map_right_iff]
      exact hrefs.imp fun p ref hp => hp.2.1.symm
    rw [← hmap, List.map_fst_zip hlen.ge]
  have hnum : refs.map (fun ref => ref.1.number) = numbers := by
    have hmap : (chunks.zip numbers).map Prod.snd = refs.map (fun ref => ref.1.number) := by
      rw [← List.forall₂_eq_eq_eq, List.forall₂_map_left_iff, List.forall₂_map_right_iff]
      exact hrefs.imp fun p ref hp => hp.1.symm
    rw [← hmap, List.map_snd_zip hlen.le]
  refine ⟨refs, ⟨hent, ?_, ?_, ?_, ?_, ?_, ?_⟩, ?_⟩
  · rw [hent, hflat]
  · have hflip : List.Forall₂ (fun (ref : TableRef) (p : List Entry × Nat) =>
        ref.1.Describes ref.2 ∧ ref.1.number = p.2) refs (chunks.zip numbers) :=
      hrefs.flip.imp fun ref p hp => ⟨hp.2.2, hp.1⟩
    exact ((List.forall₂_and_left _ _).mp hflip).1
  · intro ref href
    have hmem : ref.1.number ∈ numbers := hnum ▸ List.mem_map.mpr ⟨ref, href, rfl⟩
    obtain ⟨i, hi, he⟩ := List.mem_map.mp hmem
    have hlt := List.mem_range.mp (hperm.mem_iff.mp hi)
    rw [hlenr, ← he]
    omega
  · rw [hnum, hnumbers, hlenr]
  · intro hne
    have hpos : 0 < chunks.length := hlenr ▸ List.length_pos_iff.mpr hne
    have hmem : chunks.length - 1 ∈ db.env.workerOrder next chunks.length :=
      hperm.mem_iff.mpr (List.mem_range.mpr (by omega))
    have hnmem : next + (chunks.length - 1) ∈ refs.map (fun ref => ref.1.number) := by
      rw [hnum, hnumbers]
      exact List.mem_map.mpr ⟨_, hmem, rfl⟩
    obtain ⟨ref, href, he⟩ := List.mem_map.mp hnmem
    exact ⟨ref, href, by rw [he, hlenr]; omega⟩
  · rw [hnum, hnumbers]
    exact (hperm.nodup_iff.mpr List.nodup_range).map fun a b h => Nat.add_left_cancel h
  · rw [writeCompactionOutputs]
    simp only [List.isEmpty_iff, hnil, if_false]
    rw [run_bind_ok (run_get db), run_bind_ok (run_set _ _), hrun, hlenr]
    rfl

theorem Written.nextAfter_eq {db : DB} {entries : List Entry} {refs : List TableRef}
    (h : Written db entries refs) {next : Nat} (hlo : db.versions.nextFileNumber ≤ next)
    (hhi : next ≤ db.versions.nextFileNumber + refs.length) :
    Version.nextAfter next (refs.map Prod.fst) = db.versions.nextFileNumber + refs.length := by
  refine le_antisymm (Version.nextAfter_le hhi ?_) ?_
  · intro f hf
    obtain ⟨ref, href, rfl⟩ := List.mem_map.mp hf
    exact (h.numbers ref href).2
  · by_cases hnil : refs = []
    · subst hnil
      simpa [Version.nextAfter] using hlo
    · obtain ⟨ref, href, he⟩ := h.last hnil
      rw [← he]
      exact Version.lt_nextAfter (List.mem_map.mpr ⟨ref, href, rfl⟩)

/-- The database after disk operations that lead to another version. -/
def replaced (db : DB) (ops : List DiskOp) (versions : VersionSet) (l0Tables : List TableRef)
    (levelTables : List (List TableRef)) : DB :=
  { db.performed ops with
    versions := versions
    state := { db.state with l0Tables := l0Tables, levelTables := levelTables } }

def rewriteOps (task : CompactionTask) (refs : List TableRef) : List DiskOp :=
  refs.map (fun ref => .renameTable ref.1.number ref.2) ++
    (deleteEdits task ++ addEdits task refs).map .appendManifest ++ task.numbers.map .removeTable

theorem run_refreshTablesFromVersion {db : DB} {l0 : List TableRef} {levels : List (List TableRef)}
    (h : openVersionTables db.disk db.versions.current = .ok (l0, levels)) :
    refreshTablesFromVersion db = .ok ()
      { db with state := { db.state with l0Tables := l0, levelTables := levels } } := by
  rw [refreshTablesFromVersion, run_bind_ok (run_get db), h, run_bind_ok (run_ofExcept_ok _ _)]
  rfl

theorem run_rewrite {db : DB} {task : CompactionTask} {w : Nat} {drop : Bool}
    {refs : List TableRef} {versions : VersionSet} {l0 : List TableRef}
    {levels : List (List TableRef)}
    (hread : ∀ f ∈ task.allInputFiles, ∃ t, db.disk.tables f.number = some t)
    (hwrite : writeCompactionOutputs (compactEntries (task.entries db.disk.tables) w drop) db =
      .ok refs { db.performed (refs.map (fun ref => .renameTable ref.1.number ref.2)) with
        versions := { db.versions with
          nextFileNumber := db.versions.nextFileNumber + refs.length } })
    (hreplay : ({ db.versions with
      nextFileNumber := db.versions.nextFileNumber + refs.length } : VersionSet).replay
        (deleteEdits task ++ addEdits task refs) = .ok versions)
    (hopen : openVersionTables { db.disk with
      manifest := db.disk.manifest ++ (deleteEdits task ++ addEdits task refs)
      tables := db.disk.withTables refs } versions.current = .ok (l0, levels)) :
    rewrite task w drop db = .ok () (db.replaced (rewriteOps task refs) versions l0 levels) := by
  rw [rewrite, run_bind_ok (run_readEntries hread), ← CompactionTask.entries, run_bind_ok hwrite,
    run_bind_ok (@run_logAndApplyAll { db.performed _ with versions := _ } _ _ hreplay),
    run_bind_ok (run_refreshTablesFromVersion (by
      simp only [performed, Disk.applyAll_renameTable, Disk.applyAll_appendManifest]
      exact hopen)),
    run_deleteObsoleteFiles]
  simp [performed, replaced, rewriteOps, Disk.applyAll_append, CompactionTask.numbers]

theorem run_moveTrivially {db : DB} {task : CompactionTask} {file : FileMeta}
    {versions : VersionSet} {l0 : List TableRef} {levels : List (List TableRef)}
    (hreplay : db.versions.replay [.deleteFile task.inputLevel file.number,
      .addFile task.outputLevel file] = .ok versions)
    (hopen : openVersionTables { db.disk with
      manifest := db.disk.manifest ++ [.deleteFile task.inputLevel file.number,
        .addFile task.outputLevel file] } versions.current = .ok (l0, levels)) :
    moveTrivially task file db = .ok () (db.replaced
      [.appendManifest (.deleteFile task.inputLevel file.number),
        .appendManifest (.addFile task.outputLevel file)] versions l0 levels) := by
  rw [moveTrivially, run_bind_ok (run_logAndApplyAll hreplay), run_refreshTablesFromVersion (by
    simpa [performed, Disk.applyAll_appendManifest, Disk.apply] using hopen)]
  simp [performed, replaced]

/-- Everything but the tables and the manifest is the same in both databases, and the
manifest grew by edits that lead from one version set to the other. -/
structure TablesChanged (db db' : DB) : Prop where
  env : db'.env = db.env
  options : db'.options = db.options
  watermark : db'.watermark = db.watermark
  wal : db'.wal = db.wal
  state : db'.state = { db.state with
    l0Tables := db'.state.l0Tables
    levelTables := db'.state.levelTables }
  disk : db'.disk = { db.disk with
    manifest := db'.disk.manifest
    tables := db'.disk.tables }
  edits : ∃ edits, db'.disk.manifest = db.disk.manifest ++ edits ∧
    db.versions.replay edits = .ok db'.versions
  lastSequence : db'.versions.lastSequence = db.versions.lastSequence
  logNumber : db'.versions.logNumber = db.versions.logNumber
  entries : db'.versions.current.entries db'.disk.tables ⊆
    db.versions.current.entries db.disk.tables

theorem TablesChanged.refl (db : DB) : TablesChanged db db :=
  ⟨rfl, rfl, rfl, rfl, rfl, rfl, ⟨[], by simp, rfl⟩, rfl, rfl, List.Subset.refl _⟩

end DB

end TyLsm
