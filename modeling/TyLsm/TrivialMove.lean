import TyLsm.Frame
import TyLsm.Picker
import TyLsm.SearchOrder

/-! The trivial move of a compaction against the rewrite that it stands for. The test which of
them to take compares lengths; the level they write to is the same in both cases, seen through
its entries, its keys and its sequences. -/

namespace TyLsm

/-! Least and greatest of a level after some of its files were replaced. -/

theorem min?_replace {α β : Type} [LinearOrder β] (g : α → β) {level level' kept outs : List α}
    {a : α} (hl : level.Perm (kept ++ [a])) (hl' : level'.Perm (kept ++ outs))
    (hdown : ∃ o ∈ outs, g o ≤ g a) (hup : ∀ o ∈ outs, g a ≤ g o) :
    (level.map g).min? = (level'.map g).min? := by
  cases hmin : (level.map g).min? with
  | none =>
    have hnil : level = [] := by simpa using hmin
    rw [hnil] at hl
    exact absurd hl.length_eq (by simp)
  | some m =>
    obtain ⟨hmem, hle⟩ := List.min?_eq_some_iff.mp hmin
    have hkept : ∀ b ∈ kept, m ≤ g b := fun b hb =>
      hle _ (List.mem_map.mpr ⟨b, hl.mem_iff.mpr (by simp [hb]), rfl⟩)
    have hlea : m ≤ g a := hle _ (List.mem_map.mpr ⟨a, hl.mem_iff.mpr (by simp), rfl⟩)
    refine (List.min?_eq_some_iff.mpr ⟨?_, ?_⟩).symm
    · obtain ⟨b, hb, rfl⟩ := List.mem_map.mp hmem
      rcases List.mem_append.mp (hl.mem_iff.mp hb) with hb | hb
      · exact List.mem_map.mpr ⟨b, hl'.mem_iff.mpr (by simp [hb]), rfl⟩
      · obtain ⟨o, ho, hoa⟩ := hdown
        have hsame : g o = g b := by
          rw [List.mem_singleton.mp hb]
          exact le_antisymm hoa (hup o ho)
        exact List.mem_map.mpr ⟨o, hl'.mem_iff.mpr (by simp [ho]), hsame⟩
    · rintro _ hmap
      obtain ⟨b, hb, rfl⟩ := List.mem_map.mp hmap
      rcases List.mem_append.mp (hl'.mem_iff.mp hb) with hb | hb
      · exact hkept b hb
      · exact hlea.trans (hup b hb)

theorem max?_replace {α β : Type} [LinearOrder β] (g : α → β) {level level' kept outs : List α}
    {a : α} (hl : level.Perm (kept ++ [a])) (hl' : level'.Perm (kept ++ outs))
    (hup : ∃ o ∈ outs, g a ≤ g o) (hdown : ∀ o ∈ outs, g o ≤ g a) :
    (level.map g).max? = (level'.map g).max? :=
  min?_replace (β := βᵒᵈ) g hl hl' hup hdown

/-! What the metadata of a file say about its entries. -/

/-- The metadata of a file are those that `file_meta_from_table` takes from the table. -/
def FileMeta.Extracted (file : FileMeta) (table : Table) : Prop :=
  fileMetaFromTable file.number file.fileSize table = .ok file

instance (file : FileMeta) (table : Table) : Decidable (file.Extracted table) :=
  inferInstanceAs (Decidable (_ = _))

/-- The keys and sequences in the metadata are the extreme ones of the entries. -/
structure FileMeta.Exact (file : FileMeta) (entries : List Entry) : Prop where
  smallest : IsLeast {key | ∃ e ∈ entries, e.1 = key} file.smallest
  largest : IsGreatest {key | ∃ e ∈ entries, e.1 = key} file.largest
  smallestSeq : IsLeast {s | ∃ e ∈ entries, e.1.sequence = s} file.smallestSeq
  largestSeq : IsGreatest {s | ∃ e ∈ entries, e.1.sequence = s} file.largestSeq

theorem foldl_min_mem (l : List Nat) (n : Nat) : l.foldl min n ∈ n :: l := by
  have h : (n :: l).min? = some (l.foldl min n) := rfl
  exact List.min?_mem h

theorem foldl_max_mem (l : List Nat) (n : Nat) : l.foldl max n ∈ n :: l := by
  have h : (n :: l).max? = some (l.foldl max n) := rfl
  exact List.max?_mem h

theorem fileMetaFromTable_eq {number fileSize : Nat} {table : Table} {file : FileMeta}
    (h : fileMetaFromTable number fileSize table = .ok file) :
    ∃ e es, table.entries = e :: es ∧ table.properties.smallestKey = some file.smallest ∧
      table.properties.largestKey = some file.largest ∧
      file = ⟨number, fileSize, file.smallest, file.largest,
        (es.map (fun e => e.1.sequence)).foldl min e.1.sequence,
        (es.map (fun e => e.1.sequence)).foldl max e.1.sequence⟩ := by
  rw [fileMetaFromTable] at h
  cases hent : table.entries with
  | nil =>
    rw [hent] at h
    cases h
  | cons e es =>
    rw [hent, List.map_cons] at h
    dsimp only at h
    cases hs : table.properties.smallestKey with
    | none =>
      rw [hs] at h
      cases h
    | some smallest =>
      rw [hs] at h
      dsimp only at h
      cases hl : table.properties.largestKey with
      | none =>
        rw [hl] at h
        cases h
      | some largest =>
        rw [hl] at h
        cases h
        exact ⟨e, es, rfl, rfl, rfl, rfl⟩

theorem extracted_of_ok {number fileSize : Nat} {table : Table} {file : FileMeta}
    (h : fileMetaFromTable number fileSize table = .ok file) :
    file.number = number ∧ file.Extracted table := by
  obtain ⟨e, es, -, -, -, hfile⟩ := fileMetaFromTable_eq h
  have hnumber : file.number = number := by rw [hfile]
  have hsize : file.fileSize = fileSize := by rw [hfile]
  refine ⟨hnumber, ?_⟩
  rw [FileMeta.Extracted, hnumber, hsize]
  exact h

theorem FileMeta.Extracted.describes {file : FileMeta} {table : Table} (h : file.Extracted table)
    (hwf : table.WellFormed) : file.Describes table := by
  obtain ⟨file', hfile', -, hdesc⟩ := fileMetaFromTable_ok hwf file.number file.fileSize
  rw [FileMeta.Extracted, hfile'] at h
  exact Except.ok.inj h ▸ hdesc

theorem FileMeta.Extracted.exact {file : FileMeta} {table : Table} (h : file.Extracted table)
    (hwf : table.WellFormed) : file.Exact table.entries := by
  have hdesc := h.describes hwf
  obtain ⟨e, es, hent, -, -, hfile⟩ := fileMetaFromTable_eq h
  have hmin : file.smallestSeq = (es.map fun e => e.1.sequence).foldl min e.1.sequence := by
    rw [hfile]
  have hmax : file.largestSeq = (es.map fun e => e.1.sequence).foldl max e.1.sequence := by
    rw [hfile]
  have hseq : ∀ s ∈ e.1.sequence :: es.map (fun e => e.1.sequence),
      ∃ e' ∈ table.entries, e'.1.sequence = s := by
    intro s hs
    rw [← List.map_cons (f := fun e : Entry => e.1.sequence), ← hent] at hs
    exact List.mem_map.mp hs
  refine ⟨⟨hdesc.exists_smallest, ?_⟩, ⟨hdesc.exists_largest, ?_⟩, ⟨?_, ?_⟩, ⟨?_, ?_⟩⟩
  · rintro _ ⟨e', he', rfl⟩
    exact (hdesc.key_mem he').1
  · rintro _ ⟨e', he', rfl⟩
    exact (hdesc.key_mem he').2
  · exact hmin ▸ hseq _ (foldl_min_mem _ _)
  · rintro _ ⟨e', he', rfl⟩
    exact (hdesc.sequences e' he').1
  · exact hmax ▸ hseq _ (foldl_max_mem _ _)
  · rintro _ ⟨e', he', rfl⟩
    exact (hdesc.sequences e' he').2

theorem least_of_parts {β : Type} [LinearOrder β] {key : Entry → β} {g : FileMeta → β}
    {file : FileMeta} {entries : List Entry} {parts : List (FileMeta × List Entry)}
    (hflat : (parts.map Prod.snd).flatten = entries)
    (hfile : IsLeast {k | ∃ e ∈ entries, key e = k} (g file))
    (hparts : ∀ part ∈ parts, IsLeast {k | ∃ e ∈ part.2, key e = k} (g part.1)) :
    (∃ o ∈ parts.map Prod.fst, g o ≤ g file) ∧ ∀ o ∈ parts.map Prod.fst, g file ≤ g o := by
  have hmem : ∀ e, e ∈ entries ↔ ∃ part ∈ parts, e ∈ part.2 := by
    intro e
    rw [← hflat, List.mem_flatten]
    constructor
    · rintro ⟨l, hl, he⟩
      obtain ⟨part, hpart, rfl⟩ := List.mem_map.mp hl
      exact ⟨part, hpart, he⟩
    · rintro ⟨part, hpart, he⟩
      exact ⟨part.2, List.mem_map.mpr ⟨part, hpart, rfl⟩, he⟩
  constructor
  · obtain ⟨e, he, heq⟩ := hfile.1
    obtain ⟨part, hpart, hin⟩ := (hmem e).mp he
    refine ⟨part.1, List.mem_map.mpr ⟨part, hpart, rfl⟩, ?_⟩
    rw [← heq]
    exact (hparts part hpart).2 ⟨e, hin, rfl⟩
  · rintro _ ho
    obtain ⟨part, hpart, rfl⟩ := List.mem_map.mp ho
    obtain ⟨e, he, heq⟩ := (hparts part hpart).1
    rw [← heq]
    exact hfile.2 ⟨e, (hmem e).mpr ⟨part, hpart, he⟩, rfl⟩

def keyRange (files : List FileMeta) : Option InternalKey × Option InternalKey :=
  ((files.map FileMeta.smallest).min?, (files.map FileMeta.largest).max?)

def seqRange (files : List FileMeta) : Option Nat × Option Nat :=
  ((files.map FileMeta.smallestSeq).min?, (files.map FileMeta.largestSeq).max?)

/-- The ranges of a level are those of the entries, however these are spread over files. -/
theorem ranges_replace {file : FileMeta} {entries : List Entry}
    {parts : List (FileMeta × List Entry)} {level level' kept : List FileMeta}
    (hl : level.Perm (kept ++ [file])) (hl' : level'.Perm (kept ++ parts.map Prod.fst))
    (hflat : (parts.map Prod.snd).flatten = entries) (hfile : file.Exact entries)
    (hparts : ∀ part ∈ parts, part.1.Exact part.2) :
    keyRange level = keyRange level' ∧ seqRange level = seqRange level' := by
  obtain ⟨hs, hs'⟩ := least_of_parts hflat hfile.smallest fun p hp => (hparts p hp).smallest
  obtain ⟨hg, hg'⟩ := @least_of_parts InternalKeyᵒᵈ _ Prod.fst FileMeta.largest _ _ _ hflat
    hfile.largest fun p hp => (hparts p hp).largest
  obtain ⟨hq, hq'⟩ := least_of_parts hflat hfile.smallestSeq fun p hp => (hparts p hp).smallestSeq
  obtain ⟨hm, hm'⟩ := @least_of_parts Natᵒᵈ _ (fun e => e.1.sequence) FileMeta.largestSeq _ _ _
    hflat hfile.largestSeq fun p hp => (hparts p hp).largestSeq
  exact ⟨Prod.ext (min?_replace _ hl hl' hs hs') (max?_replace _ hl hl' hg hg'),
    Prod.ext (min?_replace _ hl hl' hq hq') (max?_replace _ hl hl' hm hm')⟩

/-! The version after a file has gone one level down, whole or in parts. -/

/-- A task moves files of the version one level down. -/
structure Version.Takes (v : Version) (task : CompactionTask) : Prop where
  taken : task.inputFiles.Sublist (v.filesAt task.inputLevel)
  down : task.outputLevel = task.inputLevel + 1
  there : task.outputLevel < v.levels.length

theorem CompactionTask.Closed.takes {v : Version} {task : CompactionTask} (h : task.Closed v) :
    v.Takes task := ⟨h.taken, h.down, h.there⟩

/-- The file of a trivial move, and where it lies. -/
structure TrivialMove (v : Version) (task : CompactionTask) (file : FileMeta)
    (pre : List (List FileMeta)) (source target : List FileMeta) (post : List (List FileMeta)) :
    Prop where
  levels : v.levels = pre ++ source :: target :: post
  above : pre ≠ []
  mem : file ∈ source
  input : task.inputLevel = pre.length
  output : task.outputLevel = pre.length + 1
  inputFiles : task.inputFiles = [file]
  allInputFiles : task.allInputFiles = [file]

theorem Version.Takes.trivialMove {v : Version} {task : CompactionTask} (h : v.Takes task)
    (ht : task.isTrivialMove = true) :
    ∃ file pre source target post, TrivialMove v task file pre source target post := by
  simp only [CompactionTask.isTrivialMove, Bool.and_eq_true, decide_eq_true_eq, beq_iff_eq,
    List.isEmpty_iff] at ht
  obtain ⟨⟨hpos, hone⟩, hover⟩ := ht
  obtain ⟨file, hfile⟩ := List.length_eq_one_iff.mp hone
  have hdown := h.down
  have hthere := h.there
  have hlt : task.inputLevel + 1 < v.levels.length := by omega
  have hlevels : v.levels = v.levels.take task.inputLevel ++ v.levels[task.inputLevel] ::
      v.levels[task.inputLevel + 1] :: v.levels.drop (task.inputLevel + 2) := by
    rw [List.cons_getElem_drop_succ, List.cons_getElem_drop_succ, List.take_append_drop]
  have hlen : (v.levels.take task.inputLevel).length = task.inputLevel :=
    List.length_take_of_le (by omega)
  refine ⟨file, _, _, _, _, hlevels, ?_, ?_, hlen.symm, hlen.symm ▸ hdown, hfile, ?_⟩
  · intro hnil
    rw [hnil] at hlen
    exact absurd hlen (by simp; omega)
  · have hin := h.taken
    rw [hfile, Version.filesAt, if_neg hpos.ne', List.getD_eq_getElem _ _ (by omega)] at hin
    exact List.singleton_sublist.mp hin
  · rw [CompactionTask.allInputFiles, hfile, hover, List.append_nil]

/-- The version in which `outs` are listed one level below in place of the file. -/
def loweredTo (v : Version) (file : FileMeta) (pre : List (List FileMeta))
    (source target : List FileMeta) (post : List (List FileMeta)) (outs : List FileMeta) :
    Version where
  l0Files := v.l0Files
  levels := pre ++ source.filter (fun f => f.number ∉ [file.number]) ::
    Version.addedTo target outs :: post

namespace TrivialMove

variable {v : Version} {task : CompactionTask} {file : FileMeta} {pre post : List (List FileMeta)}
  {source target outs : List FileMeta}

theorem replay (h : TrivialMove v task file pre source target post) (outs : List FileMeta)
    (vs : VersionSet) (hvs : vs.current = v) :
    vs.replay (DB.deleteEdits task ++ outs.map (VersionEdit.addFile task.outputLevel)) =
      .ok { vs with
        current := loweredTo v file pre source target post outs
        nextFileNumber := Version.nextAfter vs.nextFileNumber outs } := by
  subst hvs
  have hdelete : DB.deleteEdits task = [file.number].map (VersionEdit.deleteFile pre.length) := by
    simp [DB.deleteEdits, h.allInputFiles, h.inputFiles, h.input]
  have hsplit : pre ++ source.filter (fun f => f.number ∉ [file.number]) :: target :: post =
      (pre ++ [source.filter fun f => f.number ∉ [file.number]]) ++ target :: post := by simp
  have hlen : pre.length + 1 =
      (pre ++ [source.filter fun f => f.number ∉ [file.number]]).length := by simp
  rw [hdelete, VersionSet.replay_append, Version.replay_deletes_level h.levels h.above, h.output,
    hlen]
  simp only [Except.bind]
  rw [Version.replay_adds_level hsplit (by simp)]
  simp [loweredTo]

theorem filesAt_output : (loweredTo v file pre source target post outs).filesAt (pre.length + 1) =
    Version.addedTo target outs := by
  rw [Version.filesAt, if_neg (Nat.succ_ne_zero _), loweredTo]
  simp

theorem filesAt_of_ne {outs' : List FileMeta} {level : Nat} (hne : level ≠ pre.length + 1) :
    (loweredTo v file pre source target post outs).filesAt level =
      (loweredTo v file pre source target post outs').filesAt level := by
  rw [Version.filesAt, Version.filesAt]
  by_cases hzero : level = 0
  · rw [if_pos hzero, if_pos hzero]
    rfl
  · rw [if_neg hzero, if_neg hzero]
    have hsplit : ∀ files : List FileMeta,
        (pre ++ source.filter (fun f => f.number ∉ [file.number]) :: files :: post)[level]? =
          (pre ++ source.filter (fun f => f.number ∉ [file.number]) :: [] :: post)[level]? := by
      intro files
      by_cases hlt : level < pre.length
      · rw [List.getElem?_append_left hlt, List.getElem?_append_left hlt]
      · rw [List.getElem?_append_right (by omega), List.getElem?_append_right (by omega)]
        cases hi : level - pre.length with
        | zero => rfl
        | succ i =>
          cases i with
          | zero => omega
          | succ i => rfl
    rw [List.getD_eq_getElem?_getD, List.getD_eq_getElem?_getD, loweredTo, loweredTo, hsplit,
      hsplit (Version.addedTo target outs')]

theorem files_perm (h : TrivialMove v task file pre source target post)
    {tables : Nat → Option Table} (hst : v.Listed tables) (outs : List FileMeta) :
    (loweredTo v file pre source target post outs).files.Perm (v.remaining task ++ outs) := by
  have hfiles : v.files = (v.l0Files ++ pre.flatten) ++ source ++ (target ++ post.flatten) := by
    simp [Version.files, h.levels]
  have hnumbers : task.numbers = [file.number] := by
    simp [CompactionTask.numbers, h.allInputFiles]
  have hfront : ∀ f ∈ v.l0Files ++ pre.flatten, f.number ∉ [file.number] := by
    intro f hf
    rw [List.mem_singleton]
    exact hst.number_ne hfiles hf h.mem
  have hback : ∀ f ∈ target ++ post.flatten, f.number ∉ [file.number] := by
    intro f hf
    rw [List.mem_singleton]
    have hfiles' : v.files = (v.l0Files ++ pre.flatten ++ source) ++
        (target ++ post.flatten) ++ [] := by rw [hfiles, List.append_nil]
    exact fun he => hst.number_ne hfiles' (List.mem_append.mpr (.inr h.mem)) hf he.symm
  have hremaining : v.remaining task = (v.l0Files ++ pre.flatten) ++
      source.filter (fun f => f.number ∉ [file.number]) ++ (target ++ post.flatten) := by
    rw [Version.remaining, hnumbers, hfiles, List.filter_append, List.filter_append,
      filter_eq_self_of_number hfront, filter_eq_self_of_number hback]
  have hadded := (Version.addedTo_perm target outs).append_right post.flatten
  have hswap : (target ++ outs ++ post.flatten).Perm (target ++ post.flatten ++ outs) := by
    rw [List.append_assoc, List.append_assoc]
    exact List.perm_append_comm.append_left target
  rw [hremaining, List.append_assoc]
  simpa [loweredTo, Version.files] using (hadded.trans hswap).append_left
    ((v.l0Files ++ pre.flatten) ++ source.filter (fun f => f.number ∉ [file.number]))

theorem levelZero (h : TrivialMove v task file pre source target post)
    {tables : Nat → Option Table} (hst : v.Listed tables) (outs : List FileMeta) :
    ∀ level, (loweredTo v file pre source target post outs).levels.head? = some level →
      level = [] := by
  intro level hlevel
  obtain ⟨zero, rest, rfl⟩ := List.exists_cons_of_ne_nil h.above
  exact hst.levelZero level (by rw [h.levels]; exact hlevel)

end TrivialMove

/-! Both ways through a compaction. -/

namespace DB

theorem writeTable_extracted {entries : List Entry} {number : Nat} {db db' : DB} {ref : TableRef}
    (h : writeTable entries number db = .ok ref db') : ref.1.Extracted ref.2 := by
  rw [writeTable, run_bind_ok (run_get db), run_bind_ok (run_act db _)] at h
  obtain ⟨file, _, hfile, hreturn⟩ := bind_eq_ok h
  cases hmeta : fileMetaFromTable number (db.env.metadataLen (buildTable db.options.blockSize entries))
      (buildTable db.options.blockSize entries) with
  | error err =>
    rw [hmeta] at hfile
    cases hfile
  | ok file' =>
    rw [hmeta] at hfile
    cases hfile
    cases hreturn
    exact (extracted_of_ok hmeta).2

theorem writeOutputs_extracted {pairs : List (List Entry × Nat)} {db db' : DB}
    {refs : List TableRef} (h : writeOutputs pairs db = .ok refs db') :
    ∀ ref ∈ refs, ref.1.Extracted ref.2 := by
  induction pairs generalizing db refs with
  | nil =>
    cases h
    simp
  | cons pair pairs ih =>
    obtain ⟨ref, db₁, hwrite, h⟩ := bind_eq_ok h
    obtain ⟨rest, db₂, hrest, h⟩ := bind_eq_ok h
    cases h
    exact List.forall_mem_cons.mpr ⟨writeTable_extracted hwrite, ih hrest⟩

theorem writeCompactionOutputs_extracted {entries : List Entry} {db db' : DB}
    {refs : List TableRef} (h : writeCompactionOutputs entries db = .ok refs db') :
    ∀ ref ∈ refs, ref.1.Extracted ref.2 := by
  rw [writeCompactionOutputs] at h
  split at h
  · cases h
    simp
  · rw [run_bind_ok (run_get db), run_bind_ok (run_set _ _)] at h
    exact writeOutputs_extracted h

/-- The databases list the same files but for one level, whose files hold the same entries and
reach as far. -/
structure SameLevel (db db' : DB) (level : Nat) : Prop where
  entries : ((db.versions.current.filesAt level).flatMap (fileEntries db.disk.tables)).Perm
    ((db'.versions.current.filesAt level).flatMap (fileEntries db'.disk.tables))
  keys : keyRange (db.versions.current.filesAt level) =
    keyRange (db'.versions.current.filesAt level)
  sequences : seqRange (db.versions.current.filesAt level) =
    seqRange (db'.versions.current.filesAt level)
  others : ∀ l, l ≠ level → db.versions.current.filesAt l = db'.versions.current.filesAt l

variable {db : DB} {task : CompactionTask} {file : FileMeta} {table : Table}

theorem needsRewrite_iff (htable : db.disk.tables file.number = some table)
    (hsorted : Rising table.entries) (w : Nat) (drop : Bool) :
    trivialMoveNeedsRewrite file w drop db = .ok false db ↔
      compactEntries table.entries w drop = table.entries := by
  have hread := @run_readEntries db [file] (by simp [htable])
  rw [List.flatMap_singleton, fileEntries_eq htable] at hread
  have hsub : (compactEntries table.entries w drop).Sublist table.entries := by
    rw [compactEntries, hsorted.sortEntries_eq]
    exact compactLoop_sublist w drop [] table.entries
  rw [trivialMoveNeedsRewrite, run_bind_ok hread, run_pure]
  constructor
  · intro h
    have hlen : ((compactEntries table.entries w drop).length != table.entries.length) = false :=
      (EStateM.Result.ok.inj h).1
    exact hsub.eq_of_length (by simpa using hlen)
  · intro h
    rw [h]
    simp

theorem run_move (h : db.Live) {pre post : List (List FileMeta)} {source target : List FileMeta}
    (ht : TrivialMove db.versions.current task file pre source target post) :
    ∃ moved, moveTrivially task file db = .ok () moved ∧
      moved.versions.current = loweredTo db.versions.current file pre source target post [file] ∧
      moved.disk.tables = db.disk.tables := by
  have hin : file ∈ db.versions.current.files := by
    simp [Version.files, ht.levels, ht.mem]
  have hplaced := placed_moved h ht.allInputFiles hin
  have hreplay := ht.replay [file] db.versions rfl
  have hedits : deleteEdits task ++ [file].map (VersionEdit.addFile task.outputLevel) =
      [.deleteFile task.inputLevel file.number, .addFile task.outputLevel file] := by
    simp [deleteEdits, ht.allInputFiles, ht.inputFiles]
  rw [hedits] at hreplay
  have hlisted := hplaced.listed h.listed (ht.files_perm h.listed [file])
    (ht.levelZero h.listed [file])
  obtain ⟨l0, levels, hopen, -⟩ := openVersionTables_ok (d := { db.disk with
    manifest := db.disk.manifest ++ [.deleteFile task.inputLevel file.number,
      .addFile task.outputLevel file] }) hlisted
  exact ⟨_, run_moveTrivially hreplay hopen, rfl, rfl⟩

theorem run_rewriteWhole (h : db.Live) {pre post : List (List FileMeta)}
    {source target : List FileMeta}
    (ht : TrivialMove db.versions.current task file pre source target post)
    (htable : db.disk.tables file.number = some table) {w : Nat} {drop : Bool}
    (hkeep : compactEntries table.entries w drop = table.entries) :
    ∃ rewritten refs, rewrite task w drop db = .ok () rewritten ∧
      Written db table.entries refs ∧ (∀ ref ∈ refs, ref.1.Extracted ref.2) ∧
      rewritten.versions.current =
        loweredTo db.versions.current file pre source target post (refs.map Prod.fst) ∧
      rewritten.disk.tables = fun n =>
        if n ∈ task.numbers then none else db.disk.withTables refs n := by
  have hin : file ∈ db.versions.current.files := by
    simp [Version.files, ht.levels, ht.mem]
  obtain ⟨t, ht', hdesc⟩ := h.listed.described file hin
  obtain rfl : t = table := Option.some.inj (ht'.symm.trans htable)
  have hentries : task.entries db.disk.tables = t.entries := by
    rw [CompactionTask.entries, ht.allInputFiles, List.flatMap_singleton, fileEntries_eq htable]
  obtain ⟨refs, hw, hwrite⟩ := @run_writeCompactionOutputs db _ hdesc.wellFormed.sorted
    hdesc.wellFormed.matched
  have hplaced : Placed db.versions.current task (db.disk.withTables refs) (refs.map Prod.fst) :=
    hw.placed h
  have hlisted := hplaced.listed (h.listed.congr fun f hf => hw.tables_agree h hf)
    (ht.files_perm h.listed _) (ht.levelZero h.listed _)
  obtain ⟨l0, levels, hopen, -⟩ := openVersionTables_ok (d := { db.disk with
    manifest := db.disk.manifest ++ (deleteEdits task ++ addEdits task refs)
    tables := db.disk.withTables refs }) hlisted
  have hreplay := ht.replay (refs.map Prod.fst) { db.versions with
    nextFileNumber := db.versions.nextFileNumber + refs.length } rfl
  rw [← addEdits_eq] at hreplay
  have hrun : rewrite task w drop db = _ :=
    run_rewrite (by simpa [ht.allInputFiles] using ⟨t, htable⟩)
      (by rw [hentries, hkeep]; exact hwrite) hreplay hopen
  refine ⟨_, refs, hrun, hw, writeCompactionOutputs_extracted hwrite, rfl, ?_⟩
  rw [rewriteOps_eq]
  exact congrArg Disk.tables (applyAll_compactionOps db.disk task refs _ _)

theorem flatMap_addedTo {tables tables' : Nat → Option Table} {target outs : List FileMeta}
    (htarget : ∀ f ∈ target, tables' f.number = tables f.number) :
    ((Version.addedTo target outs).flatMap (fileEntries tables')).Perm
      (target.flatMap (fileEntries tables) ++ outs.flatMap (fileEntries tables')) := by
  have hperm := (Version.addedTo_perm target outs).flatMap_right (fileEntries tables')
  rwa [List.flatMap_append, flatMap_fileEntries_congr htarget] at hperm

/-- The test before a trivial move asks for a rewrite exactly if the compaction would drop an
entry; if it would not, moving the file and rewriting it leave the same level. -/
theorem trivial_move_is_rewrite (htrivial : task.isTrivialMove = true)
    (hfile : task.inputFiles.head? = some file)
    (htable : db.disk.tables file.number = some table) (hsorted : Rising table.entries) (w : Nat)
    (drop : Bool) :
    (trivialMoveNeedsRewrite file w drop db = .ok false db ↔
      compactEntries table.entries w drop = table.entries) ∧
    (db.Live → db.versions.current.Takes task → file.Extracted table →
      compactEntries table.entries w drop = table.entries →
      ∃ moved rewritten, moveTrivially task file db = .ok () moved ∧
        rewrite task w drop db = .ok () rewritten ∧
        SameLevel moved rewritten task.outputLevel) := by
  refine ⟨needsRewrite_iff htable hsorted w drop, fun h htakes hextracted hkeep => ?_⟩
  obtain ⟨f, pre, source, target, post, ht⟩ := htakes.trivialMove htrivial
  obtain rfl : f = file := by
    rw [ht.inputFiles] at hfile
    exact Option.some.inj hfile
  have hlevels : db.versions.current.files =
      (db.versions.current.l0Files ++ pre.flatten ++ source) ++ target ++ post.flatten := by
    simp [Version.files, ht.levels]
  obtain ⟨t, ht', hdesc⟩ := h.listed.described f (by simp [Version.files, ht.levels, ht.mem])
  obtain rfl : t = table := Option.some.inj (ht'.symm.trans htable)
  obtain ⟨moved, hmove, hmoved, hmovedTables⟩ := run_move h ht
  obtain ⟨rewritten, refs, hrewrite, hw, hextracts, hrewritten, htables⟩ :=
    run_rewriteWhole h ht htable hkeep
  refine ⟨moved, rewritten, hmove, hrewrite, ?_⟩
  have hnumbers : task.numbers = [f.number] := by
    simp [CompactionTask.numbers, ht.allInputFiles]
  -- what the other files of the level and the new ones hold after the rewrite
  have htarget : ∀ g ∈ target, rewritten.disk.tables g.number = db.disk.tables g.number := by
    intro g hg
    have hgone : g.number ∉ task.numbers := by
      rw [hnumbers, List.mem_singleton]
      exact fun he => h.listed.number_ne hlevels (List.mem_append.mpr (.inr ht.mem)) hg he.symm
    rw [htables]
    dsimp only
    rw [if_neg hgone]
    exact hw.tables_agree h (by rw [hlevels]; simp [hg])
  have hrefs : ∀ ref ∈ refs, fileEntries rewritten.disk.tables ref.1 = ref.2.entries := by
    intro ref href
    have hgone : ref.1.number ∉ task.numbers := by
      rw [hnumbers, List.mem_singleton]
      have hnew := (hw.numbers ref href).1
      have hold := h.file_number_lt (f := f) (by simp [Version.files, ht.levels, ht.mem])
      omega
    refine fileEntries_eq ?_
    rw [htables]
    dsimp only
    rw [if_neg hgone]
    exact Disk.withTables_of_mem _ hw.nodup href
  have hparts : (refs.map Prod.fst).flatMap (fileEntries rewritten.disk.tables) = t.entries := by
    rw [← hw.flatten, List.flatMap_def, List.map_map]
    exact congrArg List.flatten (List.map_congr_left fun ref href => hrefs ref href)
  have hranges := @ranges_replace f _ (refs.map fun ref => (ref.1, ref.2.entries)) _
    (Version.addedTo target (refs.map Prod.fst)) _ (Version.addedTo_perm target [f])
    (by rw [List.map_map]; exact Version.addedTo_perm _ _)
    (by rw [List.map_map]; exact hw.flatten) (hextracted.exact hdesc.wellFormed) (by
      intro part hpart
      obtain ⟨ref, href, rfl⟩ := List.mem_map.mp hpart
      exact (hextracts ref href).exact (hw.described ref href).wellFormed)
  constructor
  · rw [ht.output, hmoved, hrewritten, TrivialMove.filesAt_output, TrivialMove.filesAt_output,
      hmovedTables]
    have hleft := @flatMap_addedTo db.disk.tables db.disk.tables target [f] fun g _ => rfl
    have hright := @flatMap_addedTo _ _ _ (refs.map Prod.fst) htarget
    rw [hparts] at hright
    rw [List.flatMap_singleton, fileEntries_eq htable] at hleft
    exact hleft.trans hright.symm
  · rw [ht.output, hmoved, hrewritten, TrivialMove.filesAt_output, TrivialMove.filesAt_output]
    exact hranges.1
  · rw [ht.output, hmoved, hrewritten, TrivialMove.filesAt_output, TrivialMove.filesAt_output]
    exact hranges.2
  · intro level hne
    rw [hmoved, hrewritten]
    exact TrivialMove.filesAt_of_ne (ht.output ▸ hne)

end DB

/-- A flushed file that a first compaction has taken to L1. -/
def loweredCalls : List Call := [.put [97] [1], .flush, .compactRange .unbounded .unbounded]

theorem loweredCalls_end : EndsIn (fun db : DB =>
    (CompactionPicker.pickManual db.versions.current .unbounded .unbounded).any (fun task =>
      task.inputFiles.head?.any fun file => (db.disk.tables file.number).any fun table =>
        decide (task.isTrivialMove = true ∧ file.Extracted table ∧
          task.inputFiles.Sublist (db.versions.current.filesAt task.inputLevel) ∧
          task.outputLevel = task.inputLevel + 1 ∧
          task.outputLevel < db.versions.current.levels.length ∧
          compactEntries table.entries 0 true = table.entries)) = true)
    (runAll Call.run loweredCalls (DB.created .inOrder {} "db")) := by
  decide +kernel

theorem trivial_move_is_rewrite_small : ∃ db task file table moved rewritten,
    runAll Call.run loweredCalls (DB.created .inOrder {} "db") = .ok () db ∧
      CompactionPicker.pickManual db.versions.current .unbounded .unbounded = some task ∧
      db.disk.tables file.number = some table ∧
      DB.trivialMoveNeedsRewrite file 0 true db = .ok false db ∧
      DB.moveTrivially task file db = .ok () moved ∧
      DB.rewrite task 0 true db = .ok () rewritten ∧
      DB.SameLevel moved rewritten task.outputLevel := by
  obtain ⟨db, hrun, hend⟩ := loweredCalls_end.exists_ok
  obtain ⟨task, hpick, hend⟩ := (Option.any_eq_true _ _).mp hend
  obtain ⟨file, hfile, hend⟩ := (Option.any_eq_true _ _).mp hend
  obtain ⟨table, htable, hend⟩ := (Option.any_eq_true _ _).mp hend
  obtain ⟨htrivial, hextracted, htaken, hdown, hthere, hkeep⟩ := of_decide_eq_true hend
  have hranged : ∀ call ∈ loweredCalls, call.Ranged := by
    simp [loweredCalls, Call.Ranged]
  have hkeeps : Along Call.run Call.KeepsOrder loweredCalls (DB.created .inOrder {} "db") := by
    decide +kernel
  obtain ⟨db₁, hrun₁, hdb⟩ := runAll_invariant (n := fun _ u => u)
    (I := fun _ db => DB.Ordered db) DB.Ordered.step (g := ())
    (DB.ordered_created .inOrder {} "db")
    ((along_of_forall (C := fun call _ => Call.Ranged call)
      (fun call hc _ => hranged call hc) _).and hkeeps)
  obtain rfl : db = db₁ := by
    have hsame := hrun.symm.trans hrun₁
    injection hsame
  have hlive : db.Live := hdb.ok.sound.live
  have hin : file ∈ db.versions.current.files := by
    refine (hlive.listed.allInputFiles_sublist hpick).subset ?_
    exact List.mem_append.mpr (.inl (List.mem_of_head? hfile))
  obtain ⟨t, ht, hdesc⟩ := hlive.listed.described file hin
  obtain rfl : t = table := Option.some.inj (ht.symm.trans htable)
  obtain ⟨hneeds, hsame⟩ := DB.trivial_move_is_rewrite htrivial hfile htable
    hdesc.wellFormed.sorted.rising 0 true
  obtain ⟨moved, rewritten, hmove, hrewrite, hlevel⟩ :=
    hsame hlive ⟨htaken, hdown, hthere⟩ hextracted hkeep
  exact ⟨db, task, file, t, moved, rewritten, hrun, hpick, htable, hneeds.mpr hkeep, hmove,
    hrewrite, hlevel⟩

end TyLsm
