import TyLsm.CacheReads
import TyLsm.Closed
import TyLsm.Histories

/-! Flushes, compactions and writes through the caches. A number is handed out once, so that
no cached block or table can be taken for one of a later file. -/

namespace TyLsm

namespace CachedDB

/-- Where the plain program succeeds, the cached one does the same, and the caches stay
coherent; the numbers they may know are then those of `K'`. -/
def Carries {α : Type} (m : Nat) (K : Nat → Prop) (K' : DB → Nat → Prop) (x : CachedM α) (y : DBM α)
    (db : DB) : Prop :=
  ∀ s a db', At m K db s → y db = .ok a db' → ∃ s', x s = .ok a s' ∧ At m (K' db') db' s'

/-- The numbers handed out so far. -/
def Below (db : DB) (n : Nat) : Prop := n < db.versions.nextFileNumber

variable {α β : Type} {m : Nat} {K : Nat → Prop} {L M : DB → Nat → Prop} {db : DB}

namespace Carries

theorem pure (a : α) (hK : ∀ n, K n → L db n) :
    Carries m K L (pure a) (pure a : DBM α) db := by
  intro s a' db' hs hy
  cases hy
  exact ⟨s, rfl, hs.1, hs.2.mono hK⟩

theorem bind {x : CachedM α} {y : DBM α} {f : α → CachedM β} {g : α → DBM β}
    (hx : Carries m K L x y db)
    (hf : ∀ a db', y db = .ok a db' → Carries m (L db') M (f a) (g a) db') :
    Carries m K M (x >>= f) (y >>= g) db := by
  intro s b db' hs hy
  obtain ⟨a, db₁, hya, hgb⟩ := bind_eq_ok hy
  obtain ⟨s₁, hxs, hs₁⟩ := hx s a db₁ hs hya
  obtain ⟨s₂, hfs, hs₂⟩ := hf a db₁ hya s₁ b db' hs₁ hgb
  exact ⟨s₂, (bind_of_ok hxs).trans hfs, hs₂⟩

theorem read {x : CachedM α} {a : α} {f : α → CachedM β} {y : DBM β}
    (hx : Gives (At m K db) x (.ok a)) (hf : Carries m K L (f a) y db) :
    Carries m K L (x >>= f) y db := by
  intro s b db' hs hy
  obtain ⟨s₁, hs₁, hxs⟩ := hx s hs
  obtain ⟨s₂, hfs, hs₂⟩ := hf s₁ b db' hs₁ hy
  exact ⟨s₂, (bind_of_ok hxs).trans hfs, hs₂⟩

theorem weaken {N : Nat → Prop} {x : CachedM α} {y : DBM α} (h : Carries m N L x y db)
    (hK : ∀ n, K n → N n) : Carries m K L x y db :=
  fun s a db' hs hy => h s a db' ⟨hs.1, hs.2.mono hK⟩ hy

theorem mono {x : CachedM α} {y : DBM α} (hx : Carries m K L x y db)
    (hK : ∀ a db', y db = .ok a db' → ∀ n, L db' n → M db' n) : Carries m K M x y db := by
  intro s a db' hs hy
  obtain ⟨s', hxs, hs'⟩ := hx s a db' hs hy
  exact ⟨s', hxs, hs'.1, hs'.2.mono (hK a db' hy)⟩

theorem get_bind {f : CachedDB → CachedM α} {g : DB → DBM α}
    (h : ∀ s, s.db = db → Carries m K L (f s) (g db) db) :
    Carries m K L (MonadState.get >>= f) (MonadState.get >>= g) db :=
  fun s a db' hs hy => h s hs.1 s a db' hs hy

theorem of_gives {x : CachedM α} {y : DBM α} {a : α} (hx : Gives (At m K db) x (.ok a))
    (hy : y db = .ok a db) : Carries m K (fun _ => K) x y db := by
  intro s a' db' hs hy'
  rw [hy] at hy'
  cases hy'
  obtain ⟨s', hs', hxs⟩ := hx s hs
  exact ⟨s', hxs, hs'⟩

theorem direct {y : DBM α} (hy : ∀ a db', y db = .ok a db' → ∀ n, K n →
    db'.disk.tables n = db.disk.tables n ∨ db'.disk.tables n = none) :
    Carries m K (fun _ => K) (direct y) y db := by
  intro s a db' hs hya
  obtain ⟨rfl, hc⟩ := hs
  exact ⟨{ s with db := db' }, run_direct_ok hya, rfl, hc.withDB (hy a db' hya)⟩

theorem tryCatch {x : CachedM α} {y : DBM α} {hx : Error → CachedM α} {hy : Error → DBM α}
    (h : Carries m K L x y db) (hfail : ∀ err db' a db'', hy err db' ≠ .ok a db'') :
    Carries m K L (tryCatch x hx) (tryCatch y hy) db := by
  intro s a db' hs hya
  cases hrun : y db with
  | error err db₁ =>
    rw [run_tryCatch_error hrun] at hya
    exact absurd hya (hfail err db₁ a db')
  | ok a₁ db₁ =>
    rw [run_tryCatch_ok hrun] at hya
    obtain ⟨s', hxs, hs'⟩ := h s a₁ db₁ hs hrun
    cases hya
    refine ⟨s', ?_, hs'⟩
    change EStateM.tryCatch x hx s = _
    rw [EStateM.tryCatch, hxs]

end Carries

theorem gives_getOrOpen {n : Nat} {table : Table} (hn : K n)
    (hfile : db.disk.tables n = some table) : Gives (At m K db) (getOrOpen n) (.ok table) := by
  intro s hs
  obtain ⟨rfl, hc⟩ := hs
  rw [getOrOpen, get_of_bind]
  cases hget : s.caches.tables.get? n with
  | some cached =>
    have hsame := (hc.tables n cached hget).2 table hfile
    subst hsame
    exact ⟨s, ⟨rfl, hc⟩, rfl⟩
  | none =>
    refine ⟨{ s with caches := s.caches.withTable n table }, ⟨rfl, hc.withTable hn fun file hf => ?_⟩,
      ?_⟩
    · rw [hfile] at hf
      exact (Option.some.inj hf).symm
    · have hopen : s.db.disk.openTable n = .ok table := by rw [Disk.openTable, hfile]
      dsimp only
      rw [bind_of_ok (run_direct_ok (by rw [hopen]; exact run_ofExcept_ok s.db table))]
      rfl

/-- The files are on disk, with numbers that the caches may know. -/
def Present (K : Nat → Prop) (db : DB) (files : List FileMeta) : Prop :=
  ∀ f ∈ files, K f.number ∧ ∃ t, db.disk.tables f.number = some t

theorem Present.tail {file : FileMeta} {files : List FileMeta} (h : Present K db (file :: files)) :
    Present K db files := fun f hf => h f (List.mem_cons_of_mem _ hf)

theorem gives_openFiles {files : List FileMeta} (h : Present K db files) :
    Gives (At m K db) (openFiles files) (TyLsm.openFiles db.disk files) := by
  induction files with
  | nil => exact Gives.pure []
  | cons file files ih =>
    obtain ⟨hn, t, ht⟩ := h file List.mem_cons_self
    have hopen : db.disk.openTable file.number = .ok t := by rw [Disk.openTable, ht]
    rw [openFiles, TyLsm.openFiles, hopen]
    exact (gives_getOrOpen hn ht).bind_ok ((ih h.tail).bind fun rest => Gives.pure _)

theorem gives_openLevels {levels : List (List FileMeta)} (h : Present K db levels.flatten) :
    Gives (At m K db) (openLevels levels) (TyLsm.openLevels db.disk levels) := by
  induction levels with
  | nil => exact Gives.pure []
  | cons level levels ih =>
    have hlevel : Present K db level := fun f hf =>
      h f (by rw [List.flatten_cons]; exact List.mem_append.mpr (.inl hf))
    have hrest : Present K db levels.flatten := fun f hf =>
      h f (by rw [List.flatten_cons]; exact List.mem_append.mpr (.inr hf))
    exact (gives_openFiles hlevel).bind fun tables =>
      (ih hrest).bind fun rest => Gives.pure _

theorem gives_openVersionTables {version : Version} (h : Present K db version.files) :
    Gives (At m K db) (openVersionTables version) (TyLsm.openVersionTables db.disk version) :=
  (gives_openFiles fun f hf => h f (List.mem_append.mpr (.inl hf))).bind fun _ =>
    (gives_openLevels fun f hf => h f (List.mem_append.mpr (.inr hf))).bind fun _ =>
      Gives.pure _

theorem gives_readEntries {files : List FileMeta} (h : Present K db files) :
    Gives (At m K db) (readEntries files) (.ok (files.flatMap (fileEntries db.disk.tables))) := by
  induction files with
  | nil => exact Gives.pure []
  | cons file files ih =>
    obtain ⟨hn, t, ht⟩ := h file List.mem_cons_self
    rw [readEntries, List.flatMap_cons, fileEntries_eq ht]
    exact (gives_getOrOpen hn ht).bind_ok ((gives_entriesWithCache
      (show db.disk.tables (file, t).1.number = some (file, t).2 from ht) hn true).bind_ok
      ((ih h.tail).bind_ok (Gives.pure _)))

theorem present_live (h : db.Live) : Present (Below db) db db.versions.current.files :=
  fun _ hf => ⟨h.file_number_lt hf, (h.listed.described _ hf).imp fun _ ht => ht.1⟩

theorem tablesHeld_sound (h : db.Sound) : TablesHeld (Below db) db := by
  intro ref href
  have hmem : ref.1 ∈ db.versions.current.files := by
    rw [← h.tables.files]
    exact List.mem_map_of_mem href
  exact ⟨(h.tables.opened ref href).1, h.file_number_lt hmem⟩

theorem carries_ofExcept (r : Except Error α) :
    Carries m K (fun _ => K) (direct (ofExcept r)) (ofExcept r) db := by
  refine Carries.direct fun a db' hy n _ => .inl ?_
  cases r with
  | ok b =>
    rw [run_ofExcept_ok] at hy
    cases hy
    rfl
  | error err =>
    rw [run_ofExcept_error] at hy
    cases hy

theorem carries_writeTable (entries : List Entry) {number : Nat} (hnew : ¬ K number) :
    Carries m K (fun _ n => K n ∨ n = number) (writeTable entries number)
      (DB.writeTable entries number) db := by
  unfold writeTable DB.writeTable
  refine Carries.get_bind fun s hs => ?_
  rw [hs]
  refine Carries.bind (L := fun _ => K) (Carries.direct fun _ db' hact n hn => .inl ?_)
    fun _ db₁ hact => ?_
  · cases hact
    exact Function.update_of_ne (fun (he : n = number) => hnew (he ▸ hn)) _ _
  · have hfile : db₁.disk.tables number = some (buildTable db.options.blockSize entries) := by
      cases hact
      exact Function.update_self number _ _
    refine Carries.weaken (N := fun n => K n ∨ n = number) ?_ fun n hn => .inl hn
    refine Carries.read (gives_getOrOpen (.inr rfl) hfile) ?_
    exact Carries.bind (L := fun _ n => K n ∨ n = number) (carries_ofExcept _)
      fun file db₂ _ => Carries.pure _ fun _ hn => hn

theorem carries_writeL0Table (memtable : MemTable) {number : Nat} (hnew : ¬ K number) :
    Carries m K (fun _ n => K n ∨ n = number) (writeL0Table memtable number)
      (DB.writeL0Table memtable number) db := by
  unfold writeL0Table DB.writeL0Table
  refine Carries.get_bind fun s hs => ?_
  rw [hs]
  by_cases hexists : (db.disk.tables number).isSome = true
  · rw [if_pos hexists, if_pos hexists]
    intro s a db' _ hy
    rw [run_bind_error (run_throw db _)] at hy
    cases hy
  · rw [if_neg hexists, if_neg hexists]
    exact carries_writeTable memtable.entries hnew

theorem logAndApply_tables {edit : VersionEdit} {db' : DB}
    (h : DB.logAndApply edit db = .ok () db') : db'.disk.tables = db.disk.tables := by
  have hrun := DB.run_logAndApply (DB.logAndApply_ok h)
  rw [h] at hrun
  injection hrun with _ hdb
  rw [hdb]
  rfl

theorem publishL0Table_tables {file : FileMeta} {last : Nat} {db' : DB}
    (h : DB.publishL0Table file last db = .ok () db') : db'.disk.tables = db.disk.tables := by
  obtain ⟨_, db₁, h₁, h⟩ := bind_eq_ok h
  obtain ⟨_, db₂, h₂, h⟩ := bind_eq_ok h
  obtain ⟨_, db₃, h₃, h⟩ := bind_eq_ok h
  obtain ⟨_, db₄, h₄, h⟩ := bind_eq_ok h
  obtain ⟨_, db₅, h₅, h⟩ := bind_eq_ok h
  have hallocate : db₃.disk.tables = db₂.disk.tables := by
    cases h₃
    rfl
  have hopen : db₄.disk.tables = db₃.disk.tables := by
    cases h₄
    rfl
  have hswap : db'.disk.tables = db₅.disk.tables := by
    cases h
    rfl
  rw [hswap, logAndApply_tables h₅, hopen, hallocate, logAndApply_tables h₂, logAndApply_tables h₁]

theorem carries_set (db' : DB) (hdisk : db'.disk = db.disk) :
    Carries m K (fun _ => K) (direct (set db')) (set db' : DBM PUnit) db :=
  Carries.direct fun _ _ hset _ _ => .inl (by
    cases hset
    rw [hdisk])

theorem carries_modify (f : DB → DB) (hdisk : (f db).disk = db.disk) :
    Carries m K (fun _ => K) (direct (modify f)) (modify f : DBM PUnit) db :=
  Carries.direct fun _ _ hset _ _ => .inl (by
    cases hset
    rw [hdisk])

theorem carries_flush_some (hopen : db.state.closed = false) {memtable : MemTable}
    {source : DBState.FlushSource} {state : DBState}
    (htake : db.state.takeOldestFlushableMemtable db.options.memtableKind =
      some (memtable, source, state)) :
    Carries m (Below db) (fun _ n => Below db n ∨ n = db.versions.nextFileNumber) flush DB.flush db := by
  unfold flush DB.flush
  refine Carries.get_bind fun s hs => ?_
  rw [hs, if_neg (by simp [hopen]), if_neg (by simp [hopen])]
  simp only [htake]
  refine Carries.bind (carries_set _ rfl) fun _ db₁ hset => ?_
  refine Carries.bind (L := fun _ => Below db) (Carries.direct fun _ _ hallocate _ _ => .inl ?_)
    fun number db₂ hallocate => ?_
  · cases hallocate
    rfl
  have hnumber : number = db.versions.nextFileNumber := by
    cases hset
    cases hallocate
    rfl
  subst hnumber
  have hnew : ¬ Below db db.versions.nextFileNumber := lt_irrefl db.versions.nextFileNumber
  refine Carries.bind (L := fun _ n => Below db n ∨ n = db.versions.nextFileNumber)
    (Carries.tryCatch ?_ ?_) fun ref db₃ _ => carries_modify _ rfl
  · refine Carries.bind (carries_writeL0Table memtable hnew) fun ref db₃ _ => ?_
    refine Carries.bind (L := fun _ n => Below db n ∨ n = db.versions.nextFileNumber)
      (Carries.direct fun _ _ hpublish _ _ => .inl ?_) fun _ db₄ _ => Carries.pure _ fun _ hn => hn
    rw [publishL0Table_tables hpublish]
  · intro err db' a db'' hy
    obtain ⟨_, _, _, hthrow⟩ := bind_eq_ok hy
    cases hthrow

theorem carries_flush (h : db.Sound) : Carries m (Below db) Below flush DB.flush db := by
  cases htake : db.state.takeOldestFlushableMemtable db.options.memtableKind with
  | none =>
    unfold flush DB.flush
    refine Carries.get_bind fun s hs => ?_
    rw [hs, if_neg (by simp [h.isOpen]), if_neg (by simp [h.isOpen])]
    simp only [htake]
    exact Carries.pure _ fun _ hn => hn
  | some taken =>
    obtain ⟨memtable, source, state⟩ := taken
    refine (carries_flush_some h.isOpen htake).mono fun _ db' hy n hn => ?_
    obtain ⟨ref, -, -, hrun, -, -⟩ := h.flushed htake
    rw [hrun] at hy
    injection hy with _ hdb
    have hnext : db'.versions.nextFileNumber = db.versions.nextFileNumber + 2 := by
      rw [← hdb]
      rfl
    rw [Below, hnext]
    rcases hn with hn | rfl
    · exact hn.trans_le (Nat.le_add_right _ _)
    · exact Nat.lt_add_of_pos_right (by decide)

theorem Carries.bind_gives {x : CachedM α} {y : DBM α} {a : α} {f : α → CachedM β} {g : α → DBM β}
    (hx : Gives (At m K db) x (.ok a)) (hy : y db = .ok a db) (hf : Carries m K L (f a) (g a) db) :
    Carries m K L (x >>= f) (y >>= g) db := by
  refine (Carries.of_gives hx hy).bind fun a' db' hy' => ?_
  rw [hy] at hy'
  cases hy'
  exact hf

theorem carries_writeOutputs {pairs : List (List Entry × Nat)}
    (hnodup : (pairs.map Prod.snd).Nodup) (hnew : ∀ n ∈ pairs.map Prod.snd, ¬ K n) :
    Carries m K (fun _ n => K n ∨ n ∈ pairs.map Prod.snd) (writeOutputs pairs)
      (DB.writeOutputs pairs) db := by
  induction pairs generalizing K db with
  | nil => exact Carries.pure _ fun _ hn => .inl hn
  | cons pair pairs ih =>
    obtain ⟨chunk, number⟩ := pair
    obtain ⟨hnot, hnodup⟩ := List.nodup_cons.mp hnodup
    refine (carries_writeTable chunk (hnew number List.mem_cons_self)).bind fun ref db₁ _ => ?_
    have hrest : ∀ n ∈ pairs.map Prod.snd, ¬ (K n ∨ n = number) := by
      rintro n hn (hK | rfl)
      · exact hnew n (List.mem_cons_of_mem _ hn) hK
      · exact hnot hn
    refine (ih hnodup hrest).bind fun refs db₂ _ => Carries.pure _ fun n hn => ?_
    rw [List.map_cons, List.mem_cons]
    exact or_assoc.mp hn

theorem writeTable_versions {entries : List Entry} {number : Nat} {ref : TableRef} {db' : DB}
    (h : DB.writeTable entries number db = .ok ref db') : db'.versions = db.versions := by
  obtain ⟨_, db₁, hget, h⟩ := bind_eq_ok h
  obtain ⟨_, db₂, hact, h⟩ := bind_eq_ok h
  obtain ⟨_, db₃, hfile, h⟩ := bind_eq_ok h
  have hwrote : db₂.versions = db.versions := by
    cases hget
    cases hact
    rfl
  have hread : db₃ = db₂ := by
    cases hmeta : fileMetaFromTable number
        (db.env.metadataLen (buildTable db.options.blockSize entries))
        (buildTable db.options.blockSize entries) with
    | ok file =>
      cases hget
      rw [hmeta, run_ofExcept_ok] at hfile
      cases hfile
      rfl
    | error err =>
      cases hget
      rw [hmeta, run_ofExcept_error] at hfile
      cases hfile
  have hend : db' = db₃ := by
    cases h
    rfl
  rw [hend, hread, hwrote]

theorem writeOutputs_versions {pairs : List (List Entry × Nat)} {refs : List TableRef} {db' : DB}
    (h : DB.writeOutputs pairs db = .ok refs db') : db'.versions = db.versions := by
  induction pairs generalizing db db' refs with
  | nil =>
    cases h
    rfl
  | cons pair pairs ih =>
    obtain ⟨ref, db₁, hwrite, h⟩ := bind_eq_ok h
    obtain ⟨rest, db₂, hrest, h⟩ := bind_eq_ok h
    have hend : db' = db₂ := by
      cases h
      rfl
    rw [hend, ih hrest, writeTable_versions hwrite]

theorem carries_writeCompactionOutputs (entries : List Entry) :
    Carries m (Below db) Below (writeCompactionOutputs entries)
      (DB.writeCompactionOutputs entries) db := by
  unfold writeCompactionOutputs DB.writeCompactionOutputs
  by_cases hempty : entries.isEmpty = true
  · rw [if_pos hempty, if_pos hempty]
    exact Carries.pure _ fun _ hn => hn
  · rw [if_neg hempty, if_neg hempty]
    refine Carries.get_bind fun s hs => ?_
    rw [hs]
    dsimp only
    set chunks := splitCompactionEntries entries db.options.targetFileSizeBase
      db.options.maxSubcompactions with hchunks
    set next := db.versions.nextFileNumber with hnext
    set numbers := (db.env.workerOrder next chunks.length).map (next + ·) with hnumbers
    have hperm := db.env.workerOrder_perm next chunks.length
    have hlen : numbers.length = chunks.length := by
      rw [hnumbers, List.length_map, hperm.length_eq, List.length_range]
    have hsnd : (chunks.zip numbers).map Prod.snd = numbers := List.map_snd_zip hlen.le
    have hmem : ∀ n ∈ numbers, next ≤ n ∧ n < next + chunks.length := by
      intro n hn
      obtain ⟨i, hi, rfl⟩ := List.mem_map.mp hn
      have := List.mem_range.mp (hperm.mem_iff.mp hi)
      omega
    have hnodup : numbers.Nodup :=
      (hperm.nodup_iff.mpr List.nodup_range).map fun a b hab => Nat.add_left_cancel hab
    refine Carries.bind (carries_set _ rfl) fun _ db₁ hset => ?_
    have hversions : db₁.versions.nextFileNumber = next + chunks.length := by
      cases hset
      rfl
    refine (carries_writeOutputs (by rw [hsnd]; exact hnodup) ?_).mono fun refs db' hwrite n hn => ?_
    · rw [hsnd]
      exact fun n hn hbelow => absurd (hmem n hn).1 (not_le.mpr hbelow)
    · rw [Below, writeOutputs_versions hwrite, hversions]
      rw [hsnd] at hn
      rcases hn with hn | hn
      · exact lt_of_lt_of_le hn (Nat.le_add_right _ _)
      · exact (hmem n hn).2

theorem Present.exists {files : List FileMeta} (h : Present K db files) :
    ∀ f ∈ files, ∃ t, db.disk.tables f.number = some t := fun f hf => (h f hf).2

theorem carries_prepareTask {task : CompactionTask}
    (h : Present (Below db) db task.allInputFiles) :
    Carries m (Below db) Below (prepareTask task) (DB.prepareTask task) db := by
  unfold prepareTask DB.prepareTask
  cases hfiles : task.inputFiles with
  | nil => exact Carries.pure _ fun _ hn => hn
  | cons file rest =>
    have hone : Present (Below db) db [file] := fun f hf => by
      rw [List.mem_singleton.mp hf]
      exact h file (List.mem_append.mpr (.inl (by simp [hfiles])))
    dsimp only
    refine Carries.get_bind fun s hs => ?_
    rw [hs]
    have hrewrite : ∀ (gcWatermark : Nat) (dropTombstones : Bool), Carries m (Below db) Below (do
        let entries ← readEntries task.allInputFiles
        let outputs ← writeCompactionOutputs (compactEntries entries gcWatermark dropTombstones)
        return some (⟨DB.deleteEdits task ++ DB.addEdits task outputs,
          task.allInputFiles.map FileMeta.number⟩ : Publication)) (do
        let entries ← DB.readEntries task.allInputFiles
        let outputs ← DB.writeCompactionOutputs (compactEntries entries gcWatermark dropTombstones)
        return some (⟨DB.deleteEdits task ++ DB.addEdits task outputs,
          task.allInputFiles.map FileMeta.number⟩ : Publication)) db := fun gcWatermark drop =>
      Carries.bind_gives (gives_readEntries h) (DB.run_readEntries h.exists)
        ((carries_writeCompactionOutputs _).bind fun outputs db₁ _ =>
          Carries.pure _ fun _ hn => hn)
    have hneeds : ∀ (gcWatermark : Nat) (dropTombstones : Bool),
        Carries m (Below db) (fun _ => Below db)
          (trivialMoveNeedsRewrite file gcWatermark dropTombstones)
          (DB.trivialMoveNeedsRewrite file gcWatermark dropTombstones) db := fun gcWatermark drop =>
      Carries.bind_gives (gives_readEntries hone) (DB.run_readEntries hone.exists)
        (Carries.pure _ fun _ hn => hn)
    by_cases ht : task.isTrivialMove = true
    · rw [if_pos ht, if_pos ht]
      refine (hneeds _ _).bind fun needsRewrite db₁ hy => ?_
      have hsame : db₁ = db := by
        obtain ⟨entries, db₂, hread, hend⟩ := bind_eq_ok hy
        rw [DB.run_readEntries hone.exists] at hread
        cases hread
        cases hend
        rfl
      subst hsame
      cases needsRewrite with
      | true => exact hrewrite _ _
      | false => exact Carries.pure _ fun _ hn => hn
    · rw [if_neg ht, if_neg ht]
      exact Carries.bind_gives (Gives.pure true) rfl (hrewrite _ _)

theorem carries_prepare (h : db.Live) (lower upper : Bound) :
    Carries m (Below db) Below (prepare lower upper) (DB.prepare lower upper) db := by
  refine Carries.get_bind fun s hs => ?_
  rw [hs]
  cases hpick : CompactionPicker.pickManual db.versions.current lower upper with
  | none => exact Carries.pure _ fun _ hn => hn
  | some task =>
    have hin := (h.listed.fits_sublist (Version.fits_of_pick hpick)).subset
    exact carries_prepareTask fun f hf => present_live h f (hin hf)

theorem carries_refresh (h : db.Live) :
    Carries m (Below db) Below refreshTablesFromVersion DB.refreshTablesFromVersion db := by
  obtain ⟨l0, levels, hopen, -⟩ := openVersionTables_ok h.listed
  have hgives := gives_openVersionTables (m := m) (present_live h)
  rw [hopen] at hgives
  refine Carries.get_bind fun s hs => ?_
  rw [hs]
  refine Carries.bind_gives hgives (by rw [hopen]; rfl) ?_
  refine Carries.mono (L := fun _ => Below db) (carries_set _ rfl) fun _ db' hset n hn => ?_
  cases hset
  exact hn

theorem carries_finishCompaction (h : db.Live) {publication : Publication} {task : CompactionTask}
    {outs : List FileMeta} (hr : db.Ready publication task outs) :
    Carries m (Below db) Below (finishCompaction (some publication))
      (DB.finishCompaction (some publication)) db := by
  obtain ⟨db₁, hpublish, hlive₁, hkeeps₁, hgone₁, -, htables₁⟩ := h.publish hr
  have hpublished : Carries m (Below db) Below (direct (DB.publish publication))
      (DB.publish publication) db := by
    refine (Carries.direct fun _ db' hy n _ => .inl ?_).mono fun _ db' hy n hn => ?_
    · rw [hpublish] at hy
      cases hy
      rw [htables₁]
    · rw [hpublish] at hy
      cases hy
      exact lt_of_lt_of_le hn hkeeps₁.next_le
  refine hpublished.bind fun _ db' hy => ?_
  rw [hpublish] at hy
  cases hy
  refine (carries_refresh hlive₁).bind fun _ db₂ hrefresh => ?_
  obtain ⟨db₂', hrefresh', hlive₂, -, hsynced₂, hversions₂, -⟩ := hlive₁.refresh
  rw [hrefresh'] at hrefresh
  cases hrefresh
  have hgone₂ : db₂.Gone publication := by
    rw [DB.Gone, hversions₂]
    exact hgone₁
  obtain ⟨db₃, hdelete, -, -, hversions₃, htables₃⟩ := hlive₂.delete hgone₂ hsynced₂
  refine (Carries.direct fun _ db' hy n _ => ?_).mono fun _ db' hy n hn => ?_
  · rw [hdelete] at hy
    cases hy
    rw [htables₃ n]
    split
    · exact .inr rfl
    · exact .inl rfl
  · rw [hdelete] at hy
    cases hy
    rw [Below, hversions₃]
    exact hn

theorem carries_compactRange (h : db.Live) (lower upper : Bound) :
    Carries m (Below db) Below (compactRange lower upper) (DB.compactRange lower upper) db := by
  rw [DB.compactRange_eq]
  refine (carries_prepare h lower upper).bind fun publication db₁ hy => ?_
  rcases h.prepare lower upper with hnone | ⟨ready, refs, task, outs, hsome, hlive, -, hr⟩
  · rw [hnone] at hy
    cases hy
    exact Carries.pure _ fun _ hn => hn
  · rw [hsome] at hy
    cases hy
    exact carries_finishCompaction hlive hr

theorem carries_applyWritePressure (h : db.Live) :
    Carries m (Below db) Below applyWritePressure DB.applyWritePressure db := by
  refine Carries.get_bind fun s hs => ?_
  rw [hs]
  split
  · exact carries_compactRange h .unbounded .unbounded
  · exact Carries.pure _ fun _ hn => hn

theorem carries_group (h : db.Live) (requests : List DB.Request) :
    Carries m (Below db) Below (direct (DB.applyWriteGroupToMemtable (.ok ()) requests))
      (DB.applyWriteGroupToMemtable (.ok ()) requests) db := by
  have hrun := DB.run_applyWriteGroupToMemtable h.isOpen requests (.ok ()) (.inl rfl)
  refine (Carries.direct fun _ db' hy n _ => .inl ?_).mono fun _ db' hy n hn => ?_
  · rw [hrun] at hy
    cases hy
    rw [DB.written_tables]
  · rw [hrun] at hy
    cases hy
    exact hn

theorem carries_flush_if (h : db.Sound) (shouldFlush : Bool) :
    Carries m (Below db) Below (if shouldFlush then flush else pure ())
      (if shouldFlush then DB.flush else pure ()) db := by
  cases shouldFlush with
  | true => exact carries_flush h
  | false => exact Carries.pure _ fun _ hn => hn

theorem carries_applyWriteGroup (h : db.Sound) (hr : db.Recorded) (requests : List DB.Request) :
    Carries m (Below db) Below (applyWriteGroup (.ok ()) requests)
      (DB.applyWriteGroup (.ok ()) requests) db := by
  refine Carries.tryCatch ?_ fun err db' a db'' hy => by cases hy
  refine (carries_applyWritePressure h.live).bind fun _ db₁ hpressure => ?_
  obtain ⟨db₁', hpressure', hev, -⟩ := h.applyWritePressure hr
  rw [hpressure'] at hpressure
  cases hpressure
  refine (carries_group hev.sound.live requests).bind fun shouldFlush db₂ hgroup => ?_
  rw [DB.run_applyWriteGroupToMemtable hev.sound.isOpen requests (.ok ()) (.inl rfl)] at hgroup
  cases hgroup
  exact carries_flush_if (hev.sound.written hev.recorded requests).1 _

theorem carries_write (h : db.Sound) (hr : db.Recorded) (batch : WriteBatch) (opts : WriteOptions) :
    Carries m (Below db) Below (write (.ok ()) batch opts) (DB.write (.ok ()) batch opts) db := by
  unfold write DB.write
  split
  · exact Carries.pure _ fun _ hn => hn
  · exact carries_applyWriteGroup h hr _

theorem carries_commitToMemtable (h : db.Sound) (readSeq : Nat) (batch : WriteBatch)
    (readKeys : List Bytes) (readRanges : List ReadRange)
    (hok : db.ensureNoTransactionConflicts readSeq readKeys readRanges (batchWriteKeys batch) =
      .ok ()) :
    Carries m (Below db) (fun _ => Below db)
      (commitToMemtable (.ok ()) readSeq batch readKeys readRanges)
      (DB.commitToMemtable (.ok ()) readSeq batch readKeys readRanges) db := by
  have hcheck := gives_ensureNoTransactionConflicts (m := m) (tablesHeld_sound h) readSeq readKeys readRanges
    (batchWriteKeys batch)
  rw [hok] at hcheck
  have hopen : ¬ db.state.closed = true := by simp [h.isOpen]
  unfold commitToMemtable DB.commitToMemtable
  refine Carries.get_bind fun s hs => ?_
  rw [hs, if_neg hopen, if_neg hopen]
  refine Carries.bind_gives hcheck (by rw [hok]; rfl) ?_
  by_cases hempty : batch.isEmpty = true
  · rw [if_pos hempty, if_pos hempty]
    exact Carries.pure _ fun _ hn => hn
  · rw [if_neg hempty, if_neg hempty]
    dsimp only
    have happend : Carries m (Below db) (fun _ => Below db)
        (direct (act (.appendWal db.wal (db.state.lastSequence + 1) batch)))
        (act (.appendWal db.wal (db.state.lastSequence + 1) batch)) db :=
      Carries.direct fun _ _ hact _ _ => .inl (by
        cases hact
        rfl)
    have happly : ∀ (f : DB → DB) (frozen : Bool) (db' : DB), (f db').disk = db'.disk →
        Carries m (Below db) (fun _ => Below db) (do
          direct (modify f)
          return frozen) (do
          modify f
          return frozen) db' := fun f frozen db' hdisk =>
      (carries_modify f hdisk).bind fun _ _ _ => Carries.pure _ fun _ hn => hn
    split
    · refine happend.bind fun _ db₁ _ => ?_
      split
      · exact (carries_ofExcept (.ok ())).bind fun _ db₂ _ => happly _ _ _ rfl
      · exact happly _ _ _ rfl
    · exact happly _ _ _ rfl

end CachedDB

end TyLsm
