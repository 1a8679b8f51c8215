import TyLsm.CacheRuns
import TyLsm.FileNumbers

/-! Runs of a process with caches of any capacity, whatever they drop, against runs that read
every block from its file. -/

namespace TyLsm

inductive CachedCall where
  | write (batch : WriteBatch) (opts : WriteOptions)
  | commit (readSeq : Nat) (batch : WriteBatch) (readKeys : List Bytes)
      (readRanges : List ReadRange)
  | flush
  | compactRange (lower upper : Bound)
  | get (key : Bytes) (snapshot : Option Nat) (fillCache : Bool)
  | scan (lower upper : Bound) (snapshot : Option Nat) (fillCache : Bool)
  | snapshot
  | cloneSnapshot (readSeq : Nat)
  | dropSnapshot (readSeq : Nat)

inductive Reply where
  | done
  | value (value : Option Bytes)
  | rows (rows : List (Bytes × Bytes))
  | sequence (readSeq : Nat)
  deriving DecidableEq, Repr

namespace CachedCall

/-- The call as it goes through the caches. -/
def cached : CachedCall → CachedM Reply
  | write batch opts => do
    CachedDB.write (.ok ()) batch opts
    return .done
  | commit readSeq batch readKeys readRanges => do
    CachedDB.commitTransaction (.ok ()) readSeq batch readKeys readRanges
    return .done
  | flush => do
    CachedDB.flush
    return .done
  | compactRange lower upper => do
    CachedDB.compactRange lower upper
    return .done
  | get key handle fillCache => do
    let value ← CachedDB.getOpt key handle fillCache
    return .value value
  | scan lower upper handle fillCache => do
    let rows ← CachedDB.scanOpt lower upper handle fillCache
    return .rows rows
  | snapshot => do
    let readSeq ← direct DB.snapshot
    return .sequence readSeq
  | cloneSnapshot readSeq => do
    direct (DB.cloneSnapshot readSeq)
    return .done
  | dropSnapshot readSeq => do
    direct (DB.dropSnapshot readSeq)
    return .done

/-- The call when every block is read from its file. -/
def plain : CachedCall → DBM Reply
  | write batch opts => do
    DB.write (.ok ()) batch opts
    return .done
  | commit readSeq batch readKeys readRanges => do
    DB.commitTransaction (.ok ()) readSeq batch readKeys readRanges
    return .done
  | flush => do
    DB.flush
    return .done
  | compactRange lower upper => do
    DB.compactRange lower upper
    return .done
  | get key handle _ => do
    let db ← MonadState.get
    let value ← ofExcept (db.getOpt key handle)
    return .value value
  | scan lower upper handle _ => do
    let db ← MonadState.get
    let rows ← ofExcept (db.scanOpt lower upper handle)
    return .rows rows
  | snapshot => do
    let readSeq ← DB.snapshot
    return .sequence readSeq
  | cloneSnapshot readSeq => do
    DB.cloneSnapshot readSeq
    return .done
  | dropSnapshot readSeq => do
    DB.dropSnapshot readSeq
    return .done

end CachedCall

section

variable {σ : Type}

/-- The reply to a call and the state after it. -/
def reply (x : EStateM Error σ Reply) (s : σ) : Except Error Reply × σ :=
  match x s with
  | .ok a s' => (.ok a, s')
  | .error err s' => (.error err, s')

/-- The replies to some calls and the state after them. A call that fails does not end the run. -/
def replies (f : CachedCall → EStateM Error σ Reply) :
    List CachedCall → σ → List (Except Error Reply) × σ
  | [], s => ([], s)
  | call :: calls, s =>
    let (answer, s) := reply (f call) s
    let (answers, s) := replies f calls s
    (answer :: answers, s)

end

namespace CachedDB

/-- Open a directory. The tables of the version are opened through the table cache. -/
def «open» (env : Env) (disk : Disk) (options : Options) (blockCacheCapacity : Nat)
    (victims : Nat → Nat) (storedLen : List Entry → Nat) : Except Error CachedDB := do
  let db ← DB.open env disk options
  match openVersionTables db.versions.current
      ⟨db, .new blockCacheCapacity victims storedLen⟩ with
  | .error err _ => .error err
  | .ok (l0Tables, levelTables) s =>
    return { s with db := { s.db with
      state := { s.db.state with l0Tables := l0Tables, levelTables := levelTables } } }

/-- A directory that does not exist yet, or that some earlier processes left. -/
def Left (env : Env) (options : Options) (path : String) (disk : Disk) : Prop :=
  disk = Disk.empty path ∨
    ∃ pieces, disk = (runPieces pieces (DB.created env options path)).disk

/-- Both databases have come to the same state, and the caches are coherent with it. -/
structure Agrees (m : Nat) (db : DB) (s : CachedDB) : Prop where
  at_ : At m (Below db) db s
  sound : db.Sound
  recorded : db.Recorded

variable {m : Nat} {db : DB} {s : CachedDB}

/-- The call gives the same reply with and without the caches. -/
def Transparent (m : Nat) (call : CachedCall) (db : DB) (s : CachedDB) : Prop :=
  (reply call.cached s).1 = (reply call.plain db).1 ∧
    Agrees m (reply call.plain db).2 (reply call.cached s).2

theorem reply_ok {σ : Type} {x : EStateM Error σ Reply} {s s' : σ} {a : Reply}
    (h : x s = .ok a s') : reply x s = (.ok a, s') := by rw [reply, h]

theorem reply_error {σ : Type} {x : EStateM Error σ Reply} {s s' : σ} {err : Error}
    (h : x s = .error err s') : reply x s = (.error err, s') := by rw [reply, h]

theorem Agrees.of_carries (h : Agrees m db s) {α : Type} {x : CachedM α} {y : DBM α} {a : α} {db' : DB}
    (hc : Carries m (Below db) Below x y db) (hy : y db = .ok a db') (hs : db'.Sound)
    (hr : db'.Recorded) (f : α → Reply) :
    (reply (x >>= fun a => pure (f a)) s).1 = (reply (y >>= fun a => pure (f a)) db).1 ∧
      Agrees m (reply (y >>= fun a => pure (f a)) db).2 (reply (x >>= fun a => pure (f a)) s).2 := by
  obtain ⟨s', hx, hs'⟩ := hc s a db' h.at_ hy
  have hxr : (x >>= fun a => pure (f a)) s = .ok (f a) s' := bind_of_ok hx
  have hyr : (y >>= fun a => pure (f a)) db = .ok (f a) db' := bind_of_ok hy
  rw [reply_ok hxr, reply_ok hyr]
  exact ⟨rfl, hs', hs, hr⟩

theorem Agrees.of_gives (h : Agrees m db s) {α : Type} {x : CachedM α} {r : Except Error α}
    (hx : Gives (At m (Below db) db) x r) (f : α → Reply) :
    (reply (x >>= fun a => pure (f a)) s).1 =
        (reply (ofExcept r >>= fun a => pure (f a)) db).1 ∧
      Agrees m (reply (ofExcept r >>= fun a => pure (f a)) db).2
        (reply (x >>= fun a => pure (f a)) s).2 := by
  obtain ⟨s', hs', hxs⟩ := hx s h.at_
  cases r with
  | ok a =>
    have hxr : (x >>= fun a => pure (f a)) s = .ok (f a) s' := bind_of_ok hxs
    have hyr : (ofExcept (.ok a) >>= fun a => pure (f a)) db = .ok (f a) db := rfl
    rw [reply_ok hxr, reply_ok hyr]
    exact ⟨rfl, hs', h.sound, h.recorded⟩
  | error err =>
    have hxr : (x >>= fun a => pure (f a)) s = .error err s' := bind_of_error hxs
    have hyr : (ofExcept (.error err) >>= fun a => pure (f a)) db = .error err db := rfl
    rw [reply_error hxr, reply_error hyr]
    exact ⟨rfl, hs', h.sound, h.recorded⟩

theorem Agrees.of_watermark (h : Agrees m db s) {α : Type} {y : DBM α} {a : α} {w : Watermark}
    (hy : y db = .ok a { db with watermark := w }) (f : α → Reply) :
    (reply (direct y >>= fun a => pure (f a)) s).1 = (reply (y >>= fun a => pure (f a)) db).1 ∧
      Agrees m (reply (y >>= fun a => pure (f a)) db).2
        (reply (direct y >>= fun a => pure (f a)) s).2 := by
  refine h.of_carries ((Carries.direct fun _ db' hy' n _ => .inl ?_).mono fun _ db' hy' n hn => ?_) hy
    (h.sound.withWatermark w) (h.recorded.withWatermark w) f
  · rw [hy] at hy'
    cases hy'
    rfl
  · rw [hy] at hy'
    cases hy'
    exact hn

theorem commitToMemtable_ok (h : db.Sound) (hr : db.Recorded) {readSeq : Nat} {batch : WriteBatch}
    {readKeys : List Bytes} {readRanges : List ReadRange}
    (hcheck : db.ensureNoTransactionConflicts readSeq readKeys readRanges (batchWriteKeys batch) =
      .ok ()) :
    ∃ flag db', DB.commitToMemtable (.ok ()) readSeq batch readKeys readRanges db = .ok flag db' ∧
      db'.Sound ∧ db'.Recorded ∧ db'.versions = db.versions := by
  cases hempty : batch.isEmpty with
  | true =>
    have hopen : ¬ db.state.closed = true := by simp [h.isOpen]
    refine ⟨false, db, ?_, h, hr, rfl⟩
    rw [DB.commitToMemtable, run_bind_ok (run_get db), if_neg hopen, hcheck]
    dsimp only
    rw [run_bind_ok (run_ofExcept_ok _ _), if_pos hempty]
    rfl
  | false =>
    have hrun := DB.run_commitToMemtable h.isOpen readSeq hempty readKeys readRanges hcheck (.ok ())
    rw [DB.run_applyWriteGroupToMemtable h.isOpen _ _ (.inl rfl)] at hrun
    obtain ⟨hs', hr', -⟩ := h.written hr [⟨batch, {}⟩]
    exact ⟨_, _, hrun, hs', hr', rfl⟩

theorem Agrees.commit_ok (h : Agrees m db s) {db₁ : DB} {readSeq : Nat} {batch : WriteBatch}
    {readKeys : List Bytes} {readRanges : List ReadRange}
    (hpressure : DB.applyWritePressure db = .ok () db₁) (hsound : db₁.Sound)
    (hrecorded : db₁.Recorded)
    (hcheck : db₁.ensureNoTransactionConflicts readSeq readKeys readRanges (batchWriteKeys batch) =
      .ok ()) : Transparent m (.commit readSeq batch readKeys readRanges) db s := by
  obtain ⟨flag, db₂, hcommit, hs₂, hr₂, hversions⟩ := commitToMemtable_ok hsound hrecorded hcheck
  have hcarries : Carries m (Below db) Below
      (commitTransaction (.ok ()) readSeq batch readKeys readRanges)
      (DB.commitTransaction (.ok ()) readSeq batch readKeys readRanges) db := by
    refine (carries_applyWritePressure h.sound.live).bind fun _ db' hy => ?_
    rw [hpressure] at hy
    cases hy
    refine (carries_commitToMemtable hsound readSeq batch readKeys readRanges hcheck).bind
      fun flag' db' hy => ?_
    rw [hcommit] at hy
    cases hy
    have hbelow : Below db₁ = Below db₂ := by
      funext n
      rw [Below, Below, hversions]
    rw [hbelow]
    exact carries_flush_if hs₂ flag
  have hrun : DB.commitTransaction (.ok ()) readSeq batch readKeys readRanges db =
      (if flag then DB.flush else pure ()) db₂ :=
    (run_bind_ok hpressure).trans (run_bind_ok hcommit)
  cases flag with
  | true =>
    obtain ⟨db₃, hflush, hev, -⟩ := hs₂.flush hr₂
    exact h.of_carries hcarries (hrun.trans hflush) hev.sound hev.recorded fun _ => .done
  | false => exact h.of_carries hcarries hrun hs₂ hr₂ fun _ => .done

theorem Agrees.commit (h : Agrees m db s) (readSeq : Nat) (batch : WriteBatch)
    (readKeys : List Bytes) (readRanges : List ReadRange) :
    Transparent m (.commit readSeq batch readKeys readRanges) db s := by
  obtain ⟨db₁, hpressure, hev, -⟩ := h.sound.applyWritePressure h.recorded
  cases hcheck : db₁.ensureNoTransactionConflicts readSeq readKeys readRanges
      (batchWriteKeys batch) with
  | ok u => exact h.commit_ok hpressure hev.sound hev.recorded hcheck
  | error err =>
    obtain ⟨s₁, hpressure', hs₁⟩ := carries_applyWritePressure h.sound.live s () db₁ h.at_ hpressure
    have hopen : ¬ db₁.state.closed = true := by simp [hev.sound.isOpen]
    have hgives := gives_ensureNoTransactionConflicts (m := m) (tablesHeld_sound hev.sound) readSeq readKeys
      readRanges (batchWriteKeys batch)
    rw [hcheck] at hgives
    obtain ⟨s₂, hs₂, hfails⟩ := hgives s₁ hs₁
    have hplain : DB.commitToMemtable (.ok ()) readSeq batch readKeys readRanges db₁ =
        .error err db₁ := by
      rw [DB.commitToMemtable, run_bind_ok (run_get db₁), if_neg hopen, hcheck]
      exact run_bind_error (run_ofExcept_error _ _)
    have hcached : commitToMemtable (.ok ()) readSeq batch readKeys readRanges s₁ =
        .error err s₂ := by
      rw [commitToMemtable, get_of_bind, if_neg (by rw [hs₁.1]; exact hopen)]
      exact bind_of_error hfails
    have hx : CachedCall.cached (.commit readSeq batch readKeys readRanges) s = .error err s₂ :=
      bind_of_error ((bind_of_ok hpressure').trans (bind_of_error hcached))
    have hy : CachedCall.plain (.commit readSeq batch readKeys readRanges) db = .error err db₁ :=
      bind_of_error ((bind_of_ok hpressure).trans (bind_of_error hplain))
    rw [Transparent, reply_error hx, reply_error hy]
    exact ⟨rfl, hs₂, hev.sound, hev.recorded⟩

theorem Agrees.call (h : Agrees m db s) (call : CachedCall) : Transparent m call db s := by
  cases call with
  | write batch opts =>
    obtain ⟨db', hy, hev, -⟩ := h.sound.write h.recorded batch opts
    exact h.of_carries (carries_write h.sound h.recorded batch opts) hy hev.sound hev.recorded
      fun _ => .done
  | commit readSeq batch readKeys readRanges => exact h.commit readSeq batch readKeys readRanges
  | flush =>
    obtain ⟨db', hy, hev, -⟩ := h.sound.flush h.recorded
    exact h.of_carries (carries_flush h.sound) hy hev.sound hev.recorded fun _ => .done
  | compactRange lower upper =>
    obtain ⟨db', hy, hev, -⟩ := h.sound.compactRange h.recorded lower upper
    exact h.of_carries (carries_compactRange h.sound.live lower upper) hy hev.sound hev.recorded
      fun _ => .done
  | get key handle fillCache =>
    exact h.of_gives (gives_getOpt (tablesHeld_sound h.sound) key handle fillCache) .value
  | scan lower upper handle fillCache =>
    exact h.of_gives (gives_scanOpt (tablesHeld_sound h.sound) lower upper handle fillCache) .rows
  | snapshot => exact h.of_watermark (y := DB.snapshot) rfl .sequence
  | cloneSnapshot readSeq => exact h.of_watermark (y := DB.cloneSnapshot readSeq) rfl fun _ => .done
  | dropSnapshot readSeq => exact h.of_watermark (y := DB.dropSnapshot readSeq) rfl fun _ => .done

theorem Agrees.replies (h : Agrees m db s) (calls : List CachedCall) :
    (TyLsm.replies CachedCall.cached calls s).1 = (TyLsm.replies CachedCall.plain calls db).1 ∧
      Agrees m (TyLsm.replies CachedCall.plain calls db).2
        (TyLsm.replies CachedCall.cached calls s).2 := by
  induction calls generalizing db s with
  | nil => exact ⟨rfl, h⟩
  | cons call calls ih =>
    obtain ⟨hreply, hagrees⟩ := h.call call
    obtain ⟨hreplies, hend⟩ := ih hagrees
    exact ⟨congrArg₂ List.cons hreply hreplies, hend⟩

theorem coherent_new (K : Nat → Prop) (db : DB) (blockCacheCapacity : Nat) (victims : Nat → Nat)
    (storedLen : List Entry → Nat) :
    Coherent (max (blockCacheCapacity / 4096) 1) K
      ⟨db, .new blockCacheCapacity victims storedLen⟩ := by
  refine ⟨fun n table hget => ?_, fun n offset block hget => ?_, ?_, ?_, rfl, ?_, ?_⟩
  · rw [Caches.new, Cache.get?_new] at hget
    cases hget
  · rw [Caches.new, Cache.get?_new] at hget
    cases hget
  · exact Nat.zero_le _
  · exact Nat.lt_of_lt_of_le Nat.one_pos (le_max_right _ _)
  · exact Nat.zero_le _
  · exact Nat.lt_of_lt_of_le Nat.one_pos (le_max_right _ _)

theorem Left.opened {env : Env} {options : Options} {path : String} {disk : Disk}
    (h : Left env options path disk) (hopen : DB.open env disk options = .ok db) :
    db.Sound ∧ db.Recorded := by
  rcases h with rfl | ⟨pieces, rfl⟩
  · obtain rfl := DB.eq_created hopen
    exact ⟨(DB.ok_created env options path).sound, (DB.durable_created env options path).toRecorded⟩
  · have hleft := DB.restorableIn_runPieces env options path pieces
    have hrun : Piece.reopen.run (runPieces pieces (DB.created env options path)) = .ok () db := by
      change DB.reopen _ = _
      rw [DB.reopen, hleft.env_eq, hleft.options_eq, hopen]
    have hopened := hleft.reopen
    rw [after_ok hrun] at hopened
    exact ⟨hopened.sound, hopened.recorded⟩

theorem agrees_open {env : Env} {options : Options} {path : String} {disk : Disk}
    (hleft : Left env options path disk) {blockCacheCapacity : Nat} {victims : Nat → Nat}
    {storedLen : List Entry → Nat}
    (hopen : CachedDB.open env disk options blockCacheCapacity victims storedLen = .ok s) :
    ∃ db, DB.open env disk options = .ok db ∧ Agrees (max (blockCacheCapacity / 4096) 1) db s := by
  cases hdb : DB.open env disk options with
  | error err =>
    rw [CachedDB.open, hdb] at hopen
    cases hopen
  | ok db =>
    obtain ⟨hs, hr⟩ := hleft.opened hdb
    obtain ⟨l0, levels, htables, hof⟩ := openVersionTables_ok hs.listed
    obtain ⟨hl0, hlevels⟩ := hof.unique hs.tables
    have hgives := gives_openVersionTables (m := max (blockCacheCapacity / 4096) 1)
      (present_live hs.live)
    rw [htables] at hgives
    obtain ⟨s', hs', hrun⟩ := hgives ⟨db, .new blockCacheCapacity victims storedLen⟩
      ⟨rfl, coherent_new _ _ _ _ _⟩
    refine ⟨db, rfl, ?_⟩
    rw [CachedDB.open, hdb] at hopen
    change (match openVersionTables db.versions.current
        ⟨db, .new blockCacheCapacity victims storedLen⟩ with
      | .error err _ => (.error err : Except Error CachedDB)
      | .ok (l0Tables, levelTables) s => .ok { s with db := { s.db with
          state := { s.db.state with l0Tables := l0Tables, levelTables := levelTables } } }) = _
      at hopen
    rw [hrun] at hopen
    have hsame : ({ s' with db := { s'.db with
        state := { s'.db.state with l0Tables := l0, levelTables := levels } } } : CachedDB) = s' := by
      rw [hs'.1, hl0, hlevels, ← hs'.1]
    have hs_eq : s = s' := (Except.ok.inj hopen).symm.trans hsame
    rw [hs_eq]
    exact ⟨hs', hs, hr⟩

end CachedDB

/-- A process with caches, whatever their capacity and whatever they drop, replies to every
call, and leaves the database, as one that reads every block from its file. The caches hold
what is in the files, and no more than they may. -/
theorem caches_are_transparent {env : Env} {options : Options} {path : String} {disk : Disk}
    (hleft : CachedDB.Left env options path disk) {blockCacheCapacity : Nat} {victims : Nat → Nat}
    {storedLen : List Entry → Nat} {s : CachedDB}
    (hopen : CachedDB.open env disk options blockCacheCapacity victims storedLen = .ok s)
    (calls : List CachedCall) :
    ∃ db, DB.open env disk options = .ok db ∧
      (replies CachedCall.cached calls s).1 = (replies CachedCall.plain calls db).1 ∧
      CachedDB.At (max (blockCacheCapacity / 4096) 1) (CachedDB.Below (replies CachedCall.plain calls db).2)
        (replies CachedCall.plain calls db).2 (replies CachedCall.cached calls s).2 ∧
      ∀ ref ∈ (replies CachedCall.plain calls db).2.state.l0Tables ++
          (replies CachedCall.plain calls db).2.state.levelTables.flatten,
        (replies CachedCall.plain calls db).2.disk.tables ref.1.number = some ref.2 ∧
        ∀ fillCache, Gives
          (CachedDB.At (max (blockCacheCapacity / 4096) 1)
            (CachedDB.Below (replies CachedCall.plain calls db).2)
            (replies CachedCall.plain calls db).2)
          (CachedDB.entriesWithCache ref fillCache) (.ok ref.2.entries) := by
  obtain ⟨db, hdb, hagrees⟩ := CachedDB.agrees_open hleft hopen
  obtain ⟨hreplies, hend⟩ := hagrees.replies calls
  refine ⟨db, hdb, hreplies, hend.at_, fun ref href => ?_⟩
  obtain ⟨hfile, hn⟩ := CachedDB.tablesHeld_sound hend.sound ref href
  exact ⟨hfile, fun fillCache => CachedDB.gives_entriesWithCache hfile hn fillCache⟩

theorem replies_plain_small :
    (replies CachedCall.plain [.write ⟨[.put [97] [1]]⟩ {}, .flush, .get [97] none true,
      .get [97] none true] (DB.created .inOrder {} "db")).1 =
      [.ok .done, .ok .done, .ok (.value (some [1])), .ok (.value (some [1]))] := by
  decide +kernel

theorem caches_are_transparent_small :
    ∃ s, CachedDB.open .inOrder (Disk.empty "db") {} 0 (fun n => n) List.length = .ok s ∧
      (replies CachedCall.cached [.write ⟨[.put [97] [1]]⟩ {}, .flush, .get [97] none true,
        .get [97] none true] s).1 =
        [.ok .done, .ok .done, .ok (.value (some [1])), .ok (.value (some [1]))] := by
  refine ⟨_, rfl, ?_⟩
  obtain ⟨db, hdb, hreplies, -⟩ := @caches_are_transparent .inOrder {} "db" (Disk.empty "db")
    (.inl rfl) 0 (fun n => n) List.length _ rfl [.write ⟨[.put [97] [1]]⟩ {}, .flush,
      .get [97] none true, .get [97] none true]
  rw [hreplies, DB.eq_created hdb]
  exact replies_plain_small

end TyLsm
