import TyLsm.Calls

/-! Snapshots. The watermark counts the live handles of every read sequence, and
a compaction keeps what any of them can see. -/

namespace TyLsm

/-- A client and the snapshot handles it has created. A slot without a read sequence
stands for a handle that was dropped. -/
structure Client where
  db : DB
  handles : List (Option Nat)

inductive ClientCall where
  | call (inner : Call)
  | snapshot
  | cloneSnapshot (slot : Nat)
  | dropSnapshot (slot : Nat)

namespace ClientCall

/-- Run a program of the database and store the handle it returns, if any. -/
def lift {α : Type} (program : DBM α) (handles : α → List (Option Nat)) (c : Client) :
    EStateM.Result Error Client Unit :=
  match program c.db with
  | .ok a db => .ok () ⟨db, handles a⟩
  | .error err db => .error err ⟨db, c.handles⟩

/-- A handle that was dropped cannot be used again, so calls on it do nothing. -/
def run : ClientCall → EStateM Error Client Unit
  | call inner => fun c => lift inner.run (fun _ => c.handles) c
  | snapshot => fun c => lift DB.snapshot (fun readSeq => c.handles ++ [some readSeq]) c
  | cloneSnapshot slot => fun c =>
    match c.handles[slot]? with
    | some (some readSeq) =>
      lift (DB.cloneSnapshot readSeq) (fun _ => c.handles ++ [some readSeq]) c
    | _ => .ok () c
  | dropSnapshot slot => fun c =>
    match c.handles[slot]? with
    | some (some readSeq) => lift (DB.dropSnapshot readSeq) (fun _ => c.handles.set slot none) c
    | _ => .ok () c

/-- Writes of any kind, flushes, compactions of everything, and calls on snapshots. -/
def Sequential : ClientCall → Prop
  | call (.compactRange lower upper) => lower = .unbounded ∧ upper = .unbounded
  | call .reopen => False
  | _ => True

end ClientCall

/-- The watermark counts the live handles. -/
def Watermark.Counts (w : Watermark) (handles : List (Option Nat)) : Prop :=
  ∀ n, (w.active.get? n).getD 0 = handles.count (some n) ∧ w.active.get? n ≠ some 0

namespace Watermark

variable {w : Watermark} {handles : List (Option Nat)}

theorem Counts.add (h : w.Counts handles) (s : Nat) : (w.add s).Counts (handles ++ [some s]) := by
  intro n
  obtain ⟨hcount, hzero⟩ := h n
  rw [Watermark.add, OrderedMap.get?_insert, List.count_append]
  by_cases hn : s = n
  · subst hn
    simp [hcount]
  · simp [hn, hcount, hzero]

theorem Counts.remove (h : w.Counts handles) {s slot : Nat} (hslot : handles[slot]? = some (some s)) :
    (w.remove s).Counts (handles.set slot none) := by
  obtain ⟨hlt, hget⟩ := List.getElem?_eq_some_iff.mp hslot
  have hset : ∀ n, (handles.set slot none).count (some n) =
      handles.count (some n) - if s = n then 1 else 0 := by
    intro n
    rw [List.count_set hlt, hget]
    simp
  obtain ⟨hcount, hzero⟩ := h s
  have hpos : 0 < handles.count (some s) :=
    List.count_pos_iff.mpr (hget ▸ List.getElem_mem hlt)
  cases hs : w.active.get? s with
  | none =>
    rw [hs] at hcount
    simp only [Option.getD_none] at hcount
    omega
  | some count =>
    rw [hs] at hcount
    simp only [Option.getD_some] at hcount
    intro n
    obtain ⟨hcount', hzero'⟩ := h n
    rw [hset]
    by_cases hn : s = n
    · subst hn
      by_cases hone : count - 1 = 0
      · have hrem : w.remove s = ⟨w.active.erase s⟩ := by simp [Watermark.remove, hs, hone]
        rw [hrem, OrderedMap.get?_erase]
        simp
        omega
      · have hrem : w.remove s = ⟨w.active.insert s (count - 1)⟩ := by
          simp [Watermark.remove, hs, hone]
        rw [hrem, OrderedMap.get?_insert]
        simp
        omega
    · by_cases hone : count - 1 = 0
      · have hrem : w.remove s = ⟨w.active.erase s⟩ := by simp [Watermark.remove, hs, hone]
        rw [hrem, OrderedMap.get?_erase]
        simp [hn, hcount', hzero']
      · have hrem : w.remove s = ⟨w.active.insert s (count - 1)⟩ := by
          simp [Watermark.remove, hs, hone]
        rw [hrem, OrderedMap.get?_insert]
        simp [hn, hcount', hzero']

theorem Counts.oldest_le (h : w.Counts handles) {s : Nat} (hs : some s ∈ handles) :
    ∃ oldest, w.oldest = some oldest ∧ oldest ≤ s := by
  have hpos : 0 < handles.count (some s) := List.count_pos_iff.mpr hs
  cases hget : w.active.get? s with
  | none =>
    have := (h s).1
    rw [hget] at this
    simp only [Option.getD_none] at this
    omega
  | some count =>
    have hmem := OrderedMap.get?_eq_some_iff.mp hget
    rw [Watermark.oldest]
    cases hentries : w.active.entries with
    | nil =>
      rw [hentries] at hmem
      cases hmem
    | cons e es =>
      refine ⟨e.1, rfl, ?_⟩
      have hsorted := w.active.sorted
      rw [hentries] at hmem hsorted
      rcases List.mem_cons.mp hmem with rfl | hmem
      · exact le_rfl
      · exact ((List.pairwise_cons.mp hsorted).1 _ hmem).le

theorem Counts.oldest_mem (h : w.Counts handles) {oldest : Nat} (ho : w.oldest = some oldest) :
    some oldest ∈ handles := by
  obtain ⟨e, he, rfl⟩ := Option.map_eq_some_iff.mp ho
  have hmem : (e.1, e.2) ∈ w.active.entries := List.mem_of_head? he
  have hget := OrderedMap.get?_eq_some_iff.mpr hmem
  obtain ⟨hcount, hzero⟩ := h e.1
  rw [hget] at hcount hzero
  simp only [Option.getD_some] at hcount
  refine List.count_pos_iff.mp (Nat.pos_of_ne_zero fun h0 => hzero ?_)
  rw [hcount, h0]

end Watermark

namespace DB

theorem Ok.withWatermark {db : DB} (h : db.Ok) (w : Watermark) :
    ({ db with watermark := w } : DB).Ok :=
  ⟨⟨h.isOpen, h.stored, h.tables⟩, h.stateOk, h.freshTables, h.freshWals⟩

theorem Recorded.withWatermark {db : DB} (h : db.Recorded) (w : Watermark) :
    ({ db with watermark := w } : DB).Recorded :=
  ⟨h.dirExists, h.current, h.manifest, h.wal, h.log, h.lastSequence⟩

end DB

namespace Client

/-- The invariant of a client with snapshots: compactions write one output at a time, and
the watermark counts its handles. -/
structure Serves (c : Client) : Prop where
  ok : c.db.Ok
  recorded : c.db.Recorded
  oneOutput : c.db.options.maxSubcompactions = 1
  counts : c.db.watermark.Counts c.handles
  bounded : ∀ s, some s ∈ c.handles → s ≤ c.db.state.lastSequence

variable {c c' : Client}

theorem Serves.splitsSafely (h : c.Serves) (lower upper : Bound) :
    c.db.SplitsSafely lower upper :=
  h.ok.splitsSafely (.inl h.oneOutput.le) lower upper

theorem Serves.gcWatermark_le (h : c.Serves) : c.db.gcWatermark ≤ c.db.state.lastSequence := by
  rw [DB.gcWatermark]
  cases ho : c.db.watermark.oldest with
  | none => exact le_rfl
  | some oldest => exact h.bounded oldest (h.counts.oldest_mem ho)

theorem Serves.gcWatermark_le_handle (h : c.Serves) {s : Nat} (hs : some s ∈ c.handles) :
    c.db.gcWatermark ≤ s := by
  obtain ⟨oldest, ho, hle⟩ := h.counts.oldest_le hs
  rw [DB.gcWatermark, ho]
  exact hle

/-- What a call may do to the reads and the handles of a client. -/
structure Stepped (c c' : Client) : Prop where
  serves : c'.Serves
  lastSequence : c.db.state.lastSequence ≤ c'.db.state.lastSequence
  handles : ∀ s, some s ∈ c'.handles → some s ∈ c.handles ∨ s = c.db.state.lastSequence
  older : ∀ k s, c.db.gcWatermark ≤ s → s ≤ c.db.state.lastSequence →
    visible k s c'.db.allEntries = visible k s c.db.allEntries

theorem Serves.advanced (h : c.Serves) {db' : DB} {records : List BatchRecord}
    (ha : DB.Advanced c.db db' records) : Stepped c ⟨db', c.handles⟩ := by
  have hle : c.db.state.lastSequence ≤ db'.state.lastSequence :=
    ha.lastSequence ▸ Nat.le_add_right _ _
  exact ⟨⟨ha.ok, ha.recorded, ha.options ▸ h.oneOutput, ha.watermark ▸ h.counts,
    fun s hs => (h.bounded s hs).trans hle⟩, hle, fun s hs => .inl hs, ha.older⟩

theorem Serves.withHandles (h : c.Serves) {w : Watermark} {handles : List (Option Nat)}
    (hcounts : w.Counts handles)
    (hhandles : ∀ s, some s ∈ handles → some s ∈ c.handles ∨ s = c.db.state.lastSequence) :
    Stepped c ⟨{ c.db with watermark := w }, handles⟩ := by
  refine ⟨⟨h.ok.withWatermark w, h.recorded.withWatermark w, h.oneOutput, hcounts, ?_⟩, le_rfl,
    hhandles, fun _ _ _ _ => rfl⟩
  intro s hs
  rcases hhandles s hs with hs | rfl
  · exact h.bounded s hs
  · exact le_rfl

theorem Serves.inner (h : c.Serves) {inner : Call} (hcall : (ClientCall.call inner).Sequential) :
    ∃ db' records, inner.run c.db = .ok () db' ∧ DB.Advanced c.db db' records := by
  cases inner with
  | put key value =>
    obtain ⟨db', hrun, ha⟩ := h.ok.write h.recorded (h.splitsSafely _ _) h.gcWatermark_le
      ⟨[.put key value]⟩ {}
    exact ⟨db', _, hrun, ha⟩
  | delete key =>
    obtain ⟨db', hrun, ha⟩ := h.ok.write h.recorded (h.splitsSafely _ _) h.gcWatermark_le
      ⟨[.delete key]⟩ {}
    exact ⟨db', _, hrun, ha⟩
  | write batch opts =>
    obtain ⟨db', hrun, ha⟩ := h.ok.write h.recorded (h.splitsSafely _ _) h.gcWatermark_le batch opts
    exact ⟨db', _, hrun, ha⟩
  | flush =>
    obtain ⟨db', hrun, hf⟩ := h.ok.flush_recorded h.recorded
    exact ⟨db', _, hrun, hf.advanced⟩
  | compactRange lower upper =>
    obtain ⟨rfl, rfl⟩ := hcall
    obtain ⟨db', hrun, hok, hc, hvis⟩ := h.ok.compactRange c.db.keepsOrder_unbounded
      (h.splitsSafely _ _)
    exact ⟨db', _, hrun, hc.advanced hok h.recorded h.gcWatermark_le
      (hvis c.db.leavesNoOlder_unbounded)⟩
  | reopen => exact absurd hcall id

theorem run_handles {call : ClientCall} (hcall : ∀ inner, call ≠ .call inner) (c : Client) :
    ∃ w handles, call.run c = .ok () ⟨{ c.db with watermark := w }, handles⟩ ∧
      (c.db.watermark.Counts c.handles → w.Counts handles) ∧
      ∀ s, some s ∈ handles → some s ∈ c.handles ∨ s = c.db.state.lastSequence := by
  cases call with
  | call inner => exact absurd rfl (hcall inner)
  | snapshot =>
    refine ⟨_, _, rfl, fun h => h.add c.db.state.lastSequence, fun s hs => ?_⟩
    rcases List.mem_append.mp hs with hs | hs
    · exact .inl hs
    · exact .inr (by simpa using hs)
  | cloneSnapshot slot =>
    have hsame : ∀ r, c.handles[slot]? = r → (∀ s, r ≠ some (some s)) →
        (ClientCall.cloneSnapshot slot).run c = .ok () c := by
      rintro (_ | _ | s) hr hno
      · simp only [ClientCall.run, hr]
      · simp only [ClientCall.run, hr]
      · exact absurd rfl (hno s)
    by_cases hslot : ∃ s, c.handles[slot]? = some (some s)
    · obtain ⟨s, hslot⟩ := hslot
      refine ⟨c.db.watermark.add s, c.handles ++ [some s], ?_, fun h => h.add s, fun s' hs' => ?_⟩
      · simp only [ClientCall.run, hslot]
        rfl
      · rcases List.mem_append.mp hs' with hs' | hs'
        · exact .inl hs'
        · rw [List.mem_singleton.mp hs']
          exact .inl (List.mem_of_getElem? hslot)
    · exact ⟨_, _, hsame _ rfl (fun s hs => hslot ⟨s, hs⟩), fun h => h, fun _ hs => .inl hs⟩
  | dropSnapshot slot =>
    have hsame : ∀ r, c.handles[slot]? = r → (∀ s, r ≠ some (some s)) →
        (ClientCall.dropSnapshot slot).run c = .ok () c := by
      rintro (_ | _ | s) hr hno
      · simp only [ClientCall.run, hr]
      · simp only [ClientCall.run, hr]
      · exact absurd rfl (hno s)
    by_cases hslot : ∃ s, c.handles[slot]? = some (some s)
    · obtain ⟨s, hslot⟩ := hslot
      refine ⟨c.db.watermark.remove s, c.handles.set slot none, ?_, fun h => h.remove hslot,
        fun s' hs' => ?_⟩
      · simp only [ClientCall.run, hslot]
        rfl
      · rcases List.mem_or_eq_of_mem_set hs' with hs' | hs'
        · exact .inl hs'
        · cases hs'
    · exact ⟨_, _, hsame _ rfl (fun s hs => hslot ⟨s, hs⟩), fun h => h, fun _ hs => .inl hs⟩

theorem Serves.step (h : c.Serves) {call : ClientCall} (hcall : call.Sequential) :
    ∃ c', call.run c = .ok () c' ∧ Stepped c c' := by
  by_cases hinner : ∃ inner, call = .call inner
  · obtain ⟨inner, rfl⟩ := hinner
    obtain ⟨db', records, hrun, ha⟩ := h.inner hcall
    exact ⟨⟨db', c.handles⟩, by simp only [ClientCall.run, ClientCall.lift, hrun], h.advanced ha⟩
  · obtain ⟨w, handles, hrun, hcounts, hhandles⟩ :=
      run_handles (fun inner he => hinner ⟨inner, he⟩) c
    exact ⟨_, hrun, h.withHandles (hcounts h.counts) hhandles⟩

/-- The view of a read sequence stays the same until its last handle is dropped; after that
no handle with this read sequence can appear unless nothing was written in between. -/
def Views (base : Client) (s : Nat) (c : Client) : Prop :=
  c.Serves ∧ s ≤ c.db.state.lastSequence ∧
    (some s ∈ c.handles ∨ s = c.db.state.lastSequence →
      ∀ k, visible k s c.db.allEntries = visible k s base.db.allEntries)

theorem Views.step {base : Client} {s : Nat} (call : ClientCall) (_ : Unit) (c : Client)
    (h : Views base s c) (hcall : call.Sequential) :
    ∃ c', call.run c = .ok () c' ∧ Views base s c' := by
  obtain ⟨hserves, hle, hview⟩ := h
  obtain ⟨c', hrun, hst⟩ := hserves.step hcall
  refine ⟨c', hrun, hst.serves, hle.trans hst.lastSequence, fun hlive k => ?_⟩
  have hbefore : some s ∈ c.handles ∨ s = c.db.state.lastSequence := by
    rcases hlive with hs | hs
    · exact hst.handles s hs
    · exact .inr (le_antisymm hle (hs ▸ hst.lastSequence))
  have hgc : c.db.gcWatermark ≤ s := by
    rcases hbefore with hs | hs
    · exact hserves.gcWatermark_le_handle hs
    · exact hs ▸ hserves.gcWatermark_le
  rw [hst.older k s hgc hle]
  exact hview hbefore k

theorem serves_created (env : Env) {options : Options} (path : String)
    (hsub : options.maxSubcompactions = 1) : Serves ⟨DB.created env options path, []⟩ := by
  refine ⟨DB.ok_created env options path, (DB.durable_created env options path).toRecorded, hsub,
    fun n => ?_, fun s hs => absurd hs List.not_mem_nil⟩
  exact ⟨rfl, by simp [DB.created, Watermark.new, OrderedMap.get?]⟩

end Client

/-- From any point of a run on, every call succeeds, and as long as a handle for a read
sequence that was live at that point is still live, reads through it return what they
returned there. -/
theorem snapshot_reads_stable (env : Env) {options : Options} (path : String) {db₀ : DB}
    (hopen : DB.open env (Disk.empty path) options = .ok db₀)
    (hsub : options.maxSubcompactions = 1) (earlier later : List ClientCall)
    (hearlier : ∀ call ∈ earlier, call.Sequential) (hlater : ∀ call ∈ later, call.Sequential) :
    ∃ c, runAll ClientCall.run earlier ⟨db₀, []⟩ = .ok () c ∧
      ∃ c', runAll ClientCall.run later c = .ok () c' ∧
        ∀ s, some s ∈ c.handles → some s ∈ c'.handles →
          (∀ k, c'.db.getOpt k (some s) = c.db.getOpt k (some s)) ∧
          ∀ lower upper, c'.db.scanOpt lower upper (some s) =
            c.db.scanOpt lower upper (some s) := by
  obtain rfl := DB.eq_created hopen
  have hstep : ∀ (call : ClientCall) (_ : Unit) (c : Client), c.Serves → call.Sequential →
      ∃ c', call.run c = .ok () c' ∧ c'.Serves := fun call _ c h hcall =>
    (h.step hcall).imp fun c' hc' => ⟨hc'.1, hc'.2.serves⟩
  obtain ⟨c, hrun, hserves⟩ := runAll_invariant (n := fun _ u => u)
    (C := fun call _ => ClientCall.Sequential call) (I := fun _ c => Client.Serves c) hstep (g := ())
    (Client.serves_created env path hsub) (along_of_forall (fun call hc _ => hearlier call hc) _)
  obtain ⟨c', hrun', hserves'⟩ := runAll_invariant (n := fun _ u => u)
    (C := fun call _ => ClientCall.Sequential call) (I := fun _ c => Client.Serves c) hstep (g := ())
    hserves (along_of_forall (fun call hc _ => hlater call hc) _)
  refine ⟨c, hrun, c', hrun', fun s hs hs' => ?_⟩
  obtain ⟨c'', hrun'', hview⟩ := runAll_invariant (n := fun _ u => u)
    (C := fun call _ => ClientCall.Sequential call) (I := fun _ c' => Client.Views c s c') Client.Views.step
    (g := ())
    ⟨hserves, hserves.bounded s hs, fun _ _ => rfl⟩
    (along_of_forall (fun call hc _ => hlater call hc) _)
  obtain rfl : c' = c'' := by
    have := hrun'.symm.trans hrun''
    injection this
  exact hserves.ok.toReadable.reads_congr hserves'.ok.toReadable hserves.ok.stateOk.newestFirst
    hserves'.ok.stateOk.newestFirst (hview.2.2 (.inl hs'))

theorem snapshot_reads_stable_small : ∃ c, runAll ClientCall.run
      [.call (.put [97] [1]), .snapshot] ⟨DB.created .inOrder { memtableSize := 1 } "db", []⟩ =
        .ok () c ∧
      ∃ c', runAll ClientCall.run [.cloneSnapshot 0, .call (.delete [97]), .dropSnapshot 0,
        .call (.compactRange .unbounded .unbounded)] c = .ok () c' ∧
      some 1 ∈ c.handles ∧ some 1 ∈ c'.handles ∧
      c'.db.getOpt [97] (some 1) = c.db.getOpt [97] (some 1) := by
  obtain ⟨c, hrun, c', hrun', hstable⟩ := snapshot_reads_stable .inOrder
    "db" (DB.open_empty .inOrder { memtableSize := 1 } "db") rfl
    [.call (.put [97] [1]), .snapshot] [.cloneSnapshot 0, .call (.delete [97]), .dropSnapshot 0,
      .call (.compactRange .unbounded .unbounded)] (by simp [ClientCall.Sequential])
    (by simp [ClientCall.Sequential])
  have hlive : (match runAll ClientCall.run [.call (.put [97] [1]), .snapshot]
      ⟨DB.created .inOrder { memtableSize := 1 } "db", []⟩ with
    | .ok _ c => match runAll ClientCall.run [.cloneSnapshot 0, .call (.delete [97]),
        .dropSnapshot 0, .call (.compactRange .unbounded .unbounded)] c with
      | .ok _ c' => decide (some 1 ∈ c.handles ∧ some 1 ∈ c'.handles)
      | .error _ _ => false
    | .error _ _ => false) = true := by
    decide +kernel
  rw [hrun] at hlive
  dsimp only at hlive
  rw [hrun'] at hlive
  obtain ⟨hs, hs'⟩ := of_decide_eq_true hlive
  exact ⟨c, hrun, c', hrun', hs, hs', (hstable 1 hs hs').1 [97]⟩

end TyLsm
