import TyLsm.Calls

/-! The queue of concurrent writers. A writer that finds the queue empty leads: it takes the
whole queue, applies it as one group and hands every request its result. -/

namespace TyLsm

structure PendingWrite where
  batch : Option WriteBatch
  opts : WriteOptions
  result : Option (Except Error Unit)

namespace PendingWrite

def new (batch : WriteBatch) (opts : WriteOptions) : PendingWrite := ⟨some batch, opts, none⟩

/-- There is no batch where the code would panic. -/
def takeBatch (p : PendingWrite) : Option (WriteBatch × PendingWrite) :=
  p.batch.map fun batch => (batch, { p with batch := none })

def complete (p : PendingWrite) (result : Except Error Unit) : PendingWrite :=
  { p with result := some result }

/-- There is no result as long as the writer has to wait. -/
def wait (p : PendingWrite) : Option (Except Error Unit × PendingWrite) :=
  p.result.map fun result => (result, { p with result := none })

end PendingWrite

/-- What applying a group calls. Each may fail in any way. -/
structure GroupStore (σ : Type) where
  applyWritePressure : EStateM Error σ Unit
  applyWriteGroupToMemtable : List DB.Request → EStateM Error σ Bool
  flush : EStateM Error σ Unit

/-- One error for every request of the group. -/
def repeatGroupErrors (err : Error) (count : Nat) : List (Except Error Unit) :=
  List.replicate count (.error (DB.repeatGroupError err))

variable {σ : Type}

/-- The results for the requests of a group, in their order. -/
def GroupStore.applyWriteGroup (calls : GroupStore σ) (requests : List DB.Request) (store : σ) :
    List (Except Error Unit) × σ :=
  match calls.applyWritePressure store with
  | .error err store => (repeatGroupErrors err requests.length, store)
  | .ok _ store =>
    match calls.applyWriteGroupToMemtable requests store with
    | .error err store => (repeatGroupErrors err requests.length, store)
    | .ok shouldFlush store =>
      if shouldFlush then
        match calls.flush store with
        | .error err store => (repeatGroupErrors err requests.length, store)
        | .ok _ store => (List.replicate requests.length (.ok ()), store)
      else (List.replicate requests.length (.ok ()), store)

theorem GroupStore.length_applyWriteGroup (calls : GroupStore σ) (requests : List DB.Request)
    (store : σ) : (calls.applyWriteGroup requests store).1.length = requests.length := by
  unfold GroupStore.applyWriteGroup
  repeat' split
  all_goals simp only [repeatGroupErrors, List.length_replicate]

/-- The calls of the database, of which `sync` may make one fail. -/
def dbStore (sync : Except Error Unit) : GroupStore DB :=
  ⟨DB.applyWritePressure, DB.applyWriteGroupToMemtable sync, DB.flush⟩

theorem dbStore_applyWriteGroup (sync : Except Error Unit) (requests : List DB.Request) (db : DB) :
    (dbStore sync).applyWriteGroup requests db =
      match DB.applyWriteGroup sync requests db with
      | .ok _ db' => (List.replicate requests.length (.ok ()), db')
      | .error err db' => (List.replicate requests.length (.error err), db') := by
  change _ = match EStateM.tryCatch (EStateM.bind DB.applyWritePressure fun _ => EStateM.bind
      (DB.applyWriteGroupToMemtable sync requests) fun shouldFlush =>
        if shouldFlush then DB.flush else EStateM.pure ()) _ db with
    | .ok _ db' => _
    | .error err db' => _
  simp only [GroupStore.applyWriteGroup, dbStore, EStateM.tryCatch, EStateM.bind]
  cases DB.applyWritePressure db with
  | error err db₁ => rfl
  | ok u db₁ =>
    simp only
    cases DB.applyWriteGroupToMemtable sync requests db₁ with
    | error err db₂ => rfl
    | ok shouldFlush db₂ =>
      cases shouldFlush with
      | false => rfl
      | true =>
        simp only [if_true]
        cases DB.flush db₂ <;> rfl

/-- How far a call of `write` has come. -/
inductive Phase where
  /-- The queue was empty when the request arrived. -/
  | leading
  | drained (group : List Nat)
  /-- The results that the leader has not handed out yet. -/
  | completing (results : List (Nat × Except Error Unit))
  | waiting
  | returned (result : Except Error Unit)

/-- The requests are numbered as they arrive. The last four fields only record what
happened. -/
structure GroupQueue (σ : Type) where
  store : σ
  count : Nat
  pending : Nat → PendingWrite
  phases : Nat → Option Phase
  writeGroup : List Nat
  groups : List (Nat × List Nat)
  taken : List Nat
  completed : List (Nat × Except Error Unit)
  panicked : Bool

inductive GroupAction (σ : Type) where
  | enqueue (batch : WriteBatch) (opts : WriteOptions)
  | drain (writer : Nat)
  | apply (writer : Nat)
  | complete (writer : Nat)
  | wait (writer : Nat)
  /-- Anything else that happens to the store. -/
  | other (f : σ → σ)

namespace GroupQueue

def new (store : σ) : GroupQueue σ where
  store := store
  count := 0
  pending _ := ⟨none, {}, none⟩
  phases _ := none
  writeGroup := []
  groups := []
  taken := []
  completed := []
  panicked := false

def takeBatches : List Nat → (Nat → PendingWrite) →
    Option (List DB.Request × (Nat → PendingWrite))
  | [], pending => some ([], pending)
  | r :: rs, pending =>
    match (pending r).takeBatch with
    | none => none
    | some (batch, p) =>
      match takeBatches rs (Function.update pending r p) with
      | none => none
      | some (requests, pending) => some (⟨batch, p.opts⟩ :: requests, pending)

/-- There is no next state when the writer is not at that point, or has to wait. -/
def step (calls : GroupStore σ) (q : GroupQueue σ) : GroupAction σ → Option (GroupQueue σ)
  | .enqueue batch opts =>
    if batch.isEmpty then some q
    else
      let isLeader := q.writeGroup.isEmpty
      some { q with
        count := q.count + 1
        pending := Function.update q.pending q.count (.new batch opts)
        phases := Function.update q.phases q.count
          (some (if isLeader then .leading else .waiting))
        writeGroup := q.writeGroup ++ [q.count] }
  | .drain writer =>
    match q.phases writer with
    | some .leading => some { q with
        phases := Function.update q.phases writer (some (.drained q.writeGroup))
        writeGroup := []
        groups := q.groups ++ [(writer, q.writeGroup)] }
    | _ => none
  | .apply writer =>
    match q.phases writer with
    | some (.drained group) =>
      match takeBatches group q.pending with
      | none => some { q with panicked := true }
      | some (requests, pending) =>
        let (results, store) := calls.applyWriteGroup requests q.store
        some { q with
          store := store
          pending := pending
          phases := Function.update q.phases writer (some (.completing (group.zip results)))
          taken := q.taken ++ group }
    | _ => none
  | .complete writer =>
    match q.phases writer with
    | some (.completing ((request, result) :: results)) => some { q with
        pending := Function.update q.pending request ((q.pending request).complete result)
        phases := Function.update q.phases writer (some (.completing results))
        completed := q.completed ++ [(request, result)] }
    | _ => none
  | .wait writer =>
    match q.phases writer with
    | some .waiting | some (.completing []) =>
      match (q.pending writer).wait with
      | none => none
      | some (result, p) => some { q with
          pending := Function.update q.pending writer p
          phases := Function.update q.phases writer (some (.returned result)) }
    | _ => none
  | .other f => some { q with store := f q.store }

/-- The states that any interleaving of writers and other activity can reach. -/
inductive Reachable (calls : GroupStore σ) : GroupQueue σ → Prop where
  | start (store : σ) : Reachable calls (.new store)
  | next {q q' : GroupQueue σ} {action : GroupAction σ} : Reachable calls q →
    q.step calls action = some q' → Reachable calls q'

/-- What happened to a request: how often its batch was taken and its result set. -/
structure Counted (q : GroupQueue σ) (r taken completed : Nat) : Prop where
  takes : q.taken.count r = taken
  completions : (q.completed.map Prod.fst).count r = completed
  batch : taken = 0 → (q.pending r).batch.isSome = true
  pending : completed = 0 → (q.pending r).result = none ∧
    ∀ result, q.phases r ≠ some (.returned result)
  result : completed ≠ 0 → ∃ result, (r, result) ∈ q.completed ∧
    ((q.pending r).result = some result ∧ (∀ result, q.phases r ≠ some (.returned result)) ∨
      q.phases r = some (.returned result))

/-- The requests of a drained group share the fate of its leader. -/
inductive Drained (q : GroupQueue σ) (leader : Nat) (group : List Nat) : Prop where
  | before (phase : q.phases leader = some (.drained group))
    (counts : ∀ r ∈ group, q.Counted r 0 0)
  | during (answered : List Nat) (rest : List (Nat × Except Error Unit))
    (phase : q.phases leader = some (.completing rest))
    (split : group = answered ++ rest.map Prod.fst)
    (counts : ∀ r ∈ answered, q.Counted r 1 1) (remaining : ∀ r ∈ rest.map Prod.fst, q.Counted r 1 0)
  | after (result : Except Error Unit) (phase : q.phases leader = some (.returned result))
    (counts : ∀ r ∈ group, q.Counted r 1 1)

structure Consistent (q : GroupQueue σ) : Prop where
  order : q.groups.flatMap Prod.snd ++ q.writeGroup = List.range q.count
  leading : ∀ i, q.phases i = some .leading ↔ q.writeGroup.head? = some i
  own : ∀ g ∈ q.groups, g.2.head? = some g.1
  arrived : ∀ i, q.phases i = none ↔ q.count ≤ i
  draining : ∀ i group, q.phases i = some (.drained group) → (i, group) ∈ q.groups
  completing : ∀ i rest, q.phases i = some (.completing rest) → ∃ group, (i, group) ∈ q.groups
  later : ∀ r, q.count ≤ r → r ∉ q.taken ∧ r ∉ q.completed.map Prod.fst
  queued : ∀ r ∈ q.writeGroup, q.Counted r 0 0
  drained : ∀ g ∈ q.groups, q.Drained g.1 g.2
  calm : q.panicked = false

variable {calls : GroupStore σ} {q q' : GroupQueue σ}

theorem Counted.frame {r taken completed : Nat} (h : q.Counted r taken completed)
    (htaken : q'.taken.count r = q.taken.count r)
    (hcompleted : (q'.completed.map Prod.fst).count r = (q.completed.map Prod.fst).count r)
    (hsub : q.completed ⊆ q'.completed) (hpending : q'.pending r = q.pending r)
    (hphase : ∀ result, q'.phases r = some (.returned result) ↔
      q.phases r = some (.returned result)) : q'.Counted r taken completed := by
  refine ⟨htaken.trans h.takes, hcompleted.trans h.completions, ?_, ?_, ?_⟩
  · rw [hpending]
    exact h.batch
  · intro hc
    rw [hpending]
    exact ⟨(h.pending hc).1, fun result hr => (h.pending hc).2 result ((hphase result).mp hr)⟩
  · intro hc
    obtain ⟨result, hmem, hr⟩ := h.result hc
    rw [hpending]
    refine ⟨result, hsub hmem, hr.imp ?_ (hphase result).mpr⟩
    exact fun hopen => ⟨hopen.1, fun result he => hopen.2 result ((hphase result).mp he)⟩

theorem Counted.move {r taken completed writer : Nat} {phase : Phase}
    (h : q.Counted r taken completed) (hpending : q'.pending = q.pending)
    (htaken : q'.taken = q.taken) (hcompleted : q'.completed = q.completed)
    (hphases : q'.phases = Function.update q.phases writer (some phase))
    (hbefore : ∀ result, q.phases writer ≠ some (.returned result))
    (hafter : ∀ result, phase ≠ .returned result) : q'.Counted r taken completed := by
  refine h.frame (by rw [htaken]) (by rw [hcompleted]) (by rw [hcompleted]; exact List.Subset.refl _)
    (by rw [hpending]) fun result => ?_
  rw [hphases]
  by_cases hr : r = writer
  · subst hr
    rw [Function.update_self]
    exact iff_of_false (fun he => hafter result (Option.some.inj he)) (hbefore result)
  · rw [Function.update_of_ne hr]

theorem Consistent.nodup (h : q.Consistent) :
    (q.groups.flatMap Prod.snd ++ q.writeGroup).Nodup := by
  rw [h.order]
  exact List.nodup_range

theorem Consistent.group_nodup (h : q.Consistent) {g : Nat × List Nat} (hg : g ∈ q.groups) :
    g.2.Nodup :=
  (List.nodup_flatMap.mp (List.nodup_append.mp h.nodup).1).1 g hg

theorem Consistent.group_lt (h : q.Consistent) {g : Nat × List Nat} (hg : g ∈ q.groups) {r : Nat}
    (hr : r ∈ g.2) : r < q.count := by
  rw [← List.mem_range, ← h.order]
  exact List.mem_append_left _ (List.mem_flatMap.mpr ⟨g, hg, hr⟩)

theorem Consistent.group_unique (h : q.Consistent) {g g' : Nat × List Nat} (hg : g ∈ q.groups)
    (hg' : g' ∈ q.groups) {r : Nat} (hr : r ∈ g.2) (hr' : r ∈ g'.2) : g = g' := by
  by_contra hne
  have hs : Std.Symm (Function.onFun List.Disjoint (Prod.snd : Nat × List Nat → List Nat)) :=
    ⟨fun _ _ hab => hab.symm⟩
  exact (List.nodup_flatMap.mp (List.nodup_append.mp h.nodup).1).2.forall hg hg' hne hr hr'

theorem Consistent.leader_mem (h : q.Consistent) {g : Nat × List Nat} (hg : g ∈ q.groups) :
    g.1 ∈ g.2 :=
  List.mem_of_head? (h.own g hg)

theorem consistent_new (store : σ) : (new store).Consistent where
  order := rfl
  leading i := by simp [new]
  own g hg := absurd hg List.not_mem_nil
  arrived i := by simp [new]
  draining i group hp := by simp [new] at hp
  completing i rest hp := by simp [new] at hp
  later r _ := ⟨List.not_mem_nil, List.not_mem_nil⟩
  queued r hr := absurd hr List.not_mem_nil
  drained g hg := absurd hg List.not_mem_nil
  calm := rfl

/-- A group stays where it is as long as its leader does not move and its requests keep
what happened to them. -/
theorem Drained.frame {leader : Nat} {group : List Nat} (h : q.Drained leader group)
    (hphase : q'.phases leader = q.phases leader)
    (hcounts : ∀ r ∈ group, ∀ t c, q.Counted r t c → q'.Counted r t c) :
    q'.Drained leader group := by
  rcases h with ⟨phase, counts⟩ | ⟨answered, rest, phase, split, counts, remaining⟩ |
    ⟨result, phase, counts⟩
  · exact .before (hphase.trans phase) fun r hr => hcounts r hr _ _ (counts r hr)
  · refine .during answered rest (hphase.trans phase) split (fun r hr => ?_) (fun r hr => ?_)
    · exact hcounts r (by rw [split]; exact List.mem_append_left _ hr) _ _ (counts r hr)
    · exact hcounts r (by rw [split]; exact List.mem_append_right _ hr) _ _ (remaining r hr)
  · exact .after result (hphase.trans phase) fun r hr => hcounts r hr _ _ (counts r hr)

theorem Consistent.enqueue (h : q.Consistent) {batch : WriteBatch} {opts : WriteOptions}
    (hstep : q.step calls (.enqueue batch opts) = some q') : q'.Consistent := by
  simp only [step] at hstep
  split at hstep
  · obtain rfl := Option.some.inj hstep
    exact h
  · obtain rfl := Option.some.inj hstep
    obtain ⟨htaken, hcompleted⟩ := h.later q.count le_rfl
    have hnone : q.phases q.count = none := (h.arrived _).mpr le_rfl
    have hgroup_ne : ∀ g ∈ q.groups, ∀ r ∈ g.2, r ≠ q.count :=
      fun g hg r hr => (h.group_lt hg hr).ne
    have hqueued_ne : ∀ r ∈ q.writeGroup, r ≠ q.count := by
      intro r hr
      have : r ∈ List.range q.count := h.order ▸ List.mem_append_right _ hr
      exact (List.mem_range.mp this).ne
    have hkeep : ∀ r, r ≠ q.count → ∀ t c, q.Counted r t c → Counted
        { q with
          count := q.count + 1
          pending := Function.update q.pending q.count (.new batch opts)
          phases := Function.update q.phases q.count
            (some (if q.writeGroup.isEmpty then .leading else .waiting))
          writeGroup := q.writeGroup ++ [q.count] } r t c := by
      intro r hr t c hcounted
      exact hcounted.frame rfl rfl (List.Subset.refl _) (Function.update_of_ne hr _ _)
        fun result => by simp only [Function.update_of_ne hr]
    have hphase_ne : ∀ (i : Nat) (phase : Phase), q.phases i = some phase → i ≠ q.count := by
      rintro i phase hp rfl
      rw [hnone] at hp
      cases hp
    have hphase_new : ∀ phase : Phase, phase ≠ .leading → phase ≠ .waiting →
        some (if q.writeGroup.isEmpty then Phase.leading else .waiting) ≠ some phase := by
      intro phase hl hw he
      split at he
      · exact hl (Option.some.inj he).symm
      · exact hw (Option.some.inj he).symm
    refine ⟨?_, fun i => ?_, h.own, fun i => ?_, fun i group hp => ?_, fun i rest hp => ?_,
      fun r hr => h.later r (Nat.le_of_succ_le hr), fun r hr => ?_, fun g hg => ?_, h.calm⟩
    · rw [List.range_succ, ← h.order, List.append_assoc]
    · simp only [Function.update_apply]
      cases hw : q.writeGroup with
      | nil =>
        have hno : ¬ q.phases i = some .leading := fun hl => by simp [h.leading, hw] at hl
        by_cases hi : i = q.count
        · simp [hi]
        · simp [hi, hno, Ne.symm hi]
      | cons head rest =>
        have hl := h.leading i
        rw [hw] at hl
        by_cases hi : i = q.count
        · have hne : head ≠ q.count := hqueued_ne head (by simp [hw])
          simp [hi, hne]
        · simpa [hi] using hl
    · simp only [Function.update_apply]
      by_cases hi : i = q.count
      · simp [hi]
      · simp only [hi, if_false, h.arrived]
        omega
    · simp only [Function.update_apply] at hp
      split at hp
      · exact absurd hp (hphase_new _ nofun nofun)
      · exact h.draining i group hp
    · simp only [Function.update_apply] at hp
      split at hp
      · exact absurd hp (hphase_new _ nofun nofun)
      · exact h.completing i rest hp
    · rcases List.mem_append.mp hr with hr | hr
      · exact hkeep r (hqueued_ne r hr) _ _ (h.queued r hr)
      · obtain rfl := List.mem_singleton.mp hr
        refine ⟨List.count_eq_zero.mpr htaken, List.count_eq_zero.mpr hcompleted, ?_, ?_,
          fun hc => absurd rfl hc⟩
        · intro _
          simp [PendingWrite.new]
        · intro _
          refine ⟨by simp [PendingWrite.new], fun result => ?_⟩
          simp only [Function.update_self]
          exact hphase_new _ nofun nofun
    · refine (h.drained g hg).frame ?_ fun r hr => hkeep r (hgroup_ne g hg r hr)
      exact Function.update_of_ne (hgroup_ne g hg _ (h.leader_mem hg)) _ _

theorem Consistent.drain (h : q.Consistent) {writer : Nat}
    (hstep : q.step calls (.drain writer) = some q') : q'.Consistent := by
  simp only [step] at hstep
  split at hstep
  swap
  · cases hstep
  rename_i hlead
  obtain rfl := Option.some.inj hstep
  have hhead : q.writeGroup.head? = some writer := (h.leading writer).mp hlead
  have hqueued : writer ∈ q.writeGroup := List.mem_of_head? hhead
  have hkeep : ∀ r t c, q.Counted r t c → Counted
      { q with
        phases := Function.update q.phases writer (some (.drained q.writeGroup))
        writeGroup := []
        groups := q.groups ++ [(writer, q.writeGroup)] } r t c :=
    fun r t c hcounted => hcounted.move rfl rfl rfl rfl (by simp [hlead]) (by simp)
  have hne : ∀ g ∈ q.groups, g.1 ≠ writer := by
    rintro g hg rfl
    exact (List.nodup_append.mp h.nodup).2.2 g.1
      (List.mem_flatMap.mpr ⟨g, hg, h.leader_mem hg⟩) g.1 hqueued rfl
  refine ⟨?_, fun i => ?_, fun g hg => ?_, fun i => ?_, fun i group hp => ?_, fun i rest hp => ?_,
    h.later, fun r hr => absurd hr List.not_mem_nil, fun g hg => ?_, h.calm⟩
  · simpa using h.order
  · simp only [Function.update_apply]
    split
    · simp
    · rename_i hi
      simp only [h.leading, hhead, List.head?_nil, reduceCtorEq, iff_false, Option.some.injEq]
      exact fun he => hi he.symm
  · rcases List.mem_append.mp hg with hg | hg
    · exact h.own g hg
    · obtain rfl := List.mem_singleton.mp hg
      exact hhead
  · rw [← h.arrived]
    simp only [Function.update_apply]
    split
    · rename_i hi
      simp [hi, hlead]
    · rfl
  · simp only [Function.update_apply] at hp
    split at hp
    · rename_i hi
      obtain rfl : q.writeGroup = group := by simpa using hp
      simp [hi]
    · exact List.mem_append_left _ (h.draining i group hp)
  · simp only [Function.update_apply] at hp
    split at hp
    · cases hp
    · obtain ⟨group, hg⟩ := h.completing i rest hp
      exact ⟨group, List.mem_append_left _ hg⟩
  · rcases List.mem_append.mp hg with hg | hg
    · exact (h.drained g hg).frame (Function.update_of_ne (hne g hg) _ _)
        fun r _ => hkeep r
    · obtain rfl := List.mem_singleton.mp hg
      exact .before (Function.update_self ..) fun r hr => hkeep r _ _ (h.queued r hr)

theorem takeBatches_some {group : List Nat} {pending : Nat → PendingWrite} (hnodup : group.Nodup)
    (hbatch : ∀ r ∈ group, (pending r).batch.isSome = true) :
    ∃ requests pending', takeBatches group pending = some (requests, pending') ∧
      requests.length = group.length ∧
      ∀ r, pending' r = if r ∈ group then { pending r with batch := none } else pending r := by
  induction group generalizing pending with
  | nil => exact ⟨[], pending, rfl, rfl, fun r => by simp⟩
  | cons r rs ih =>
    obtain ⟨hr, hrs⟩ := List.nodup_cons.mp hnodup
    obtain ⟨batch, hb⟩ := Option.isSome_iff_exists.mp (hbatch r (by simp))
    have htake : (pending r).takeBatch = some (batch, { pending r with batch := none }) := by
      simp [PendingWrite.takeBatch, hb]
    have hrest : ∀ r' ∈ rs, (Function.update pending r { pending r with batch := none } r').batch.isSome
        = true := by
      intro r' hr'
      rw [Function.update_of_ne (by rintro rfl; exact hr hr')]
      exact hbatch r' (by simp [hr'])
    obtain ⟨requests, pending', htail, hlength, hpending⟩ := ih hrs hrest
    refine ⟨⟨batch, (pending r).opts⟩ :: requests, pending', ?_, by simp [hlength], fun r' => ?_⟩
    · simp only [takeBatches, htake, htail]
    · rw [hpending, Function.update_apply]
      by_cases he : r' = r
      · subst he
        simp [hr]
      · simp [he]

theorem Consistent.moved (h : q.Consistent) {writer : Nat} {phase phase' : Phase}
    (hphase : q.phases writer = some phase)
    (hphases : q'.phases = Function.update q.phases writer (some phase'))
    (hsame : q'.count = q.count ∧ q'.writeGroup = q.writeGroup ∧ q'.groups = q.groups ∧
      q'.panicked = q.panicked)
    (hlead : phase ≠ .leading ∧ phase' ≠ .leading) (hdrain : ∀ group, phase' ≠ .drained group)
    (hcomplete : ∀ rest, phase' = .completing rest → ∃ group, (writer, group) ∈ q.groups)
    (hlater : ∀ r, q.count ≤ r → r ∉ q'.taken ∧ r ∉ q'.completed.map Prod.fst)
    (hqueued : ∀ r ∈ q.writeGroup, q'.Counted r 0 0)
    (hdrained : ∀ g ∈ q.groups, q'.Drained g.1 g.2) : q'.Consistent := by
  obtain ⟨hcount, hgroup, hgroups, hcalm⟩ := hsame
  have hself : q'.phases writer = some phase' := by rw [hphases, Function.update_self]
  have hother : ∀ i, i ≠ writer → q'.phases i = q.phases i := fun i hi => by
    rw [hphases, Function.update_of_ne hi]
  refine ⟨by rw [hcount, hgroup, hgroups, h.order], fun i => ?_, by rw [hgroups]; exact h.own,
    fun i => ?_, fun i group hp => ?_, fun i rest hp => ?_, by rw [hcount]; exact hlater,
    by rw [hgroup]; exact hqueued, by rw [hgroups]; exact hdrained, hcalm.trans h.calm⟩
  · rw [hgroup, ← h.leading]
    by_cases hi : i = writer
    · rw [hi, hself, hphase]
      simp [hlead.1, hlead.2]
    · rw [hother i hi]
  · rw [hcount, ← h.arrived]
    by_cases hi : i = writer
    · rw [hi, hself, hphase]
      simp
    · rw [hother i hi]
  · rw [hgroups]
    by_cases hi : i = writer
    · rw [hi, hself] at hp
      exact absurd (Option.some.inj hp) (hdrain group)
    · exact h.draining i group (hother i hi ▸ hp)
  · rw [hgroups]
    by_cases hi : i = writer
    · rw [hi, hself] at hp
      rw [hi]
      exact hcomplete rest (Option.some.inj hp)
    · exact h.completing i rest (hother i hi ▸ hp)

theorem Consistent.not_queued (h : q.Consistent) {g : Nat × List Nat} (hg : g ∈ q.groups) {r : Nat}
    (hr : r ∈ g.2) : r ∉ q.writeGroup := fun hin =>
  (List.nodup_append.mp h.nodup).2.2 r (List.mem_flatMap.mpr ⟨g, hg, hr⟩) r hin rfl

theorem Consistent.frame_groups (h : q.Consistent) {g : Nat × List Nat} (hg : g ∈ q.groups)
    (hphases : ∀ i, i ≠ g.1 → q'.phases i = q.phases i)
    (hcounts : ∀ r, r ∉ g.2 → ∀ t c, q.Counted r t c → q'.Counted r t c)
    (hown : q'.Drained g.1 g.2) : ∀ g' ∈ q.groups, q'.Drained g'.1 g'.2 := by
  intro g' hg'
  by_cases he : g' = g
  · exact he ▸ hown
  · refine (h.drained g' hg').frame (hphases _ fun hi => ?_) fun r hr =>
      hcounts r fun hmem => he (h.group_unique hg' hg hr hmem)
    exact he (h.group_unique hg' hg (h.leader_mem hg') (hi ▸ h.leader_mem hg))

theorem Consistent.apply (h : q.Consistent) {writer : Nat}
    (hstep : q.step calls (.apply writer) = some q') : q'.Consistent := by
  simp only [step] at hstep
  split at hstep
  swap
  · cases hstep
  rename_i group hphase
  have hg : (writer, group) ∈ q.groups := h.draining writer group hphase
  have hnodup : group.Nodup := h.group_nodup hg
  have hcounts : ∀ r ∈ group, q.Counted r 0 0 := by
    rcases h.drained _ hg with ⟨_, counts⟩ | ⟨_, _, phase, _⟩ | ⟨_, phase, _⟩
    · exact counts
    · rw [hphase] at phase
      cases phase
    · rw [hphase] at phase
      cases phase
  obtain ⟨requests, pending, htake, hlength, hpending⟩ :=
    takeBatches_some hnodup fun r hr => (hcounts r hr).batch rfl
  simp only [htake] at hstep
  have hlen : (calls.applyWriteGroup requests q.store).1.length = group.length :=
    (calls.length_applyWriteGroup requests q.store).trans hlength
  have hfst : (group.zip (calls.applyWriteGroup requests q.store).1).map Prod.fst = group :=
    List.map_fst_zip hlen.ge
  have hq' := (Option.some.inj hstep).symm
  have hphases : q'.phases = Function.update q.phases writer
      (some (.completing (group.zip (calls.applyWriteGroup requests q.store).1))) := by rw [hq']
  have htaken : q'.taken = q.taken ++ group := by rw [hq']
  have hcompleted : q'.completed = q.completed := by rw [hq']
  have hp' : q'.pending = pending := by rw [hq']
  have hreturned : ∀ (r : Nat) (result : Except Error Unit),
      q'.phases r = some (.returned result) ↔ q.phases r = some (.returned result) := by
    intro r result
    rw [hphases, Function.update_apply]
    split
    · rename_i hr
      simp [hr, hphase]
    · rfl
  have hkeep : ∀ r, r ∉ group → ∀ t c, q.Counted r t c → q'.Counted r t c := by
    intro r hr t c hcounted
    refine hcounted.frame ?_ (by rw [hcompleted]) (by rw [hcompleted]; exact List.Subset.refl _)
      (by simp [hp', hpending, hr]) (hreturned r)
    rw [htaken, List.count_append, List.count_eq_zero.mpr hr, Nat.add_zero]
  refine h.moved hphase hphases (by simp [hq']) ⟨nofun, nofun⟩ nofun (fun _ _ => ⟨group, hg⟩)
    (fun r hr => ?_) (fun r hr => hkeep r (fun hmem => h.not_queued hg hmem hr) _ _ (h.queued r hr))
    (h.frame_groups hg (fun i hi => by rw [hphases, Function.update_of_ne hi]) hkeep ?_)
  · obtain ⟨hnot, hnotc⟩ := h.later r hr
    rw [htaken, hcompleted, List.mem_append]
    exact ⟨fun hmem => hmem.elim hnot fun hmem => absurd (h.group_lt hg hmem) (not_lt.mpr hr), hnotc⟩
  · refine .during [] _ (by rw [hphases, Function.update_self]) (by rw [hfst]; rfl)
      (fun r hr => absurd hr List.not_mem_nil) fun r hr => ?_
    rw [hfst] at hr
    have hc := hcounts r hr
    refine ⟨?_, by rw [hcompleted]; exact hc.completions, nofun,
      fun _ => ⟨?_, fun result he => (hc.pending rfl).2 result ((hreturned r result).mp he)⟩,
      fun hz => absurd rfl hz⟩
    · rw [htaken, List.count_append, hc.takes, List.count_eq_one_of_mem hnodup hr]
    · simp [hp', hpending, hr, (hc.pending rfl).1]

theorem Consistent.complete (h : q.Consistent) {writer : Nat}
    (hstep : q.step calls (.complete writer) = some q') : q'.Consistent := by
  simp only [step] at hstep
  split at hstep
  swap
  · cases hstep
  rename_i request result results hphase
  have hq' := (Option.some.inj hstep).symm
  obtain ⟨group, hg⟩ := h.completing writer _ hphase
  obtain ⟨answered, hsplit, hanswered, hremaining⟩ : ∃ answered : List Nat,
      group = answered ++ request :: results.map Prod.fst ∧ (∀ r ∈ answered, q.Counted r 1 1) ∧
      ∀ r ∈ request :: results.map Prod.fst, q.Counted r 1 0 := by
    rcases h.drained _ hg with ⟨phase, _⟩ | ⟨answered, rest, phase, split, counts, remaining⟩ |
      ⟨_, phase, _⟩
    · rw [hphase] at phase
      cases phase
    · rw [hphase] at phase
      obtain rfl : _ = rest := by injection phase with hp; injection hp
      exact ⟨answered, split, counts, remaining⟩
    · rw [hphase] at phase
      cases phase
  have hmem : request ∈ group := by simp [hsplit]
  have hreq : q.Counted request 1 0 := hremaining request (by simp)
  have hphases : q'.phases = Function.update q.phases writer (some (.completing results)) := by
    rw [hq']
  have htaken : q'.taken = q.taken := by rw [hq']
  have hcompleted : q'.completed = q.completed ++ [(request, result)] := by rw [hq']
  have hpending : q'.pending =
      Function.update q.pending request ((q.pending request).complete result) := by rw [hq']
  have hreturned : ∀ (r : Nat) (result : Except Error Unit),
      q'.phases r = some (.returned result) ↔ q.phases r = some (.returned result) := by
    intro r result
    rw [hphases, Function.update_apply]
    split
    · rename_i hr
      simp [hr, hphase]
    · rfl
  have hkeep : ∀ r, r ≠ request → ∀ t c, q.Counted r t c → q'.Counted r t c := by
    intro r hr t c hcounted
    refine hcounted.frame (by rw [htaken]) ?_ (by rw [hcompleted]; exact List.subset_append_left _ _)
      (by rw [hpending, Function.update_of_ne hr]) (hreturned r)
    simp [hcompleted, List.count_append, Ne.symm hr]
  have hkeep' : ∀ r, r ∉ group → ∀ t c, q.Counted r t c → q'.Counted r t c :=
    fun r hr => hkeep r fun he => hr (he ▸ hmem)
  refine h.moved hphase hphases (by simp [hq']) ⟨nofun, nofun⟩ nofun (fun _ _ => ⟨group, hg⟩)
    (fun r hr => ?_) (fun r hr => hkeep' r (fun hin => h.not_queued hg hin hr) _ _ (h.queued r hr))
    (h.frame_groups hg (fun i hi => by rw [hphases, Function.update_of_ne hi]) hkeep' ?_)
  · obtain ⟨hnot, hnotc⟩ := h.later r hr
    rw [htaken, hcompleted, List.map_append, List.mem_append]
    refine ⟨hnot, fun hin => hin.elim hnotc fun hin => ?_⟩
    obtain rfl : r = request := by simpa using hin
    exact absurd (h.group_lt hg hmem) (not_lt.mpr hr)
  · have hnodup : (answered ++ request :: results.map Prod.fst).Nodup := hsplit ▸ h.group_nodup hg
    refine .during (answered ++ [request]) results (by rw [hphases, Function.update_self])
      (by simp [hsplit]) (fun r hr => ?_) fun r hr => ?_
    · rcases List.mem_append.mp hr with hin | hin
      · refine hkeep r ?_ _ _ (hanswered r hin)
        rintro rfl
        exact (List.nodup_append.mp hnodup).2.2 r hin r (by simp) rfl
      · obtain rfl := List.mem_singleton.mp hin
        refine ⟨by rw [htaken]; exact hreq.takes, ?_, nofun, nofun, fun _ =>
          ⟨result, ?_, .inl ⟨?_, fun result he => ?_⟩⟩⟩
        · rw [hcompleted, List.map_append, List.count_append, hreq.completions]
          simp
        · simp [hcompleted]
        · simp [hpending, PendingWrite.complete]
        · exact (hreq.pending rfl).2 result ((hreturned r result).mp he)
    · refine hkeep r ?_ _ _ (hremaining r (List.mem_cons_of_mem _ hr))
      rintro rfl
      exact (List.nodup_cons.mp (List.nodup_append.mp hnodup).2.1).1 hr

theorem Consistent.counted (h : q.Consistent) {r : Nat} (hr : r < q.count) :
    ∃ taken completed, q.Counted r taken completed ∧ completed ≤ taken ∧ taken ≤ 1 := by
  have hmem : r ∈ q.groups.flatMap Prod.snd ++ q.writeGroup := by
    rw [h.order]
    exact List.mem_range.mpr hr
  rcases List.mem_append.mp hmem with hmem | hmem
  · obtain ⟨g, hg, hin⟩ := List.mem_flatMap.mp hmem
    rcases h.drained g hg with ⟨_, counts⟩ | ⟨answered, rest, _, split, counts, remaining⟩ |
      ⟨_, _, counts⟩
    · exact ⟨0, 0, counts r hin, by decide⟩
    · rw [split] at hin
      rcases List.mem_append.mp hin with hin | hin
      · exact ⟨1, 1, counts r hin, by decide⟩
      · exact ⟨1, 0, remaining r hin, by decide⟩
    · exact ⟨1, 1, counts r hin, by decide⟩
  · exact ⟨0, 0, h.queued r hmem, by decide⟩

theorem Consistent.lt_count (h : q.Consistent) {i : Nat} {phase : Phase}
    (hphase : q.phases i = some phase) : i < q.count := by
  by_contra hge
  rw [(h.arrived i).mpr (not_lt.mp hge)] at hphase
  cases hphase

theorem Consistent.wait (h : q.Consistent) {writer : Nat}
    (hstep : q.step calls (.wait writer) = some q') : q'.Consistent := by
  obtain ⟨phase, result, hphase, hcase, hresult, hq'⟩ : ∃ (phase : Phase)
      (result : Except Error Unit), q.phases writer = some phase ∧
      (phase = .waiting ∨ phase = .completing []) ∧ (q.pending writer).result = some result ∧
      q' = { q with
        pending := Function.update q.pending writer { q.pending writer with result := none }
        phases := Function.update q.phases writer (some (.returned result)) } := by
    have hgo : ∀ {q' : GroupQueue σ}, (match (q.pending writer).wait with
        | none => none
        | some (result, p) => some { q with
            pending := Function.update q.pending writer p
            phases := Function.update q.phases writer (some (.returned result)) }) = some q' →
        ∃ result, (q.pending writer).result = some result ∧ q' = { q with
          pending := Function.update q.pending writer { q.pending writer with result := none }
          phases := Function.update q.phases writer (some (.returned result)) } := by
      intro q' hgo
      cases hr : (q.pending writer).result with
      | none => simp [PendingWrite.wait, hr] at hgo
      | some result => exact ⟨result, rfl, by simpa [PendingWrite.wait, hr] using hgo.symm⟩
    simp only [step] at hstep
    split at hstep
    · rename_i hphase
      obtain ⟨result, hr, hq'⟩ := hgo hstep
      exact ⟨_, result, hphase, .inl rfl, hr, hq'⟩
    · rename_i hphase
      obtain ⟨result, hr, hq'⟩ := hgo hstep
      exact ⟨_, result, hphase, .inr rfl, hr, hq'⟩
    · cases hstep
  have hone : q.Counted writer 1 1 := by
    obtain ⟨t, c, hc, hle, ht⟩ := h.counted (h.lt_count hphase)
    have hne : c ≠ 0 := by
      rintro rfl
      rw [(hc.pending rfl).1] at hresult
      cases hresult
    obtain ⟨rfl, rfl⟩ : t = 1 ∧ c = 1 := by omega
    exact hc
  have hphases : q'.phases = Function.update q.phases writer (some (.returned result)) := by
    rw [hq']
  have hkeep : ∀ r t c, q.Counted r t c → q'.Counted r t c := by
    intro r t c hc
    by_cases hr : r = writer
    · subst hr
      obtain rfl : t = 1 := hc.takes.symm.trans hone.takes
      obtain rfl : c = 1 := hc.completions.symm.trans hone.completions
      refine ⟨by rw [hq']; exact hc.takes, by rw [hq']; exact hc.completions, nofun, nofun,
        fun _ => ?_⟩
      obtain ⟨result', hmem, hor⟩ := hc.result (by decide)
      have hsame : result' = result := by
        rcases hor with hor | hor
        · exact Option.some.inj (hor.1.symm.trans hresult)
        · rw [hphase] at hor
          rcases hcase with rfl | rfl <;> cases hor
      exact ⟨result, by rw [hq', ← hsame]; exact hmem, .inr (by rw [hphases, Function.update_self])⟩
    · refine hc.frame (by rw [hq']) (by rw [hq']) (by rw [hq']; exact List.Subset.refl _)
        (by rw [hq']; exact Function.update_of_ne hr _ _) fun result => ?_
      rw [hphases, Function.update_of_ne hr]
  refine h.moved hphase hphases (by simp [hq'])
    ⟨by rcases hcase with rfl | rfl <;> exact nofun, nofun⟩ nofun nofun
    (fun r hr => by rw [hq']; exact h.later r hr) (fun r hr => hkeep r _ _ (h.queued r hr)) ?_
  intro g hg
  by_cases hi : g.1 = writer
  · -- the leader itself returns, after it has handed out every result
    refine .after result (by rw [hi, hphases, Function.update_self]) fun r hr => hkeep r _ _ ?_
    rcases h.drained g hg with ⟨phase, _⟩ | ⟨answered, rest, phase, split, counts, _⟩ |
      ⟨_, phase, counts⟩
    · rw [hi, hphase] at phase
      rcases hcase with rfl | rfl <;> cases phase
    · rw [hi, hphase] at phase
      obtain rfl : rest = [] := by
        rcases hcase with rfl | rfl
        · cases phase
        · injection phase with hp
          injection hp with hp
          exact hp.symm
      rw [split] at hr
      exact counts r (by simpa using hr)
    · exact counts r hr
  · exact (h.drained g hg).frame (by rw [hphases, Function.update_of_ne hi]) fun r _ => hkeep r

theorem Consistent.other (h : q.Consistent) (f : σ → σ) :
    Consistent { q with store := f q.store } := by
  have hkeep : ∀ r t c, q.Counted r t c → Counted { q with store := f q.store } r t c :=
    fun r t c hc => hc.frame rfl rfl (List.Subset.refl _) rfl fun _ => Iff.rfl
  exact ⟨h.order, h.leading, h.own, h.arrived, h.draining, h.completing, h.later,
    fun r hr => hkeep r _ _ (h.queued r hr),
    fun g hg => (h.drained g hg).frame rfl fun r _ => hkeep r, h.calm⟩

theorem Consistent.step (h : q.Consistent) {action : GroupAction σ}
    (hstep : q.step calls action = some q') : q'.Consistent := by
  cases action with
  | enqueue batch opts => exact h.enqueue hstep
  | drain writer => exact h.drain hstep
  | apply writer => exact h.apply hstep
  | complete writer => exact h.complete hstep
  | wait writer => exact h.wait hstep
  | other f =>
    obtain rfl := Option.some.inj hstep
    exact h.other f

theorem Reachable.consistent (h : Reachable calls q) : q.Consistent := by
  induction h with
  | start store => exact consistent_new store
  | next _ hstep ih => exact ih.step hstep

/-- Some writer that has not returned can make its next step. -/
def Progresses (calls : GroupStore σ) (q : GroupQueue σ) : Prop :=
  ∃ writer, (q.step calls (.drain writer)).isSome ∨ (q.step calls (.apply writer)).isSome ∨
    (q.step calls (.complete writer)).isSome ∨ (q.step calls (.wait writer)).isSome

theorem Consistent.progresses (h : q.Consistent) {i : Nat} (hi : i < q.count)
    (hnot : ∀ result, q.phases i ≠ some (.returned result)) : q.Progresses calls := by
  have hlead : ∀ writer, q.phases writer = some .leading → q.Progresses calls :=
    fun writer hp => ⟨writer, .inl (by simp [GroupQueue.step, hp])⟩
  have happly : ∀ writer group, q.phases writer = some (.drained group) → q.Progresses calls := by
    intro writer group hp
    refine ⟨writer, .inr (.inl ?_)⟩
    simp only [GroupQueue.step, hp]
    split <;> rfl
  have hcomplete : ∀ writer head rest, q.phases writer = some (.completing (head :: rest)) →
      q.Progresses calls :=
    fun writer head rest hp => ⟨writer, .inr (.inr (.inl (by simp [GroupQueue.step, hp])))⟩
  have hwait : ∀ writer, (q.phases writer = some .waiting ∨
      q.phases writer = some (.completing [])) → q.Counted writer 1 1 →
      (∀ result, q.phases writer ≠ some (.returned result)) → q.Progresses calls := by
    intro writer hp hc hno
    obtain ⟨result, _, hr⟩ := hc.result (by decide)
    have hresult := (hr.resolve_right (hno result)).1
    refine ⟨writer, .inr (.inr (.inr ?_))⟩
    rcases hp with hp | hp <;> simp [GroupQueue.step, hp, PendingWrite.wait, hresult]
  have hmem : i ∈ q.groups.flatMap Prod.snd ++ q.writeGroup := by
    rw [h.order]
    exact List.mem_range.mpr hi
  rcases List.mem_append.mp hmem with hmem | hmem
  · obtain ⟨g, hg, hin⟩ := List.mem_flatMap.mp hmem
    have hwaiting : q.Counted i 1 1 → q.Progresses calls := by
      intro hc
      cases hp : q.phases i with
      | none => exact absurd ((h.arrived i).mp hp) (not_le.mpr hi)
      | some phase =>
        cases phase with
        | leading => exact hlead i hp
        | drained group => exact happly i group hp
        | completing rest =>
          cases rest with
          | nil => exact hwait i (.inr hp) hc hnot
          | cons head rest => exact hcomplete i head rest hp
        | waiting => exact hwait i (.inl hp) hc hnot
        | returned result => exact absurd hp (hnot result)
    rcases h.drained g hg with ⟨phase, _⟩ | ⟨answered, rest, phase, split, counts, _⟩ |
      ⟨_, _, counts⟩
    · exact happly g.1 g.2 phase
    · cases rest with
      | nil => exact hwaiting (counts i (by simpa [split] using hin))
      | cons head rest => exact hcomplete g.1 head rest phase
    · exact hwaiting (counts i hin)
  · exact hlead _ ((h.leading _).mpr (List.head?_eq_some_head (List.ne_nil_of_mem hmem)))

/-- No request is lost and none is served twice. -/
structure ServedOnce (calls : GroupStore σ) (q : GroupQueue σ) : Prop where
  leader : q.writeGroup ≠ [] → ∃! i, q.phases i = some .leading
  front : ∀ i, q.phases i = some .leading → q.writeGroup.head? = some i
  order : q.groups.flatMap Prod.snd ++ q.writeGroup = List.range q.count
  drained : ∀ r < q.count, r ∉ q.writeGroup → ∃! g, g ∈ q.groups ∧ r ∈ g.2
  own : ∀ g ∈ q.groups, g.1 ∈ g.2
  taken : ∀ g ∈ q.groups, q.phases g.1 ≠ some (.drained g.2) → ∀ r ∈ g.2, r ∈ q.taken
  takenOnce : q.taken.Nodup
  answered : ∀ g ∈ q.groups, (q.phases g.1 = some (.completing []) ∨
    ∃ result, q.phases g.1 = some (.returned result)) → ∀ r ∈ g.2, ∃ result, (r, result) ∈ q.completed
  answeredOnce : (q.completed.map Prod.fst).Nodup
  returned : ∀ i result, q.phases i = some (.returned result) → (i, result) ∈ q.completed
  calm : q.panicked = false
  progress : ∀ i < q.count, (∀ result, q.phases i ≠ some (.returned result)) → q.Progresses calls

theorem Consistent.servedOnce (h : q.Consistent) (calls : GroupStore σ) : q.ServedOnce calls where
  leader hne := by
    refine ⟨_, (h.leading _).mpr (List.head?_eq_some_head hne), fun i hi => ?_⟩
    exact (Option.some.inj ((List.head?_eq_some_head hne).symm.trans ((h.leading i).mp hi))).symm
  front i := (h.leading i).mp
  order := h.order
  drained r hr hnot := by
    have hmem : r ∈ q.groups.flatMap Prod.snd ++ q.writeGroup := by
      rw [h.order]
      exact List.mem_range.mpr hr
    obtain ⟨g, hg, hin⟩ := List.mem_flatMap.mp ((List.mem_append.mp hmem).resolve_right hnot)
    exact ⟨g, ⟨hg, hin⟩, fun g' hg' => h.group_unique hg'.1 hg hg'.2 hin⟩
  own g hg := h.leader_mem hg
  taken g hg hphase r hr := by
    have hone : ∀ c, q.Counted r 1 c → r ∈ q.taken := fun c hc =>
      List.count_pos_iff.mp (by rw [hc.takes]; exact Nat.one_pos)
    rcases h.drained g hg with ⟨phase, _⟩ | ⟨answered, rest, _, split, counts, remaining⟩ |
      ⟨_, _, counts⟩
    · exact absurd phase hphase
    · rw [split] at hr
      exact (List.mem_append.mp hr).elim (fun hr => hone 1 (counts r hr))
        fun hr => hone 0 (remaining r hr)
    · exact hone 1 (counts r hr)
  takenOnce := by
    refine List.nodup_iff_count_le_one.mpr fun r => ?_
    by_cases hr : r < q.count
    · obtain ⟨t, c, hc, _, ht⟩ := h.counted hr
      exact hc.takes.trans_le ht
    · rw [List.count_eq_zero.mpr (h.later r (not_lt.mp hr)).1]
      exact Nat.zero_le 1
  answered g hg hphase r hr := by
    have hone : q.Counted r 1 1 → ∃ result, (r, result) ∈ q.completed := fun hc =>
      (hc.result (by decide)).imp fun _ hm => hm.1
    rcases h.drained g hg with ⟨phase, _⟩ | ⟨answered, rest, phase, split, counts, _⟩ |
      ⟨_, _, counts⟩
    · rw [phase] at hphase
      rcases hphase with hp | ⟨_, hp⟩ <;> cases hp
    · rw [phase] at hphase
      rcases hphase with hp | ⟨_, hp⟩
      · obtain rfl : rest = [] := by injection hp with hp; injection hp
        exact hone (counts r (by simpa [split] using hr))
      · cases hp
    · exact hone (counts r hr)
  answeredOnce := by
    refine List.nodup_iff_count_le_one.mpr fun r => ?_
    by_cases hr : r < q.count
    · obtain ⟨t, c, hc, hle, ht⟩ := h.counted hr
      exact hc.completions.trans_le (hle.trans ht)
    · rw [List.count_eq_zero.mpr (h.later r (not_lt.mp hr)).2]
      exact Nat.zero_le 1
  returned i result hphase := by
    obtain ⟨t, c, hc, _, _⟩ := h.counted (h.lt_count hphase)
    have hne : c ≠ 0 := fun hz => (hc.pending hz).2 result hphase
    obtain ⟨result', hmem, ⟨_, hno⟩ | hreturned⟩ := hc.result hne
    · exact absurd hphase (hno result)
    · obtain rfl : result = result' := by
        rw [hphase] at hreturned
        injection hreturned with hp
        injection hp
      exact hmem
  calm := h.calm
  progress i hi hnot := h.progresses hi hnot

theorem Reachable.steps (h : Reachable calls q) {actions : List (GroupAction σ)}
    (hsteps : actions.foldlM (step calls) q = some q') : Reachable calls q' := by
  induction actions generalizing q with
  | nil =>
    obtain rfl : q = q' := Option.some.inj hsteps
    exact h
  | cons action actions ih =>
    obtain ⟨q₁, hstep, hrest⟩ := Option.bind_eq_some_iff.mp (by simpa using hsteps)
    exact ih (h.next hstep) hrest

end GroupQueue

/-- Whatever the interleaving of the writers, and whatever applying a group returns. -/
theorem group_commit_serves_once {calls : GroupStore σ} {q : GroupQueue σ}
    (h : GroupQueue.Reachable calls q) : q.ServedOnce calls :=
  h.consistent.servedOnce calls

theorem two_groups_complete :
    ([.enqueue ⟨[.put [97] [1]]⟩ {}, .enqueue ⟨[.put [98] [2]]⟩ {}, .drain 0, .apply 0,
      .enqueue ⟨[.put [99] [3]]⟩ {}, .complete 0, .drain 2, .complete 0, .wait 1, .wait 0].foldlM
        (GroupQueue.step (dbStore (.ok ()))) (.new (DB.created .inOrder {} "db"))).isSome = true := by
  decide +kernel

theorem group_commit_serves_once_small :
    ∃ q, [.enqueue ⟨[.put [97] [1]]⟩ {}, .enqueue ⟨[.put [98] [2]]⟩ {}, .drain 0, .apply 0,
      .enqueue ⟨[.put [99] [3]]⟩ {}, .complete 0, .drain 2, .complete 0, .wait 1, .wait 0].foldlM
        (GroupQueue.step (dbStore (.ok ()))) (.new (DB.created .inOrder {} "db")) = some q ∧
      q.ServedOnce (dbStore (.ok ())) := by
  obtain ⟨q, hsteps⟩ := Option.isSome_iff_exists.mp two_groups_complete
  exact ⟨q, hsteps, group_commit_serves_once ((GroupQueue.Reachable.start _).steps hsteps)⟩

end TyLsm
