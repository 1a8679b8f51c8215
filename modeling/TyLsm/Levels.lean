import TyLsm.Histories

/-! The levels below L0. Their files are disjoint, sorted and as their metadata says,
as long as no compaction tears the versions of the empty key apart: the splitting rule
takes an empty previous key for the beginning of the input. -/

namespace TyLsm

namespace DB

/-- What `get_opt` relies on below L0. -/
structure LevelsDisjoint (db : DB) : Prop where
  disjoint : ∀ level ∈ db.versions.current.levels, level.Pairwise Separate
  sorted : ∀ level ∈ db.versions.current.levels,
    level.Pairwise (fun a b => a.smallest ≤ b.smallest)
  within : ∀ f ∈ db.versions.current.files, ∃ table, db.disk.tables f.number = some table ∧
    ∀ e ∈ table.entries, f.smallest ≤ e.1 ∧ e.1 ≤ f.largest ∧
      f.smallestSeq ≤ e.1.sequence ∧ e.1.sequence ≤ f.largestSeq
  found : ∀ level ∈ db.state.levelTables, ∀ key, ∀ ref ∈ level,
    (∃ e ∈ ref.2.entries, e.1.userKey = key) →
      level.find? (fun ref => fileOverlapsUserKey ref.1 key) = some ref

variable {db : DB}

theorem find_covering {level : List TableRef} (hr : Ranges (level.map Prod.fst)) {key : Bytes}
    {ref : TableRef} (href : ref ∈ level) (hover : fileOverlapsUserKey ref.1 key = true) :
    level.find? (fun ref => fileOverlapsUserKey ref.1 key) = some ref := by
  induction level with
  | nil => cases href
  | cons first level ih =>
    rw [List.map_cons] at hr
    obtain ⟨hfirst, hr⟩ := List.pairwise_cons.mp hr
    rcases List.mem_cons.mp href with rfl | href
    · exact List.find?_cons_of_pos hover
    · have hno : fileOverlapsUserKey first.1 key ≠ true := by
        intro hyes
        have hlt := hfirst ref.1 (List.mem_map.mpr ⟨ref, href, rfl⟩)
        simp only [fileOverlapsUserKey, Bool.and_eq_true, decide_eq_true_eq] at hover hyes
        exact absurd (hover.1.trans hyes.2) (not_le.mpr hlt)
      simpa [List.find?_cons, hno] using ih hr href

theorem Sound.levelsDisjoint (h : db.Sound) (hl : db.Leveled) : db.LevelsDisjoint := by
  refine ⟨fun level hlevel => (hl level hlevel).separate, fun level hlevel => ?_, fun f hf => ?_,
    fun level hlevel key ref href he => ?_⟩
  · refine List.Pairwise.imp_of_mem (fun {a b} ha hb hab => ?_) (hl level hlevel)
    obtain ⟨t, _, hd⟩ := h.listed.described a
      (List.mem_append.mpr (.inr (List.mem_flatten.mpr ⟨level, hlevel, ha⟩)))
    exact ((InternalKey.lt_iff _ _).mpr (.inl (hd.smallest_le_largest.trans_lt hab))).le
  · obtain ⟨t, ht, hd⟩ := h.listed.described f hf
    exact ⟨t, ht, fun e he => ⟨(hd.key_mem he).1, (hd.key_mem he).2, hd.sequences e he⟩⟩
  · obtain ⟨e, he, rfl⟩ := he
    have hmem : level.map Prod.fst ∈ db.versions.current.levels := by
      rw [← h.tables.levels_eq]
      exact List.mem_map.mpr ⟨level, hlevel, rfl⟩
    have hopened := h.tables.opened ref
      (List.mem_append.mpr (.inr (List.mem_flatten.mpr ⟨level, hlevel, href⟩)))
    exact find_covering (hl _ hmem) href (hopened.2.overlaps_of_mem he)

instance (a b : FileMeta) : Decidable (Separate a b) := inferInstanceAs (Decidable (_ ∨ _))

instance (db : DB) (task : CompactionTask) : Decidable (db.CutsBetweenKeys task) :=
  inferInstanceAs (Decidable (_ ∨ _ ∨ _ ∨ _))

instance (db : DB) (lower upper : Bound) : Decidable (db.RangeCuts lower upper) :=
  match h : CompactionPicker.pickManual db.versions.current lower upper with
  | none => isTrue (by simp [RangeCuts, h])
  | some task => decidable_of_iff (db.CutsBetweenKeys task) (by simp [RangeCuts, h])

instance (db : DB) : Decidable db.PressureCuts := inferInstanceAs (Decidable (_ → _))

instance (db : DB) : (call : Call) → Decidable (db.CallCuts call)
  | .compactRange lower upper => inferInstanceAs (Decidable (db.RangeCuts lower upper))
  | .put _ _ => inferInstanceAs (Decidable (_ → _))
  | .delete _ => inferInstanceAs (Decidable (_ → _))
  | .write _ _ => inferInstanceAs (Decidable (_ → _))
  | .flush => inferInstanceAs (Decidable (_ → _))
  | .reopen => inferInstanceAs (Decidable (_ → _))

end DB

instance (c : Client) : (call : ClientCall) → Decidable (c.CallCuts call)
  | .call inner => inferInstanceAs (Decidable (c.db.CallCuts inner))
  | .snapshot => isTrue trivial
  | .cloneSnapshot _ => isTrue trivial
  | .dropSnapshot _ => isTrue trivial

/-- Every run whose compactions keep the versions of the empty key in one file leaves all
levels below L0 disjoint and searchable. -/
theorem levels_stay_disjoint (env : Env) (options : Options) (path : String) {db₀ : DB}
    (hopen : DB.open env (Disk.empty path) options = .ok db₀) (calls : List ClientCall)
    (hcalls : ∀ call ∈ calls, call ≠ .call .reopen)
    (hcuts : Along ClientCall.run (fun call c => c.CallCuts call) calls ⟨db₀, []⟩) :
    ∃ c, runAll ClientCall.run calls ⟨db₀, []⟩ = .ok () c ∧ c.db.LevelsDisjoint := by
  obtain rfl := DB.eq_created hopen
  have hstep : ∀ (call : ClientCall) (_ : Unit) (c : Client), (c.Keeps ∧ c.db.Leveled) →
      (call ≠ .call .reopen ∧ c.CallCuts call) →
      ∃ c', call.run c = .ok () c' ∧ c'.Keeps ∧ c'.db.Leveled := by
    intro call _ c h hcall
    obtain ⟨c', hrun, hkeeps, hlev⟩ := h.1.step hcall.1
    exact ⟨c', hrun, hkeeps, hlev h.2 hcall.2⟩
  obtain ⟨c, hrun, hkeeps, hlev⟩ := runAll_invariant (n := fun _ u => u)
    (C := fun call c => call ≠ .call .reopen ∧ Client.CallCuts c call)
    (I := fun _ c => Client.Keeps c ∧ c.db.Leveled) hstep (g := ())
    ⟨Client.keeps_created env options path, (DB.ok_created env options path).stored.ranges⟩
    ((along_of_forall (fun call hc _ => hcalls call hc) _).and hcuts)
  exact ⟨c, hrun, hkeeps.sound.levelsDisjoint hlev⟩

theorem levels_stay_disjoint_small :
    ∃ c, runAll ClientCall.run [.call (.put [97] [1]), .snapshot, .call (.put [97] [2]),
        .call (.put [98] [3]), .call .flush, .call (.compactRange (.included [97]) .unbounded)]
        ⟨DB.created .inOrder { maxSubcompactions := 2, targetFileSizeBase := 1 } "db", []⟩ =
          .ok () c ∧ c.db.LevelsDisjoint :=
  levels_stay_disjoint .inOrder { maxSubcompactions := 2, targetFileSizeBase := 1 } "db"
    (DB.open_empty _ _ _) _ (by simp) (by decide +kernel)

theorem empty_key_torn :
    EndsIn (fun c => (∃ level ∈ c.db.versions.current.levels, ¬ level.Pairwise Separate) ∧
        c.db.getOpt [] (some 1) = .ok none)
      (runAll ClientCall.run [.call (.put [] [1]), .snapshot, .call (.put [] [2]), .call .flush,
        .call (.compactRange .unbounded .unbounded)]
        ⟨DB.created .inOrder { maxSubcompactions := 2, targetFileSizeBase := 1 } "db", []⟩) := by
  decide +kernel

/-- Two versions of the empty key, of which a snapshot keeps the older one, end up in two
files of L1, and the snapshot loses its value. -/
theorem levels_overlap_at_empty_key :
    ∃ c, runAll ClientCall.run [.call (.put [] [1]), .snapshot, .call (.put [] [2]), .call .flush,
        .call (.compactRange .unbounded .unbounded)]
        ⟨DB.created .inOrder { maxSubcompactions := 2, targetFileSizeBase := 1 } "db", []⟩ =
          .ok () c ∧
      ¬ c.db.LevelsDisjoint ∧ c.db.getOpt [] (some 1) = .ok none := by
  obtain ⟨c, hrun, ⟨level, hlevel, hno⟩, hget⟩ := empty_key_torn.exists_ok
  exact ⟨c, hrun, fun h => hno (h.disjoint level hlevel), hget⟩

end TyLsm
