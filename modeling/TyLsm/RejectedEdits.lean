import TyLsm.ManifestReplay

/-! What a rejected version edit leaves behind. An edit is in the manifest before it is
checked, so the manifest can be recovered exactly as long as no edit has been rejected. -/

namespace TyLsm

/-- The level of an edit is one of the version's. -/
def VersionEdit.LevelFits (levels : Nat) : VersionEdit → Prop
  | addFile level _ => level = 0 ∨ level < levels
  | deleteFile level _ => level = 0 ∨ level < levels
  | _ => True

/-- An edit fits its record, and the number after the one it uses is still a `u64`. -/
structure VersionEdit.Fits (edit : VersionEdit) : Prop where
  loggable : edit.Loggable
  counted : ∀ number, edit.uses = some number → number + 1 < 2 ^ 64

theorem Version.addFile_ok_iff (v : Version) (level : Nat) (file : FileMeta) :
    (∃ next, v.addFile level file = .ok next) ↔ level = 0 ∨ level < v.levels.length := by
  rw [Version.addFile]
  by_cases hzero : level = 0
  · simp [hzero]
  · by_cases hlt : level < v.levels.length
    · simp [hzero, hlt]
    · simp [hzero, hlt]

theorem Version.deleteFile_ok_iff (v : Version) (level number : Nat) :
    (∃ next, v.deleteFile level number = .ok next) ↔ level = 0 ∨ level < v.levels.length := by
  rw [Version.deleteFile]
  by_cases hzero : level = 0
  · simp [hzero]
  · by_cases hlt : level < v.levels.length
    · simp [hzero, hlt]
    · simp [hzero, hlt]

theorem Version.length_addFile {v next : Version} {level : Nat} {file : FileMeta}
    (h : v.addFile level file = .ok next) : next.levels.length = v.levels.length := by
  rw [Version.addFile] at h
  split at h
  · rw [← Except.ok.inj h]
  · split at h
    · rw [← Except.ok.inj h, List.length_set]
    · cases h

theorem Version.length_deleteFile {v next : Version} {level number : Nat}
    (h : v.deleteFile level number = .ok next) : next.levels.length = v.levels.length := by
  rw [Version.deleteFile] at h
  split at h
  · rw [← Except.ok.inj h]
  · split at h
    · rw [← Except.ok.inj h, List.length_set]
    · cases h

theorem VersionSet.applyEdit_cases (vs : VersionSet) (edit : VersionEdit) :
    edit.LevelFits vs.current.levels.length ∧ (∃ next, vs.applyEdit edit = (next, .ok ()) ∧
      next.current.levels.length = vs.current.levels.length) ∨
    ¬ edit.LevelFits vs.current.levels.length ∧
      ∃ next err, vs.applyEdit edit = (next, .error err) := by
  cases edit with
  | nextFileNumber number => exact .inl ⟨trivial, _, rfl, rfl⟩
  | lastSequence sequence => exact .inl ⟨trivial, _, rfl, rfl⟩
  | logNumber number => exact .inl ⟨trivial, _, rfl, rfl⟩
  | addFile level file =>
    have hiff := vs.current.addFile_ok_iff level file
    simp only [VersionSet.applyEdit, VersionEdit.LevelFits]
    cases hadd : vs.current.addFile level file with
    | ok next => exact .inl ⟨hiff.mp ⟨next, hadd⟩, _, rfl, Version.length_addFile hadd⟩
    | error err =>
      refine .inr ⟨fun hfits => ?_, _, _, rfl⟩
      obtain ⟨next, hok⟩ := hiff.mpr hfits
      rw [hadd] at hok
      cases hok
  | deleteFile level number =>
    have hiff := vs.current.deleteFile_ok_iff level number
    simp only [VersionSet.applyEdit, VersionEdit.LevelFits]
    cases hdel : vs.current.deleteFile level number with
    | ok next => exact .inl ⟨hiff.mp ⟨next, hdel⟩, _, rfl, Version.length_deleteFile hdel⟩
    | error err =>
      refine .inr ⟨fun hfits => ?_, _, _, rfl⟩
      obtain ⟨next, hok⟩ := hiff.mpr hfits
      rw [hdel] at hok
      cases hok

theorem VersionSet.length_replay {vs vs' : VersionSet} {edits : List VersionEdit}
    (h : vs.replay edits = .ok vs') :
    vs'.current.levels.length = vs.current.levels.length := by
  induction edits generalizing vs with
  | nil => rw [← Except.ok.inj h]
  | cons edit edits ih =>
    rcases vs.applyEdit_cases edit with ⟨-, next, happly, hlen⟩ | ⟨-, next, err, happly⟩
    · rw [VersionSet.replay, happly] at h
      rw [ih h, hlen]
    · rw [VersionSet.replay, happly] at h
      cases h

section

variable (crc32c : Bytes → UInt32)

/-- `log_and_apply`, with the state it leaves when it fails. -/
def VersionSet.logEdit (s : VersionSet × WritableFile) (edit : VersionEdit) :
    (VersionSet × WritableFile) × Except Error Unit :=
  match ManifestWriter.append crc32c edit s.2 with
  | .error err manifest => ((s.1, manifest), .error err)
  | .ok _ manifest =>
    let (vs, result) := s.1.applyEdit edit
    ((vs, manifest), result)

theorem logAndApply_eq_logEdit (vs : VersionSet) (manifest : WritableFile) (edit : VersionEdit) :
    vs.logAndApply crc32c manifest edit =
      match VersionSet.logEdit crc32c (vs, manifest) edit with
      | (s, .ok ()) => .ok s
      | (_, .error err) => .error err := by
  rw [VersionSet.logAndApply, VersionSet.logEdit]
  cases ManifestWriter.append crc32c edit manifest with
  | error err file => rfl
  | ok u file =>
    dsimp only
    cases happly : vs.applyEdit edit with
    | mk next result => cases result <;> rfl

/-- Every edit is passed to `log_and_apply`, whatever it returned for those before. -/
def runEdits (s : VersionSet × WritableFile) (edits : List VersionEdit) :
    VersionSet × WritableFile :=
  edits.foldl (fun s edit => (VersionSet.logEdit crc32c s edit).1) s

/-- The edits for which `log_and_apply` returns `Ok`. -/
def acceptedEdits (s : VersionSet × WritableFile) : List VersionEdit → List VersionEdit
  | [] => []
  | edit :: edits =>
    match VersionSet.logEdit crc32c s edit with
    | (s, .ok ()) => edit :: acceptedEdits s edits
    | (s, .error _) => acceptedEdits s edits

/-- The manifest recovers as `us`, and `us` is the version set in memory. -/
structure Recorded (maxLevels : Nat) (us : VersionSet) (s : VersionSet × WritableFile) : Prop where
  manifest : ∃ logged, (∀ edit ∈ logged, edit.Loggable) ∧
    s.2 = ⟨(walFraming crc32c).frames (logged.map VersionEdit.encode), none, none⟩ ∧
    (VersionSet.newEmpty maxLevels).replay logged = .ok us
  recovers : us.Recovers s.1

/-- A rejected edit changes nothing in memory, and the manifest always recovers as the version
set that the accepted edits make. -/
structure Recoverable (maxLevels : Nat) (us : VersionSet) (s : VersionSet × WritableFile)
    (edits : List VersionEdit) : Prop where
  unchanged : ∀ pre edit post err, edits = pre ++ edit :: post →
    (VersionSet.logEdit crc32c (runEdits crc32c s pre) edit).2 = .error err →
    (VersionSet.logEdit crc32c (runEdits crc32c s pre) edit).1.1 = (runEdits crc32c s pre).1
  recovers : ∀ pre post, edits = pre ++ post → ∀ chunks,
    ∃ us', VersionSet.recover crc32c maxLevels ⟨(runEdits crc32c s pre).2.contents, chunks⟩ =
        .ok us' ∧ us.replay (acceptedEdits crc32c s pre) = .ok us' ∧
      us'.Recovers (runEdits crc32c s pre).1

variable {crc32c} {maxLevels : Nat} {us : VersionSet} {s : VersionSet × WritableFile}

theorem recorded_create : Recorded crc32c maxLevels (.newEmpty maxLevels)
    (VersionSet.create crc32c maxLevels) where
  manifest := by
    refine ⟨VersionSet.createEdits, createEdits_loggable, ?_, VersionSet.replay_createEdits _⟩
    rw [VersionSet.create, manifestFile_eq, List.nil_append]
  recovers := ⟨rfl, rfl, rfl⟩

theorem Recorded.allocateFileNumber (h : Recorded crc32c maxLevels us s) :
    Recorded crc32c maxLevels us (s.1.allocateFileNumber.2, s.2) :=
  ⟨h.manifest, h.recovers.current, h.recovers.lastSequence, h.recovers.logNumber⟩

theorem Recorded.recover (h : Recorded crc32c maxLevels us s) (chunks : Nat → Nat) :
    VersionSet.recover crc32c maxLevels ⟨s.2.contents, chunks⟩ = .ok us ∧
      Recorded crc32c maxLevels us (us, s.2) := by
  obtain ⟨logged, hlogged, hfile, hreplay⟩ := h.manifest
  refine ⟨?_, h.manifest, rfl, rfl, rfl⟩
  rw [hfile, ← hreplay]
  exact recover_frames crc32c maxLevels hlogged chunks

theorem Recorded.length_levels (h : Recorded crc32c maxLevels us s) :
    us.current.levels.length = maxLevels := by
  obtain ⟨logged, -, -, hreplay⟩ := h.manifest
  rw [VersionSet.length_replay hreplay]
  exact List.length_replicate

theorem logEdit_eq (vs : VersionSet) (contents : Bytes) (edit : VersionEdit) :
    VersionSet.logEdit crc32c (vs, ⟨contents, none, none⟩) edit =
      (((vs.applyEdit edit).1, ⟨contents ++ walRecord crc32c edit.encode, none, none⟩),
        (vs.applyEdit edit).2) := by
  have happend := appends_manifest crc32c edit contents none
  have hwrite : writeAll (walRecord crc32c edit.encode) ⟨contents, none, none⟩ =
      .ok () ⟨contents ++ walRecord crc32c edit.encode, none, none⟩ := rfl
  rw [VersionSet.logEdit, happend, hwrite]

theorem frames_concat (logged : List VersionEdit) (edit : VersionEdit) :
    (walFraming crc32c).frames ((logged ++ [edit]).map VersionEdit.encode) =
      (walFraming crc32c).frames (logged.map VersionEdit.encode) ++
        walRecord crc32c edit.encode := by
  rw [List.map_append, Framing.frames_append]
  simp [walFraming, Framing.frames]

theorem Recorded.logEdit (h : Recorded crc32c maxLevels us s) {edit : VersionEdit}
    (hlog : edit.Loggable) (hfits : edit.LevelFits maxLevels) :
    (VersionSet.logEdit crc32c s edit).2 = .ok () ∧
      ∃ us', us.applyEdit edit = (us', .ok ()) ∧
        Recorded crc32c maxLevels us' (VersionSet.logEdit crc32c s edit).1 := by
  obtain ⟨vs, file⟩ := s
  obtain ⟨logged, hlogged, rfl, hreplay⟩ := h.manifest
  have hlen : vs.current.levels.length = maxLevels := by
    rw [← h.recovers.current]
    exact h.length_levels
  rw [logEdit_eq]
  rcases vs.applyEdit_cases edit with ⟨-, next, happly, -⟩ | ⟨hno, -⟩
  · obtain ⟨us', happly', hrecovers⟩ := h.recovers.applyEdit happly
    rw [happly]
    refine ⟨rfl, us', happly', ⟨logged ++ [edit], ?_, ?_, ?_⟩, hrecovers⟩
    · rintro e he
      rcases List.mem_append.mp he with he | he
      · exact hlogged e he
      · rw [List.mem_singleton.mp he]
        exact hlog
    · rw [frames_concat]
    · rw [VersionSet.replay_append, hreplay]
      simp only [Except.bind, VersionSet.replay, happly']
  · rw [hlen] at hno
    exact absurd hfits hno

theorem Recorded.runEdits (h : Recorded crc32c maxLevels us s) {edits : List VersionEdit}
    (hedits : ∀ edit ∈ edits, edit.Loggable ∧ edit.LevelFits maxLevels) :
    ∃ us', us.replay (acceptedEdits crc32c s edits) = .ok us' ∧
      Recorded crc32c maxLevels us' (runEdits crc32c s edits) := by
  induction edits generalizing us s with
  | nil => exact ⟨us, rfl, h⟩
  | cons edit edits ih =>
    have hedit := hedits edit (by simp)
    obtain ⟨hok, us₁, happly, h₁⟩ := h.logEdit hedit.1 hedit.2
    obtain ⟨us', hreplay, h'⟩ := ih h₁ fun e he => hedits e (by simp [he])
    refine ⟨us', ?_, h'⟩
    have hpair : VersionSet.logEdit crc32c s edit =
        ((VersionSet.logEdit crc32c s edit).1, .ok ()) := Prod.ext rfl hok
    rw [acceptedEdits, hpair]
    simp only [VersionSet.replay, happly]
    exact hreplay

theorem Recorded.recover_rejected (h : Recorded crc32c maxLevels us s) {edit : VersionEdit}
    (hlog : edit.Loggable) (hno : ¬ edit.LevelFits maxLevels) (chunks : Nat → Nat) :
    ∃ err, VersionSet.recover crc32c maxLevels
      ⟨(VersionSet.logEdit crc32c s edit).1.2.contents, chunks⟩ = .error err := by
  obtain ⟨vs, file⟩ := s
  obtain ⟨logged, hlogged, rfl, hreplay⟩ := h.manifest
  rcases us.applyEdit_cases edit with ⟨hfits, -⟩ | ⟨-, next, err, happly⟩
  · rw [h.length_levels] at hfits
    exact absurd hfits hno
  · refine ⟨err, ?_⟩
    have hall : ∀ e ∈ logged ++ [edit], e.Loggable := by
      intro e he
      rcases List.mem_append.mp he with he | he
      · exact hlogged e he
      · rw [List.mem_singleton.mp he]
        exact hlog
    rw [logEdit_eq]
    dsimp only
    rw [← frames_concat, recover_frames crc32c maxLevels hall, VersionSet.replay_append, hreplay]
    simp only [Except.bind, VersionSet.replay, happly]

theorem runEdits_concat (edits : List VersionEdit) (edit : VersionEdit) :
    runEdits crc32c s (edits ++ [edit]) =
      (VersionSet.logEdit crc32c (runEdits crc32c s edits) edit).1 := by
  simp [runEdits, List.foldl_append]

theorem exists_first_not {α : Type} {P : α → Prop} {l : List α} (h : ¬ ∀ a ∈ l, P a) :
    ∃ pre a post, l = pre ++ a :: post ∧ (∀ b ∈ pre, P b) ∧ ¬ P a := by
  induction l with
  | nil => exact absurd (by simp) h
  | cons b l ih =>
    by_cases hb : P b
    · obtain ⟨pre, a, post, rfl, hpre, ha⟩ := ih fun hl => h (List.forall_mem_cons.mpr ⟨hb, hl⟩)
      exact ⟨b :: pre, a, post, rfl, List.forall_mem_cons.mpr ⟨hb, hpre⟩, ha⟩
    · exact ⟨[], b, l, rfl, by simp, hb⟩

/-- The manifest stays recoverable exactly if every edit names a level that is there. -/
theorem rejected_edits_recoverable_iff (h : Recorded crc32c maxLevels us s)
    {edits : List VersionEdit} (hfits : ∀ edit ∈ edits, edit.Fits) :
    Recoverable crc32c maxLevels us s edits ↔ ∀ edit ∈ edits, edit.LevelFits maxLevels := by
  constructor
  · intro hrec
    by_contra hno
    obtain ⟨pre, edit, post, rfl, hpre, hedit⟩ := exists_first_not hno
    obtain ⟨us₁, -, h₁⟩ := h.runEdits fun e he => ⟨(hfits e (by simp [he])).loggable, hpre e he⟩
    obtain ⟨err, herr⟩ := h₁.recover_rejected (hfits edit (by simp)).loggable hedit fun _ => 0
    obtain ⟨us', hok, -⟩ := hrec.recovers (pre ++ [edit]) post (by simp) fun _ => 0
    rw [runEdits_concat, herr] at hok
    cases hok
  · intro hlevels
    constructor
    · rintro pre edit post err rfl herr
      have hpre : ∀ e ∈ pre, e.Loggable ∧ e.LevelFits maxLevels :=
        fun e he => ⟨(hfits e (by simp [he])).loggable, hlevels e (by simp [he])⟩
      obtain ⟨us₁, -, h₁⟩ := h.runEdits hpre
      have hok := (h₁.logEdit (hfits edit (by simp)).loggable (hlevels edit (by simp))).1
      rw [herr] at hok
      cases hok
    · rintro pre post rfl chunks
      have hpre : ∀ e ∈ pre, e.Loggable ∧ e.LevelFits maxLevels :=
        fun e he => ⟨(hfits e (by simp [he])).loggable, hlevels e (by simp [he])⟩
      obtain ⟨us', hreplay, h'⟩ := h.runEdits hpre
      exact ⟨us', (h'.recover chunks).1, hreplay, h'.recovers⟩

end

theorem rejected_edits_recoverable_small :
    Recoverable castagnoli 7 (.newEmpty 7) (VersionSet.create castagnoli 7)
        [.addFile 6 fileNine] ↔
      ∀ edit ∈ [VersionEdit.addFile 6 fileNine], edit.LevelFits 7 := by
  have hfits : (VersionEdit.addFile 6 fileNine).Fits := by
    refine ⟨fileNine_loggable (by norm_num), fun number hnumber => ?_⟩
    obtain rfl := Option.some.inj hnumber
    decide
  exact rejected_edits_recoverable_iff recorded_create (by simpa using hfits)

/-- A file added behind the last level raises the next file number and ends every recovery. -/
theorem rejected_edit_stays_in_manifest :
    let s := VersionSet.create castagnoli 7
    let edit := VersionEdit.addFile 7 fileNine
    (VersionSet.logEdit castagnoli s edit).2 = .error (invalidLevel 7) ∧
      s.1.nextFileNumber = 2 ∧ (VersionSet.logEdit castagnoli s edit).1.1.nextFileNumber = 10 ∧
      (∃ err, VersionSet.recover castagnoli 7
        ⟨(VersionSet.logEdit castagnoli s edit).1.2.contents, fun _ => 0⟩ = .error err) ∧
      ¬ Recoverable castagnoli 7 (.newEmpty 7) s [edit] := by
  intro s edit
  have hcreated : Recorded castagnoli 7 (.newEmpty 7) (VersionSet.create castagnoli 7) :=
    recorded_create
  have hrejected := hcreated.recover_rejected (fileNine_loggable (by norm_num))
    (show ¬ edit.LevelFits 7 by simp [edit, VersionEdit.LevelFits]) fun _ => 0
  refine ⟨by rfl, by rfl, by rfl, hrejected, fun h => ?_⟩
  obtain ⟨err, herr⟩ := hrejected
  obtain ⟨us', hok, -⟩ := h.recovers [edit] [] rfl fun _ => 0
  rw [← List.nil_append [edit], runEdits_concat] at hok
  exact absurd (herr.symm.trans hok) (by simp)

end TyLsm
