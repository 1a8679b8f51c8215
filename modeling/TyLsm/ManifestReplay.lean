import TyLsm.TornTail

/-! The version set and the bytes of its manifest. Every accepted edit is appended to the
manifest before it is applied, so that reading the manifest gives back the version set. -/

namespace TyLsm

section

variable (crc32c : Bytes → UInt32)

namespace VersionSet

/-- A new version set with its manifest. -/
def create (maxLevels : Nat) : VersionSet × WritableFile :=
  (newEmpty maxLevels, ⟨manifestFile crc32c [] createEdits, none, none⟩)

/-- The manifest is the one that `CURRENT` names. -/
def recover (maxLevels : Nat) (manifest : ReadableFile) : Except Error VersionSet := do
  let edits ← ManifestReader.readAll crc32c manifest
  (newEmpty maxLevels).replay edits

def allocateFileNumber (vs : VersionSet) : Nat × VersionSet :=
  (vs.nextFileNumber, { vs with nextFileNumber := vs.nextFileNumber + 1 })

def logAndApply (vs : VersionSet) (manifest : WritableFile) (edit : VersionEdit) :
    Except Error (VersionSet × WritableFile) :=
  match ManifestWriter.append crc32c edit manifest with
  | .error err _ => .error err
  | .ok _ manifest =>
    match vs.applyEdit edit with
    | (_, .error err) => .error err
    | (vs, .ok ()) => .ok (vs, manifest)

end VersionSet

inductive VersionStep where
  | logAndApply (edit : VersionEdit)
  | allocateFileNumber

def VersionStep.run (s : VersionSet × WritableFile) :
    VersionStep → Except Error (VersionSet × WritableFile)
  | logAndApply edit => s.1.logAndApply crc32c s.2 edit
  | allocateFileNumber => .ok (s.1.allocateFileNumber.2, s.2)

/-- The steps of a run, each of which is accepted. -/
def runVersionSteps (s : VersionSet × WritableFile) (steps : List VersionStep) :
    Except Error (VersionSet × WritableFile) :=
  steps.foldlM (VersionStep.run crc32c) s

end

def VersionStep.edit? : VersionStep → Option VersionEdit
  | logAndApply edit => some edit
  | allocateFileNumber => none

/-- The edits of a run. -/
def loggedEdits (steps : List VersionStep) : List VersionEdit := steps.filterMap VersionStep.edit?

/-- What a version set read from the manifest has in common with the one in memory. -/
structure VersionSet.Recovers (us vs : VersionSet) : Prop where
  current : us.current = vs.current
  lastSequence : us.lastSequence = vs.lastSequence
  logNumber : us.logNumber = vs.logNumber

theorem VersionSet.Recovers.applyEdit {us vs vs' : VersionSet} (h : us.Recovers vs)
    {edit : VersionEdit} (hstep : vs.applyEdit edit = (vs', .ok ())) :
    ∃ us', us.applyEdit edit = (us', .ok ()) ∧ us'.Recovers vs' := by
  obtain ⟨hcur, hseq, hlog⟩ := h
  cases edit with
  | nextFileNumber number =>
    obtain rfl := (Prod.mk.inj hstep).1
    exact ⟨_, rfl, hcur, hseq, hlog⟩
  | lastSequence sequence =>
    obtain rfl := (Prod.mk.inj hstep).1
    exact ⟨_, rfl, hcur, by simp only [hseq], hlog⟩
  | logNumber number =>
    obtain rfl := (Prod.mk.inj hstep).1
    exact ⟨_, rfl, hcur, hseq, rfl⟩
  | addFile level file =>
    simp only [VersionSet.applyEdit] at hstep ⊢
    rw [hcur]
    cases hadd : vs.current.addFile level file with
    | error err =>
      rw [hadd] at hstep
      cases (Prod.mk.inj hstep).2
    | ok next =>
      rw [hadd] at hstep
      obtain rfl := (Prod.mk.inj hstep).1
      exact ⟨_, rfl, rfl, hseq, hlog⟩
  | deleteFile level number =>
    simp only [VersionSet.applyEdit] at hstep ⊢
    rw [hcur]
    cases hdel : vs.current.deleteFile level number with
    | error err =>
      rw [hdel] at hstep
      cases (Prod.mk.inj hstep).2
    | ok next =>
      rw [hdel] at hstep
      obtain rfl := (Prod.mk.inj hstep).1
      exact ⟨_, rfl, rfl, hseq, hlog⟩

/-- The numbers that an edit takes out of use. -/
def VersionEdit.uses : VersionEdit → Option Nat
  | logNumber number => some number
  | addFile _ file => some file.number
  | _ => none

theorem VersionSet.le_applyEdit {vs vs' : VersionSet} {edit : VersionEdit}
    (h : vs.applyEdit edit = (vs', .ok ())) : vs.nextFileNumber ≤ vs'.nextFileNumber ∧
      ∀ number, edit.uses = some number → number < vs'.nextFileNumber := by
  cases edit with
  | nextFileNumber number =>
    obtain rfl := (Prod.mk.inj h).1
    exact ⟨le_max_left _ _, fun number' hn => by cases hn⟩
  | lastSequence sequence =>
    obtain rfl := (Prod.mk.inj h).1
    exact ⟨le_rfl, fun number' hn => by cases hn⟩
  | logNumber number =>
    obtain rfl := (Prod.mk.inj h).1
    refine ⟨le_max_left _ _, fun number' hn => ?_⟩
    obtain rfl := Option.some.inj hn
    exact lt_of_lt_of_le (Nat.lt_succ_self _) (le_max_right _ _)
  | addFile level file =>
    simp only [VersionSet.applyEdit] at h
    split at h
    · obtain rfl := (Prod.mk.inj h).1
      refine ⟨le_max_left _ _, fun number' hn => ?_⟩
      obtain rfl := Option.some.inj hn
      exact lt_of_lt_of_le (Nat.lt_succ_self _) (le_max_right _ _)
    · cases (Prod.mk.inj h).2
  | deleteFile level number =>
    simp only [VersionSet.applyEdit] at h
    split at h
    · obtain rfl := (Prod.mk.inj h).1
      exact ⟨le_rfl, fun number' hn => by cases hn⟩
    · cases (Prod.mk.inj h).2

theorem VersionSet.lt_replay {vs vs' : VersionSet} {edits : List VersionEdit}
    (h : vs.replay edits = .ok vs') : vs.nextFileNumber ≤ vs'.nextFileNumber ∧
      ∀ edit ∈ edits, ∀ number, edit.uses = some number → number < vs'.nextFileNumber := by
  induction edits generalizing vs with
  | nil =>
    obtain rfl := Except.ok.inj h
    exact ⟨le_rfl, by simp⟩
  | cons edit edits ih =>
    rw [VersionSet.replay] at h
    split at h
    · rename_i next happly
      obtain ⟨hle, huses⟩ := VersionSet.le_applyEdit happly
      obtain ⟨hle', huses'⟩ := ih h
      refine ⟨hle.trans hle', fun e he number hn => ?_⟩
      rcases List.mem_cons.mp he with rfl | he
      · exact lt_of_lt_of_le (huses number hn) hle'
      · exact huses' e he number hn
    · cases h

section

variable (crc32c : Bytes → UInt32)

theorem logAndApply_eq {vs vs' : VersionSet} {contents : Bytes} {file : WritableFile}
    {edit : VersionEdit}
    (h : vs.logAndApply crc32c ⟨contents, none, none⟩ edit = .ok (vs', file)) :
    vs.applyEdit edit = (vs', .ok ()) ∧
      file = ⟨contents ++ walRecord crc32c edit.encode, none, none⟩ := by
  have happend := appends_manifest crc32c edit contents none
  have hwrite : writeAll (walRecord crc32c edit.encode) ⟨contents, none, none⟩ =
      .ok () ⟨contents ++ walRecord crc32c edit.encode, none, none⟩ := rfl
  rw [VersionSet.logAndApply, happend, hwrite] at h
  cases happly : vs.applyEdit edit with
  | mk next result =>
    cases result with
    | error err =>
      simp only [happly] at h
      cases h
    | ok u =>
      simp only [happly] at h
      obtain ⟨rfl, rfl⟩ := Prod.mk.inj (Except.ok.inj h)
      exact ⟨rfl, rfl⟩

theorem runVersionSteps_spec {steps : List VersionStep} {vs vs' us : VersionSet}
    {contents : Bytes} {file : WritableFile} (hus : us.Recovers vs)
    (h : runVersionSteps crc32c (vs, ⟨contents, none, none⟩) steps = .ok (vs', file)) :
    file = ⟨manifestFile crc32c contents (loggedEdits steps), none, none⟩ ∧
      ∃ us', us.replay (loggedEdits steps) = .ok us' ∧ us'.Recovers vs' := by
  induction steps generalizing vs us contents with
  | nil =>
    obtain ⟨rfl, rfl⟩ := Prod.mk.inj (Except.ok.inj h)
    exact ⟨by simp [manifestFile_eq, loggedEdits], us, rfl, hus⟩
  | cons step steps ih =>
    cases step with
    | allocateFileNumber =>
      have hus' : us.Recovers vs.allocateFileNumber.2 :=
        ⟨hus.current, hus.lastSequence, hus.logNumber⟩
      exact ih hus' h
    | logAndApply edit =>
      rw [runVersionSteps, List.foldlM_cons] at h
      cases hstep : vs.logAndApply crc32c ⟨contents, none, none⟩ edit with
      | error err =>
        simp only [VersionStep.run, hstep, bind, Except.bind] at h
        cases h
      | ok s =>
        obtain ⟨next, manifest⟩ := s
        obtain ⟨happly, rfl⟩ := logAndApply_eq crc32c hstep
        obtain ⟨us₁, happly', hus₁⟩ := hus.applyEdit happly
        simp only [VersionStep.run, hstep, bind, Except.bind] at h
        obtain ⟨hfile, us', hreplay, hus'⟩ := ih hus₁ h
        refine ⟨?_, us', ?_, hus'⟩
        · rw [hfile, manifestFile_eq, manifestFile_eq]
          simp [loggedEdits, VersionStep.edit?, walFraming, Framing.frames]
        · change us.replay (edit :: loggedEdits steps) = _
          rw [VersionSet.replay, happly']
          exact hreplay

theorem exists_prefix_filterMap {α β : Type} (f : α → Option β) (l : List α) (k : Nat) :
    ∃ pre post, l = pre ++ post ∧ pre.filterMap f = (l.filterMap f).take k := by
  induction l generalizing k with
  | nil => exact ⟨[], [], rfl, by simp⟩
  | cons a l ih =>
    cases hf : f a with
    | none =>
      obtain ⟨pre, post, rfl, hpre⟩ := ih k
      exact ⟨a :: pre, post, rfl, by simpa [hf] using hpre⟩
    | some b =>
      cases k with
      | zero => exact ⟨[], a :: l, rfl, rfl⟩
      | succ k =>
        obtain ⟨pre, post, rfl, hpre⟩ := ih k
        exact ⟨a :: pre, post, rfl, by simpa [hf] using hpre⟩

/-- A part of the manifest replays like the edits of a part of the run: those that `create`
writes leave a new version set as it is. -/
theorem replay_take (maxLevels : Nat) (steps : List VersionStep) (k : Nat) :
    ∃ pre post, steps = pre ++ post ∧ (VersionSet.newEmpty maxLevels).replay
      ((VersionSet.createEdits ++ loggedEdits steps).take k) =
        (VersionSet.newEmpty maxLevels).replay (loggedEdits pre) := by
  by_cases hk : k ≤ 3
  · refine ⟨[], steps, rfl, ?_⟩
    rw [List.take_append_of_le_length (by simpa [VersionSet.createEdits] using hk)]
    interval_cases k <;> rfl
  · obtain ⟨pre, post, hsplit, hpre⟩ := exists_prefix_filterMap VersionStep.edit? steps (k - 3)
    refine ⟨pre, post, hsplit, ?_⟩
    have hlong : VersionSet.createEdits.length ≤ k := (not_le.mp hk).le
    have hcreate : VersionSet.createEdits.take k = VersionSet.createEdits :=
      List.take_of_length_le hlong
    rw [List.take_append, VersionSet.replay_append, hcreate, VersionSet.replay_createEdits]
    exact congrArg _ hpre.symm

theorem loggable_encode {edits : List VersionEdit} (h : ∀ edit ∈ edits, edit.Loggable) :
    ∀ payload ∈ edits.map VersionEdit.encode, Loggable payload := by
  intro payload hmem
  obtain ⟨edit, hedit, rfl⟩ := List.mem_map.mp hmem
  exact (h edit hedit).payload

theorem createEdits_loggable : ∀ edit ∈ VersionSet.createEdits, edit.Loggable := by
  simp only [VersionSet.createEdits, List.forall_mem_cons, List.not_mem_nil, false_implies,
    implies_true, and_true]
  refine ⟨⟨?_, by decide⟩, ⟨?_, by decide⟩, ⟨?_, by decide⟩⟩ <;>
    norm_num [VersionEdit.Encodable]

theorem recover_frames (maxLevels : Nat) {edits : List VersionEdit}
    (h : ∀ edit ∈ edits, edit.Loggable) (chunks : Nat → Nat) :
    VersionSet.recover crc32c maxLevels
        ⟨(walFraming crc32c).frames (edits.map VersionEdit.encode), chunks⟩ =
      (VersionSet.newEmpty maxLevels).replay edits := by
  have hread := readAll_of_read crc32c ⟨(walFraming crc32c).frames _, chunks⟩
    (Framing.read_frames (loggable_encode h)) fun edit hmem => (h edit hmem).1
  rw [VersionSet.recover, hread]
  rfl

/-- Recovery from the manifest of a run of accepted edits gives back the version set, with
every used file number below the next one; and from any part of its bytes the version set
after a part of the run. -/
theorem manifest_replays {maxLevels : Nat} {steps : List VersionStep} {vs : VersionSet}
    {file : WritableFile} (hedits : ∀ edit ∈ loggedEdits steps, edit.Loggable)
    (h : runVersionSteps crc32c (VersionSet.create crc32c maxLevels) steps = .ok (vs, file)) :
    (∀ chunks, ∃ us, VersionSet.recover crc32c maxLevels ⟨file.contents, chunks⟩ = .ok us ∧
      us.Recovers vs ∧ ∀ edit ∈ loggedEdits steps, ∀ number, edit.uses = some number →
        number < us.nextFileNumber) ∧
    ∀ n chunks, ∃ us pre post vs' file',
      VersionSet.recover crc32c maxLevels ⟨file.contents.take n, chunks⟩ = .ok us ∧
      steps = pre ++ post ∧
      runVersionSteps crc32c (VersionSet.create crc32c maxLevels) pre = .ok (vs', file') ∧
      us.Recovers vs' := by
  have hnew : (VersionSet.newEmpty maxLevels).Recovers (.newEmpty maxLevels) := ⟨rfl, rfl, rfl⟩
  obtain ⟨rfl, us, hreplay, hus⟩ := runVersionSteps_spec crc32c hnew h
  have hall : ∀ edit ∈ VersionSet.createEdits ++ loggedEdits steps, edit.Loggable := by
    intro edit hmem
    rcases List.mem_append.mp hmem with hmem | hmem
    · exact createEdits_loggable edit hmem
    · exact hedits edit hmem
  have hvalid := loggable_encode hall
  have hcontents : manifestFile crc32c (manifestFile crc32c [] VersionSet.createEdits)
      (loggedEdits steps) = (walFraming crc32c).frames
        ((VersionSet.createEdits ++ loggedEdits steps).map VersionEdit.encode) := by
    rw [manifestFile_eq, manifestFile_eq, List.nil_append, List.map_append, Framing.frames_append]
  simp only [hcontents]
  constructor
  · intro chunks
    refine ⟨us, ?_, hus, (VersionSet.lt_replay hreplay).2⟩
    rw [recover_frames crc32c maxLevels hall chunks]
    rw [VersionSet.replay_append, VersionSet.replay_createEdits]
    exact hreplay
  · intro n chunks
    obtain ⟨k, -, hcomplete, -⟩ := (walFraming crc32c).complete_eq_take
      ((VersionSet.createEdits ++ loggedEdits steps).map VersionEdit.encode) n
    rw [← List.map_take] at hcomplete
    have hread := Framing.read_take (F := walFraming crc32c) hvalid n
    rw [hcomplete] at hread
    have hread := readAll_of_read crc32c ⟨_, chunks⟩ hread
      fun edit hmem => (hall edit (List.mem_of_mem_take hmem)).1
    obtain ⟨pre, post, rfl, htake⟩ := replay_take maxLevels steps k
    -- the run up to there is accepted as well
    rw [runVersionSteps, List.foldlM_append] at h
    cases hpre : runVersionSteps crc32c (VersionSet.create crc32c maxLevels) pre with
    | error err =>
      rw [runVersionSteps] at hpre
      rw [hpre] at h
      cases h
    | ok s =>
      obtain ⟨-, us', hreplay', hus'⟩ := runVersionSteps_spec crc32c hnew hpre
      refine ⟨us', pre, post, s.1, s.2, ?_, rfl, hpre, hus'⟩
      rw [VersionSet.recover, hread]
      change (VersionSet.newEmpty maxLevels).replay _ = _
      rw [htake]
      exact hreplay'

end

def fileNine : FileMeta := ⟨9, 1, ⟨[1], 1, .put⟩, ⟨[1], 1, .put⟩, 1, 1⟩

theorem fileNine_loggable {level : Nat} (h : level < 8) :
    (VersionEdit.addFile level fileNine).Loggable := by
  have hkey : fileNine.smallest.Encodable := ⟨by decide, by decide⟩
  have hfile : fileNine.Encodable := by
    constructor <;> first | exact hkey | decide
  refine ⟨⟨by omega, hfile⟩, ?_⟩
  interval_cases level <;> decide

/-- A file that is added to L0 and then moved to level 2. -/
theorem manifest_replays_small :
    let steps : List VersionStep := [.allocateFileNumber, .logAndApply (.logNumber 3),
      .logAndApply (.addFile 0 fileNine), .logAndApply (.addFile 2 fileNine),
      .logAndApply (.deleteFile 0 9), .logAndApply (.lastSequence 5)]
    ∃ vs file us,
      runVersionSteps castagnoli (VersionSet.create castagnoli 7) steps = .ok (vs, file) ∧
      VersionSet.recover castagnoli 7 ⟨file.contents, fun _ => 0⟩ = .ok us ∧
      us.current = ⟨[], [[], [], [fileNine], [], [], [], []]⟩ ∧ us.logNumber = 3 ∧
      us.lastSequence = 5 ∧ 9 < us.nextFileNumber := by
  intro steps
  have hend : (runVersionSteps castagnoli (VersionSet.create castagnoli 7) steps).toOption.map
      Prod.fst = some ⟨⟨[], [[], [], [fileNine], [], [], [], []]⟩, 10, 5, 3⟩ := by
    rfl
  have hedits : ∀ edit ∈ loggedEdits steps, edit.Loggable := by
    simp only [steps, loggedEdits, List.filterMap_cons, VersionStep.edit?, List.filterMap_nil,
      List.forall_mem_cons, List.not_mem_nil, false_implies, implies_true, and_true]
    refine ⟨⟨?_, by decide⟩, fileNine_loggable (by norm_num), fileNine_loggable (by norm_num),
      ⟨?_, by decide⟩, ⟨?_, by decide⟩⟩ <;> norm_num [VersionEdit.Encodable]
  cases hrun : runVersionSteps castagnoli (VersionSet.create castagnoli 7) steps with
  | error err =>
    rw [hrun] at hend
    cases hend
  | ok s =>
    obtain ⟨vs, file⟩ := s
    rw [hrun] at hend
    obtain rfl := Option.some.inj hend
    obtain ⟨us, hrecover, hus, huses⟩ := (manifest_replays castagnoli hedits hrun).1 fun _ => 0
    exact ⟨_, file, us, rfl, hrecover, hus.current, hus.logNumber, hus.lastSequence,
      huses (.addFile 2 fileNine) (by decide) 9 rfl⟩

end TyLsm
