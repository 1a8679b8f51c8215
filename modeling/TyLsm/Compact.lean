import TyLsm.Version
import TyLsm.DBIterator

/-! Compaction without the file system: which files a task takes, which entries
survive the merge, and how the survivors are cut into output files. -/

namespace TyLsm

structure CompactionTask where
  inputLevel : Nat
  outputLevel : Nat
  inputFiles : List FileMeta
  overlapFiles : List FileMeta
  smallestUserKey : Bytes
  largestUserKey : Bytes
  isManual : Bool
  deriving DecidableEq, Repr

namespace CompactionTask

def allInputFiles (task : CompactionTask) : List FileMeta := task.inputFiles ++ task.overlapFiles

def isTrivialMove (task : CompactionTask) : Bool :=
  decide (0 < task.inputLevel) && task.inputFiles.length == 1 && task.overlapFiles.isEmpty

end CompactionTask

def FileMeta.userKeyOverlaps (file : FileMeta) (smallest largest : Bytes) : Bool :=
  decide (file.smallest.userKey ≤ largest) && decide (smallest ≤ file.largest.userKey)

/-- The hull of the files' key ranges. The source panics on an empty list, which
no caller passes. -/
def userKeyRange : List FileMeta → Bytes × Bytes
  | [] => ([], [])
  | file :: files =>
    (files.foldl (fun key f => min key f.smallest.userKey) file.smallest.userKey,
      files.foldl (fun key f => max key f.largest.userKey) file.largest.userKey)

def fileOverlapsRange (file : FileMeta) (lower upper : Bound) : Bool :=
  lower.lowerOk file.largest.userKey && upper.upperOk file.smallest.userKey

namespace CompactionPicker

def taskForFiles (version : Version) (inputLevel : Nat) (inputFiles : List FileMeta)
    (isManual : Bool) : CompactionTask :=
  let outputLevel := min (inputLevel + 1) (version.levels.length - 1)
  let inputRange := userKeyRange inputFiles
  let overlapFiles :=
    match version.levels[outputLevel]? with
    | some level =>
      if inputLevel = 0 then level
      else level.filter (fun file => file.userKeyOverlaps inputRange.1 inputRange.2)
    | none => []
  let range :=
    if overlapFiles.isEmpty then inputRange else userKeyRange (inputFiles ++ overlapFiles)
  ⟨inputLevel, outputLevel, inputFiles, overlapFiles, range.1, range.2, isManual⟩

def pickL0Manual (version : Version) (lower upper : Bound) : Option CompactionTask :=
  let files := version.l0Files.filter (fun file => fileOverlapsRange file lower upper)
  if files.isEmpty then none else some (taskForFiles version 0 files true)

def pickManual (version : Version) (lower upper : Bound) : Option CompactionTask :=
  match pickL0Manual version lower upper with
  | some task => some task
  | none =>
    (List.range' 1 (version.levels.length - 1 - 1)).findSome? (fun level =>
      ((version.levels.getD level []).find? (fun file => fileOverlapsRange file lower upper)).map
        (fun file => taskForFiles version level [file] true))

end CompactionPicker

/-- No level below the output level reaches into the task's key range. -/
def canDropTombstones (current : Version) (task : CompactionTask) : Bool :=
  !((current.levels.drop (task.outputLevel + 1)).flatten.any (fun file =>
    file.userKeyOverlaps task.smallestUserKey task.largestUserKey))

def compactLoop (gcWatermark : Nat) (dropTombstones : Bool) : List Bytes → List Entry → List Entry
  | _, [] => []
  | seen, (key, value) :: rest =>
    if gcWatermark < key.sequence then
      (key, value) :: compactLoop gcWatermark dropTombstones seen rest
    else if seen.contains key.userKey then compactLoop gcWatermark dropTombstones seen rest
    else
      let seen := key.userKey :: seen
      match value with
      | .put value =>
        (key, .put value) :: compactLoop gcWatermark dropTombstones seen rest
      | .delete =>
        if dropTombstones then compactLoop gcWatermark dropTombstones seen rest
        else (key, .delete) :: compactLoop gcWatermark dropTombstones seen rest

def compactEntries (entries : List Entry) (gcWatermark : Nat) (dropTombstones : Bool) :
    List Entry :=
  compactLoop gcWatermark dropTombstones [] (sortEntries entries)

def estimateEntrySize (entry : Entry) : Nat :=
  entry.1.userKey.length + sizeOfInternalKey + entry.2.bytes.length

/-- The loop of `split_compaction_entries`. An empty previous key counts as a change of key. -/
def splitLoop (targetFileSize maxOutputs : Nat) : List (List Entry) → List Entry → Nat → Bytes →
    List Entry → List (List Entry)
  | chunks, current, _, _, [] => if current.isEmpty then chunks else chunks ++ [current]
  | chunks, current, currentSize, previousUserKey, entry :: rest =>
    let entrySize := estimateEntrySize entry
    let userKeyChanged := previousUserKey.isEmpty || previousUserKey != entry.1.userKey
    if !current.isEmpty && userKeyChanged && decide (targetFileSize ≤ currentSize) &&
        decide (chunks.length + 1 < maxOutputs) then
      splitLoop targetFileSize maxOutputs (chunks ++ [current]) [entry] entrySize
        entry.1.userKey rest
    else
      splitLoop targetFileSize maxOutputs chunks (current ++ [entry]) (currentSize + entrySize)
        entry.1.userKey rest

def splitCompactionEntries (entries : List Entry) (targetFileSize maxOutputs : Nat) :
    List (List Entry) :=
  splitLoop (max targetFileSize 1) (max maxOutputs 1) [] [] 0 [] entries

theorem compactLoop_sublist (w : Nat) (drop : Bool) (seen : List Bytes) (l : List Entry) :
    (compactLoop w drop seen l).Sublist l := by
  induction l generalizing seen with
  | nil => exact List.Sublist.refl _
  | cons e l ih =>
    obtain ⟨key, value⟩ := e
    by_cases hseq : w < key.sequence
    · simp only [compactLoop, hseq, if_true]
      exact (ih _).cons_cons _
    · by_cases hs : seen.contains key.userKey = true
      · simp only [compactLoop, hseq, hs, if_true, if_false]
        exact (ih _).cons _
      · simp only [compactLoop, hseq, hs, if_false]
        cases value with
        | put value => exact (ih _).cons_cons _
        | delete =>
          cases drop with
          | true => exact (ih _).cons _
          | false => exact (ih _).cons_cons _

/-- An entry survives when it is newer than the watermark, or when it is the
newest of its key up to the watermark and not a tombstone to drop. -/
theorem mem_compactLoop {w : Nat} {drop : Bool} {seen : List Bytes} {l : List Entry} {e : Entry} :
    e ∈ compactLoop w drop seen l ↔ e ∈ l ∧ (w < e.1.sequence ∨
      e.1.userKey ∉ seen ∧ newest e.1.userKey w l = some e ∧ ¬(drop = true ∧ e.2 = .delete)) := by
  induction l generalizing seen with
  | nil => simp [compactLoop]
  | cons a l ih =>
    obtain ⟨key, value⟩ := a
    have hpass : ¬ (key.userKey = e.1.userKey ∧ key.sequence ≤ w) →
        newest e.1.userKey w ((key, value) :: l) = newest e.1.userKey w l := by
      intro hno
      simp only [newest, List.find?_cons, entry_key, entry_rank, hno, decide_false]
    by_cases hseq : w < key.sequence
    · rw [hpass fun h => absurd h.2 (Nat.not_le.mpr hseq)]
      simp only [compactLoop, hseq, if_true, List.mem_cons, ih]
      constructor
      · rintro (rfl | ⟨hm, h⟩)
        · exact ⟨.inl rfl, .inl hseq⟩
        · exact ⟨.inr hm, h⟩
      · rintro ⟨rfl | hm, h⟩
        · exact .inl rfl
        · exact .inr ⟨hm, h⟩
    · by_cases hk : key.userKey = e.1.userKey
      · have hhit : newest e.1.userKey w ((key, value) :: l) = some (key, value) := by
          simp [newest, hk, Nat.not_lt.mp hseq]
        rw [hhit]
        have hne : w < e.1.sequence → e ≠ (key, value) := by
          rintro h rfl
          exact hseq h
        by_cases hs : key.userKey ∈ seen
        · have hs' : e.1.userKey ∈ seen := hk ▸ hs
          simp only [compactLoop, hseq, if_false, List.contains_eq_mem, hs, decide_true, if_true,
            ih, hs', not_true, false_and, or_false, List.mem_cons]
          exact ⟨fun h => ⟨.inr h.1, h.2⟩, fun h => ⟨h.1.resolve_left (hne h.2), h.2⟩⟩
        · have hs' : e.1.userKey ∉ seen := hk ▸ hs
          have hrest : e ∈ compactLoop w drop (key.userKey :: seen) l ↔
              e ∈ l ∧ w < e.1.sequence := by
            rw [ih]
            simp [hk]
          -- the entry itself is kept unless it is a tombstone to drop
          have hkeep : e ∈ compactLoop w drop seen ((key, value) :: l) ↔
              (e = (key, value) ∧ ¬(drop = true ∧ value = .delete)) ∨ e ∈ l ∧ w < e.1.sequence := by
            cases value with
            | put value => simp [compactLoop, hseq, hs, hrest]
            | delete => cases drop <;> simp [compactLoop, hseq, hs, hrest]
          rw [hkeep, List.mem_cons]
          constructor
          · rintro (⟨rfl, h⟩ | ⟨hm, h⟩)
            · exact ⟨.inl rfl, .inr ⟨hs', rfl, h⟩⟩
            · exact ⟨.inr hm, .inl h⟩
          · rintro ⟨hm, h | ⟨_, h, hd⟩⟩
            · exact .inr ⟨hm.resolve_left (hne h), h⟩
            · obtain rfl := Option.some.inj h
              exact .inl ⟨rfl, hd⟩
      · rw [hpass fun h => hk h.1]
        have hne : e ≠ (key, value) := by
          rintro rfl
          exact hk rfl
        have hk' : e.1.userKey ≠ key.userKey := fun h => hk h.symm
        simp only [List.mem_cons, hne, false_or]
        by_cases hs : key.userKey ∈ seen
        · simp [compactLoop, hseq, hs, ih]
        · cases value with
          | put value => simp [compactLoop, hseq, hs, ih, hne, hk']
          | delete => cases drop <;> simp [compactLoop, hseq, hs, ih, hne, hk']

theorem mem_compactEntries {entries : List Entry} {w : Nat} {drop : Bool} {e : Entry} :
    e ∈ compactEntries entries w drop ↔ e ∈ entries ∧ (w < e.1.sequence ∨
      newest e.1.userKey w (sortEntries entries) = some e ∧ ¬(drop = true ∧ e.2 = .delete)) := by
  simp [compactEntries, mem_compactLoop]

theorem compactEntries_rising (entries : List Entry) (w : Nat) (drop : Bool) :
    Rising (compactEntries entries w drop) :=
  List.Pairwise.sublist (compactLoop_sublist w drop [] _) (rising_sortEntries entries)

theorem splitLoop_flatten (target maxOutputs : Nat) (chunks : List (List Entry))
    (current : List Entry) (size : Nat) (previous : Bytes) (rest : List Entry) :
    (splitLoop target maxOutputs chunks current size previous rest).flatten =
      chunks.flatten ++ current ++ rest := by
  induction rest generalizing chunks current size previous with
  | nil =>
    simp only [splitLoop]
    cases current <;> simp
  | cons e rest ih =>
    simp only [splitLoop]
    split <;> simp [ih]

theorem splitCompactionEntries_flatten (entries : List Entry) (target maxOutputs : Nat) :
    (splitCompactionEntries entries target maxOutputs).flatten = entries := by
  simp [splitCompactionEntries, splitLoop_flatten]

theorem splitLoop_ne_nil {target maxOutputs : Nat} {chunks : List (List Entry)}
    {current : List Entry} {size : Nat} {previous : Bytes} {rest : List Entry}
    (h : ∀ c ∈ chunks, c ≠ []) :
    ∀ c ∈ splitLoop target maxOutputs chunks current size previous rest, c ≠ [] := by
  induction rest generalizing chunks current size previous with
  | nil =>
    simp only [splitLoop]
    split
    · exact h
    · rename_i hne
      intro c hc
      rcases List.mem_append.mp hc with hc | hc
      · exact h c hc
      · rw [List.mem_singleton.mp hc]
        simpa using hne
  | cons e rest ih =>
    simp only [splitLoop]
    split
    · rename_i hsplit
      refine ih fun c hc => ?_
      rcases List.mem_append.mp hc with hc | hc
      · exact h c hc
      · rw [List.mem_singleton.mp hc]
        simp only [Bool.and_eq_true, Bool.not_eq_true', List.isEmpty_eq_false_iff] at hsplit
        exact hsplit.1.1.1
    · exact ih h

theorem splitCompactionEntries_ne_nil {entries : List Entry} {target maxOutputs : Nat} :
    ∀ c ∈ splitCompactionEntries entries target maxOutputs, c ≠ [] :=
  splitLoop_ne_nil (by simp)

/-- The key ranges of two chunks, the first one lower. -/
def KeysBelow (l r : List Entry) : Prop := ∀ a ∈ l, ∀ b ∈ r, a.1.userKey < b.1.userKey

/-- The size of all versions of the empty key but the last. -/
def emptyKeySize (entries : List Entry) : Nat :=
  ((entries.filter (fun e => e.1.userKey.isEmpty)).dropLast.map estimateEntrySize).sum

theorem Rising.filter_isEmpty {l r : List Entry} {e : Entry} (h : Rising (l ++ e :: r))
    (he : e.1.userKey = []) : l.filter (fun e => e.1.userKey.isEmpty) = l := by
  refine List.filter_eq_self.mpr fun a ha => ?_
  have hle := InternalKey.userKey_le_of_le ((List.pairwise_append.mp h).2.2 a ha e (by simp))
  rw [he] at hle
  exact List.isEmpty_iff.mpr (le_antisymm hle (not_lt.mp (List.not_lt_nil _)))

theorem le_emptyKeySize {current rest : List Entry} {e : Entry}
    (hrise : Rising (current ++ e :: rest)) (he : e.1.userKey = []) :
    (current.map estimateEntrySize).sum ≤ emptyKeySize (current ++ e :: rest) := by
  have hcur : current.filter (fun e => e.1.userKey.isEmpty) = current := hrise.filter_isEmpty he
  have hfilter : (current ++ e :: rest).filter (fun e => e.1.userKey.isEmpty) =
      current ++ e :: rest.filter (fun e => e.1.userKey.isEmpty) := by
    rw [List.filter_append, hcur, List.filter_cons]
    simp [he]
  rw [emptyKeySize, hfilter, List.dropLast_append_of_ne_nil (by simp), List.map_append,
    List.sum_append]
  exact Nat.le_add_right _ _

/-- A cut never separates two versions of a user key, provided that no outgoing cut can be
made, or that the versions of the empty key do not fill a file before the last of them. -/
theorem splitLoop_keysBelow {target maxOutputs : Nat} {chunks : List (List Entry)}
    {current : List Entry} {size : Nat} {previous : Bytes} {rest : List Entry}
    (hrise : Rising (current ++ rest))
    (hsafe : maxOutputs ≤ 1 ∨ (∀ e ∈ current ++ rest, e.1.userKey ≠ []) ∨
      size = (current.map estimateEntrySize).sum ∧ emptyKeySize (current ++ rest) < target)
    (hprev : ∀ last, current.getLast? = some last → previous = last.1.userKey)
    (hchunks : chunks.Pairwise KeysBelow) (hbelow : ∀ c ∈ chunks, KeysBelow c (current ++ rest)) :
    (splitLoop target maxOutputs chunks current size previous rest).Pairwise KeysBelow := by
  induction rest generalizing chunks current size previous with
  | nil =>
    simp only [splitLoop]
    split
    · exact hchunks
    · refine List.pairwise_append.mpr ⟨hchunks, List.pairwise_singleton _ _, fun c hc d hd => ?_⟩
      rw [List.mem_singleton.mp hd]
      simpa using hbelow c hc
  | cons e rest ih =>
    simp only [splitLoop]
    split
    · rename_i hsplit
      simp only [Bool.and_eq_true, Bool.not_eq_true', List.isEmpty_eq_false_iff,
        decide_eq_true_eq] at hsplit
      obtain ⟨⟨⟨hne, hchanged⟩, hfull⟩, hcount⟩ := hsplit
      obtain ⟨last, hlast⟩ : ∃ last, current.getLast? = some last :=
        ⟨_, List.getLast?_eq_some_getLast hne⟩
      obtain ⟨init, hinit⟩ := List.getLast?_eq_some_iff.mp hlast
      -- the last key before the cut differs from the first key after it
      have hdiff : last.1.userKey ≠ e.1.userKey := by
        intro heq
        rw [hprev last hlast] at hchanged
        have hnil : last.1.userKey = [] := by simpa [heq] using hchanged
        rcases hsafe.resolve_left (by omega) with hno | ⟨hsize, hfits⟩
        · exact hno last (by simp [hinit]) hnil
        · have := le_emptyKeySize hrise (heq ▸ hnil)
          omega
      have hcut : KeysBelow current (e :: rest) := by
        intro a ha b hb
        have hale : a.1.userKey ≤ last.1.userKey := by
          have hcur := (List.pairwise_append.mp hrise).1
          rw [hinit] at ha hcur
          rcases List.mem_append.mp ha with ha | ha
          · exact InternalKey.userKey_le_of_le
              ((List.pairwise_append.mp hcur).2.2 a ha last (by simp))
          · rw [List.mem_singleton.mp ha]
        have hlt : last.1.userKey < e.1.userKey :=
          lt_of_le_of_ne (InternalKey.userKey_le_of_le
            ((List.pairwise_append.mp hrise).2.2 last (by simp [hinit]) e (by simp))) hdiff
        have heb : e.1.userKey ≤ b.1.userKey := by
          rcases List.mem_cons.mp hb with rfl | hb
          · exact le_rfl
          · exact InternalKey.userKey_le_of_le
              ((List.pairwise_cons.mp (List.pairwise_append.mp hrise).2.1).1 b hb)
        exact lt_of_le_of_lt hale (lt_of_lt_of_le hlt heb)
      refine @ih _ [e] _ _ ?_ ?_ ?_ ?_ ?_
      · exact (List.pairwise_append.mp hrise).2.1
      · -- the keys after the cut are above the empty one
        refine .inr (.inl fun b hb hnil => ?_)
        have := hcut last (by simp [hinit]) b (by simpa using hb)
        rw [hnil] at this
        exact absurd this (List.not_lt_nil _)
      · rintro last hl
        simp only [List.getLast?_singleton, Option.some.injEq] at hl
        rw [hl]
      · refine List.pairwise_append.mpr ⟨hchunks, List.pairwise_singleton _ _, fun c hc d hd => ?_⟩
        rw [List.mem_singleton.mp hd]
        exact fun a ha b hb => hbelow c hc a ha b (by simp [hb])
      · intro c hc
        rcases List.mem_append.mp hc with hc | hc
        · exact fun a ha b hb => hbelow c hc a ha b (List.mem_append.mpr (.inr (by simpa using hb)))
        · rw [List.mem_singleton.mp hc]
          simpa using hcut
    · refine ih (by simpa using hrise) ?_ ?_ hchunks (by simpa using hbelow)
      · rcases hsafe with h | h | ⟨hsize, hfits⟩
        · exact .inl h
        · exact .inr (.inl (by simpa using h))
        · exact .inr (.inr ⟨by simp [hsize], by simpa using hfits⟩)
      · rintro last hl
        simp only [List.getLast?_append, List.getLast?_singleton, Option.some_or,
          Option.some.injEq] at hl
        rw [hl]

theorem splitCompactionEntries_keysBelow {entries : List Entry} {target maxOutputs : Nat}
    (hrise : Rising entries) (hsafe : maxOutputs ≤ 1 ∨ emptyKeySize entries < max target 1) :
    (splitCompactionEntries entries target maxOutputs).Pairwise KeysBelow := by
  refine splitLoop_keysBelow (by simpa using hrise) ?_ (by simp) List.Pairwise.nil (by simp)
  rcases hsafe with h | h
  · exact .inl (by omega)
  · exact .inr (.inr ⟨rfl, by simpa using h⟩)

theorem emptyKeySize_eq_zero {entries : List Entry}
    (h : entries.Pairwise (fun a b => a.1.userKey = [] → b.1.userKey ≠ [])) :
    emptyKeySize entries = 0 := by
  have hpw := h.sublist (List.filter_sublist (p := fun e : Entry => e.1.userKey.isEmpty))
  have hnil : ∀ e ∈ entries.filter (fun e => e.1.userKey.isEmpty), e.1.userKey = [] :=
    fun e he => List.isEmpty_iff.mp (List.mem_filter.mp he).2
  rw [emptyKeySize]
  generalize entries.filter (fun e => e.1.userKey.isEmpty) = l at hpw hnil ⊢
  match l, hpw, hnil with
  | [], _, _ => rfl
  | [e], _, _ => rfl
  | e :: e' :: l, hpw, hnil =>
    exact absurd (hnil e' (by simp))
      ((List.pairwise_cons.mp hpw).1 e' (by simp) (hnil e (by simp)))

end TyLsm
