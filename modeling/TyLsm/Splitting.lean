import TyLsm.Compact

/-! Cutting the survivors of a compaction into output files: exactly when the cuts respect
user keys. The loop takes an empty previous key for the absence of one, so the versions of
the empty key may be torn apart. -/

namespace TyLsm

/-- No user key occurs in both chunks. -/
def KeysDisjoint (l r : List Entry) : Prop := ∀ a ∈ l, ∀ b ∈ r, a.1.userKey ≠ b.1.userKey

/-- What the split of `entries` into at most `maxOutputs` chunks promises. -/
structure Splits (entries : List Entry) (maxOutputs : Nat) (chunks : List (List Entry)) :
    Prop where
  nonempty : ∀ c ∈ chunks, c ≠ []
  whole : chunks.flatten = entries
  count : chunks.length ≤ max 1 maxOutputs
  disjoint : chunks.Pairwise KeysDisjoint

theorem KeysBelow.disjoint {l r : List Entry} (h : KeysBelow l r) : KeysDisjoint l r :=
  fun a ha b hb => (h a ha b hb).ne

theorem splitLoop_length {target maxOutputs : Nat} {chunks : List (List Entry)}
    {current : List Entry} {size : Nat} {previous : Bytes} {rest : List Entry}
    (h : chunks.length + 1 ≤ maxOutputs) :
    (splitLoop target maxOutputs chunks current size previous rest).length ≤ maxOutputs := by
  induction rest generalizing chunks current size previous with
  | nil =>
    rw [splitLoop]
    split
    · omega
    · rw [List.length_append, List.length_singleton]
      omega
  | cons e rest ih =>
    rw [splitLoop]
    split
    · rename_i hsplit
      apply ih
      simp only [Bool.and_eq_true, decide_eq_true_eq] at hsplit
      rw [List.length_append, List.length_singleton]
      omega
    · exact ih h

theorem splitLoop_extends (target maxOutputs : Nat) (chunks : List (List Entry))
    {current : List Entry} (size : Nat) (previous : Bytes) (rest : List Entry)
    (hne : current ≠ []) :
    ∃ next more, splitLoop target maxOutputs chunks current size previous rest =
      chunks ++ (current ++ next) :: more := by
  induction rest generalizing chunks current size previous with
  | nil =>
    refine ⟨[], [], ?_⟩
    rw [splitLoop, if_neg (by simpa using hne), List.append_nil]
  | cons e rest ih =>
    rw [splitLoop]
    split
    · obtain ⟨next, more, h⟩ := @ih (chunks ++ [current]) [e] (estimateEntrySize e)
        e.1.userKey (List.cons_ne_nil _ _)
      refine ⟨[], ([e] ++ next) :: more, ?_⟩
      rw [h, List.append_nil, List.append_assoc]
      rfl
    · obtain ⟨next, more, h⟩ := @ih chunks (current ++ [e]) (size + estimateEntrySize e)
        e.1.userKey (by simp)
      refine ⟨e :: next, more, ?_⟩
      rw [h, List.append_assoc]
      rfl

theorem splitLoop_tears_cut {target maxOutputs size : Nat} {current rest : List Entry} {e : Entry}
    {previous : Bytes} (hne : current ≠ []) (hcurrent : ∀ a ∈ current, a.1.userKey = [])
    (he : e.1.userKey = []) :
    ¬ (splitLoop target maxOutputs [current] [e] size previous rest).Pairwise KeysDisjoint := by
  obtain ⟨next, more, h⟩ := splitLoop_extends target maxOutputs [current] size previous rest
    (List.cons_ne_nil e [])
  obtain ⟨a, tail, hcur⟩ := List.exists_cons_of_ne_nil hne
  rw [h]
  intro hpw
  have hdis := (List.pairwise_append.mp hpw).2.2 current (by simp) ([e] ++ next) (by simp)
  exact hdis a (by simp [hcur]) e (by simp) ((hcurrent a (by simp [hcur])).trans he.symm)

theorem splitLoop_tears {target maxOutputs size : Nat} {current versions rest : List Entry}
    {last : Entry} (htarget : 0 < target) (hmax : 1 < maxOutputs)
    (hcurrent : ∀ e ∈ current, e.1.userKey = []) (hversions : ∀ e ∈ versions, e.1.userKey = [])
    (hlast : last.1.userKey = []) (hsize : size = (current.map estimateEntrySize).sum)
    (hfull : target ≤ ((current ++ versions).map estimateEntrySize).sum) :
    ¬ (splitLoop target maxOutputs [] current size [] (versions ++ last :: rest)).Pairwise
      KeysDisjoint := by
  induction versions generalizing current size with
  | nil =>
    rw [List.append_nil, ← hsize] at hfull
    have hne : current ≠ [] := by
      rintro rfl
      simp only [List.map_nil, List.sum_nil] at hsize
      omega
    rw [List.nil_append, splitLoop, if_pos (by simp [hne, hfull, hmax])]
    exact splitLoop_tears_cut hne hcurrent hlast
  | cons e versions ih =>
    have he : e.1.userKey = [] := hversions e (by simp)
    rw [List.cons_append, splitLoop]
    split
    · rename_i hsplit
      simp only [Bool.and_eq_true, Bool.not_eq_true', List.isEmpty_eq_false_iff] at hsplit
      exact splitLoop_tears_cut hsplit.1.1.1 hcurrent he
    · rw [he]
      refine ih ?_ (fun a ha => hversions a (by simp [ha])) (by simp [hsize]) (by simpa using hfull)
      intro a ha
      rcases List.mem_append.mp ha with ha | ha
      · exact hcurrent a ha
      · rw [List.mem_singleton.mp ha, he]

theorem Rising.eq_filter_append {entries : List Entry} (h : Rising entries) :
    ∃ rest, entries = entries.filter (fun e => e.1.userKey.isEmpty) ++ rest := by
  induction entries with
  | nil => exact ⟨[], rfl⟩
  | cons e entries ih =>
    obtain ⟨rest, hrest⟩ := ih (List.pairwise_cons.mp h).2
    by_cases he : e.1.userKey = []
    · refine ⟨rest, ?_⟩
      rw [List.filter_cons_of_pos (by simp [he]), List.cons_append, ← hrest]
    · have hno : (e :: entries).filter (fun e => e.1.userKey.isEmpty) = [] := by
        refine List.filter_eq_nil_iff.mpr fun a ha hnil => he ?_
        have hle : e.1.userKey ≤ a.1.userKey := by
          rcases List.mem_cons.mp ha with rfl | ha
          · exact le_rfl
          · exact InternalKey.userKey_le_of_le ((List.pairwise_cons.mp h).1 a ha)
        rw [List.isEmpty_iff.mp hnil] at hle
        exact le_antisymm hle (not_lt.mp (List.not_lt_nil _))
      exact ⟨e :: entries, by rw [hno, List.nil_append]⟩

theorem splitCompactionEntries_tears {entries : List Entry} {target maxOutputs : Nat}
    (hrise : Rising entries) (hmax : 1 < maxOutputs)
    (hfull : max target 1 ≤ emptyKeySize entries) :
    ¬ (splitCompactionEntries entries target maxOutputs).Pairwise KeysDisjoint := by
  obtain ⟨rest, hentries⟩ := hrise.eq_filter_append
  rw [emptyKeySize] at hfull
  have hnil : ∀ e ∈ entries.filter (fun e => e.1.userKey.isEmpty), e.1.userKey = [] :=
    fun e he => List.isEmpty_iff.mp (List.mem_filter.mp he).2
  generalize entries.filter (fun e => e.1.userKey.isEmpty) = versions at hentries hfull hnil
  cases versions using List.reverseRecOn with
  | nil =>
    simp only [List.dropLast_nil, List.map_nil, List.sum_nil] at hfull
    omega
  | append_singleton versions last =>
    rw [List.dropLast_concat] at hfull
    rw [splitCompactionEntries, hentries, List.append_assoc, List.singleton_append]
    exact splitLoop_tears (by omega) (by omega) (by simp) (fun e he => hnil e (by simp [he]))
      (hnil last (by simp)) rfl (by simpa using hfull)

/-- The split keeps its promise exactly when it may not cut at all, or when the versions of
the empty key before the last of them do not fill a file. -/
theorem split_respects_keys_iff {entries : List Entry} (hrise : Rising entries)
    (target maxOutputs : Nat) :
    Splits entries maxOutputs (splitCompactionEntries entries target maxOutputs) ↔
      maxOutputs ≤ 1 ∨ emptyKeySize entries < max target 1 := by
  constructor
  · intro h
    by_contra hno
    rw [not_or, not_le, not_lt] at hno
    exact splitCompactionEntries_tears hrise hno.1 hno.2 h.disjoint
  · intro h
    have hbelow := splitCompactionEntries_keysBelow hrise h
    refine ⟨splitCompactionEntries_ne_nil, splitCompactionEntries_flatten entries target maxOutputs,
      ?_, hbelow.imp fun hlr => hlr.disjoint⟩
    rw [max_comm]
    exact splitLoop_length (by rw [List.length_nil]; omega)

/-- Three versions of the empty key, newest first. -/
def emptyKeyVersions : List Entry :=
  [(⟨[], 3, .put⟩, .put [3]), (⟨[], 2, .delete⟩, .delete), (⟨[], 1, .put⟩, .put [1])]

theorem split_tears_empty_key :
    Rising emptyKeyVersions ∧
      ¬ Splits emptyKeyVersions 2 (splitCompactionEntries emptyKeyVersions 1 2) := by
  have hsplit : splitCompactionEntries emptyKeyVersions 1 2 =
      [[(⟨[], 3, .put⟩, .put [3])], [(⟨[], 2, .delete⟩, .delete), (⟨[], 1, .put⟩, .put [1])]] := by
    decide
  refine ⟨by unfold Rising; decide, fun h => ?_⟩
  have hpw := h.disjoint
  rw [hsplit, List.pairwise_pair] at hpw
  exact hpw (⟨[], 3, .put⟩, .put [3]) (by simp) (⟨[], 2, .delete⟩, .delete) (by simp) rfl

theorem split_respects_keys_iff_small :
    Splits emptyKeyVersions 2 (splitCompactionEntries emptyKeyVersions 1000 2) ↔
      2 ≤ 1 ∨ emptyKeySize emptyKeyVersions < max 1000 1 :=
  split_respects_keys_iff (by unfold Rising; decide) 1000 2

end TyLsm
