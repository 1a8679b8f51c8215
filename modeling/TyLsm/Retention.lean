import TyLsm.Compact

/-! What survives the merge of a compaction. Reads at or above the watermark see the same
records before and after it, up to tombstones that are dropped. -/

namespace TyLsm

theorem newest_compactLoop_seen {w s : Nat} {drop : Bool} {seen : List Bytes} {l : List Entry}
    {u : Bytes} (hu : u ∈ seen) (hl : ∀ e ∈ l, e.1.userKey = u → e.1.sequence ≤ w) :
    newest u s (compactLoop w drop seen l) = none := by
  refine newest_eq_none_iff.mpr fun e he hkey => ?_
  obtain ⟨hmem, hkeep⟩ := mem_compactLoop.mp he
  have hle := hl e hmem hkey
  rcases hkeep with hlt | ⟨hns, -⟩
  · exact absurd hlt (Nat.not_lt.mpr hle)
  · rw [entry_key] at hkey
    exact absurd (hkey ▸ hu) hns

theorem newest_cons_hit {u : Bytes} {s : Nat} {key : InternalKey} (value : ValueRecord)
    (l : List Entry) (hkey : key.userKey = u) (hs : key.sequence ≤ s) :
    newest u s ((key, value) :: l) = some (key, value) := by
  simp [newest, hkey, hs]

theorem newest_cons_miss {u : Bytes} {s : Nat} {key : InternalKey} {value : ValueRecord}
    {l : List Entry} (h : ¬ (key.userKey = u ∧ key.sequence ≤ s)) :
    newest u s ((key, value) :: l) = newest u s l := by
  simp only [newest, List.find?_cons, entry_key, entry_rank, h, decide_false]

/-- A read at or above the watermark finds the same entry, or misses a dropped tombstone. -/
theorem newest_compactLoop {w s : Nat} (hs : w ≤ s) {drop : Bool} {seen : List Bytes}
    {l : List Entry} (hl : Rising l) {u : Bytes} (hu : u ∉ seen) :
    newest u s (compactLoop w drop seen l) = newest u s l ∨
      drop = true ∧ newest u s (compactLoop w drop seen l) = none ∧
        ∃ e, newest u s l = some e ∧ e.2 = .delete ∧ e.1.sequence ≤ w := by
  induction l generalizing seen with
  | nil => exact .inl rfl
  | cons e l ih =>
    obtain ⟨key, value⟩ := e
    obtain ⟨hfirst, hrest⟩ := List.pairwise_cons.mp hl
    by_cases hseq : w < key.sequence
    · -- above the watermark everything is kept
      simp only [compactLoop, hseq, if_true]
      by_cases hhit : key.userKey = u ∧ key.sequence ≤ s
      · rw [newest_cons_hit _ _ hhit.1 hhit.2, newest_cons_hit _ _ hhit.1 hhit.2]
        exact .inl rfl
      · rw [newest_cons_miss hhit, newest_cons_miss hhit]
        exact ih hrest hu
    · have hle : key.sequence ≤ w := Nat.not_lt.mp hseq
      by_cases hkey : key.userKey = u
      · subst hkey
        have hin := newest_cons_hit value l rfl (hle.trans hs)
        -- the entries behind it are not newer
        have hbelow : ∀ e ∈ l, e.1.userKey = key.userKey → e.1.sequence ≤ w := by
          intro e he hk
          rcases (hfirst e he).eq_or_lt with heq | hlt
          · exact (congrArg InternalKey.sequence heq).ge.trans hle
          · exact (InternalKey.sequence_le_of_lt hlt hk.symm).trans hle
        simp only [compactLoop, hseq, hu, List.contains_eq_mem, decide_false, Bool.false_eq_true,
          if_false]
        rw [hin]
        cases value with
        | put value => exact .inl (newest_cons_hit _ _ rfl (hle.trans hs))
        | delete =>
          cases drop with
          | false => exact .inl (newest_cons_hit _ _ rfl (hle.trans hs))
          | true => exact .inr ⟨rfl, newest_compactLoop_seen (by simp) hbelow, _, rfl, rfl, hle⟩
      · rw [newest_cons_miss fun h => hkey h.1]
        by_cases hseen : key.userKey ∈ seen
        · simp only [compactLoop, hseq, List.contains_eq_mem, hseen, decide_true, if_true, if_false]
          exact ih hrest hu
        · have hu' : u ∉ key.userKey :: seen := by
            simp [hu, Ne.symm hkey]
          have hkept : ∀ value, newest u s ((key, value) ::
              compactLoop w drop (key.userKey :: seen) l) =
              newest u s (compactLoop w drop (key.userKey :: seen) l) :=
            fun value => newest_cons_miss fun h => hkey h.1
          simp only [compactLoop, hseq, List.contains_eq_mem, hseen, decide_false,
            Bool.false_eq_true, if_false]
          cases value with
          | put value =>
            rw [hkept]
            exact ih hrest hu'
          | delete =>
            cases drop with
            | false =>
              rw [if_neg Bool.false_ne_true, hkept]
              exact ih hrest hu'
            | true => exact ih hrest hu'

theorem filter_compactLoop_above (w : Nat) (drop : Bool) (seen : List Bytes) (l : List Entry) :
    (compactLoop w drop seen l).filter (fun e => decide (w < e.1.sequence)) =
      l.filter (fun e => decide (w < e.1.sequence)) := by
  induction l generalizing seen with
  | nil => rfl
  | cons e l ih =>
    obtain ⟨key, value⟩ := e
    by_cases hseq : w < key.sequence
    · simp only [compactLoop, hseq, if_true, List.filter_cons, decide_true, ih]
    · simp only [compactLoop, hseq, if_false, List.filter_cons, decide_false, Bool.false_eq_true]
      by_cases hseen : seen.contains key.userKey = true
      · rw [if_pos hseen]
        exact ih seen
      · rw [if_neg hseen]
        cases value with
        | put value => simp only [List.filter_cons, hseq, decide_false, Bool.false_eq_true, if_false, ih]
        | delete =>
          cases drop with
          | false => simp only [List.filter_cons, hseq, decide_false, Bool.false_eq_true, if_false, ih]
          | true => exact ih _

/-- At most one entry of a key is kept below the watermark, and none once it is seen. -/
theorem filter_compactLoop_below (w : Nat) (drop : Bool) (seen : List Bytes) (l : List Entry)
    (u : Bytes) : ((compactLoop w drop seen l).filter (fun e =>
      decide (e.1.userKey = u ∧ e.1.sequence ≤ w))).length ≤ if u ∈ seen then 0 else 1 := by
  induction l generalizing seen with
  | nil => simp [compactLoop]
  | cons e l ih =>
    obtain ⟨key, value⟩ := e
    by_cases hseq : w < key.sequence
    · have hno : ¬ (key.userKey = u ∧ key.sequence ≤ w) := fun h => absurd hseq (not_lt.mpr h.2)
      simp only [compactLoop, hseq, if_true, List.filter_cons, hno, decide_false,
        Bool.false_eq_true, if_false]
      exact ih seen
    · by_cases hseen : key.userKey ∈ seen
      · simp only [compactLoop, hseq, List.contains_eq_mem, hseen, decide_true, if_true, if_false]
        exact ih seen
      · have ih := ih (key.userKey :: seen)
        -- the entry counts for its own key, which the rest then has seen
        have hkept : (((key, value) :: compactLoop w drop (key.userKey :: seen) l).filter
            (fun e => decide (e.1.userKey = u ∧ e.1.sequence ≤ w))).length ≤
            if u ∈ seen then 0 else 1 := by
          by_cases hkey : key.userKey = u
          · subst hkey
            rw [if_pos List.mem_cons_self] at ih
            rw [if_neg hseen, List.filter_cons]
            split
            · exact Nat.succ_le_succ ih
            · exact ih.trans (Nat.zero_le 1)
          · rw [List.filter_cons, if_neg (by simp [hkey])]
            simpa [Ne.symm hkey] using ih
        have hdropped : ((compactLoop w drop (key.userKey :: seen) l).filter
            (fun e => decide (e.1.userKey = u ∧ e.1.sequence ≤ w))).length ≤
            if u ∈ seen then 0 else 1 :=
          ((List.sublist_cons_self _ _).filter _).length_le.trans hkept
        simp only [compactLoop, hseq, List.contains_eq_mem, hseen, decide_false,
          Bool.false_eq_true, if_false]
        cases value with
        | put value => exact hkept
        | delete =>
          cases drop with
          | false => exact hkept
          | true => exact hdropped

/-- What a compaction keeps: a sorted part of its sorted input with every entry above the
watermark and at most one of each key up to it, which answers every read at or above the
watermark as before, except that a tombstone up to the watermark may be gone. -/
theorem compactEntries_preserves_reads (entries : List Entry) (w : Nat) :
    (∀ u s, w ≤ s → newest u s (compactEntries entries w false) =
      newest u s (sortEntries entries)) ∧
    (∀ u s, w ≤ s → newest u s (compactEntries entries w true) =
        newest u s (sortEntries entries) ∨
      newest u s (compactEntries entries w true) = none ∧
        ∃ e, newest u s (sortEntries entries) = some e ∧ e.2 = .delete ∧ e.1.sequence ≤ w) ∧
    ∀ drop, Rising (compactEntries entries w drop) ∧
      (compactEntries entries w drop).Sublist (sortEntries entries) ∧
      (compactEntries entries w drop).filter (fun e => decide (w < e.1.sequence)) =
        (sortEntries entries).filter (fun e => decide (w < e.1.sequence)) ∧
      ∀ u, ((compactEntries entries w drop).filter (fun e =>
        decide (e.1.userKey = u ∧ e.1.sequence ≤ w))).length ≤ 1 := by
  have hrise := rising_sortEntries entries
  refine ⟨fun u s hs => ?_, fun u s hs => ?_, fun drop => ⟨compactEntries_rising entries w drop,
    compactLoop_sublist w drop [] _, filter_compactLoop_above w drop [] _, fun u => ?_⟩⟩
  · rcases @newest_compactLoop w s hs false [] _ hrise u List.not_mem_nil with h | h
    · exact h
    · exact absurd h.1 Bool.false_ne_true
  · exact (newest_compactLoop hs hrise List.not_mem_nil).imp_right fun h => h.2
  · have hone := filter_compactLoop_below w drop [] (sortEntries entries) u
    rw [if_neg List.not_mem_nil] at hone
    exact hone

/-- A tombstone above an older put: it stays below the watermark, or goes with it. -/
theorem compactEntries_preserves_reads_small :
    newest [1] 7 (compactEntries [(⟨[1], 3, .put⟩, .put [9]), (⟨[1], 5, .delete⟩, .delete)] 5
      false) = some (⟨[1], 5, .delete⟩, .delete) :=
  ((compactEntries_preserves_reads _ 5).1 [1] 7 (by decide)).trans (by decide +kernel)

end TyLsm
