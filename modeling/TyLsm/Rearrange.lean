import TyLsm.Compact

/-! What a compaction does to the list of all entries: some are dropped and the
others change places, and every read from the watermark on stays the same. -/

namespace TyLsm

theorem newestFirst_of_rising {l l' : List Entry} (h : NewestFirst l) (hp : l'.Perm l)
    (hr : Rising l') : NewestFirst l' := by
  refine h.of_perm hp (hr.imp fun {a b} hab hk => ?_)
  rcases hab.eq_or_lt with he | hlt
  · rw [entry_rank, entry_rank, he]
  · exact InternalKey.sequence_le_of_lt hlt hk

theorem newestFirst_sortEntries {l : List Entry} (h : NewestFirst l) :
    NewestFirst (sortEntries l) :=
  newestFirst_of_rising h (sortEntries_perm l) (rising_sortEntries l)

theorem visible_congr {k : Bytes} {s : Nat} {l l' : List Entry} (h : NewestFirst l)
    (h' : NewestFirst l') (hm : ∀ e, e ∈ l ↔ e ∈ l') : visible k s l = visible k s l' := by
  rw [visible, visible, newest_congr h h' fun e _ => hm e]

theorem visible_of_bounded {base : List Entry} {bound : Nat}
    (h : ∀ e ∈ base, e.1.sequence ≤ bound) (k : Bytes) {s : Nat} (hs : bound ≤ s) :
    visible k s base = visible k bound base := by
  rw [visible, visible, newest, newest]
  congr 1
  refine List.find?_congr fun e he => ?_
  have hle := h e he
  simp only [entry_key, entry_rank, hle, hle.trans hs, and_true]

/-- An entry may go when a newer one up to the watermark hides it, or when it is a
tombstone and nothing older of its key stays. -/
def Droppable (w : Nat) (l l' : List Entry) (e : Entry) : Prop :=
  (∃ a ∈ l, a.1.userKey = e.1.userKey ∧ e.1.sequence < a.1.sequence ∧ a.1.sequence ≤ w) ∨
  (e.2 = .delete ∧ ∀ a ∈ l', a.1.userKey = e.1.userKey → e.1.sequence < a.1.sequence)

theorem visible_of_droppable {w : Nat} {l l' : List Entry} (h : NewestFirst l)
    (h' : NewestFirst l') (hsub : l' ⊆ l) (hdrop : ∀ e ∈ l, e ∉ l' → Droppable w l l' e)
    {k : Bytes} {s : Nat} (hs : w ≤ s) : visible k s l' = visible k s l := by
  cases hn : newest k s l with
  | none =>
    have hn' : newest k s l' = none :=
      newest_eq_none_iff.mpr fun a ha => newest_eq_none_iff.mp hn a (hsub ha)
    simp [visible, hn, hn']
  | some e =>
    obtain ⟨he, hk, hr, hmax⟩ := h.newest_eq_some_iff.mp hn
    by_cases hmem : e ∈ l'
    · have hn' : newest k s l' = some e :=
        h'.newest_eq_some_iff.mpr ⟨hmem, hk, hr, fun b hb => hmax b (hsub hb)⟩
      simp [visible, hn, hn']
    · rcases hdrop e he hmem with ⟨a, ha, hak, hlt, haw⟩ | ⟨hdel, hnewer⟩
      · have := hmax a ha (hak.trans hk) (haw.trans hs)
        simp only [entry_rank] at this
        omega
      · have hn' : newest k s l' = none := by
          refine newest_eq_none_iff.mpr fun a ha hak => ?_
          by_contra hno
          have hle := hmax a (hsub ha) hak (Nat.not_lt.mp hno)
          have hlt := hnewer a ha (hak.trans hk.symm)
          simp only [entry_rank] at hle
          omega
        simp [visible, hn, hn', hdel, ValueRecord.intoVisibleValue]

/-- What `compact_entries` removes from its input may go, if what stays elsewhere is
newer or, where tombstones are dropped, at least not older. -/
theorem droppable_of_compactEntries {w : Nat} {drop : Bool} {l l' M : List Entry}
    (hM : NewestFirst M) (hsub : M ⊆ l) {e : Entry} (he : e ∈ M)
    (hno : e ∉ compactEntries M w drop)
    (hrest : drop = true → ∀ a ∈ l', a ∉ compactEntries M w drop →
      a.1.userKey = e.1.userKey → e.1.sequence < a.1.sequence) : Droppable w l l' e := by
  have hsorted := newestFirst_sortEntries hM
  rw [mem_compactEntries, not_and] at hno
  obtain ⟨hw, hkeep⟩ := not_or.mp (hno he)
  rw [not_lt] at hw
  rw [not_and, not_not] at hkeep
  by_cases hnew : newest e.1.userKey w (sortEntries M) = some e
  · obtain ⟨hdrop, hdel⟩ := hkeep hnew
    refine .inr ⟨hdel, fun a ha hak => ?_⟩
    by_cases hac : a ∈ compactEntries M w drop
    · rcases mem_compactEntries.mp hac with ⟨_, hlt | ⟨hn, hna⟩⟩
      · omega
      · rw [hak, hnew, Option.some.injEq] at hn
        exact absurd ⟨hdrop, hn ▸ hdel⟩ hna
    · exact hrest hdrop a ha hac hak
  · cases hn : newest e.1.userKey w (sortEntries M) with
    | none =>
      have := newest_eq_none_iff.mp hn e (mem_sortEntries.mpr he) rfl
      simp only [entry_rank] at this
      omega
    | some a =>
      obtain ⟨ha, hak, haw, hmax⟩ := hsorted.newest_eq_some_iff.mp hn
      have hle : e.1.sequence ≤ a.1.sequence := hmax e (mem_sortEntries.mpr he) rfl hw
      have hne : e.1.sequence ≠ a.1.sequence := by
        intro heq
        refine hnew (hn.trans ?_)
        rw [hsorted.eq_of_rank_eq ha (mem_sortEntries.mpr he) hak heq.symm]
      exact .inl ⟨a, hsub (mem_sortEntries.mp ha), hak, lt_of_le_of_ne hle hne, haw⟩

end TyLsm
