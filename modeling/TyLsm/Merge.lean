import TyLsm.Iterator

/-! The merge of iterators is again an iterator: it ranges over the stable sort
of its children's lists. -/

namespace TyLsm

/-- Removing the least entry of a list, the leftmost among equals, commutes with sorting. -/
theorem sortEntries_extract {A B : List Entry} {e : Entry} (hA : ∀ a ∈ A, e.1 < a.1)
    (hB : ∀ b ∈ B, e.1 ≤ b.1) : sortEntries (A ++ e :: B) = e :: sortEntries (A ++ B) := by
  induction A with
  | nil => exact List.insertionSort_cons_of_forall_rel _ hB
  | cons a A ih =>
    have hlt : ¬ a.1 ≤ e.1 := not_le.mpr (hA a (by simp))
    have hi := ih fun x hx => hA x (by simp [hx])
    simp only [sortEntries, List.cons_append, List.insertionSort_cons] at hi ⊢
    rw [hi, List.orderedInsert_cons, if_neg hlt]

theorem filter_orderedInsert {l : List Entry} (hl : Rising l) (e : Entry) (p : Entry → Bool) :
    (l.orderedInsert (fun a b => a.1 ≤ b.1) e).filter p =
      if p e then (l.filter p).orderedInsert (fun a b => a.1 ≤ b.1) e else l.filter p := by
  induction l with
  | nil => cases hp : p e <;> simp [hp]
  | cons a l ih =>
    obtain ⟨ha, hl⟩ := List.pairwise_cons.mp hl
    by_cases hea : e.1 ≤ a.1
    · -- the entry goes first, and it also goes first among the remaining ones
      have hfirst : ∀ b ∈ (a :: l).filter p, e.1 ≤ b.1 := by
        intro b hb
        rcases List.mem_cons.mp (List.mem_filter.mp hb).1 with rfl | hb
        · exact hea
        · exact hea.trans (ha b hb)
      rw [List.orderedInsert_cons, if_pos hea, List.filter_cons]
      cases hp : p e with
      | false => simp
      | true =>
        simp only [if_true]
        cases hf : (a :: l).filter p with
        | nil => rfl
        | cons b r => rw [List.orderedInsert_cons, if_pos (hfirst b (by simp [hf]))]
    · rw [List.orderedInsert_cons, if_neg hea, List.filter_cons, ih hl]
      cases hp : p e <;> cases hpa : p a <;> simp [hpa, hea]

theorem sortEntries_filter (l : List Entry) (p : Entry → Bool) :
    sortEntries (l.filter p) = (sortEntries l).filter p := by
  induction l with
  | nil => rfl
  | cons e l ih =>
    have h := filter_orderedInsert (rising_sortEntries l) e p
    simp only [sortEntries] at ih h
    cases hp : p e with
    | false => simp [sortEntries, hp, ih, h]
    | true => simp [sortEntries, hp, ih, h]

theorem modify_append_length {α : Type} (f : α → α) (l : List α) (a : α) (r : List α) :
    (l ++ a :: r).modify l.length f = l ++ f a :: r := by
  induction l with
  | nil => rfl
  | cons b l ih => simpa using ih

namespace MergeIterator

variable {ι : Type} [StorageIterator ι]

/-- Each child ranges over its own list; the merge ranges over their sort. -/
def MergeAt (m : MergeIterator ι) (all rest : List Entry) : Prop :=
  ∃ specs : List (List Entry × List Entry),
    List.Forall₂ (fun c s => Iterates c s.1 s.2) m.children specs ∧
    (∀ s ∈ specs, Rising s.1 ∧ Rising s.2) ∧
    m.current = (pickFrom 0 m.children).map Prod.fst ∧
    all = sortEntries (specs.map Prod.fst).flatten ∧
    rest = sortEntries (specs.map Prod.snd).flatten

theorem pickFrom_eq_none {children : List ι} {specs : List (List Entry × List Entry)}
    (h : List.Forall₂ (fun c s => Iterates c s.1 s.2) children specs) {i : Nat}
    (hp : pickFrom i children = none) : (specs.map Prod.snd).flatten = [] := by
  induction h generalizing i with
  | nil => rfl
  | @cons c s cs ss hc _ ih =>
    have hentry := (iterates_law ι).entry hc
    cases hs : s.2 with
    | nil =>
      simp only [pickFrom, hentry, hs, List.head?_nil] at hp
      simpa [hs] using ih hp
    | cons e tl =>
      simp only [pickFrom, hentry, hs, List.head?_cons] at hp
      cases hbest : pickFrom (i + 1) cs with
      | none => simp [hbest] at hp
      | some best =>
        simp only [hbest] at hp
        split at hp <;> cases hp

/-- The picked child holds the least remaining entry, and no earlier child has an
entry with the same key. -/
theorem pickFrom_eq_some {children : List ι} {specs : List (List Entry × List Entry)}
    (h : List.Forall₂ (fun c s => Iterates c s.1 s.2) children specs)
    (hr : ∀ s ∈ specs, Rising s.2) {i j : Nat} {k : InternalKey}
    (hp : pickFrom i children = some (j, k)) :
    ∃ pre all e tl post, specs = pre ++ (all, e :: tl) :: post ∧ j = i + pre.length ∧ k = e.1 ∧
      (∀ x ∈ (pre.map Prod.snd).flatten, e.1 < x.1) ∧
      (∀ x ∈ tl ++ (post.map Prod.snd).flatten, e.1 ≤ x.1) := by
  induction h generalizing i j k with
  | nil => cases hp
  | @cons c s cs ss hc hcs ih =>
    have hentry := (iterates_law ι).entry hc
    have hss : ∀ s ∈ ss, Rising s.2 := fun s hs => hr s (by simp [hs])
    -- the winner among the later children, when this child does not win
    have hlater : ∀ {j k}, pickFrom (i + 1) cs = some (j, k) → (∀ x ∈ s.2, k < x.1) →
        ∃ pre all e tl post, s :: ss = pre ++ (all, e :: tl) :: post ∧ j = i + pre.length ∧
          k = e.1 ∧ (∀ x ∈ (pre.map Prod.snd).flatten, e.1 < x.1) ∧
          (∀ x ∈ tl ++ (post.map Prod.snd).flatten, e.1 ≤ x.1) := by
      intro j k hp' hlt
      obtain ⟨pre, all, e, tl, post, rfl, hj, rfl, hpre, hpost⟩ := ih hss hp'
      refine ⟨s :: pre, all, e, tl, post, rfl, by simp; omega, rfl, ?_, hpost⟩
      intro x hx
      simp only [List.map_cons, List.flatten_cons, List.mem_append] at hx
      exact hx.elim (hlt x) (hpre x)
    cases hs : s.2 with
    | nil =>
      simp only [pickFrom, hentry, hs, List.head?_nil] at hp
      exact hlater hp (by simp [hs])
    | cons e tl =>
      have hrise := hr s (by simp)
      rw [hs] at hrise
      have hetl := (List.pairwise_cons.mp hrise).1
      have hspec : s = (s.1, e :: tl) := by rw [← hs]
      simp only [pickFrom, hentry, hs, List.head?_cons] at hp
      cases hbest : pickFrom (i + 1) cs with
      | none =>
        simp only [hbest, Option.some.injEq, Prod.mk.injEq] at hp
        have hnil := pickFrom_eq_none hcs hbest
        refine ⟨[], s.1, e, tl, ss, by rw [List.nil_append, ← hspec], by simp [hp.1.symm],
          hp.2.symm, by simp, ?_⟩
        rw [hnil, List.append_nil]
        exact hetl
      | some best =>
        obtain ⟨j', k'⟩ := best
        simp only [hbest] at hp
        split at hp
        · rename_i hle
          simp only [Option.some.injEq, Prod.mk.injEq] at hp
          obtain ⟨pre, all, e', tl', post, hss', _, rfl, hpre, hpost⟩ := ih hss hbest
          refine ⟨[], s.1, e, tl, ss, by rw [List.nil_append, ← hspec], by simp [hp.1.symm],
            hp.2.symm, by simp, ?_⟩
          intro x hx
          rcases List.mem_append.mp hx with hx | hx
          · exact hetl x hx
          · rw [hss'] at hx
            simp only [List.map_append, List.map_cons, List.flatten_append, List.flatten_cons,
              List.mem_append, List.mem_cons] at hx
            rcases hx with hx | (rfl | hx) | hx
            · exact hle.trans (hpre x hx).le
            · exact hle
            · exact hle.trans (hpost x (by simp [hx]))
            · exact hle.trans (hpost x (by simp only [List.mem_append]; exact .inr hx))
        · rename_i hle
          simp only [Option.some.injEq, Prod.mk.injEq] at hp
          obtain ⟨rfl, rfl⟩ := hp
          refine hlater hbest fun x hx => ?_
          rw [hs] at hx
          have hlt := not_le.mp hle
          rcases List.mem_cons.mp hx with rfl | hx
          · exact hlt
          · exact lt_of_lt_of_le hlt (hetl x hx)

theorem MergeAt.cases {m : MergeIterator ι} {all rest : List Entry} (h : MergeAt m all rest) :
    (m.current = none ∧ rest = []) ∨
    ∃ before child after e tail, m.children = before ++ child :: after ∧
      m.current = some before.length ∧ StorageIterator.entry child = some e ∧
      rest = e :: tail ∧
      MergeAt (pickCurrent ⟨before ++ StorageIterator.next child :: after, m.current⟩) all tail := by
  obtain ⟨specs, hf, hr, hcur, hall, hrest⟩ := h
  cases hp : pickFrom 0 m.children with
  | none =>
    refine .inl ⟨by rw [hcur, hp]; rfl, ?_⟩
    rw [hrest, pickFrom_eq_none hf hp]
    rfl
  | some best =>
    obtain ⟨j, k⟩ := best
    obtain ⟨pre, a, e, tl, post, rfl, hj, rfl, hpre, hpost⟩ :=
      pickFrom_eq_some hf (fun s hs => (hr s hs).2) hp
    have hbf := List.forall₂_take_append _ _ _ hf
    have hr' := List.forall₂_drop_append _ _ _ hf
    obtain ⟨child, after, hc, haf, hdrop⟩ := List.forall₂_cons_right_iff.mp hr'
    set before := m.children.take pre.length
    have heq : m.children = before ++ child :: after := by
      rw [← hdrop, List.take_append_drop]
    have hsort : rest = e :: sortEntries ((pre.map Prod.snd).flatten ++
        (tl ++ (post.map Prod.snd).flatten)) := by
      rw [hrest, ← sortEntries_extract hpre hpost]
      simp
    have hlen : before.length = pre.length := hbf.length_eq
    refine .inr ⟨before, child, after, e, _, heq, ?_, ?_, hsort, ?_⟩
    · rw [hcur, hp]
      simp [hj, hlen]
    · simpa using (iterates_law ι).entry hc
    · refine ⟨pre ++ (a, tl) :: post, ?_, ?_, rfl, ?_, ?_⟩
      · exact List.rel_append hbf (.cons ((iterates_law ι).next hc) haf)
      · intro s hs
        rcases List.mem_append.mp hs with hs | hs
        · exact hr s (by simp [hs])
        · rcases List.mem_cons.mp hs with rfl | hs
          · have := hr (a, e :: tl) (by simp)
            exact ⟨this.1, (List.pairwise_cons.mp this.2).2⟩
          · exact hr s (by simp [hs])
      · rw [hall]
        simp
      · simp

theorem law : IteratorLaw (MergeIterator ι) MergeAt where
  isValid := by
    intro m all rest h
    rcases h.cases with ⟨hc, rfl⟩ | ⟨before, child, after, e, tail, hm, hc, he, rfl, hn⟩
    · simp [StorageIterator.isValid, hc]
    · simp [StorageIterator.isValid, hc]
  entry := by
    intro m all rest h
    rcases h.cases with ⟨hc, rfl⟩ | ⟨before, child, after, e, tail, hm, hc, he, rfl, hn⟩
    · simp [StorageIterator.entry, hc]
    · simp [StorageIterator.entry, hc, hm, he]
  next := by
    intro m all rest h
    rcases h.cases with ⟨hc, rfl⟩ | ⟨before, child, after, e, tail, hm, hc, he, rfl, hn⟩
    · obtain ⟨specs, hf, hr, hcur, hall, hrest⟩ := h
      simp only [StorageIterator.next, hc]
      exact ⟨specs, hf, hr, rfl, hall, by simpa using hrest⟩
    · have hmod : m.children.modify before.length StorageIterator.next =
          before ++ StorageIterator.next child :: after := by
        rw [hm, modify_append_length]
      simp only [StorageIterator.next, hc, hmod] at hn ⊢
      exact hn
  seek := by
    rintro m all rest t ⟨specs, hf, hr, hcur, rfl, rfl⟩
    refine ⟨specs.map (fun s => (s.1, s.1.filter (fun e => !t.exceeds e.1))), ?_, ?_, rfl, ?_, ?_⟩
    · simp only [StorageIterator.seek, pickCurrent, List.forall₂_map_left_iff,
        List.forall₂_map_right_iff]
      exact hf.imp fun c s hcs => (iterates_law ι).seek t hcs
    · intro s hs
      obtain ⟨s', hs', rfl⟩ := List.mem_map.mp hs
      exact ⟨(hr s' hs').1, (hr s' hs').1.sublist List.filter_sublist⟩
    · simp [Function.comp_def]
    · rw [← sortEntries_filter, List.filter_flatten]
      simp [Function.comp_def]

theorem iterates_new {children : List ι} {lists : List (List Entry)}
    (h : List.Forall₂ (fun c l => Iterates c l l) children lists) (hr : ∀ l ∈ lists, Rising l) :
    Iterates (new children) (sortEntries lists.flatten) (sortEntries lists.flatten) := by
  refine ⟨MergeAt, law, lists.map (fun l => (l, l)), ?_, ?_, rfl, ?_, ?_⟩
  · exact List.forall₂_map_right_iff.mpr h
  · intro s hs
    obtain ⟨l, hl, rfl⟩ := List.mem_map.mp hs
    exact ⟨hr l hl, hr l hl⟩
  · simp [Function.comp_def]
  · simp [Function.comp_def]

end MergeIterator

end TyLsm
