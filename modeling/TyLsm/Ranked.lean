import Mathlib

/-! Lists of ranked items, each belonging to a key. A list is newest first when
the items of every key appear with falling rank; a left-to-right search then
returns the item of largest rank below a bound, whatever the arrangement of
items with different keys. -/

namespace TyLsm

class Ranked (α : Type*) (K : outParam Type*) where
  key : α → K
  rank : α → Nat

theorem findSome?_congr {α β : Type*} {f g : α → Option β} {l : List α}
    (h : ∀ a ∈ l, f a = g a) : l.findSome? f = l.findSome? g := by
  induction l with
  | nil => rfl
  | cons a l ih =>
    simp only [List.findSome?_cons, h a (by simp), ih fun b hb => h b (by simp [hb])]

section

variable {α K : Type*} [Ranked α K]

open Ranked

/-- The items of each key appear in order of falling rank. -/
def NewestFirst (l : List α) : Prop :=
  l.Pairwise (fun a b => key a = key b → rank b < rank a)

/-- Whenever `l` and `r` share a key, `l` holds the newer items. -/
def Above (l r : List α) : Prop :=
  ∀ a ∈ l, ∀ b ∈ r, key a = key b → rank b < rank a

/-- No key has items in both lists. -/
def Apart (l r : List α) : Prop := ∀ a ∈ l, ∀ b ∈ r, key a ≠ key b

/-- The first item of key `k` whose rank is at most `s`. -/
def newest [DecidableEq K] (k : K) (s : Nat) (l : List α) : Option α :=
  l.find? (fun a => decide (key a = k ∧ rank a ≤ s))

theorem Apart.symm {l r : List α} (h : Apart l r) : Apart r l :=
  fun a ha b hb he => h b hb a ha he.symm

theorem Apart.above {l r : List α} (h : Apart l r) : Above l r :=
  fun a ha b hb he => absurd he (h a ha b hb)

theorem Above.mono {l l' r r' : List α} (h : Above l r) (hl : l' ⊆ l) (hr : r' ⊆ r) : Above l' r' :=
  fun a ha b hb => h a (hl ha) b (hr hb)

@[simp] theorem above_nil_left (r : List α) : Above [] r := fun _ ha => absurd ha List.not_mem_nil

@[simp] theorem above_nil_right (l : List α) : Above l [] :=
  fun _ _ _ hb => absurd hb List.not_mem_nil

theorem above_append_left {l l' r : List α} : Above (l ++ l') r ↔ Above l r ∧ Above l' r := by
  simp only [Above, List.mem_append]
  exact ⟨fun h => ⟨fun a ha => h a (.inl ha), fun a ha => h a (.inr ha)⟩,
    fun h a ha => ha.elim (h.1 a) (h.2 a)⟩

theorem above_append_right {l r r' : List α} : Above l (r ++ r') ↔ Above l r ∧ Above l r' := by
  simp only [Above, List.mem_append]
  exact ⟨fun h => ⟨fun a ha b hb => h a ha b (.inl hb), fun a ha b hb => h a ha b (.inr hb)⟩,
    fun h a ha b hb => hb.elim (h.1 a ha b) (h.2 a ha b)⟩

@[simp] theorem newestFirst_nil : NewestFirst ([] : List α) := List.Pairwise.nil

theorem newestFirst_append {l r : List α} :
    NewestFirst (l ++ r) ↔ NewestFirst l ∧ NewestFirst r ∧ Above l r :=
  List.pairwise_append

theorem newestFirst_flatten {ls : List (List α)} :
    NewestFirst ls.flatten ↔ (∀ l ∈ ls, NewestFirst l) ∧ ls.Pairwise Above :=
  List.pairwise_flatten

theorem NewestFirst.sublist {l l' : List α} (h : NewestFirst l) (hs : l'.Sublist l) :
    NewestFirst l' := List.Pairwise.sublist hs h

theorem NewestFirst.eq_of_rank_eq {l : List α} (h : NewestFirst l) {a b : α} (ha : a ∈ l)
    (hb : b ∈ l) (hk : key a = key b) (hr : rank a = rank b) : a = b := by
  by_contra hne
  have hp : l.Pairwise (fun a b => key a = key b → rank a ≠ rank b) :=
    h.imp fun hab hk he => Nat.lt_irrefl _ (he ▸ hab hk)
  have hs : Std.Symm (fun a b : α => key a = key b → rank a ≠ rank b) :=
    ⟨fun _ _ hab hk he => hab hk.symm he.symm⟩
  exact hp.forall ha hb hne hk hr

/-- Merging a part `S` of `L` and a part of `R` into `N`, which takes the place of
`R`, keeps the search order if what stays of `L` is newer than `S`. -/
theorem NewestFirst.merge {X L L' R N S Y : List α} (h : NewestFirst (X ++ L ++ R ++ Y))
    (hL : L'.Sublist L) (hS : S ⊆ L) (habove : Above L' S) (hN : NewestFirst N)
    (hNsub : ∀ a ∈ N, a ∈ S ∨ a ∈ R) : NewestFirst (X ++ L' ++ N ++ Y) := by
  obtain ⟨hXLR, hY, hXLRY⟩ := newestFirst_append.mp h
  obtain ⟨hXL, hR, hXLR'⟩ := newestFirst_append.mp hXLR
  obtain ⟨hX, hLn, hXabove⟩ := newestFirst_append.mp hXL
  obtain ⟨hXLY, hRY⟩ := above_append_left.mp hXLRY
  obtain ⟨hXY, hLY⟩ := above_append_left.mp hXLY
  obtain ⟨hXR, hLR⟩ := above_append_left.mp hXLR'
  have hXN : Above X N := fun a ha b hb =>
    (hNsub b hb).elim (fun hs => hXabove a ha b (hS hs)) (hXR a ha b)
  have hLN : Above L' N := fun a ha b hb =>
    (hNsub b hb).elim (habove a ha b) (hLR a (hL.subset ha) b)
  have hNY : Above N Y := fun a ha b hb =>
    (hNsub a ha).elim (fun hs => hLY a (hS hs) b hb) (fun hr => hRY a hr b hb)
  refine newestFirst_append.mpr ⟨newestFirst_append.mpr ⟨newestFirst_append.mpr
    ⟨hX, hLn.sublist hL, hXabove.mono (List.Subset.refl _) hL.subset⟩, hN, ?_⟩, hY, ?_⟩
  · exact above_append_left.mpr ⟨hXN, hLN⟩
  · exact above_append_left.mpr ⟨above_append_left.mpr
      ⟨hXY, hLY.mono hL.subset (List.Subset.refl _)⟩, hNY⟩

theorem NewestFirst.mergeFront {X L L' N S : List α} (h : NewestFirst (X ++ L))
    (hL : L'.Sublist L) (hS : S ⊆ L) (habove : Above S L') (hN : NewestFirst N) (hNsub : N ⊆ S) :
    NewestFirst (X ++ (N ++ L')) := by
  obtain ⟨hX, hLn, hXL⟩ := newestFirst_append.mp h
  refine newestFirst_append.mpr ⟨hX, newestFirst_append.mpr ⟨hN, hLn.sublist hL,
    habove.mono hNsub (List.Subset.refl _)⟩, above_append_right.mpr ⟨?_, ?_⟩⟩
  · exact hXL.mono (List.Subset.refl _) (fun _ ha => hS (hNsub ha))
  · exact hXL.mono (List.Subset.refl _) hL.subset

theorem NewestFirst.of_perm {l l' : List α} (h : NewestFirst l) (hp : l'.Perm l)
    (hord : l'.Pairwise (fun a b => key a = key b → rank b ≤ rank a)) : NewestFirst l' := by
  have hne : l'.Pairwise (fun a b => key a = key b → rank a ≠ rank b) := by
    have hs : Std.Symm (fun a b : α => key a = key b → rank a ≠ rank b) :=
      ⟨fun _ _ hab hk he => hab hk.symm he.symm⟩
    refine (List.Perm.pairwise_iff (R := fun a b : α => key a = key b → rank a ≠ rank b)
      (fun {a b} hab => hs.symm a b hab) hp).mpr ?_
    exact h.imp fun hab hk he => Nat.lt_irrefl _ (he ▸ hab hk)
  exact (hord.and hne).imp fun ⟨hle, hne⟩ hk => lt_of_le_of_ne (hle hk) (Ne.symm (hne hk))

variable [DecidableEq K] {k : K} {s : Nat}

@[simp] theorem newest_nil : newest k s ([] : List α) = none := rfl

theorem newest_append (l r : List α) : newest k s (l ++ r) = (newest k s l).or (newest k s r) :=
  List.find?_append

theorem newest_eq_none_iff {l : List α} :
    newest k s l = none ↔ ∀ a ∈ l, key a = k → s < rank a := by
  simp [newest]

theorem newest_mem {l : List α} {a : α} (h : newest k s l = some a) : a ∈ l :=
  List.mem_of_find?_eq_some h

theorem newest_key {l : List α} {a : α} (h : newest k s l = some a) : key a = k ∧ rank a ≤ s := by
  simpa using List.find?_some h

theorem NewestFirst.newest_eq_some_iff {l : List α} (h : NewestFirst l) {a : α} :
    newest k s l = some a ↔
      a ∈ l ∧ key a = k ∧ rank a ≤ s ∧ ∀ b ∈ l, key b = k → rank b ≤ s → rank b ≤ rank a := by
  constructor
  · intro he
    obtain ⟨hp, pre, post, rfl, hpre⟩ := List.find?_eq_some_iff_append.mp he
    simp only [decide_eq_true_eq] at hp
    refine ⟨by simp, hp.1, hp.2, fun b hb hk hr => ?_⟩
    simp only [List.mem_append, List.mem_cons] at hb
    rcases hb with hb | rfl | hb
    · have hno : ¬key b = k ∨ s < rank b := by simpa using hpre b hb
      exact absurd hr (Nat.not_le.mpr (hno.resolve_left (not_not.mpr hk)))
    · exact Nat.le_refl _
    · have hab := (List.pairwise_cons.mp (List.pairwise_append.mp h).2.1).1 b hb
      exact Nat.le_of_lt (hab (hp.1.trans hk.symm))
  · rintro ⟨ha, hk, hr, hmax⟩
    cases he : newest k s l with
    | none => exact absurd hr (Nat.not_le.mpr (newest_eq_none_iff.mp he a ha hk))
    | some b =>
      have hb := newest_key he
      obtain ⟨hp, pre, post, rfl, hpre⟩ := List.find?_eq_some_iff_append.mp he
      simp only [List.mem_append, List.mem_cons] at ha
      rcases ha with ha | rfl | ha
      · have hno : ¬key a = k ∨ s < rank a := by simpa using hpre a ha
        exact absurd hr (Nat.not_le.mpr (hno.resolve_left (not_not.mpr hk)))
      · rfl
      · have hba := (List.pairwise_cons.mp (List.pairwise_append.mp h).2.1).1 a ha
        have hlt := hba (hb.1.trans hk.symm)
        have hle := hmax b (by simp) hb.1 hb.2
        omega

theorem newest_congr {l l' : List α} (h : NewestFirst l) (h' : NewestFirst l')
    (hm : ∀ a, key a = k → (a ∈ l ↔ a ∈ l')) : newest k s l = newest k s l' := by
  cases he : newest k s l with
  | none =>
    refine (newest_eq_none_iff.mpr fun a ha hk => ?_).symm
    exact newest_eq_none_iff.mp he a ((hm a hk).mpr ha) hk
  | some a =>
    obtain ⟨ha, hk, hr, hmax⟩ := h.newest_eq_some_iff.mp he
    exact (h'.newest_eq_some_iff.mpr
      ⟨(hm a hk).mp ha, hk, hr, fun b hb hkb => hmax b ((hm b hkb).mpr hb) hkb⟩).symm

end

end TyLsm
