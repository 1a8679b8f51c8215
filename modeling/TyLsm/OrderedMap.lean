import Mathlib

/-! Finite ordered maps as association lists with strictly rising keys.
Insertion replaces the value of a key that is already present. -/

namespace TyLsm

structure OrderedMap (α β : Type*) [LinearOrder α] where
  entries : List (α × β)
  sorted : entries.Pairwise (fun a b => a.1 < b.1)

namespace OrderedMap

section

variable {α β : Type*} [LinearOrder α]

def insertEntry (k : α) (v : β) : List (α × β) → List (α × β)
  | [] => [(k, v)]
  | e :: es =>
    if k < e.1 then (k, v) :: e :: es
    else if e.1 < k then e :: insertEntry k v es
    else (k, v) :: es

theorem mem_insertEntry {k : α} {v : β} {l : List (α × β)}
    (h : l.Pairwise (fun a b => a.1 < b.1)) {p : α × β} :
    p ∈ insertEntry k v l ↔ p = (k, v) ∨ p ∈ l ∧ p.1 ≠ k := by
  induction l with
  | nil => simp [insertEntry]
  | cons e es ih =>
    obtain ⟨he, hes⟩ := List.pairwise_cons.mp h
    have hlt : ∀ q ∈ es, e.1 < q.1 := he
    by_cases hk : k < e.1
    · have hne : ∀ q ∈ e :: es, q.1 ≠ k := by
        intro q hq
        rcases List.mem_cons.mp hq with rfl | hq
        · exact hk.ne'
        · exact (hk.trans (hlt q hq)).ne'
      simp only [insertEntry, hk, if_true, List.mem_cons]
      constructor
      · rintro (rfl | hp)
        · exact .inl rfl
        · exact .inr ⟨hp, hne p (List.mem_cons.mpr hp)⟩
      · rintro (rfl | ⟨hp, _⟩)
        · exact .inl rfl
        · exact .inr hp
    · by_cases hk' : e.1 < k
      · simp only [insertEntry, hk, hk', if_true, if_false, List.mem_cons, ih hes]
        constructor
        · rintro (rfl | rfl | ⟨hp, hne⟩)
          · exact .inr ⟨.inl rfl, hk'.ne⟩
          · exact .inl rfl
          · exact .inr ⟨.inr hp, hne⟩
        · rintro (rfl | ⟨rfl | hp, hne⟩)
          · exact .inr (.inl rfl)
          · exact .inl rfl
          · exact .inr (.inr ⟨hp, hne⟩)
      · have hkey : e.1 = k := le_antisymm (not_lt.mp hk) (not_lt.mp hk')
        simp only [insertEntry, hk, hk', if_false, List.mem_cons]
        constructor
        · rintro (rfl | hp)
          · exact .inl rfl
          · exact .inr ⟨.inr hp, (hkey ▸ hlt p hp).ne'⟩
        · rintro (rfl | ⟨rfl | hp, hne⟩)
          · exact .inl rfl
          · exact absurd hkey hne
          · exact .inr hp

theorem pairwise_insertEntry {k : α} {v : β} {l : List (α × β)}
    (h : l.Pairwise (fun a b => a.1 < b.1)) :
    (insertEntry k v l).Pairwise (fun a b => a.1 < b.1) := by
  induction l with
  | nil => exact List.pairwise_singleton _ _
  | cons e es ih =>
    obtain ⟨he, hes⟩ := List.pairwise_cons.mp h
    by_cases hk : k < e.1
    · simp only [insertEntry, hk, if_true]
      refine List.pairwise_cons.mpr ⟨fun q hq => ?_, h⟩
      rcases List.mem_cons.mp hq with rfl | hq
      · exact hk
      · exact hk.trans (he q hq)
    · by_cases hk' : e.1 < k
      · simp only [insertEntry, hk, hk', if_true, if_false]
        refine List.pairwise_cons.mpr ⟨fun q hq => ?_, ih hes⟩
        rcases (mem_insertEntry hes).mp hq with rfl | ⟨hq, _⟩
        · exact hk'
        · exact he q hq
      · have hkey : e.1 = k := le_antisymm (not_lt.mp hk) (not_lt.mp hk')
        simp only [insertEntry, hk, hk', if_false]
        exact List.pairwise_cons.mpr ⟨fun q hq => hkey ▸ he q hq, hes⟩

def empty : OrderedMap α β := ⟨[], List.Pairwise.nil⟩

def insert (m : OrderedMap α β) (k : α) (v : β) : OrderedMap α β :=
  ⟨insertEntry k v m.entries, pairwise_insertEntry m.sorted⟩

def erase (m : OrderedMap α β) (k : α) : OrderedMap α β :=
  ⟨m.entries.filter (fun e => e.1 ≠ k), m.sorted.sublist List.filter_sublist⟩

def get? (m : OrderedMap α β) (k : α) : Option β :=
  (m.entries.find? (fun e => e.1 = k)).map Prod.snd

def isEmpty (m : OrderedMap α β) : Bool := m.entries.isEmpty

@[simp] theorem entries_empty : (empty : OrderedMap α β).entries = [] := rfl

@[simp] theorem mem_entries_insert {m : OrderedMap α β} {k : α} {v : β} {p : α × β} :
    p ∈ (m.insert k v).entries ↔ p = (k, v) ∨ p ∈ m.entries ∧ p.1 ≠ k :=
  mem_insertEntry m.sorted

@[simp] theorem mem_entries_erase {m : OrderedMap α β} {k : α} {p : α × β} :
    p ∈ (m.erase k).entries ↔ p ∈ m.entries ∧ p.1 ≠ k := by
  simp [erase]

theorem eq_of_mem {m : OrderedMap α β} {p q : α × β} (hp : p ∈ m.entries) (hq : q ∈ m.entries)
    (h : p.1 = q.1) : p = q := by
  by_contra hne
  have hs : Std.Symm (fun a b : α × β => a.1 ≠ b.1) := ⟨fun _ _ hab => hab.symm⟩
  exact (m.sorted.imp fun hab => ne_of_lt hab).forall hp hq hne h

theorem get?_eq_some_iff {m : OrderedMap α β} {k : α} {v : β} :
    m.get? k = some v ↔ (k, v) ∈ m.entries := by
  simp only [get?, Option.map_eq_some_iff]
  constructor
  · rintro ⟨p, hp, rfl⟩
    have hk : p.1 = k := by simpa using List.find?_some hp
    exact hk ▸ List.mem_of_find?_eq_some hp
  · intro h
    cases he : m.entries.find? (fun e => e.1 = k) with
    | none => exact absurd (List.find?_eq_none.mp he _ h) (by simp)
    | some p =>
      have hk : p.1 = k := by simpa using List.find?_some he
      exact ⟨p, rfl, congrArg Prod.snd (eq_of_mem (List.mem_of_find?_eq_some he) h hk)⟩

theorem get?_insert (m : OrderedMap α β) (k k' : α) (v : β) :
    (m.insert k v).get? k' = if k = k' then some v else m.get? k' := by
  refine Option.ext fun w => ?_
  rw [get?_eq_some_iff, mem_entries_insert, Prod.mk.injEq]
  split
  · rename_i h
    simp [h, eq_comm]
  · rename_i h
    rw [get?_eq_some_iff]
    exact ⟨fun hm => hm.elim (fun he => absurd he.1.symm h) And.left,
      fun hm => .inr ⟨hm, fun he => h he.symm⟩⟩

theorem get?_erase (m : OrderedMap α β) (k k' : α) :
    (m.erase k).get? k' = if k = k' then none else m.get? k' := by
  refine Option.ext fun w => ?_
  rw [get?_eq_some_iff, mem_entries_erase]
  split
  · rename_i h
    simp [h]
  · rename_i h
    rw [get?_eq_some_iff]
    exact ⟨And.left, fun hm => ⟨hm, fun he => h he.symm⟩⟩

theorem entries_eq_of_mem_iff {l r : List (α × β)} (hl : l.Pairwise (fun a b => a.1 < b.1))
    (hr : r.Pairwise (fun a b => a.1 < b.1)) (h : ∀ p, p ∈ l ↔ p ∈ r) : l = r := by
  have hnd : ∀ {t : List (α × β)}, t.Pairwise (fun a b => a.1 < b.1) → t.Nodup :=
    fun ht => ht.imp fun hab he => (he ▸ hab).false
  have hperm : l.Perm r := (List.perm_ext_iff_of_nodup (hnd hl) (hnd hr)).mpr h
  exact hperm.eq_of_pairwise (fun a b _ _ hab hba => absurd hab hba.asymm) hl hr

theorem keys_nodup (m : OrderedMap α β) : (m.entries.map Prod.fst).Nodup :=
  List.pairwise_map.mpr (m.sorted.imp fun hab => hab.ne)

theorem insert_perm {m : OrderedMap α β} {k : α} {v : β} (h : ∀ p ∈ m.entries, p.1 ≠ k) :
    (m.insert k v).entries.Perm ((k, v) :: m.entries) := by
  refine (List.perm_ext_iff_of_nodup (keys_nodup _).of_map ?_).mpr fun p => ?_
  · exact List.nodup_cons.mpr ⟨fun hmem => h _ hmem rfl, m.keys_nodup.of_map⟩
  · rw [mem_entries_insert, List.mem_cons]
    exact or_congr Iff.rfl (and_iff_left_of_imp fun hp => h p hp)

/-- Inserting a list of pairs, one after the other. -/
def insertAll (m : OrderedMap α β) (l : List (α × β)) : OrderedMap α β :=
  l.foldl (fun m e => m.insert e.1 e.2) m

theorem mem_insertAll {m : OrderedMap α β} {l : List (α × β)} {p : α × β} :
    p ∈ (m.insertAll l).entries ↔
      (∃ pre post, l = pre ++ p :: post ∧ p.1 ∉ post.map Prod.fst) ∨
      p ∈ m.entries ∧ p.1 ∉ l.map Prod.fst := by
  induction l generalizing m with
  | nil => simp [insertAll]
  | cons a l ih =>
    have hstep : m.insertAll (a :: l) = (m.insert a.1 a.2).insertAll l := rfl
    rw [hstep, ih, mem_entries_insert]
    constructor
    · rintro (⟨pre, post, rfl, hno⟩ | ⟨rfl | ⟨hp, hne⟩, hno⟩)
      · exact .inl ⟨a :: pre, post, rfl, hno⟩
      · exact .inl ⟨[], l, rfl, hno⟩
      · exact .inr ⟨hp, by simp [hne, hno]⟩
    · rintro (⟨pre, post, hl, hno⟩ | ⟨hp, hno⟩)
      · cases pre with
        | nil =>
          obtain ⟨rfl, rfl⟩ := List.cons.inj hl
          exact .inr ⟨.inl rfl, hno⟩
        | cons b pre =>
          obtain ⟨-, rfl⟩ := List.cons.inj hl
          exact .inl ⟨pre, post, rfl, hno⟩
      · simp only [List.map_cons, List.mem_cons, not_or] at hno
        exact .inr ⟨.inr ⟨hp, hno.1⟩, hno.2⟩

theorem mem_insertAll_of_unique {m : OrderedMap α β} {l : List (α × β)}
    (hu : ∀ a ∈ l, ∀ b ∈ l, a.1 = b.1 → a = b) {p : α × β} :
    p ∈ (m.insertAll l).entries ↔ p ∈ l ∨ p ∈ m.entries ∧ p.1 ∉ l.map Prod.fst := by
  induction l generalizing m with
  | nil => simp [insertAll]
  | cons a l ih =>
    have hstep : m.insertAll (a :: l) = (m.insert a.1 a.2).insertAll l := rfl
    have hu' : ∀ b ∈ l, ∀ c ∈ l, b.1 = c.1 → b = c := fun b hb c hc =>
      hu b (List.mem_cons_of_mem _ hb) c (List.mem_cons_of_mem _ hc)
    rw [hstep, ih hu', mem_entries_insert, List.map_cons, List.mem_cons, List.mem_cons, not_or]
    constructor
    · rintro (hp | ⟨rfl | ⟨hp, hne⟩, hno⟩)
      · exact .inl (.inr hp)
      · exact .inl (.inl rfl)
      · exact .inr ⟨hp, hne, hno⟩
    · rintro ((rfl | hp) | ⟨hp, hne, hno⟩)
      · by_cases hno : p.1 ∈ l.map Prod.fst
        · obtain ⟨b, hb, hk⟩ := List.mem_map.mp hno
          rw [← hu b (List.mem_cons_of_mem _ hb) p List.mem_cons_self hk]
          exact .inl hb
        · exact .inr ⟨.inl rfl, hno⟩
      · exact .inl hp
      · exact .inr ⟨.inr ⟨hp, hne⟩, hno⟩

theorem mem_insertAll_of_nodup {m : OrderedMap α β} {l : List (α × β)}
    (hnd : (l.map Prod.fst).Nodup) {p : α × β} :
    p ∈ (m.insertAll l).entries ↔ p ∈ l ∨ p ∈ m.entries ∧ p.1 ∉ l.map Prod.fst :=
  mem_insertAll_of_unique fun _ ha _ hb hk => List.inj_on_of_nodup_map hnd ha hb hk

end

end OrderedMap

end TyLsm
