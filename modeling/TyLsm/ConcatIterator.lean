import TyLsm.Draining

/-! The concatenation of iterators. A seek stops at the first child that has an entry for it and
leaves the later children where earlier calls left them. -/

namespace TyLsm

structure ConcatIterator (ι : Type) where
  children : List ι
  current : Nat

namespace ConcatIterator

variable {ι : Type} [StorageIterator ι]

/-- The loop of `skip_empty` over the children from position `i` on. -/
def skipLoop : Nat → List ι → Nat
  | i, [] => i
  | i, child :: rest => if StorageIterator.isValid child then i else skipLoop (i + 1) rest

def skipEmpty (c : ConcatIterator ι) : ConcatIterator ι :=
  { c with current := skipLoop c.current (c.children.drop c.current) }

def new (children : List ι) : ConcatIterator ι := skipEmpty ⟨children, 0⟩

/-- The loop of `seek`, with the position it returns at. -/
def seekLoop (key : SeekKey) : Nat → List ι → List ι × Nat
  | i, [] => ([], i)
  | i, child :: rest =>
    let child := StorageIterator.seek child key
    if StorageIterator.isValid child then (child :: rest, i)
    else
      let found := seekLoop key (i + 1) rest
      (child :: found.1, found.2)

instance : StorageIterator (ConcatIterator ι) where
  isValid c := c.children[c.current]?.any StorageIterator.isValid
  entry c := c.children[c.current]?.bind StorageIterator.entry
  next c :=
    if c.current < c.children.length then
      skipEmpty { c with children := c.children.modify c.current StorageIterator.next }
    else c
  seek c key :=
    let found := seekLoop key 0 c.children
    ⟨found.1, found.2⟩

/-- Each child ranges over its own list, and the current one is not at its end. -/
structure ConcatAt (c : ConcatIterator ι) (specs : List (List Entry × List Entry)) : Prop where
  children : List.Forall₂ (fun c s => Iterates c s.1 s.2) c.children specs
  rising : ∀ s ∈ specs, Rising s.1
  suffix : ∀ s ∈ specs, s.2 <:+ s.1
  settled : ∀ s ss, specs.drop c.current = s :: ss → s.2 ≠ []

/-- What is still to come of the children in order. -/
def toCome (specs : List (List Entry × List Entry)) : List Entry := (specs.map Prod.snd).flatten

theorem skipLoop_spec {children : List ι} {specs : List (List Entry × List Entry)}
    (h : List.Forall₂ (fun c s => Iterates c s.1 s.2) children specs) (i : Nat) :
    ∃ k, skipLoop i children = i + k ∧ toCome (specs.drop k) = toCome specs ∧
      ∀ s ss, specs.drop k = s :: ss → s.2 ≠ [] := by
  induction h generalizing i with
  | nil => exact ⟨0, rfl, rfl, by simp⟩
  | @cons c s cs ss hc _ ih =>
    have hvalid := (iterates_law ι).isValid hc
    by_cases hs : s.2 = []
    · obtain ⟨k, hk, hcome, hsettled⟩ := ih (i + 1)
      refine ⟨k + 1, ?_, ?_, hsettled⟩
      · simp only [skipLoop, hvalid, hs, List.isEmpty_nil, Bool.not_true, Bool.false_eq_true,
          if_false, hk]
        omega
      · simpa [toCome, hs] using hcome
    · refine ⟨0, ?_, rfl, ?_⟩
      · simp [skipLoop, hvalid, hs]
      · intro s' ss' heq
        cases heq
        exact hs

theorem concatAt_skipEmpty {c : ConcatIterator ι} {specs : List (List Entry × List Entry)}
    (hc : List.Forall₂ (fun c s => Iterates c s.1 s.2) c.children specs)
    (hr : ∀ s ∈ specs, Rising s.1) (hs : ∀ s ∈ specs, s.2 <:+ s.1) :
    ConcatAt (skipEmpty c) specs ∧
      toCome (specs.drop (skipEmpty c).current) = toCome (specs.drop c.current) := by
  obtain ⟨k, hk, hcome, hsettled⟩ := skipLoop_spec (List.forall₂_drop c.current hc) c.current
  rw [List.drop_drop] at hcome hsettled
  have hcurrent : (skipEmpty c).current = c.current + k := hk
  rw [← hcurrent] at hcome hsettled
  exact ⟨⟨hc, hr, hs, hsettled⟩, hcome⟩

theorem ConcatAt.cases {c : ConcatIterator ι} {specs : List (List Entry × List Entry)}
    (h : ConcatAt c specs) :
    c.children.drop c.current = [] ∧ specs.drop c.current = [] ∨
    ∃ child rest s ss, c.children.drop c.current = child :: rest ∧
      specs.drop c.current = s :: ss ∧ Iterates child s.1 s.2 ∧ s.2 ≠ [] ∧
      List.Forall₂ (fun c s => Iterates c s.1 s.2) rest ss := by
  have hdrop := List.forall₂_drop c.current h.children
  cases hspecs : specs.drop c.current with
  | nil =>
    rw [hspecs] at hdrop
    exact .inl ⟨List.forall₂_nil_right_iff.mp hdrop, rfl⟩
  | cons s ss =>
    rw [hspecs] at hdrop
    obtain ⟨child, rest, hchild, hrest, hchildren⟩ := List.forall₂_cons_right_iff.mp hdrop
    exact .inr ⟨child, rest, s, ss, hchildren, rfl, hchild, h.settled s ss hspecs, hrest⟩

theorem ConcatAt.isValid {c : ConcatIterator ι} {specs : List (List Entry × List Entry)}
    (h : ConcatAt c specs) :
    StorageIterator.isValid c = !(toCome (specs.drop c.current)).isEmpty := by
  simp only [StorageIterator.isValid, ← List.head?_drop]
  obtain ⟨hc, hs⟩ | ⟨child, rest, s, ss, hc, hs, hchild, hne, -⟩ := h.cases
  · rw [hc, hs]
    rfl
  · obtain ⟨e, tail, he⟩ := List.exists_cons_of_ne_nil hne
    rw [hc, hs]
    simp [toCome, he, (iterates_law ι).isValid hchild]

theorem ConcatAt.entry {c : ConcatIterator ι} {specs : List (List Entry × List Entry)}
    (h : ConcatAt c specs) :
    StorageIterator.entry c = (toCome (specs.drop c.current)).head? := by
  simp only [StorageIterator.entry, ← List.head?_drop]
  obtain ⟨hc, hs⟩ | ⟨child, rest, s, ss, hc, hs, hchild, hne, -⟩ := h.cases
  · rw [hc, hs]
    rfl
  · obtain ⟨e, tail, he⟩ := List.exists_cons_of_ne_nil hne
    rw [hc, hs]
    simp [toCome, he, (iterates_law ι).entry hchild]

theorem ConcatAt.next {c : ConcatIterator ι} {specs : List (List Entry × List Entry)}
    (h : ConcatAt c specs) :
    ∃ specs', ConcatAt (StorageIterator.next c) specs' ∧
      specs'.map Prod.fst = specs.map Prod.fst ∧
      toCome (specs'.drop (StorageIterator.next c).current) =
        (toCome (specs.drop c.current)).tail := by
  obtain ⟨hc, hs⟩ | ⟨child, rest, s, ss, hc, hs, hchild, hne, hrest⟩ := h.cases
  · have hend : ¬ c.current < c.children.length := Nat.not_lt.mpr (List.drop_eq_nil_iff.mp hc)
    have hnext : StorageIterator.next c = c := if_neg hend
    rw [hnext]
    exact ⟨specs, h, rfl, by simp [hs, toCome]⟩
  · have hlt : c.current < c.children.length := by
      by_contra hno
      rw [List.drop_eq_nil_of_le (Nat.not_lt.mp hno)] at hc
      cases hc
    have hnext : StorageIterator.next c =
        skipEmpty ⟨c.children.modify c.current StorageIterator.next, c.current⟩ := if_pos hlt
    have hbefore := List.forall₂_take c.current h.children
    have hlen : (c.children.take c.current).length = c.current := by
      rw [List.length_take]
      omega
    have hlens : (specs.take c.current).length = c.current := by rw [← hbefore.length_eq, hlen]
    have hsplit : specs = specs.take c.current ++ s :: ss := by
      rw [← hs, List.take_append_drop]
    have hmodify : c.children.modify c.current StorageIterator.next =
        c.children.take c.current ++ StorageIterator.next child :: rest := by
      have hat := modify_append_length StorageIterator.next (c.children.take c.current) child rest
      rwa [← hc, List.take_append_drop, hlen] at hat
    have hstep : List.Forall₂ (fun c s => Iterates c s.1 s.2)
        (c.children.modify c.current StorageIterator.next)
        (specs.take c.current ++ (s.1, s.2.tail) :: ss) := by
      rw [hmodify]
      exact List.rel_append hbefore (.cons ((iterates_law ι).next hchild) hrest)
    have hmem : s ∈ specs := by
      rw [hsplit]
      simp
    have hold : ∀ x ∈ specs.take c.current ++ (s.1, s.2.tail) :: ss,
        x = (s.1, s.2.tail) ∨ x ∈ specs := by
      intro x hx
      rw [hsplit]
      simp only [List.mem_append, List.mem_cons] at hx ⊢
      tauto
    have hrising : ∀ x ∈ specs.take c.current ++ (s.1, s.2.tail) :: ss, Rising x.1 := by
      intro x hx
      obtain rfl | hx := hold x hx
      · exact h.rising s hmem
      · exact h.rising x hx
    have hsuffix : ∀ x ∈ specs.take c.current ++ (s.1, s.2.tail) :: ss, x.2 <:+ x.1 := by
      intro x hx
      obtain rfl | hx := hold x hx
      · exact (List.tail_suffix s.2).trans (h.suffix s hmem)
      · exact h.suffix x hx
    obtain ⟨hat, hcome⟩ := concatAt_skipEmpty
      (c := ⟨c.children.modify c.current StorageIterator.next, c.current⟩) hstep hrising hsuffix
    rw [hnext]
    refine ⟨_, hat, ?_, ?_⟩
    · conv_rhs => rw [hsplit]
      simp
    · rw [hcome, List.drop_left' hlens, hs]
      simp only [toCome, List.map_cons, List.flatten_cons]
      rw [List.tail_append_of_ne_nil hne]

theorem ConcatAt.yields {c : ConcatIterator ι} {specs : List (List Entry × List Entry)}
    (h : ConcatAt c specs) : Yields c (toCome (specs.drop c.current)) := by
  apply yields_of_step (R := fun c rest => ∃ specs, ConcatAt c specs ∧
    rest = toCome (specs.drop c.current))
  · rintro c rest ⟨specs, h, rfl⟩
    exact h.isValid
  · rintro c rest ⟨specs, h, rfl⟩
    exact h.entry
  · rintro c rest ⟨specs, h, rfl⟩
    obtain ⟨specs', h', -, hcome⟩ := h.next
    exact ⟨specs', h', hcome.symm⟩
  · exact ⟨specs, h, rfl⟩

/-- What comes up after a seek to `t`: the child that has an entry for it starts there, and
those behind it go on from where they stood. -/
def soughtFrom (t : SeekKey) : List (List Entry × List Entry) → List Entry
  | [] => []
  | s :: ss => if atLeast t s.1 = [] then soughtFrom t ss else atLeast t s.1 ++ toCome ss

theorem seekLoop_spec {children : List ι} {specs : List (List Entry × List Entry)}
    (h : List.Forall₂ (fun c s => Iterates c s.1 s.2) children specs)
    (hr : ∀ s ∈ specs, Rising s.1) (hs : ∀ s ∈ specs, s.2 <:+ s.1) (t : SeekKey) (i : Nat) :
    ∃ specs' k, (seekLoop t i children).2 = i + k ∧
      ConcatAt ⟨(seekLoop t i children).1, k⟩ specs' ∧
      specs'.map Prod.fst = specs.map Prod.fst ∧
      toCome (specs'.drop k) = soughtFrom t specs := by
  induction h generalizing i with
  | nil => exact ⟨[], 0, rfl, ⟨.nil, by simp, by simp, by simp⟩, rfl, rfl⟩
  | @cons c s cs ss hc hcs ih =>
    have hseek := (iterates_law ι).seek t hc
    have hvalid := (iterates_law ι).isValid hseek
    have hrs := hr s (by simp)
    have hsuffix : atLeast t s.1 <:+ s.1 := by
      rw [atLeast, ← hrs.dropWhile_eq_filter]
      exact List.dropWhile_suffix _
    by_cases hhit : atLeast t s.1 = []
    · obtain ⟨specs', k, hk, hat, hfst, hcome⟩ := ih (fun x hx => hr x (by simp [hx]))
        (fun x hx => hs x (by simp [hx])) (i + 1)
      have hmiss : StorageIterator.isValid (StorageIterator.seek c t) = false := by
        rw [hvalid, ← atLeast, hhit]
        rfl
      have hloop : seekLoop t i (c :: cs) = (StorageIterator.seek c t ::
          (seekLoop t (i + 1) cs).1, (seekLoop t (i + 1) cs).2) := by
        simp [seekLoop, hmiss]
      rw [hloop]
      refine ⟨(s.1, atLeast t s.1) :: specs', k + 1, ?_, ⟨?_, ?_, ?_, ?_⟩, ?_, ?_⟩
      · rw [hk]
        omega
      · exact .cons hseek hat.children
      · exact List.forall_mem_cons.mpr ⟨hrs, hat.rising⟩
      · exact List.forall_mem_cons.mpr ⟨hsuffix, hat.suffix⟩
      · exact hat.settled
      · rw [List.map_cons, List.map_cons, hfst]
      · simpa [soughtFrom, hhit] using hcome
    · have hhits : StorageIterator.isValid (StorageIterator.seek c t) = true := by
        rw [hvalid, ← atLeast]
        simpa using hhit
      have hloop : seekLoop t i (c :: cs) = (StorageIterator.seek c t :: cs, i) := by
        simp [seekLoop, hhits]
      rw [hloop]
      refine ⟨(s.1, atLeast t s.1) :: ss, 0, rfl, ⟨.cons hseek hcs, ?_, ?_, ?_⟩, rfl, ?_⟩
      · exact List.forall_mem_cons.mpr ⟨hrs, fun x hx => hr x (by simp [hx])⟩
      · exact List.forall_mem_cons.mpr ⟨hsuffix, fun x hx => hs x (by simp [hx])⟩
      · intro s' ss' heq
        cases heq
        exact hhit
      · simp [soughtFrom, hhit, toCome]

theorem ConcatAt.seek {c : ConcatIterator ι} {specs : List (List Entry × List Entry)}
    (h : ConcatAt c specs) (t : SeekKey) :
    ∃ specs', ConcatAt (StorageIterator.seek c t) specs' ∧
      specs'.map Prod.fst = specs.map Prod.fst ∧
      toCome (specs'.drop (StorageIterator.seek c t).current) = soughtFrom t specs := by
  obtain ⟨specs', k, hk, hat, hfst, hcome⟩ := seekLoop_spec h.children h.rising h.suffix t 0
  have hseek : StorageIterator.seek c t = ⟨(seekLoop t 0 c.children).1, k⟩ := by
    rw [Nat.zero_add] at hk
    rw [← hk]
    rfl
  rw [hseek]
  exact ⟨specs', hat, hfst, hcome⟩

theorem concatAt_new {children : List ι} {lists : List (List Entry)}
    (h : List.Forall₂ Obeys children lists) :
    ConcatAt (new children) (lists.map fun l => (l, l)) := by
  have hrising := MergeIterator.rising_of_obeys h
  have hchildren : List.Forall₂ (fun c s => Iterates c s.1 s.2) children
      (lists.map fun l => (l, l)) :=
    List.forall₂_map_right_iff.mpr (h.imp fun c l hc => hc.iterates)
  have hspecs : ∀ s ∈ lists.map fun l => (l, l), Rising s.1 ∧ s.2 <:+ s.1 := by
    intro s hs
    obtain ⟨l, hl, rfl⟩ := List.mem_map.mp hs
    exact ⟨hrising l hl, List.suffix_refl l⟩
  exact (concatAt_skipEmpty (c := ⟨children, 0⟩) hchildren
    (fun s hs => (hspecs s hs).1) (fun s hs => (hspecs s hs).2)).1

theorem ConcatAt.runCalls {c : ConcatIterator ι} {specs : List (List Entry × List Entry)}
    (h : ConcatAt c specs) (calls : List IterCall) :
    ∃ specs', ConcatAt (runCalls calls c) specs' ∧
      specs'.map Prod.fst = specs.map Prod.fst := by
  induction calls generalizing c specs with
  | nil => exact ⟨specs, h, rfl⟩
  | cons call calls ih =>
    cases call with
    | next =>
      obtain ⟨specs', hat, hfst, -⟩ := h.next
      obtain ⟨specs'', hat', hfst'⟩ := ih hat
      exact ⟨specs'', hat', hfst'.trans hfst⟩
    | seek key =>
      obtain ⟨specs', hat, hfst, -⟩ := h.seek key
      obtain ⟨specs'', hat', hfst'⟩ := ih hat
      exact ⟨specs'', hat', hfst'.trans hfst⟩

/-- Every child behind the first one with an entry for `t` has all of its entries to come. -/
def FreshBehind (t : SeekKey) : List ι → List (List Entry) → Prop
  | _ :: children, l :: lists =>
    if atLeast t l = [] then FreshBehind t children lists else List.Forall₂ Yields children lists
  | _, _ => True

theorem atLeast_append {l rest : List Entry} (h : Rising (l ++ rest)) (t : SeekKey) :
    atLeast t (l ++ rest) =
      if atLeast t l = [] then atLeast t rest else atLeast t l ++ rest := by
  have hsplit : atLeast t (l ++ rest) = atLeast t l ++ atLeast t rest := List.filter_append ..
  by_cases hl : atLeast t l = []
  · rw [if_pos hl, hsplit, hl, List.nil_append]
  · obtain ⟨e, he⟩ := List.exists_mem_of_ne_nil _ hl
    obtain ⟨hmem, hstays⟩ := List.mem_filter.mp he
    have hrest : atLeast t rest = rest := by
      apply List.filter_eq_self.mpr
      intro x hx
      have hle := (List.pairwise_append.mp h).2.2 e hmem x hx
      by_contra hno
      have hexceeds : t.exceeds x.1 = true := by simpa using hno
      rw [t.exceeds_of_le hexceeds hle] at hstays
      cases hstays
    rw [if_neg hl, hsplit, hrest]

theorem length_toCome_le {specs : List (List Entry × List Entry)}
    (hs : ∀ s ∈ specs, s.2 <:+ s.1) :
    (toCome specs).length ≤ (specs.map Prod.fst).flatten.length := by
  induction specs with
  | nil => exact le_rfl
  | cons s ss ih =>
    have hrest := ih fun x hx => hs x (by simp [hx])
    have hhead := (hs s (by simp)).length_le
    simp only [toCome, List.map_cons, List.flatten_cons, List.length_append] at hrest ⊢
    omega

theorem toCome_eq_iff {specs : List (List Entry × List Entry)} (hs : ∀ s ∈ specs, s.2 <:+ s.1) :
    toCome specs = (specs.map Prod.fst).flatten ↔ ∀ s ∈ specs, s.2 = s.1 := by
  induction specs with
  | nil => simp [toCome]
  | cons s ss ih =>
    have hss : ∀ x ∈ ss, x.2 <:+ x.1 := fun x hx => hs x (by simp [hx])
    have hcons : toCome (s :: ss) = s.2 ++ toCome ss := rfl
    rw [hcons, List.map_cons, List.flatten_cons, List.forall_mem_cons, ← ih hss]
    constructor
    · intro heq
      have hlen := congrArg List.length heq
      rw [List.length_append, List.length_append] at hlen
      have hrest := length_toCome_le hss
      have hhead := (hs s (by simp)).length_le
      have hsame : s.2 = s.1 := (hs s (by simp)).eq_of_length (by omega)
      rw [hsame] at heq
      exact ⟨hsame, List.append_cancel_left heq⟩
    · rintro ⟨hsame, hrest⟩
      rw [hsame, hrest]

theorem fresh_iff {children : List ι} {specs : List (List Entry × List Entry)}
    (h : List.Forall₂ (fun c s => Iterates c s.1 s.2) children specs) :
    List.Forall₂ Yields children (specs.map Prod.fst) ↔ ∀ s ∈ specs, s.2 = s.1 := by
  induction h with
  | nil => simp
  | @cons c s cs ss hc _ ih =>
    have hyields := (iterates_law ι).yields hc
    rw [List.map_cons, List.forall₂_cons, List.forall_mem_cons, ih]
    apply and_congr_left'
    constructor
    · exact hyields.unique
    · intro hsame
      exact hsame ▸ hyields

theorem soughtFrom_eq_iff {children : List ι} {specs : List (List Entry × List Entry)}
    (h : List.Forall₂ (fun c s => Iterates c s.1 s.2) children specs)
    (hs : ∀ s ∈ specs, s.2 <:+ s.1) (hr : Rising (specs.map Prod.fst).flatten) (t : SeekKey) :
    soughtFrom t specs = atLeast t (specs.map Prod.fst).flatten ↔
      FreshBehind t children (specs.map Prod.fst) := by
  induction h with
  | nil => exact iff_of_true rfl trivial
  | @cons c s cs ss _ hcs ih =>
    have hss : ∀ x ∈ ss, x.2 <:+ x.1 := fun x hx => hs x (by simp [hx])
    rw [List.map_cons, List.flatten_cons] at hr ⊢
    rw [soughtFrom, FreshBehind, atLeast_append hr]
    by_cases hhit : atLeast t s.1 = []
    · simp only [if_pos hhit]
      exact ih hss (List.pairwise_append.mp hr).2.1
    · simp only [if_neg hhit]
      rw [List.append_right_inj, toCome_eq_iff hss, fresh_iff hcs]

theorem ConcatAt.seek_yields_iff {c : ConcatIterator ι} {specs : List (List Entry × List Entry)}
    (h : ConcatAt c specs) (hr : Rising (specs.map Prod.fst).flatten) (t : SeekKey) :
    Yields (StorageIterator.seek c t) (atLeast t (specs.map Prod.fst).flatten) ↔
      FreshBehind t c.children (specs.map Prod.fst) := by
  obtain ⟨specs', hat, -, hcome⟩ := h.seek t
  have hyields := hat.yields
  rw [hcome] at hyields
  rw [← soughtFrom_eq_iff h.children h.suffix hr]
  constructor
  · exact hyields.unique
  · intro heq
    exact heq ▸ hyields

end ConcatIterator

theorem concatIterator_seek {ι : Type} [StorageIterator ι] {children : List ι}
    {lists : List (List Entry)} (h : List.Forall₂ Obeys children lists)
    (hr : Rising lists.flatten) (calls : List IterCall) (t : SeekKey) :
    Yields (StorageIterator.seek (runCalls calls (ConcatIterator.new children)) t)
        (atLeast t lists.flatten) ↔
      ConcatIterator.FreshBehind t (runCalls calls (ConcatIterator.new children)).children
        lists := by
  obtain ⟨specs, hat, hfst⟩ := (ConcatIterator.concatAt_new h).runCalls calls
  have hlists : specs.map Prod.fst = lists := by
    rw [hfst, List.map_map]
    exact List.map_id' lists
  rw [← hlists] at hr ⊢
  exact hat.seek_yields_iff hr t

/-- Two children of one entry each. -/
def halves : List (List Entry) := [[(⟨[1], 1, .put⟩, .put [1])], [(⟨[2], 1, .put⟩, .put [2])]]

theorem obeys_halves : List.Forall₂ Obeys (halves.map EntryIterator.new) halves := by
  have hobeys : ∀ l ∈ halves, Obeys (EntryIterator.new l) l := by
    intro l hl
    have hsorted : sortEntries l = l := by
      revert l hl
      decide +kernel
    have hnew := entryIterator_new l
    rw [hsorted] at hnew
    exact hnew.obeys (hsorted ▸ rising_sortEntries l)
  exact .cons (hobeys _ (by simp [halves])) (.cons (hobeys _ (by simp [halves])) .nil)

theorem rising_halves : Rising halves.flatten := by
  unfold Rising
  decide +kernel

theorem concatIterator_seek_back :
    let c := runCalls [.next] (ConcatIterator.new (halves.map EntryIterator.new))
    Yields (StorageIterator.seek c (.target ⟨[1], 1, .put⟩))
      (atLeast (.target ⟨[1], 1, .put⟩) halves.flatten) := by
  apply (concatIterator_seek obeys_halves rising_halves [.next] _).mpr
  obtain ⟨-, hsecond⟩ := List.forall₂_cons.mp obeys_halves
  have hhit : atLeast (.target ⟨[1], 1, .put⟩)
      [((⟨[1], 1, .put⟩ : InternalKey), ValueRecord.put [1])] ≠ [] := by
    decide +kernel
  show ConcatIterator.FreshBehind _ (_ :: [EntryIterator.new _]) (_ :: [_])
  rw [ConcatIterator.FreshBehind, if_neg hhit]
  exact hsecond.imp fun _ _ h => h.start

/-- After the second `next` both children are at their ends. A seek to the first entry starts
the first child again, but not the second. -/
theorem concatIterator_loses_entry :
    let c := runCalls [.next, .next] (ConcatIterator.new (halves.map EntryIterator.new))
    List.Forall₂ Obeys (halves.map EntryIterator.new) halves ∧ Rising halves.flatten ∧
      ¬ Yields (StorageIterator.seek c (.target ⟨[1], 1, .put⟩))
        (atLeast (.target ⟨[1], 1, .put⟩) halves.flatten) := by
  refine ⟨obeys_halves, rising_halves, ?_⟩
  intro hyields
  have hsecond := (hyields 1).1
  revert hsecond
  decide +kernel

end TyLsm
