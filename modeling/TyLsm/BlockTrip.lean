import TyLsm.Blocks

/-! The round trip of a data block. The running keys of builder and decoder stay equal over any
entries, so the only limit is the restart count, which is written in 32 bits. -/

namespace TyLsm

/-- Add the entries in order and finish. -/
def buildBlock (restartInterval : Nat) (entries : List Entry) : Bytes :=
  (entries.foldl (fun b e => b.add e.1 e.2) (BlockBuilder.new restartInterval)).finish

/-- How many restart points a block of `count` entries has. -/
def restartPoints (restartInterval count : Nat) : Nat :=
  (count + max restartInterval 1 - 1) / max restartInterval 1

theorem restartPoints_zero (restartInterval : Nat) : restartPoints restartInterval 0 = 0 := by
  apply Nat.div_eq_of_lt
  omega

theorem restartPoints_succ (restartInterval count : Nat) :
    restartPoints restartInterval (count + 1) =
      restartPoints restartInterval count + if count % max restartInterval 1 = 0 then 1 else 0 := by
  have hpos : 0 < max restartInterval 1 := by omega
  unfold restartPoints
  generalize max restartInterval 1 = interval at hpos ⊢
  have hsucc : count + 1 + interval - 1 = count + interval := by omega
  have hdm := Nat.div_add_mod count interval
  rw [hsucc, Nat.add_div_right _ hpos]
  by_cases hz : count % interval = 0
  · have hsum : count + interval - 1 = interval - 1 + interval * (count / interval) := by omega
    have hlow : (interval - 1) / interval = 0 := Nat.div_eq_of_lt (by omega)
    rw [if_pos hz, hsum, Nat.add_mul_div_left _ _ hpos, hlow, Nat.zero_add]
  · have hsum :
        count + interval - 1 = count % interval - 1 + interval * (count / interval + 1) := by
      rw [Nat.mul_add, Nat.mul_one]
      omega
    have hlow : (count % interval - 1) / interval = 0 :=
      Nat.div_eq_of_lt (by have := Nat.mod_lt count hpos; omega)
    rw [if_neg hz, hsum, Nat.add_mul_div_left _ _ hpos, hlow, Nat.zero_add]

namespace BlockBuilder

/-- The restart list has an offset for each restart point so far. -/
def CountsRestarts (b : BlockBuilder) (restartInterval : Nat) : Prop :=
  b.restartInterval = max restartInterval 1 ∧
    b.restarts.length = restartPoints restartInterval b.entryCount

theorem countsRestarts_new (restartInterval : Nat) :
    (new restartInterval).CountsRestarts restartInterval :=
  ⟨rfl, (restartPoints_zero restartInterval).symm⟩

theorem CountsRestarts.add {b : BlockBuilder} {restartInterval : Nat}
    (h : b.CountsRestarts restartInterval) (key : InternalKey) (value : ValueRecord) :
    (b.add key value).CountsRestarts restartInterval := by
  constructor
  · exact h.1
  · show (b.add key value).restarts.length = restartPoints restartInterval (b.entryCount + 1)
    rw [restartPoints_succ, ← h.1, ← h.2]
    by_cases hz : b.entryCount % b.restartInterval = 0
    · simp [BlockBuilder.add, hz]
    · simp [BlockBuilder.add, hz]

theorem encodes_foldl {es : List Entry} {b : BlockBuilder} {before : List Entry}
    (h : b.Encodes before) (hfits : ∀ e ∈ es, EntryFits e) (hmatched : ∀ e ∈ es, Matched e) :
    (es.foldl (fun b e => b.add e.1 e.2) b).Encodes (before ++ es) := by
  induction es generalizing b before with
  | nil => simpa using h
  | cons e es ih =>
    have hadd := h.add (hfits e (by simp)) (hmatched e (by simp))
    simpa using ih hadd (fun x hx => hfits x (by simp [hx])) (fun x hx => hmatched x (by simp [hx]))

theorem countsRestarts_foldl {b : BlockBuilder} {restartInterval : Nat}
    (h : b.CountsRestarts restartInterval) (es : List Entry) :
    (es.foldl (fun b e => b.add e.1 e.2) b).CountsRestarts restartInterval := by
  induction es generalizing b with
  | nil => exact h
  | cons e es ih => exact ih (h.add e.1 e.2)

theorem CountsRestarts.trailer_lt_iff {b : BlockBuilder} {restartInterval : Nat}
    (h : b.CountsRestarts restartInterval) :
    b.trailer.length < 2 ^ 32 ↔ restartPoints restartInterval b.entryCount < 2 ^ 32 := by
  rw [← h.2, trailer]
  cases b.restarts with
  | nil => simp
  | cons => rfl

theorem decodeBlockLoop_ne_nil {turns : Nat} {last tail : Bytes} (htail : tail ≠ [])
    (hturns : tail.length ≤ turns) : decodeBlockLoop turns last tail ≠ .ok [] := by
  cases turns with
  | zero => exact absurd (List.length_eq_zero_iff.mp (Nat.le_zero.mp hturns)) htail
  | succ turns =>
    have hsome : tail.isEmpty = false := by simpa using htail
    rw [decodeBlockLoop, hsome]
    simp only [Bool.false_eq_true, if_false, bind, Except.bind]
    cases decodeBlockEntry last tail with
    | error err => simp
    | ok first =>
      dsimp only
      cases decodeBlockLoop turns first.1.1.userKey first.2 with
      | error err => simp
      | ok rest => exact fun h => List.cons_ne_nil _ _ (Except.ok.inj h)

theorem Encodes.decodeBlock_wrapped {b : BlockBuilder} {es : List Entry} (h : b.Encodes es)
    (hcount : 2 ^ 32 ≤ b.trailer.length) : decodeBlock b.finish ≠ .ok es := by
  have hwrap : asU32 b.trailer.length < b.trailer.length :=
    (Nat.mod_lt _ (by norm_num)).trans_le hcount
  have hleft : uncounted b.trailer ≠ [] := by
    apply List.ne_nil_of_length_pos
    rw [uncounted, List.length_take, length_restartBytes]
    omega
  obtain ⟨turns, hturns, hdecodes⟩ := h.decodeBlockLoop_append (uncounted b.trailer)
  rw [finish_eq, decodeBlock_trailer, hdecodes]
  have hsome : decodeBlockLoop turns b.lastUserKey (uncounted b.trailer) ≠ .ok [] :=
    decodeBlockLoop_ne_nil hleft hturns
  intro heq
  apply hsome
  cases hrest : decodeBlockLoop turns b.lastUserKey (uncounted b.trailer) with
  | error err =>
    rw [hrest] at heq
    cases heq
  | ok rest =>
    rw [hrest] at heq
    have hall : es ++ rest = es := Except.ok.inj heq
    rw [List.append_right_eq_self.mp hall]

theorem Encodes.decodeBlock_finish_iff {b : BlockBuilder} {es : List Entry} (h : b.Encodes es)
    {restartInterval : Nat} (hr : b.CountsRestarts restartInterval) :
    decodeBlock b.finish = .ok es ↔ restartPoints restartInterval es.length < 2 ^ 32 := by
  rw [← h.count, ← hr.trailer_lt_iff]
  constructor
  · intro hok
    by_contra hcount
    exact h.decodeBlock_wrapped (Nat.not_lt.mp hcount) hok
  · exact h.decodeBlock_finish

end BlockBuilder

theorem decodeBlock_buildBlock (restartInterval : Nat) {es : List Entry}
    (hfits : ∀ e ∈ es, EntryFits e) (hmatched : ∀ e ∈ es, Matched e) :
    decodeBlock (buildBlock restartInterval es) = .ok es ↔
      restartPoints restartInterval es.length < 2 ^ 32 := by
  have hencodes :=
    BlockBuilder.encodes_foldl (BlockBuilder.encodes_new restartInterval) hfits hmatched
  have hrestarts :=
    BlockBuilder.countsRestarts_foldl (BlockBuilder.countsRestarts_new restartInterval) es
  exact hencodes.decodeBlock_finish_iff hrestarts

theorem decodeBlock_buildBlock_five :
    let es : List Entry :=
      [(⟨[], 3, .put⟩, .put [7]), (⟨[], 2, .delete⟩, .delete), (⟨[1, 2], 9, .put⟩, .put []),
        (⟨[1, 2, 3], 1, .put⟩, .put [8]), (⟨[1], 1, .delete⟩, .delete)]
    decodeBlock (buildBlock 2 es) = .ok es := by
  intro es
  have hfits : ∀ e ∈ es, EntryFits e := by
    intro e he
    have hsmall : e.1.Encodable ∧ e.2.bytes.length < 2 ^ 32 := by
      revert e he
      unfold InternalKey.Encodable
      decide
    exact ⟨hsmall.1, hsmall.2⟩
  exact (decodeBlock_buildBlock 2 hfits (by unfold Matched; decide)).mpr (by decide)

/-- With a restart point at every entry, `2 ^ 32` entries are written with the count `0`. -/
theorem restartCount_wraps :
    let e : Entry := (⟨[1], 1, .put⟩, .put [])
    (∀ x ∈ List.replicate (2 ^ 32) e, EntryFits x ∧ Matched x) ∧
      decodeBlock (buildBlock 1 (List.replicate (2 ^ 32) e)) ≠ .ok (List.replicate (2 ^ 32) e) := by
  intro e
  have hall : ∀ count, ∀ x ∈ List.replicate count e, EntryFits x ∧ Matched x := by
    intro count x hx
    rw [List.eq_of_mem_replicate hx]
    exact ⟨⟨⟨by simp [e], by simp [e]⟩, by simp [e, ValueRecord.bytes]⟩, rfl⟩
  have hwraps : ∀ count, 2 ^ 32 ≤ count →
      decodeBlock (buildBlock 1 (List.replicate count e)) ≠ .ok (List.replicate count e) := by
    intro count hcount hok
    have hencodes := BlockBuilder.encodes_foldl (BlockBuilder.encodes_new 1)
      (fun x hx => (hall count x hx).1) (fun x hx => (hall count x hx).2)
    have hrestarts := BlockBuilder.countsRestarts_foldl (BlockBuilder.countsRestarts_new 1)
      (List.replicate count e)
    have hfew := (hencodes.decodeBlock_finish_iff hrestarts).mp hok
    have hone : restartPoints 1 count = count := by simp [restartPoints]
    rw [List.nil_append, List.length_replicate, hone] at hfew
    exact absurd hfew (Nat.not_lt.mpr hcount)
  exact ⟨hall _, hwraps _ le_rfl⟩

end TyLsm
