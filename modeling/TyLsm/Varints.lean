import Mathlib
import TyLsm.Coding

/-! What the varint decoder accepts: the value of the consumed 7-bit groups, taken modulo the
64 bits of the accumulator. Only a tenth byte that is not `0` or `1` makes a difference. -/

namespace TyLsm

/-- Continuation bytes and the byte that ends them. -/
def IsVarint : Bytes → Prop
  | [] => False
  | byte :: rest => if byte < 0x80 then rest = [] else IsVarint rest

/-- The sum of the 7-bit groups, least significant first. -/
def varValue (used : Bytes) : Nat := Nat.ofDigits 0x80 (used.map fun byte => byte.toNat % 0x80)

theorem varValue_cons (byte : UInt8) (rest : Bytes) :
    varValue (byte :: rest) = byte.toNat % 0x80 + 0x80 * varValue rest := by
  simp [varValue, Nat.ofDigits_cons]

theorem varValue_append (init rest : Bytes) :
    varValue (init ++ rest) = varValue init + 0x80 ^ init.length * varValue rest := by
  simp [varValue, Nat.ofDigits_append]

theorem varValue_lt (used : Bytes) : varValue used < 0x80 ^ used.length := by
  have h : ∀ x ∈ used.map fun byte => byte.toNat % 0x80, x < 0x80 := by
    intro x hx
    obtain ⟨byte, -, rfl⟩ := List.mem_map.mp hx
    exact Nat.mod_lt _ (by norm_num)
  simpa [varValue] using Nat.ofDigits_lt_base_pow_length (by norm_num) h

theorem isVarint_iff {used : Bytes} :
    IsVarint used ↔
      ∃ init last, used = init ++ [last] ∧ (∀ b ∈ init, 0x80 ≤ b) ∧ last < 0x80 := by
  induction used with
  | nil => simp [IsVarint]
  | cons byte rest ih =>
    by_cases hb : byte < 0x80
    · simp only [IsVarint, hb, if_true]
      constructor
      · rintro rfl
        exact ⟨[], byte, rfl, by simp, hb⟩
      · rintro ⟨init, last, hu, hi, -⟩
        cases init with
        | nil => exact (List.cons.inj hu).2
        | cons b init =>
          obtain ⟨rfl, -⟩ := List.cons.inj hu
          exact absurd hb (UInt8.not_lt.mpr (hi byte (by simp)))
    · simp only [IsVarint, hb, if_false, ih]
      constructor
      · rintro ⟨init, last, rfl, hi, hl⟩
        have hi' : ∀ b ∈ byte :: init, 0x80 ≤ b := List.forall_mem_cons.mpr ⟨UInt8.not_lt.mp hb, hi⟩
        exact ⟨byte :: init, last, rfl, hi', hl⟩
      · rintro ⟨init, last, hu, hi, hl⟩
        cases init with
        | nil =>
          obtain ⟨rfl, -⟩ := List.cons.inj hu
          exact absurd hl hb
        | cons b init =>
          obtain ⟨rfl, rfl⟩ := List.cons.inj hu
          exact ⟨init, last, rfl, fun b h => hi b (by simp [h]), hl⟩

theorem or_group {acc s : Nat} (hacc : acc < 2 ^ s) (hs : s ≤ 64) (g : Nat) :
    acc ||| g <<< s % 2 ^ 64 = (acc + 2 ^ s * g) % 2 ^ 64 := by
  have hsplit : 2 ^ 64 = 2 ^ s * 2 ^ (64 - s) := by
    rw [← Nat.pow_add]
    congr 1
    omega
  have hlow : (acc + 2 ^ s * g) % 2 ^ s = acc := by
    rw [Nat.add_mul_mod_self_left, Nat.mod_eq_of_lt hacc]
  have hhigh : (acc + 2 ^ s * g) / 2 ^ s = g := by
    rw [Nat.add_mul_div_left _ _ (Nat.two_pow_pos s), Nat.div_eq_of_lt hacc, Nat.zero_add]
  rw [Nat.shiftLeft_eq, Nat.mul_comm g, hsplit, Nat.mul_mod_mul_left, Nat.mod_mul, hlow, hhigh,
    Nat.or_comm, ← Nat.two_pow_add_eq_or_of_lt hacc, Nat.add_comm]

theorem getVarLoop_varint {used : Bytes} (hu : IsVarint used) (k acc : Nat) (rest : Bytes)
    (hacc : acc < 2 ^ (7 * k)) (hk : k + used.length ≤ 10) :
    getVarLoop (10 - k) (7 * k) acc (used ++ rest) =
      .ok ((acc + 2 ^ (7 * k) * varValue used) % 2 ^ 64, rest) := by
  induction used generalizing k acc with
  | nil => exact hu.elim
  | cons byte tail ih =>
    rw [List.length_cons] at hk
    have hn : 10 - k = 10 - (k + 1) + 1 := by omega
    have hor := or_group hacc (by omega) (byte.toNat % 0x80)
    by_cases hb : byte < 0x80
    · simp only [IsVarint, hb, if_true] at hu
      subst hu
      have hone : varValue [byte] = byte.toNat % 0x80 := by simp [varValue]
      rw [hn, hone]
      simp only [List.cons_append, List.nil_append, getVarLoop, hb, if_true, hor]
    · simp only [IsVarint, hb, if_false] at hu
      have hpos : 0 < tail.length := by
        cases tail with
        | nil => exact hu.elim
        | cons => simp
      have hgroup : byte.toNat % 0x80 < 2 ^ 7 := Nat.mod_lt _ (by norm_num)
      have hpow : 2 ^ (7 * (k + 1)) = 2 ^ (7 * k) * 2 ^ 7 := by rw [← Nat.pow_add]; congr 1
      have hacc' : acc + 2 ^ (7 * k) * (byte.toNat % 0x80) < 2 ^ (7 * (k + 1)) := by
        rw [hpow]
        nlinarith [Nat.two_pow_pos (7 * k)]
      have hfit : 2 ^ (7 * (k + 1)) ≤ 2 ^ 64 := Nat.pow_le_pow_right (by norm_num) (by omega)
      rw [Nat.mod_eq_of_lt (hacc'.trans_le hfit)] at hor
      have hrest := ih hu (k + 1) _ hacc' (by omega)
      rw [hn]
      simp only [List.cons_append, getVarLoop, hb, if_false, hor]
      rw [show 7 * k + 7 = 7 * (k + 1) by ring, hrest, varValue_cons, hpow]
      congr 3
      ring

theorem getVarLoop_continues (n shift acc : Nat) (init rest : Bytes) (hi : ∀ b ∈ init, 0x80 ≤ b)
    (hn : n ≤ init.length) :
    getVarLoop n shift acc (init ++ rest) = .error (.corruption "varint u64 overflow") := by
  induction n generalizing shift acc init with
  | zero => rfl
  | succ n ih =>
    cases init with
    | nil => simp at hn
    | cons byte tail =>
      have hb : ¬ byte < 0x80 := UInt8.not_lt.mpr (hi byte (by simp))
      simp only [List.cons_append, getVarLoop, hb, if_false]
      exact ih _ _ tail (fun b h => hi b (by simp [h])) (by simpa using hn)

theorem getVarLoop_consumed {n shift acc : Nat} {src rest : Bytes} {v : Nat}
    (h : getVarLoop n shift acc src = .ok (v, rest)) :
    ∃ used, src = used ++ rest ∧ IsVarint used ∧ used.length ≤ n := by
  induction n generalizing shift acc src with
  | zero => cases h
  | succ n ih =>
    cases src with
    | nil => cases h
    | cons byte tail =>
      by_cases hb : byte < 0x80
      · simp only [getVarLoop, hb, if_true, Except.ok.injEq, Prod.mk.injEq] at h
        exact ⟨[byte], by simp [h.2], by simp [IsVarint, hb], by simp⟩
      · simp only [getVarLoop, hb, if_false] at h
        obtain ⟨used, rfl, hu, hlen⟩ := ih h
        exact ⟨byte :: used, rfl, by simpa [IsVarint, hb] using hu, by simpa using hlen⟩

theorem getVarU64_varint {used : Bytes} (hu : IsVarint used) (rest : Bytes) :
    getVarU64 (used ++ rest) =
      if used.length ≤ 10 then .ok (varValue used % 2 ^ 64, rest)
      else .error (.corruption "varint u64 overflow") := by
  by_cases hlen : used.length ≤ 10
  · simpa [getVarU64, hlen] using getVarLoop_varint hu 0 0 rest (by norm_num) (by omega)
  · obtain ⟨init, last, rfl, hi, -⟩ := isVarint_iff.mp hu
    rw [List.length_append, List.length_singleton] at hlen
    have hten := getVarLoop_continues 10 0 0 init (last :: rest) hi (by omega)
    simpa [getVarU64, hlen] using hten

/-- Ten groups carry 70 bits; they exceed 64 exactly when the last is not `0` or `1`. -/
theorem varValue_fits_iff {used : Bytes} {last : UInt8} (hl : last < 0x80)
    (hlen : used.length ≤ 9) :
    varValue (used ++ [last]) < 2 ^ 64 ↔ used.length < 9 ∨ last < 2 := by
  have hlast : last.toNat < 0x80 := UInt8.lt_iff_toNat_lt.mp hl
  have hone : varValue [last] = last.toNat := by
    simp [varValue, Nat.mod_eq_of_lt hlast]
  have hinit := varValue_lt used
  by_cases h9 : used.length = 9
  · have hcmp : last < 2 ↔ last.toNat < 2 := UInt8.lt_iff_toNat_lt
    rw [h9] at hinit
    rw [varValue_append, hone, h9, hcmp]
    norm_num at hinit ⊢
    omega
  · have hshort : used.length < 9 := by omega
    have hpow : 0x80 ^ (used ++ [last]).length ≤ 0x80 ^ 9 :=
      Nat.pow_le_pow_right (by norm_num) (by simp; omega)
    have hsmall : varValue (used ++ [last]) < 2 ^ 64 :=
      ((varValue_lt _).trans_le hpow).trans (by norm_num)
    exact iff_of_true hsmall (.inl hshort)

/-- What is decoded is the value of the groups, and a value too large is refused. -/
structure DecodesExactly (src : Bytes) : Prop where
  ok : ∀ v rest, getVarU64 src = .ok (v, rest) →
    ∃ used, src = used ++ rest ∧ IsVarint used ∧ v = varValue used
  overflow : ∀ used rest, src = used ++ rest → IsVarint used → 2 ^ 64 ≤ varValue used →
    getVarU64 src = .error (.corruption "varint u64 overflow")

/-- The tenth byte, if nine continuation bytes lead to it, is `0`, `1` or a continuation. -/
def TenthFits (src : Bytes) : Prop :=
  ∀ byte, src[9]? = some byte → (∀ b ∈ src.take 9, 0x80 ≤ b) → byte < 2 ∨ 0x80 ≤ byte

theorem TenthFits.varValue_lt {used rest : Bytes} (h : TenthFits (used ++ rest))
    (hu : IsVarint used) (hlen : used.length ≤ 10) : varValue used < 2 ^ 64 := by
  obtain ⟨init, last, rfl, hi, hl⟩ := isVarint_iff.mp hu
  rw [List.length_append, List.length_singleton] at hlen
  have hinit : init.length ≤ 9 := by omega
  apply (varValue_fits_iff hl hinit).mpr
  by_cases h9 : init.length = 9
  · have htenth : (init ++ [last] ++ rest)[9]? = some last := by simp [h9]
    have htake : (init ++ [last] ++ rest).take 9 = init := by simp [← h9]
    have hlast := h last htenth (by rw [htake]; exact hi)
    exact .inr (hlast.resolve_right (UInt8.not_le.mpr hl))
  · exact .inl (by omega)

theorem decodesExactly_iff (src : Bytes) : DecodesExactly src ↔ TenthFits src := by
  constructor
  · intro hexact last hlast hi
    by_contra hbad
    rw [not_or, UInt8.not_lt, UInt8.not_le] at hbad
    obtain ⟨htwo, hl⟩ := hbad
    obtain ⟨hlong, hget⟩ := List.getElem?_eq_some_iff.mp hlast
    have h9 : (src.take 9).length = 9 := by rw [List.length_take]; omega
    have hsrc : src = (src.take 9 ++ [last]) ++ src.drop 10 := by
      rw [← hget, List.take_append_getElem hlong, List.take_append_drop]
    have hu : IsVarint (src.take 9 ++ [last]) := isVarint_iff.mpr ⟨_, _, rfl, hi, hl⟩
    have hbig : 2 ^ 64 ≤ varValue (src.take 9 ++ [last]) := by
      by_contra hlt
      have hfits := (varValue_fits_iff hl h9.le).mp (Nat.not_le.mp hlt)
      rw [h9] at hfits
      exact absurd (hfits.resolve_left (lt_irrefl 9)) (UInt8.not_lt.mpr htwo)
    have herr := hexact.overflow _ _ hsrc hu hbig
    have hok := getVarU64_varint hu (src.drop 10)
    rw [← hsrc, herr, if_pos (by rw [List.length_append, h9]; rfl)] at hok
    cases hok
  · intro h
    constructor
    · intro v rest hv
      obtain ⟨used, rfl, hu, hlen⟩ := getVarLoop_consumed hv
      rw [getVarU64_varint hu, if_pos hlen, Nat.mod_eq_of_lt (h.varValue_lt hu hlen)] at hv
      cases hv
      exact ⟨used, rfl, hu, rfl⟩
    · intro used rest hsrc hu hbig
      subst hsrc
      rw [getVarU64_varint hu, if_neg]
      intro hlen
      exact absurd (h.varValue_lt hu hlen) (Nat.not_lt.mpr hbig)

theorem varints_exact (v : UInt64) (w : UInt32) (r src : Bytes) :
    getVarU64 (putVarU64 v.toNat ++ r) = .ok (v.toNat, r) ∧
    getVarU32 (putVarU32 w.toNat ++ r) = .ok (w.toNat, r) ∧
    (DecodesExactly src ↔ TenthFits src) :=
  ⟨getVarU64_putVarU64 v.toNat_lt r, getVarU32_putVarU32 w.toNat_lt r, decodesExactly_iff src⟩

/-- Nine continuation bytes and a `2` encode `2 ^ 64`; the decoder returns `0`. -/
theorem varint_overflow_accepted :
    let src : Bytes := List.replicate 9 0x80 ++ [2]
    IsVarint src ∧ varValue src = 2 ^ 64 ∧ getVarU64 src = .ok (0, []) ∧ ¬ DecodesExactly src := by
  have hcontinues : ∀ b ∈ List.replicate 9 (0x80 : UInt8), 0x80 ≤ b := by
    intro b hb
    exact (List.eq_of_mem_replicate hb).ge
  have hvarint : IsVarint (List.replicate 9 0x80 ++ [2]) :=
    isVarint_iff.mpr ⟨List.replicate 9 0x80, 2, rfl, hcontinues, by decide⟩
  have hvalue : varValue (List.replicate 9 0x80 ++ [2]) = 2 ^ 64 := by decide +kernel
  have hdecode := getVarU64_varint hvarint []
  have hnot : ¬ TenthFits (List.replicate 9 0x80 ++ [2]) := by
    intro h
    have hlast := h 2 rfl hcontinues
    revert hlast
    decide
  have hzero : getVarU64 (List.replicate 9 0x80 ++ [2]) = .ok (0, []) := by
    rwa [List.append_nil, hvalue, if_pos (by rfl), Nat.mod_self] at hdecode
  exact ⟨hvarint, hvalue, hzero, mt (decodesExactly_iff _).mp hnot⟩

end TyLsm
