import TyLsm.Options

/-! Variable-length integers and the slicing helpers shared by all formats. -/

namespace TyLsm

/-- The cast `as u32`. -/
def asU32 (n : Nat) : Nat := n % 2 ^ 32

/-- The loop of `put_var_u64`. Nine continuation bytes carry 63 bits, so a
64-bit value needs no more. -/
def putVarLoop : Nat → Nat → Bytes
  | 0, value => [UInt8.ofNat value]
  | n + 1, value =>
    if value < 0x80 then [UInt8.ofNat value]
    else UInt8.ofNat (value % 0x80 + 0x80) :: putVarLoop n (value / 0x80)

def putVarU64 (value : Nat) : Bytes := putVarLoop 9 value

def putVarU32 (value : Nat) : Bytes := putVarU64 value

/-- The loop of `get_var_u64` over the ten shifts `0, 7, ..., 63`; the shifted
group is truncated to 64 bits. -/
def getVarLoop : Nat → Nat → Nat → Bytes → Except Error (Nat × Bytes)
  | 0, _, _, _ => .error (.corruption "varint u64 overflow")
  | _ + 1, _, _, [] => .error (.corruption "truncated varint")
  | n + 1, shift, result, byte :: rest =>
    let result := result ||| (byte.toNat % 0x80) <<< shift % 2 ^ 64
    if byte < 0x80 then .ok (result, rest) else getVarLoop n (shift + 7) result rest

def getVarU64 (src : Bytes) : Except Error (Nat × Bytes) := getVarLoop 10 0 0 src

def getVarU32 (src : Bytes) : Except Error (Nat × Bytes) :=
  match getVarU64 src with
  | .error e => .error e
  | .ok (value, rest) =>
    if value < 2 ^ 32 then .ok (value, rest) else .error (.corruption "varint u32 overflow")

def takeBytes (src : Bytes) (len : Nat) : Except Error (Bytes × Bytes) :=
  if src.length < len then .error (.corruption "truncated byte slice")
  else .ok (src.take len, src.drop len)

theorem getVarLoop_putVarLoop (n : Nat) (acc v : Nat) (rest : Bytes) (hn : n ≤ 9)
    (hacc : acc < 2 ^ (63 - 7 * n)) (hv : v < 2 ^ (7 * n + 1)) :
    getVarLoop (n + 1) (63 - 7 * n) acc (putVarLoop n v ++ rest) =
      .ok (acc + v * 2 ^ (63 - 7 * n), rest) := by
  have hor : ∀ g, g * 2 ^ (63 - 7 * n) < 2 ^ 64 →
      acc ||| g <<< (63 - 7 * n) % 2 ^ 64 = acc + g * 2 ^ (63 - 7 * n) := by
    intro g hg
    rw [Nat.shiftLeft_eq, Nat.mod_eq_of_lt hg, Nat.or_comm, ← Nat.shiftLeft_eq,
      ← Nat.shiftLeft_add_eq_or_of_lt hacc, Nat.add_comm]
  have hpow : 2 ^ (7 * n + 1) * 2 ^ (63 - 7 * n) = 2 ^ 64 := by
    rw [← Nat.pow_add]
    congr 1
    omega
  have hlt : ∀ g, g ≤ v → g * 2 ^ (63 - 7 * n) < 2 ^ 64 := fun g hg =>
    hpow ▸ Nat.mul_lt_mul_of_pos_right (lt_of_le_of_lt hg hv) (by positivity)
  by_cases hsmall : v < 0x80
  · have hbytes : putVarLoop n v = [UInt8.ofNat v] := by
      cases n <;> simp [putVarLoop, hsmall]
    have hb : (UInt8.ofNat v).toNat = v := by
      rw [UInt8.toNat_ofNat']
      omega
    have hcmp : UInt8.ofNat v < 0x80 := by
      rw [UInt8.lt_iff_toNat_lt, hb]
      exact hsmall
    simp only [hbytes, List.cons_append, List.nil_append, getVarLoop, hb, hcmp, if_true]
    rw [Nat.mod_eq_of_lt hsmall, hor v (hlt v le_rfl)]
  · cases n with
    | zero => simp at hv; omega
    | succ n =>
      have hb : (UInt8.ofNat (v % 0x80 + 0x80)).toNat = v % 0x80 + 0x80 := by
        rw [UInt8.toNat_ofNat']
        omega
      have hcmp : ¬ UInt8.ofNat (v % 0x80 + 0x80) < 0x80 := by
        rw [UInt8.lt_iff_toNat_lt, hb]
        simp
      have hgroup : (v % 0x80 + 0x80) % 0x80 = v % 0x80 := by omega
      have hshift : 63 - 7 * (n + 1) + 7 = 63 - 7 * n := by omega
      have hacc' : acc + v % 0x80 * 2 ^ (63 - 7 * (n + 1)) < 2 ^ (63 - 7 * n) := by
        have hsplit : 2 ^ (63 - 7 * n) = 2 ^ (63 - 7 * (n + 1)) * 0x80 := by
          rw [← hshift, Nat.pow_add]
        have hmod : v % 0x80 < 0x80 := Nat.mod_lt _ (by norm_num)
        rw [hsplit]
        nlinarith [Nat.two_pow_pos (63 - 7 * (n + 1))]
      have hdiv : v / 0x80 < 2 ^ (7 * n + 1) := by
        rw [Nat.div_lt_iff_lt_mul (by norm_num)]
        calc v < 2 ^ (7 * (n + 1) + 1) := hv
          _ = 2 ^ (7 * n + 1) * 0x80 := by
            rw [show 7 * (n + 1) + 1 = 7 * n + 1 + 7 by omega, Nat.pow_add]
      have ih := getVarLoop_putVarLoop n _ (v / 0x80) rest (by omega) hacc' hdiv
      simp only [putVarLoop, hsmall, if_false, List.cons_append, getVarLoop, hb, hcmp, hgroup,
        hor _ (hlt _ (Nat.mod_le _ _)), hshift, ih, Except.ok.injEq, Prod.mk.injEq, and_true]
      rw [← hshift, Nat.pow_add, Nat.add_assoc]
      have := Nat.div_add_mod v 0x80
      nlinarith [Nat.two_pow_pos (63 - 7 * (n + 1))]

theorem getVarU64_putVarU64 {v : Nat} (hv : v < 2 ^ 64) (rest : Bytes) :
    getVarU64 (putVarU64 v ++ rest) = .ok (v, rest) := by
  simpa [getVarU64, putVarU64] using getVarLoop_putVarLoop 9 0 v rest le_rfl (by norm_num) hv

theorem getVarU32_putVarU32 {v : Nat} (hv : v < 2 ^ 32) (rest : Bytes) :
    getVarU32 (putVarU32 v ++ rest) = .ok (v, rest) := by
  simp only [getVarU32, putVarU32, getVarU64_putVarU64 (hv.trans (by norm_num)) rest, hv, if_true]

theorem takeBytes_append (bytes rest : Bytes) :
    takeBytes (bytes ++ rest) bytes.length = .ok (bytes, rest) := by
  simp [takeBytes]

end TyLsm
