import TyLsm.Coding

/-! The bloom filter stored with every table, and why it never hides a key. -/

namespace TyLsm

/-- A filter as `from_bytes` returns it for the bytes of `build_bloom_filter`. -/
structure BloomFilter where
  bits : Bytes
  bitLen : Nat
  probes : Nat
  deriving DecidableEq, Repr

def defaultBitsPerKey : Nat := 10

/-- `(10.0 * 0.69).round()`, clamped to `1..=30`. -/
def defaultProbes : Nat := 7

def bloomHash (key : Bytes) : UInt32 :=
  key.foldl (fun hash byte => (hash ^^^ byte.toUInt32) * 16777619) 2166136261

def rotateRight17 (hash : UInt32) : UInt32 := (hash >>> 17) ||| (hash <<< 15)

/-- Position of one probe: wrapping 32-bit arithmetic reduced modulo `bitLen`. -/
def bitPos (key : Bytes) (probe bitLen : Nat) : Nat :=
  let hash := bloomHash key
  let delta := rotateRight17 hash
  (hash + UInt32.ofNat probe * delta).toNat % bitLen

def setBit (bits : Bytes) (pos : Nat) : Bytes :=
  bits.modify (pos / 8) (fun byte => byte ||| (1 <<< UInt8.ofNat (pos % 8)))

def isSet (bits : Bytes) (pos : Nat) : Bool :=
  bits.getD (pos / 8) 0 &&& (1 <<< UInt8.ofNat (pos % 8)) != 0

def BloomFilter.mayContain (f : BloomFilter) (key : Bytes) : Bool :=
  if f.bitLen = 0 then true
  else (List.range f.probes).all (fun probe => isSet f.bits (bitPos key probe f.bitLen))

def addKey (bitLen probes : Nat) (bits key : Bytes) : Bytes :=
  (List.range probes).foldl (fun bits probe => setBit bits (bitPos key probe bitLen)) bits

/-- No filter is built for an empty list of keys; the reader then admits every key. -/
def buildBloomFilter (keys : List Bytes) : Option BloomFilter :=
  if keys.isEmpty then none
  else
    let bitLen := max (keys.length * defaultBitsPerKey) 64
    let byteLen := (bitLen + 7) / 8
    let bits := keys.foldl (addKey bitLen defaultProbes) (List.replicate byteLen 0)
    some ⟨bits, bitLen, defaultProbes⟩

/-- `TableFilter::may_contain`. -/
def mayContain (filter : Option BloomFilter) (key : Bytes) : Bool :=
  filter.all (fun f => f.mayContain key)

@[simp] theorem length_setBit (bits : Bytes) (pos : Nat) :
    (setBit bits pos).length = bits.length := by
  simp [setBit]

theorem mask_toNat {i : Nat} (hi : i < 8) :
    ((1 : UInt8) <<< UInt8.ofNat i).toNat = 2 ^ i := by
  interval_cases i <;> rfl

theorem isSet_eq_testBit (bits : Bytes) (pos : Nat) :
    isSet bits pos = (bits.getD (pos / 8) 0).toNat.testBit (pos % 8) := by
  have hm := mask_toNat (Nat.mod_lt pos (by norm_num : 0 < 8))
  have h : (bits.getD (pos / 8) 0 &&& (1 <<< UInt8.ofNat (pos % 8))).toNat =
      ((bits.getD (pos / 8) 0).toNat.testBit (pos % 8)).toNat * 2 ^ (pos % 8) := by
    rw [UInt8.toNat_and, hm, Nat.and_two_pow]
  cases hb : (bits.getD (pos / 8) 0).toNat.testBit (pos % 8) with
  | false =>
    simp only [hb, Bool.toNat_false, Nat.zero_mul] at h
    have hz : bits.getD (pos / 8) 0 &&& (1 <<< UInt8.ofNat (pos % 8)) = 0 := UInt8.toNat_inj.mp h
    rw [isSet, hz]
    rfl
  | true =>
    have hne : bits.getD (pos / 8) 0 &&& (1 <<< UInt8.ofNat (pos % 8)) ≠ 0 := by
      intro he
      simp only [he, hb, Bool.toNat_true, Nat.one_mul] at h
      exact absurd h.symm (Nat.two_pow_pos _).ne'
    simpa [isSet] using hne

theorem getD_setBit (bits : Bytes) (pos i : Nat) :
    (setBit bits pos).getD i 0 =
      if pos / 8 = i ∧ i < bits.length then
        bits.getD i 0 ||| (1 <<< UInt8.ofNat (pos % 8))
      else bits.getD i 0 := by
  simp only [setBit, List.getD_eq_getElem?_getD, List.getElem?_modify]
  by_cases hi : i < bits.length
  · by_cases hp : pos / 8 = i <;> simp [hi, hp]
  · simp [hi]

theorem isSet_setBit_of_isSet {bits : Bytes} {pos q : Nat} (h : isSet bits q = true) :
    isSet (setBit bits pos) q = true := by
  rw [isSet_eq_testBit] at h ⊢
  rw [getD_setBit]
  split
  · rw [UInt8.toNat_or, Nat.testBit_or, h, Bool.true_or]
  · exact h

theorem isSet_setBit_self {bits : Bytes} {pos : Nat} (h : pos / 8 < bits.length) :
    isSet (setBit bits pos) pos = true := by
  rw [isSet_eq_testBit, getD_setBit, if_pos ⟨rfl, h⟩, UInt8.toNat_or, Nat.testBit_or,
    mask_toNat (Nat.mod_lt _ (by norm_num)), Nat.testBit_two_pow_self, Bool.or_true]

theorem foldl_setBit_keeps (positions : List Nat) (bits : Bytes) :
    (positions.foldl setBit bits).length = bits.length ∧
      ∀ q, isSet bits q = true → isSet (positions.foldl setBit bits) q = true := by
  induction positions generalizing bits with
  | nil => exact ⟨rfl, fun _ h => h⟩
  | cons p ps ih =>
    obtain ⟨hlen, hkeep⟩ := ih (setBit bits p)
    exact ⟨by simpa using hlen, fun q hq => hkeep q (isSet_setBit_of_isSet hq)⟩

theorem foldl_setBit_sets {positions : List Nat} {bits : Bytes} {q : Nat}
    (hq : q ∈ positions) (hlen : q / 8 < bits.length) :
    isSet (positions.foldl setBit bits) q = true := by
  induction positions generalizing bits with
  | nil => exact absurd hq List.not_mem_nil
  | cons p ps ih =>
    rcases List.mem_cons.mp hq with rfl | hq
    · exact (foldl_setBit_keeps ps _).2 q (isSet_setBit_self hlen)
    · exact ih hq (by simpa using hlen)

theorem addKey_eq_foldl (bitLen probes : Nat) (bits key : Bytes) :
    addKey bitLen probes bits key =
      ((List.range probes).map (fun probe => bitPos key probe bitLen)).foldl setBit bits := by
  rw [addKey, List.foldl_map]

theorem foldl_addKey_keeps (bitLen probes : Nat) (keys : List Bytes) (bits : Bytes) :
    (keys.foldl (addKey bitLen probes) bits).length = bits.length ∧
      ∀ q, isSet bits q = true → isSet (keys.foldl (addKey bitLen probes) bits) q = true := by
  induction keys generalizing bits with
  | nil => exact ⟨rfl, fun _ h => h⟩
  | cons key keys ih =>
    obtain ⟨hlen, hkeep⟩ := ih (addKey bitLen probes bits key)
    have hone := foldl_setBit_keeps ((List.range probes).map (fun p => bitPos key p bitLen)) bits
    rw [← addKey_eq_foldl] at hone
    exact ⟨hlen.trans hone.1, fun q hq => hkeep q (hone.2 q hq)⟩

theorem foldl_addKey_sets {bitLen probes probe : Nat} {keys : List Bytes} {bits key : Bytes}
    (hk : key ∈ keys) (hp : probe < probes) (hlen : ∀ q < bitLen, q / 8 < bits.length)
    (hpos : 0 < bitLen) :
    isSet (keys.foldl (addKey bitLen probes) bits) (bitPos key probe bitLen) = true := by
  induction keys generalizing bits with
  | nil => exact absurd hk List.not_mem_nil
  | cons first keys ih =>
    have hone := foldl_setBit_keeps ((List.range probes).map (fun p => bitPos first p bitLen)) bits
    rw [← addKey_eq_foldl] at hone
    rcases List.mem_cons.mp hk with rfl | hk
    · refine (foldl_addKey_keeps bitLen probes keys _).2 _ ?_
      rw [addKey_eq_foldl]
      exact foldl_setBit_sets
        (List.mem_map.mpr ⟨probe, List.mem_range.mpr hp, rfl⟩)
        (hlen _ (Nat.mod_lt _ hpos))
    · exact ih hk (fun q hq => hone.1 ▸ hlen q hq)

theorem mayContain_build {keys : List Bytes} {key : Bytes} (hk : key ∈ keys) :
    mayContain (buildBloomFilter keys) key = true := by
  have hne : keys.isEmpty = false := by
    cases keys with
    | nil => exact absurd hk List.not_mem_nil
    | cons _ _ => rfl
  simp only [buildBloomFilter, hne, Bool.false_eq_true, if_false, mayContain, Option.all_some,
    BloomFilter.mayContain]
  set bitLen := max (keys.length * defaultBitsPerKey) 64
  have hpos : 0 < bitLen := lt_of_lt_of_le (by norm_num) (le_max_right _ 64)
  rw [if_neg hpos.ne', List.all_eq_true]
  intro probe hp
  refine foldl_addKey_sets hk (List.mem_range.mp hp) (fun q hq => ?_) hpos
  rw [List.length_replicate]
  omega

end TyLsm
