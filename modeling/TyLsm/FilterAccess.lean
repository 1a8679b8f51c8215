import TyLsm.Decoders
import TyLsm.TableTrip

/-! Asking a table's filter, with the access `self.bits[bit_pos / 8]` that can panic. Which
filters can be asked about every key depends on which hashes there are: all of them. -/

namespace TyLsm

/-! The hash reaches every 32-bit value. -/

def IsHash (n : Nat) : Prop := ∃ key, (bloomHash key).toNat = n

theorem bloomHash_concat (key : Bytes) (byte : UInt8) :
    bloomHash (key ++ [byte]) = (bloomHash key ^^^ byte.toUInt32) * 16777619 := by
  simp [bloomHash, List.foldl_append]

theorem hashStep_injective (byte : UInt8) :
    Function.Injective fun hash : UInt32 => (hash ^^^ byte.toUInt32) * 16777619 := by
  intro a b hab
  have hinv : (16777619 : UInt32) * 899433627 = 1 := rfl
  have hxor : a ^^^ byte.toUInt32 = b ^^^ byte.toUInt32 := by
    have hmul := congrArg (· * (899433627 : UInt32)) hab
    dsimp only at hmul
    rwa [UInt32.mul_assoc, UInt32.mul_assoc, hinv, UInt32.mul_one, UInt32.mul_one] at hmul
  have hback := congrArg (· ^^^ byte.toUInt32) hxor
  simpa only [UInt32.xor_assoc, UInt32.xor_self, UInt32.xor_zero] using hback

theorem bloomHash_step_iff (hash : UInt32) (byte : UInt8) :
    (∃ key, bloomHash key = (hash ^^^ byte.toUInt32) * 16777619) ↔
      ∃ key, bloomHash key = hash := by
  have hfinite : Finite UInt32 := Finite.of_injective UInt32.toFin fun _ _ => UInt32.toFin_inj.mp
  constructor
  · intro h
    let step : {a // ∃ key, bloomHash key = a} → {a // ∃ key, bloomHash key = a} := fun a =>
      ⟨(a.1 ^^^ byte.toUInt32) * 16777619, by
        obtain ⟨key, hkey⟩ := a.2
        exact ⟨key ++ [byte], by rw [bloomHash_concat, hkey]⟩⟩
    have hinj : Function.Injective step := by
      intro a b hab
      exact Subtype.ext (hashStep_injective byte (congrArg Subtype.val hab))
    obtain ⟨a, ha⟩ := Finite.surjective_of_injective hinj ⟨_, h⟩
    have hsame : a.1 = hash := hashStep_injective byte (congrArg Subtype.val ha)
    exact hsame ▸ a.2
  · rintro ⟨key, hkey⟩
    exact ⟨key ++ [byte], by rw [bloomHash_concat, hkey]⟩

theorem isHash_ofNat {n : Nat} (hn : n < 2 ^ 32) :
    IsHash n ↔ ∃ key, bloomHash key = UInt32.ofNat n := by
  have hval : (UInt32.ofNat n).toNat = n := by
    rw [UInt32.toNat_ofNat']
    exact Nat.mod_eq_of_lt hn
  constructor
  · rintro ⟨key, hkey⟩
    exact ⟨key, UInt32.toNat_inj.mp (hkey.trans hval.symm)⟩
  · rintro ⟨key, hkey⟩
    exact ⟨key, by rw [hkey, hval]⟩

theorem isHash_step {n x : Nat} (hn : n < 2 ^ 32) (hx : x < 256) :
    IsHash ((n ^^^ x) * 16777619 % 2 ^ 32) ↔ IsHash n := by
  rw [isHash_ofNat (Nat.mod_lt _ (by norm_num)), isHash_ofNat hn,
    ← bloomHash_step_iff (UInt32.ofNat n) (UInt8.ofNat x)]
  have hstep : UInt32.ofNat ((n ^^^ x) * 16777619 % 2 ^ 32) =
      (UInt32.ofNat n ^^^ (UInt8.ofNat x).toUInt32) * 16777619 := by
    apply UInt32.toNat_inj.mp
    simp only [UInt32.toNat_mul, UInt32.toNat_xor, UInt32.toNat_ofNat', UInt8.toNat_toUInt32,
      UInt8.toNat_ofNat', Nat.mod_mod, Nat.mod_eq_of_lt hn, Nat.mod_eq_of_lt hx]
    rfl
  rw [hstep]

theorem isHash_block {g x : Nat} (hg : g < 2 ^ 24) (hx : x < 256) :
    IsHash (256 * g + x) ↔ IsHash (256 * g) := by
  have hxor : 256 * g ^^^ x = 256 * g + x := by
    have hdiv : (256 * g ^^^ x) / 2 ^ 8 = g := by
      rw [Nat.xor_div_two_pow, Nat.div_eq_of_lt (a := x) (by omega), Nat.xor_zero]
      omega
    have hmod : (256 * g ^^^ x) % 2 ^ 8 = x := by
      rw [Nat.xor_mod_two_pow, Nat.mod_eq_of_lt (a := x) (by omega)]
      have hlow : 256 * g % 2 ^ 8 = 0 := by omega
      rw [hlow, Nat.zero_xor]
    omega
  have hzero := isHash_step (n := 256 * g + x) (x := 0) (by omega) (by norm_num)
  rw [Nat.xor_zero] at hzero
  rw [← hzero, ← hxor]
  exact isHash_step (by omega) hx

theorem isHash_jump {k x : Nat} (hk : k < 2 ^ 24) (hx : x < 256) :
    IsHash (256 * ((k + x * 16777619 / 256) % 2 ^ 24)) ↔ IsHash (256 * k) := by
  -- `10241179` inverts the factor modulo `2 ^ 24`
  have hfrom : ∀ y < 256, IsHash (256 * ((k + y * 16777619 / 256) % 2 ^ 24)) ↔
      IsHash (256 * (k * 10241179 % 2 ^ 24)) := by
    intro y hy
    have hg : k * 10241179 % 2 ^ 24 < 2 ^ 24 := Nat.mod_lt _ (by norm_num)
    have hpos : (256 * (k * 10241179 % 2 ^ 24) + y) * 16777619 % 2 ^ 32 =
        256 * ((k + y * 16777619 / 256) % 2 ^ 24) + y * 16777619 % 256 := by
      omega
    have hturn := isHash_step (n := 256 * (k * 10241179 % 2 ^ 24) + y) (x := 0) (by omega)
      (by norm_num)
    rw [Nat.xor_zero, hpos] at hturn
    rw [← isHash_block (Nat.mod_lt _ (by norm_num)) (Nat.mod_lt _ (by norm_num)), hturn]
    exact isHash_block hg hy
  have hstay := hfrom 0 (by norm_num)
  rw [Nat.zero_mul, Nat.zero_div, Nat.add_zero, Nat.mod_eq_of_lt hk] at hstay
  rw [hfrom x hx, hstay]

theorem isHash_succ {g : Nat} (hg : g + 1 < 2 ^ 24) :
    IsHash (256 * (g + 1)) ↔ IsHash (256 * g) := by
  have hstart : (g + (2 ^ 24 - 131074)) % 2 ^ 24 < 2 ^ 24 := Nat.mod_lt _ (by norm_num)
  have hone := isHash_jump hstart (x := 1) (by norm_num)
  have hone' := isHash_jump (k := ((g + (2 ^ 24 - 131074)) % 2 ^ 24 + 65537) % 2 ^ 24)
    (Nat.mod_lt _ (by norm_num)) (x := 1) (by norm_num)
  have htwo := isHash_jump hstart (x := 2) (by norm_num)
  have h1 : ((g + (2 ^ 24 - 131074)) % 2 ^ 24 + 1 * 16777619 / 256) % 2 ^ 24 =
      ((g + (2 ^ 24 - 131074)) % 2 ^ 24 + 65537) % 2 ^ 24 := by omega
  have h2 : (((g + (2 ^ 24 - 131074)) % 2 ^ 24 + 65537) % 2 ^ 24 + 1 * 16777619 / 256) % 2 ^ 24 =
      g := by omega
  have h3 : ((g + (2 ^ 24 - 131074)) % 2 ^ 24 + 2 * 16777619 / 256) % 2 ^ 24 = g + 1 := by omega
  rw [h1] at hone
  rw [h2, hone] at hone'
  rw [h3] at htwo
  exact htwo.trans hone'.symm

theorem isHash_all {n : Nat} (hn : n < 2 ^ 32) : IsHash n := by
  have hzero : ∀ g < 2 ^ 24, IsHash (256 * g) ↔ IsHash (256 * 0) := by
    intro g
    induction g with
    | zero => exact fun _ => Iff.rfl
    | succ g ih => exact fun hg => (isHash_succ hg).trans (ih (by omega))
  have hsome : IsHash (256 * 0) := by
    have hstart : IsHash (256 * ((bloomHash []).toNat / 256) + (bloomHash []).toNat % 256) := by
      rw [Nat.div_add_mod]
      exact ⟨[], rfl⟩
    have hlt := (bloomHash []).toNat_lt
    rw [isHash_block (by omega) (Nat.mod_lt _ (by norm_num))] at hstart
    exact (hzero _ (by omega)).mp hstart
  have hn' := isHash_block (g := n / 256) (x := n % 256) (by omega) (Nat.mod_lt _ (by norm_num))
  rw [Nat.div_add_mod] at hn'
  exact hn'.mpr ((hzero _ (by omega)).mpr hsome)

/-! The checked filter. -/

open Panicking

/-- The positions a key's probes name in a filter. -/
def BloomFilter.positions (f : BloomFilter) (key : Bytes) : List Nat :=
  (List.range f.probes).map fun probe => bitPos key probe f.bitLen

namespace Checked

/-- `BloomFilter::from_bytes` -/
def fromBytes (bytes : Bytes) : Panicking Error (Option BloomFilter) :=
  match bytes.getLast? with
  | none => return none
  | some probes => do
    match ← ok (getVarU32 bytes.dropLast) with
    | none => return none
    | some (bitLen, bits) => return some ⟨bits, bitLen, max probes.toNat 1⟩

/-- The loop of `may_contain` over the bits that the probes name. -/
def probeLoop (bits : Bytes) : List Nat → Panicking Error Bool
  | [] => return true
  | pos :: rest => do
    let byte ← index bits (pos / 8)
    if byte &&& (1 <<< UInt8.ofNat (pos % 8)) = 0 then return false else probeLoop bits rest

def mayContain (filter : Option BloomFilter) (key : Bytes) : Panicking Error Bool :=
  match filter with
  | none => return true
  | some f =>
    if f.bitLen = 0 then return true
    else probeLoop f.bits (f.positions key)

/-- `TableFilter::decode(bytes).may_contain(key)` -/
def filterMayContain (bytes key : Bytes) : Panicking Error Bool := do
  mayContain (← fromBytes bytes) key

end Checked

/-- A question to the filter ends with a boolean. -/
def Answers (p : Panicking Error Bool) : Prop := ∃ answer, p = pure answer

theorem fromBytes_decodes (bytes : Bytes) :
    Decodes (Checked.fromBytes bytes) (.ok (BloomFilter.fromBytes bytes)) := by
  unfold Checked.fromBytes BloomFilter.fromBytes
  cases bytes.getLast? with
  | none => exact Surfaces.pure _
  | some probes =>
    refine (Surfaces.ok (Checked.getVarU32_decodes bytes.dropLast)).step ?_
    cases getVarU32 bytes.dropLast with
    | error err => exact Surfaces.pure _
    | ok a => exact Surfaces.pure _

theorem filterMayContain_eq (bytes key : Bytes) :
    Checked.filterMayContain bytes key =
      Checked.mayContain (BloomFilter.fromBytes bytes) key := by
  rw [Checked.filterMayContain, (fromBytes_decodes bytes).outcome]
  rfl

/-- Every bit a probe can name is there. -/
def EnoughBits (bytes : Bytes) : Prop :=
  ∀ f, BloomFilter.fromBytes bytes = some f → f.bitLen ≤ 8 * f.bits.length

/-- A probe is made when the bits of all earlier ones are set; its byte is then there. -/
def ProbesInside (bits : Bytes) (positions : List Nat) : Prop :=
  ∀ n (h : n < positions.length), (∀ pos ∈ positions.take n, isSet bits pos = true) →
    positions[n] / 8 < bits.length

theorem probesInside_cons {bits : Bytes} {pos : Nat} {rest : List Nat} :
    ProbesInside bits (pos :: rest) ↔
      pos / 8 < bits.length ∧ (isSet bits pos = true → ProbesInside bits rest) := by
  constructor
  · intro h
    refine ⟨h 0 (by simp) (by simp), fun hset n hn hbefore => ?_⟩
    apply h (n + 1) (by simpa using hn)
    simpa [hset] using hbefore
  · rintro ⟨hpos, hrest⟩ n hn hbefore
    cases n with
    | zero => exact hpos
    | succ n =>
      rw [List.take_succ_cons, List.forall_mem_cons] at hbefore
      exact hrest hbefore.1 n (by simpa using hn) hbefore.2

theorem index_of_lt {bits : Bytes} {i : Nat} (h : i < bits.length) :
    (index bits i : Panicking Error UInt8) = pure (bits.getD i 0) := by
  rw [index, List.getElem?_eq_getElem h, List.getD_eq_getElem _ _ h]
  rfl

theorem index_of_le {bits : Bytes} {i : Nat} (h : bits.length ≤ i) :
    (index bits i : Panicking Error UInt8) = panics := by
  rw [index, List.getElem?_eq_none h]
  rfl

theorem probeLoop_eq {bits : Bytes} {positions : List Nat} (h : ProbesInside bits positions) :
    Checked.probeLoop bits positions = pure (positions.all (isSet bits)) := by
  induction positions with
  | nil => rfl
  | cons pos rest ih =>
    obtain ⟨hpos, hrest⟩ := probesInside_cons.mp h
    rw [Checked.probeLoop, index_of_lt hpos, pure_bind, List.all_cons]
    by_cases hset : isSet bits pos = true
    · have hne : ¬ bits.getD (pos / 8) 0 &&& (1 <<< UInt8.ofNat (pos % 8)) = 0 := by
        simpa [isSet] using hset
      rw [if_neg hne, ih (hrest hset), hset, Bool.true_and]
    · rw [Bool.not_eq_true] at hset
      have he : bits.getD (pos / 8) 0 &&& (1 <<< UInt8.ofNat (pos % 8)) = 0 := by
        simpa [isSet] using hset
      rw [if_pos he, hset, Bool.false_and]

theorem probeLoop_answers_iff (bits : Bytes) (positions : List Nat) :
    Answers (Checked.probeLoop bits positions) ↔ ProbesInside bits positions := by
  refine ⟨fun h => ?_, fun h => ⟨_, probeLoop_eq h⟩⟩
  induction positions with
  | nil => exact fun n hn => absurd hn (Nat.not_lt_zero n)
  | cons pos rest ih =>
    rw [Checked.probeLoop] at h
    by_cases hpos : pos / 8 < bits.length
    · refine probesInside_cons.mpr ⟨hpos, fun hset => ih ?_⟩
      have hne : ¬ bits.getD (pos / 8) 0 &&& (1 <<< UInt8.ofNat (pos % 8)) = 0 := by
        simpa [isSet] using hset
      rwa [index_of_lt hpos, pure_bind, if_neg hne] at h
    · obtain ⟨answer, hanswer⟩ := h
      rw [index_of_le (not_lt.mp hpos)] at hanswer
      cases hanswer

theorem mayContain_answers_iff (f : BloomFilter) (key : Bytes) :
    Answers (Checked.mayContain (some f) key) ↔
      f.bitLen = 0 ∨ ProbesInside f.bits (f.positions key) := by
  by_cases hzero : f.bitLen = 0
  · simp only [Checked.mayContain, hzero, true_or, iff_true]
    exact ⟨true, rfl⟩
  · simp only [Checked.mayContain, hzero, false_or]
    exact probeLoop_answers_iff _ _

theorem probesInside_of_le {f : BloomFilter} (h : f.bitLen ≤ 8 * f.bits.length)
    (hpos : 0 < f.bitLen) (key : Bytes) : ProbesInside f.bits (f.positions key) := by
  intro n hn _
  have hlt : (f.positions key)[n] < f.bitLen := by
    simp only [BloomFilter.positions, List.getElem_map, bitPos]
    exact Nat.mod_lt _ hpos
  omega

/-- With fewer bits than the filter announces there is a key whose first probe misses them. -/
theorem exists_key_outside {f : BloomFilter} (hbits : f.bitLen < 2 ^ 32) (hprobes : 0 < f.probes)
    (h : 8 * f.bits.length < f.bitLen) : ∃ key, ¬ ProbesInside f.bits (f.positions key) := by
  obtain ⟨key, hkey⟩ := isHash_all (n := 8 * f.bits.length) (by omega)
  refine ⟨key, fun hinside => ?_⟩
  have hlen : 0 < (f.positions key).length := by
    rwa [BloomFilter.positions, List.length_map, List.length_range]
  have hfirst := hinside 0 hlen (by simp)
  have hpos : (f.positions key)[0] = 8 * f.bits.length := by
    simp only [BloomFilter.positions, List.getElem_map, List.getElem_range, bitPos]
    rw [show UInt32.ofNat 0 = 0 from rfl, UInt32.zero_mul, UInt32.add_zero, hkey, Nat.mod_eq_of_lt h]
  rw [hpos] at hfirst
  omega

theorem fromBytes_bounds {bytes : Bytes} {f : BloomFilter}
    (h : BloomFilter.fromBytes bytes = some f) : f.bitLen < 2 ^ 32 ∧ 0 < f.probes := by
  rw [BloomFilter.fromBytes] at h
  cases hprobes : bytes.getLast? with
  | none => rw [hprobes] at h; cases h
  | some probes =>
    rw [hprobes] at h
    cases hlen : getVarU32 bytes.dropLast with
    | error err => simp only [hlen] at h; cases h
    | ok a =>
      simp only [hlen, Option.some.injEq] at h
      subst h
      refine ⟨?_, lt_of_lt_of_le Nat.one_pos (le_max_right _ 1)⟩
      rw [getVarU32] at hlen
      cases hvar : getVarU64 bytes.dropLast with
      | error err => rw [hvar] at hlen; cases hlen
      | ok b =>
        simp only [hvar] at hlen
        by_cases hlt : b.1 < 2 ^ 32
        · rw [if_pos hlt] at hlen
          cases hlen
          exact hlt
        · rw [if_neg hlt] at hlen
          cases hlen

theorem filterMayContain_answers_iff (bytes key : Bytes) :
    Answers (Checked.filterMayContain bytes key) ↔
      ∀ f, BloomFilter.fromBytes bytes = some f →
        f.bitLen = 0 ∨ ProbesInside f.bits (f.positions key) := by
  rw [filterMayContain_eq]
  cases BloomFilter.fromBytes bytes with
  | none =>
    constructor
    · intro _ f hf
      cases hf
    · intro _
      exact ⟨true, rfl⟩
  | some f =>
    rw [mayContain_answers_iff]
    constructor
    · intro h g hg
      cases hg
      exact h
    · intro h
      exact h f rfl

theorem filterMayContain_all_iff (bytes : Bytes) :
    (∀ key, Answers (Checked.filterMayContain bytes key)) ↔ EnoughBits bytes := by
  constructor
  · intro h f hf
    by_contra hfew
    obtain ⟨hbits, hprobes⟩ := fromBytes_bounds hf
    obtain ⟨key, hkey⟩ := exists_key_outside hbits hprobes (not_le.mp hfew)
    rcases (filterMayContain_answers_iff bytes key).mp (h key) f hf with hzero | hinside
    · omega
    · exact hkey hinside
  · intro h key
    apply (filterMayContain_answers_iff bytes key).mpr
    intro f hf
    by_cases hzero : f.bitLen = 0
    · exact .inl hzero
    · exact .inr (probesInside_of_le (h f hf) (Nat.pos_of_ne_zero hzero) key)

/-! The decoders together. -/

/-- No decoder panics on these bytes, and what it refuses is corrupt. -/
structure DecodersAnswer (grants : Nat → Bool) (bytes : Bytes) : Prop where
  block : Decodes (Checked.decodeBlock bytes) (decodeBlock bytes)
  blockTurns : ∀ turns lastUserKey, bytes.length ≤ turns →
    Checked.decodeBlockLoop turns lastUserKey bytes =
      Checked.decodeBlockLoop bytes.length lastUserKey bytes
  indexEntries : Decodes (Checked.decodeIndexEntries grants bytes)
    (TableFile.decodeIndexEntries bytes)
  properties : Decodes (Checked.decodeProperties bytes) (TableFile.TableProperties.decode bytes)
  footer : Decodes (Checked.decodeFooter bytes) (TableFile.decodeFooter bytes)
  payload : Decodes (Checked.decodePayload bytes) (WriteBatch.decodePayload bytes)
  edit : Decodes (Checked.decodeEdit bytes) (VersionEdit.decode bytes)

theorem decodersAnswer_iff (grants : Nat → Bool) (bytes : Bytes) :
    DecodersAnswer grants bytes ↔ Checked.CountGranted grants bytes := by
  rw [← Checked.decodeIndexEntries_decodes_iff]
  constructor
  · exact fun h => h.indexEntries
  · intro hindex
    exact {
      block := Checked.decodeBlock_decodes bytes
      blockTurns := by
        intro turns lastUserKey h
        rw [(Checked.decodeBlockLoop_decodes turns lastUserKey bytes).outcome,
          (Checked.decodeBlockLoop_decodes bytes.length lastUserKey bytes).outcome,
          decodeBlockLoop_turns lastUserKey h]
      indexEntries := hindex
      properties := Checked.decodeProperties_decodes bytes
      footer := Checked.decodeFooter_decodes bytes
      payload := Checked.decodePayload_decodes bytes
      edit := Checked.decodeEdit_decodes bytes }

theorem checkedMayContain_eq {filter : Option BloomFilter}
    (h : ∀ f, filter = some f → f.bitLen ≤ 8 * f.bits.length) (key : Bytes) :
    Checked.mayContain filter key = pure (mayContain filter key) := by
  cases filter with
  | none => rfl
  | some f =>
    rw [mayContain, Option.all_some, BloomFilter.mayContain, Checked.mayContain]
    by_cases hzero : f.bitLen = 0
    · rw [if_pos hzero, if_pos hzero]
    · have hinside := probesInside_of_le (h f rfl) (Nat.pos_of_ne_zero hzero) key
      rw [if_neg hzero, if_neg hzero, probeLoop_eq hinside, BloomFilter.positions, List.all_map]
      rfl

theorem buildBloomFilter_bits {keys : List Bytes} {f : BloomFilter}
    (h : buildBloomFilter keys = some f) : f.bitLen ≤ 8 * f.bits.length := by
  cases keys with
  | nil => cases h
  | cons key keys =>
    have hlen := (foldl_addKey_keeps (bloomBitLen (key :: keys).length) defaultProbes
      (key :: keys) (List.replicate ((bloomBitLen (key :: keys).length + 7) / 8) 0)).1
    rw [List.length_replicate] at hlen
    rw [← Option.some.inj h]
    have hrounded : bloomBitLen (key :: keys).length ≤
        8 * ((bloomBitLen (key :: keys).length + 7) / 8) := by omega
    rw [← hlen] at hrounded
    exact hrounded

/-- Stored with a table and read back, the filter admits every key it was built from, and
every key at all if it was built from none. -/
theorem filter_admits_its_keys {keys : List Bytes} (hcount : 10 * keys.length < 2 ^ 32)
    {numEntries : Nat} (hentries : numEntries < 2 ^ 64) {smallest largest : Option InternalKey}
    (hsmallest : ∀ key ∈ smallest, key.Encodable) (hlargest : ∀ key ∈ largest, key.Encodable) :
    ∃ p, TableFile.TableProperties.decode (TableFile.TableProperties.encode
        ⟨numEntries, smallest, largest, bloomFilterBytes keys⟩) = .ok p ∧
      (∀ key ∈ keys, Checked.filterMayContain p.filter key = pure true) ∧
      (keys = [] → ∀ key, Checked.filterMayContain p.filter key = pure true) := by
  have hbits : bloomBitLen keys.length < 2 ^ 32 := by
    rw [bloomBitLen, defaultBitsPerKey]
    omega
  refine ⟨_, TableFile.TableProperties.decode_encode ⟨hentries, hsmallest, hlargest,
    TableFile.length_bloomFilterBytes hbits⟩, ?_, ?_⟩
  · intro key hkey
    rw [filterMayContain_eq, bloomFilter_fromBytes hbits,
      checkedMayContain_eq (fun f => buildBloomFilter_bits), mayContain_build hkey]
  · rintro rfl key
    rw [filterMayContain_eq]
    rfl

theorem filter_admits_its_keys_small :
    ∃ p, TableFile.TableProperties.decode (TableFile.TableProperties.encode
        ⟨2, some ⟨[1], 5, .put⟩, some ⟨[2], 4, .delete⟩, bloomFilterBytes [[1], [2]]⟩) = .ok p ∧
      Checked.filterMayContain p.filter [2] = pure true := by
  obtain ⟨p, hp, hkeys, -⟩ := @filter_admits_its_keys [[1], [2]] (by norm_num) 2
    (by norm_num) (some ⟨[1], 5, .put⟩) (some ⟨[2], 4, .delete⟩)
    (by rintro key hkey; cases hkey; exact ⟨by decide, by norm_num⟩)
    (by rintro key hkey; cases hkey; exact ⟨by decide, by norm_num⟩)
  exact ⟨p, hp, hkeys [2] (by simp)⟩

end TyLsm
