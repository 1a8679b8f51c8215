import TyLsm.Coding
import TyLsm.Framing

/-! Log files. A record is framed by its checksum, its length and a type byte; the manifest
uses the same frames. The checksum is that of a library. -/

namespace TyLsm

def walRecordHeaderSize : Nat := 9

inductive WalRecordType where
  | full

namespace WalRecordType

def toU8 : WalRecordType → UInt8
  | full => 1

def fromU8 (value : UInt8) : Except Error WalRecordType :=
  if value = 1 then .ok full else .error (.corruption "unknown WAL record type")

end WalRecordType

def u32ToLeBytes (n : Nat) : Bytes :=
  [UInt8.ofNat n, UInt8.ofNat (n / 2 ^ 8), UInt8.ofNat (n / 2 ^ 16), UInt8.ofNat (n / 2 ^ 24)]

def u32FromLeBytes (bytes : Bytes) : Nat := bytes.foldr (fun byte n => byte.toNat + 2 ^ 8 * n) 0

theorem u32FromLeBytes_u32ToLeBytes {n : Nat} (h : n < 2 ^ 32) :
    u32FromLeBytes (u32ToLeBytes n) = n := by
  simp only [u32FromLeBytes, u32ToLeBytes, List.foldr_cons, List.foldr_nil, UInt8.toNat_ofNat']
  omega

theorem u32ToLeBytes_u32FromLeBytes {bytes : Bytes} (h : bytes.length = 4) :
    u32ToLeBytes (u32FromLeBytes bytes) = bytes := by
  obtain ⟨a, b, c, d, rfl⟩ : ∃ a b c d, bytes = [a, b, c, d] := by
    match bytes, h with
    | [a, b, c, d], _ => exact ⟨a, b, c, d, rfl⟩
  have ha := a.toNat_lt
  have hb := b.toNat_lt
  have hc := c.toNat_lt
  have hd := d.toNat_lt
  have hofNat : ∀ (x : UInt8) (n : Nat), n % 2 ^ 8 = x.toNat → UInt8.ofNat n = x := by
    intro x n hn
    rw [← UInt8.toNat_inj, UInt8.toNat_ofNat']
    exact hn
  simp only [u32FromLeBytes, u32ToLeBytes, List.foldr_cons, List.foldr_nil]
  rw [hofNat a _ (by omega), hofNat b _ (by omega), hofNat c _ (by omega), hofNat d _ (by omega)]

theorem u32FromLeBytes_lt {bytes : Bytes} (h : bytes.length = 4) :
    u32FromLeBytes bytes < 2 ^ 32 := by
  obtain ⟨a, b, c, d, rfl⟩ : ∃ a b c d, bytes = [a, b, c, d] := by
    match bytes, h with
    | [a, b, c, d], _ => exact ⟨a, b, c, d, rfl⟩
  have ha := a.toNat_lt
  have hb := b.toNat_lt
  have hc := c.toNat_lt
  have hd := d.toNat_lt
  simp only [u32FromLeBytes, List.foldr_cons, List.foldr_nil]
  omega

/-- A file that is read from its start. A read may return fewer bytes than asked for, but
only at the end of the file none. -/
structure ReadableFile where
  rest : Bytes
  /-- What the reads to come return at most, less one. -/
  chunks : Nat → Nat

namespace ReadableFile

def read (file : ReadableFile) (want : Nat) : Bytes × ReadableFile :=
  let count := min want (file.chunks 0 + 1)
  (file.rest.take count, ⟨file.rest.drop count, fun i => file.chunks (i + 1)⟩)

/-- The loop of `read_exact_or_eof` for `want` more bytes; each turn reads at least one. -/
def readLoop : Nat → Nat → Bool → Bytes → ReadableFile → Bool × Bytes × ReadableFile
  | 0, _, readAny, buffer, file => (readAny, buffer, file)
  | fuel + 1, want, readAny, buffer, file =>
    if want = 0 then (readAny, buffer, file)
    else
      let (bytes, file) := file.read want
      if bytes.isEmpty then (false, buffer, file)
      else readLoop fuel (want - bytes.length) true (buffer ++ bytes) file

/-- The flag is unset at the end of the file, also where nothing is asked for. -/
def readExactOrEof (file : ReadableFile) (want : Nat) : Bool × Bytes × ReadableFile :=
  readLoop want want false [] file

theorem readLoop_spec {fuel want : Nat} (hfuel : want ≤ fuel) (readAny : Bool) (buffer rest : Bytes)
    (chunks : Nat → Nat) : ∃ chunks', readLoop fuel want readAny buffer ⟨rest, chunks⟩ =
      (if want = 0 then readAny else decide (want ≤ rest.length), buffer ++ rest.take want,
        ⟨rest.drop want, chunks'⟩) := by
  induction fuel generalizing want readAny buffer rest chunks with
  | zero =>
    obtain rfl : want = 0 := Nat.le_zero.mp hfuel
    exact ⟨chunks, by simp [readLoop]⟩
  | succ fuel ih =>
    rw [readLoop]
    by_cases hwant : want = 0
    · subst hwant
      exact ⟨chunks, by simp⟩
    · simp only [hwant, if_false, read]
      obtain ⟨count, hcount⟩ : ∃ count, min want (chunks 0 + 1) = count := ⟨_, rfl⟩
      simp only [hcount]
      have hle : count ≤ want := hcount ▸ Nat.min_le_left _ _
      by_cases hrest : rest = []
      · subst hrest
        exact ⟨fun i => chunks (i + 1), by simp [hwant]⟩
      have hlen : 0 < rest.length := List.length_pos_of_ne_nil hrest
      have htake : (rest.take count).length = min count rest.length := List.length_take
      have hne : (rest.take count).isEmpty = false := by
        rw [← Bool.not_eq_true, List.isEmpty_iff_length_eq_zero, htake]
        omega
      have hfuel' : want - (rest.take count).length ≤ fuel := by omega
      obtain ⟨chunks', hrun⟩ := ih hfuel' true
        (buffer ++ rest.take count) (rest.drop count) (fun i => chunks (i + 1))
      refine ⟨chunks', ?_⟩
      rw [hne, if_neg Bool.false_ne_true, hrun, htake, List.length_drop]
      by_cases hshort : count ≤ rest.length
      · have hsum : want = count + (want - count) := by omega
        rw [Nat.min_eq_left hshort, List.append_assoc, ← List.take_add, List.drop_drop, ← hsum]
        congr 1
        by_cases hdone : want - count = 0
        · simp only [hdone, if_true, true_eq_decide_iff]
          omega
        · simp only [hdone, if_false, decide_eq_decide]
          omega
      · -- the file ends within this chunk
        have hdrop : rest.drop count = [] := List.drop_eq_nil_of_le (by omega)
        have hall : rest.take count = rest := List.take_of_length_le (by omega)
        rw [hdrop, hall, List.take_of_length_le (by omega : rest.length ≤ want),
          List.drop_eq_nil_of_le (by omega : rest.length ≤ want)]
        simp only [List.take_nil, List.drop_nil, List.append_nil]
        congr 1
        rw [if_neg (by omega), decide_eq_decide]
        omega

theorem readExactOrEof_spec (file : ReadableFile) (want : Nat) :
    ∃ chunks, file.readExactOrEof want =
      (decide (want ≠ 0 ∧ want ≤ file.rest.length), file.rest.take want,
        ⟨file.rest.drop want, chunks⟩) := by
  obtain ⟨chunks, hrun⟩ := readLoop_spec le_rfl false [] file.rest file.chunks
  refine ⟨chunks, ?_⟩
  rw [readExactOrEof, hrun, List.nil_append]
  congr 1
  by_cases hwant : want = 0 <;> simp [hwant]

end ReadableFile

section

variable (crc32c : Bytes → UInt32)

/-- The record, if there is a whole one, and the file after it. -/
def readRecord (file : ReadableFile) : Except Error (Option Bytes × ReadableFile) := do
  let (found, header, file) := file.readExactOrEof walRecordHeaderSize
  if !found then return (none, file)
  let expectedChecksum := u32FromLeBytes (header.take 4)
  let payloadLen := u32FromLeBytes ((header.drop 4).take 4)
  let recordType ← WalRecordType.fromU8 (header.getD 8 0)
  let (found, payload, file) := file.readExactOrEof payloadLen
  if !found then return (none, file)
  let actualChecksum := crc32c (recordType.toU8 :: payload)
  if expectedChecksum ≠ actualChecksum.toNat then throw (.corruption "WAL checksum mismatch")
  return (some payload, file)

/-- The loop over the records of a file. `fuel` bounds their number. -/
def readRecords {γ : Type} (step : γ → Bytes → Except Error γ) :
    Nat → γ → ReadableFile → Except Error γ
  | 0, acc, _ => .ok acc
  | fuel + 1, acc, file => do
    match ← readRecord crc32c file with
    | (none, _) => return acc
    | (some payload, file) =>
      let acc ← step acc payload
      readRecords step fuel acc file

/-- The payloads that reading a file from its start returns. -/
def readPayloads (file : ReadableFile) : Except Error (List Bytes) :=
  readRecords crc32c (fun payloads payload => .ok (payloads ++ [payload])) file.rest.length [] file

/-- What `append` writes. -/
def walRecord (payload : Bytes) : Bytes :=
  u32ToLeBytes (crc32c (WalRecordType.full.toU8 :: payload)).toNat ++
    u32ToLeBytes (asU32 payload.length) ++ [WalRecordType.full.toU8] ++ payload

/-- A record as the reader sees it at the start of some bytes. -/
def parseRecord (bytes : Bytes) : Except Error (Option (Bytes × Bytes)) :=
  if bytes.length < walRecordHeaderSize then .ok none
  else if bytes.getD 8 0 ≠ 1 then .error (.corruption "unknown WAL record type")
  else
    let payloadLen := u32FromLeBytes ((bytes.drop 4).take 4)
    let rest := bytes.drop walRecordHeaderSize
    if payloadLen = 0 ∨ rest.length < payloadLen then .ok none
    else if u32FromLeBytes (bytes.take 4) ≠ (crc32c (1 :: rest.take payloadLen)).toNat then
      .error (.corruption "WAL checksum mismatch")
    else .ok (some (rest.take payloadLen, rest.drop payloadLen))

theorem readRecord_spec (file : ReadableFile) :
    match parseRecord crc32c file.rest with
    | .error err => readRecord crc32c file = .error err
    | .ok none => ∃ file', readRecord crc32c file = .ok (none, file')
    | .ok (some (payload, rest)) =>
      ∃ chunks, readRecord crc32c file = .ok (some payload, ⟨rest, chunks⟩) := by
  obtain ⟨chunks, hheader⟩ := file.readExactOrEof_spec walRecordHeaderSize
  rw [parseRecord]
  by_cases hshort : file.rest.length < walRecordHeaderSize
  · rw [if_pos hshort]
    have hflag : decide (walRecordHeaderSize ≠ 0 ∧ walRecordHeaderSize ≤ file.rest.length) =
        false := decide_eq_false fun h => absurd h.2 (not_le.mpr hshort)
    exact ⟨⟨_, chunks⟩, by simp only [readRecord, hheader, hflag]; rfl⟩
  · rw [if_neg hshort]
    have hflag : decide (walRecordHeaderSize ≠ 0 ∧ walRecordHeaderSize ≤ file.rest.length) = true :=
      decide_eq_true ⟨nofun, not_lt.mp hshort⟩
    have htype : (file.rest.take walRecordHeaderSize).getD 8 0 = file.rest.getD 8 0 := by
      simp [walRecordHeaderSize, List.getD_eq_getElem?_getD]
    have hlen : ((file.rest.take walRecordHeaderSize).drop 4).take 4 =
        (file.rest.drop 4).take 4 := by
      rw [List.drop_take, List.take_take]
      rfl
    have hsum : (file.rest.take walRecordHeaderSize).take 4 = file.rest.take 4 := by
      rw [List.take_take]
      rfl
    simp only [readRecord, hheader, hflag, htype, hlen, hsum]
    by_cases htag : file.rest.getD 8 0 = 1
    · rw [if_neg (not_not.mpr htag)]
      obtain ⟨chunks', hpayload⟩ := ReadableFile.readExactOrEof_spec
        ⟨file.rest.drop walRecordHeaderSize, chunks⟩ (u32FromLeBytes ((file.rest.drop 4).take 4))
      have hfull : WalRecordType.fromU8 (file.rest.getD 8 0) = .ok .full := by
        rw [WalRecordType.fromU8, if_pos htag]
      simp only [hfull, hpayload, bind, Except.bind]
      by_cases htorn : u32FromLeBytes ((file.rest.drop 4).take 4) = 0 ∨
          (file.rest.drop walRecordHeaderSize).length < u32FromLeBytes ((file.rest.drop 4).take 4)
      · have hflag' : decide (u32FromLeBytes ((file.rest.drop 4).take 4) ≠ 0 ∧
            u32FromLeBytes ((file.rest.drop 4).take 4) ≤
              (file.rest.drop walRecordHeaderSize).length) = false :=
          decide_eq_false fun h => htorn.elim h.1 fun hlt => absurd h.2 (not_le.mpr hlt)
        rw [if_pos htorn]
        simp only [hflag']
        exact ⟨_, rfl⟩
      · have hflag' : decide (u32FromLeBytes ((file.rest.drop 4).take 4) ≠ 0 ∧
            u32FromLeBytes ((file.rest.drop 4).take 4) ≤
              (file.rest.drop walRecordHeaderSize).length) = true :=
          decide_eq_true ⟨(not_or.mp htorn).1, not_lt.mp (not_or.mp htorn).2⟩
        rw [if_neg htorn]
        simp only [hflag', WalRecordType.toU8]
        by_cases hcrc : u32FromLeBytes (file.rest.take 4) = (crc32c (1 ::
            (file.rest.drop walRecordHeaderSize).take
              (u32FromLeBytes ((file.rest.drop 4).take 4)))).toNat
        · simp only [hcrc, ne_eq, not_true_eq_false, if_false]
          exact ⟨chunks', rfl⟩
        · simp only [hcrc, ne_eq, not_false_eq_true, if_true]
          rfl
    · have hfull : WalRecordType.fromU8 (file.rest.getD 8 0) =
          .error (.corruption "unknown WAL record type") := by
        rw [WalRecordType.fromU8, if_neg htag]
      rw [if_pos htag]
      simp only [hfull, bind, Except.bind]
      rfl

/-- A payload that the length field can hold, and that is told from the end of the file. -/
def Loggable (payload : Bytes) : Prop := payload ≠ [] ∧ payload.length < 2 ^ 32

theorem length_walRecord (payload : Bytes) :
    (walRecord crc32c payload).length = walRecordHeaderSize + payload.length := by
  simp only [walRecord, u32ToLeBytes, walRecordHeaderSize, List.length_append, List.length_cons,
    List.length_nil]

theorem header_fields (sum len : Nat) (tag : UInt8) (rest : Bytes) :
    (u32ToLeBytes sum ++ u32ToLeBytes len ++ [tag] ++ rest).take 4 = u32ToLeBytes sum ∧
    ((u32ToLeBytes sum ++ u32ToLeBytes len ++ [tag] ++ rest).drop 4).take 4 = u32ToLeBytes len ∧
    (u32ToLeBytes sum ++ u32ToLeBytes len ++ [tag] ++ rest).getD 8 0 = tag ∧
    (u32ToLeBytes sum ++ u32ToLeBytes len ++ [tag] ++ rest).drop walRecordHeaderSize = rest ∧
    ¬ (u32ToLeBytes sum ++ u32ToLeBytes len ++ [tag] ++ rest).length < walRecordHeaderSize := by
  refine ⟨rfl, rfl, rfl, rfl, ?_⟩
  simp [u32ToLeBytes, walRecordHeaderSize]

theorem split_header {bytes : Bytes} (h : walRecordHeaderSize ≤ bytes.length) :
    bytes = bytes.take 4 ++ (bytes.drop 4).take 4 ++ [bytes.getD 8 0] ++
      bytes.drop walRecordHeaderSize := by
  have h8 : 8 < bytes.length := h
  have hget : bytes.drop 8 = bytes.getD 8 0 :: bytes.drop walRecordHeaderSize := by
    rw [List.drop_eq_getElem_cons h8, List.getD_eq_getElem _ _ h8]
    rfl
  have hmid : bytes.drop 4 = (bytes.drop 4).take 4 ++ bytes.drop 8 := by
    have hsplit := (List.take_append_drop 4 (bytes.drop 4)).symm
    rwa [List.drop_drop] at hsplit
  calc bytes = bytes.take 4 ++ bytes.drop 4 := (List.take_append_drop 4 bytes).symm
    _ = bytes.take 4 ++ ((bytes.drop 4).take 4 ++ bytes.drop 8) := by rw [← hmid]
    _ = _ := by rw [hget]; simp

theorem parse_header {payload : Bytes} (h : Loggable payload) (rest : Bytes) :
    parseRecord crc32c (u32ToLeBytes (crc32c (1 :: payload)).toNat ++
      u32ToLeBytes (asU32 payload.length) ++ [1] ++ rest) =
      if rest.length < payload.length then .ok none
      else if (crc32c (1 :: payload)).toNat ≠
          (crc32c (1 :: rest.take payload.length)).toNat then
        .error (.corruption "WAL checksum mismatch")
      else .ok (some (rest.take payload.length, rest.drop payload.length)) := by
  obtain ⟨hsum, hlen, htag, hrest, hlong⟩ := header_fields (crc32c (1 :: payload)).toNat
    (asU32 payload.length) 1 rest
  have hsmall : asU32 payload.length = payload.length := Nat.mod_eq_of_lt h.2
  have hne : payload.length ≠ 0 := fun hz => h.1 (List.length_eq_zero_iff.mp hz)
  rw [parseRecord, if_neg hlong, hsum, hlen, htag, hrest,
    u32FromLeBytes_u32ToLeBytes (UInt32.toNat_lt _), hsmall, u32FromLeBytes_u32ToLeBytes h.2]
  simp only [ne_eq, not_true_eq_false, if_false, hne, false_or]

theorem parseRecord_walRecord {payload : Bytes} (h : Loggable payload) (rest : Bytes) :
    parseRecord crc32c (walRecord crc32c payload ++ rest) = .ok (some (payload, rest)) := by
  have hparse := parse_header crc32c h (payload ++ rest)
  rw [if_neg (by simp)] at hparse
  simpa [walRecord, WalRecordType.toU8] using hparse

theorem take_walRecord (payload : Bytes) (m : Nat) :
    (walRecord crc32c payload).take (walRecordHeaderSize + m) =
      u32ToLeBytes (crc32c (1 :: payload)).toNat ++ u32ToLeBytes (asU32 payload.length) ++ [1] ++
        payload.take m := by
  have hheader : (u32ToLeBytes (crc32c (WalRecordType.full.toU8 :: payload)).toNat ++
      u32ToLeBytes (asU32 payload.length) ++ [WalRecordType.full.toU8]).length =
      walRecordHeaderSize := rfl
  rw [walRecord, List.take_append, hheader, Nat.add_sub_cancel_left,
    List.take_of_length_le (by rw [hheader]; omega)]
  rfl

theorem parseRecord_torn {payload : Bytes} (h : Loggable payload) (n : Nat)
    (hn : n < (walRecord crc32c payload).length) :
    parseRecord crc32c ((walRecord crc32c payload).take n) = .ok none := by
  rw [length_walRecord] at hn
  by_cases hheader : n < walRecordHeaderSize
  · rw [parseRecord, if_pos (by rw [List.length_take]; omega)]
  · obtain ⟨m, rfl⟩ := Nat.exists_eq_add_of_le (not_lt.mp hheader)
    rw [take_walRecord, parse_header crc32c h, if_pos (by rw [List.length_take]; omega)]

/-- The fields of the header in front of a payload that was read. -/
theorem header_of_parseRecord {bytes payload rest : Bytes}
    (h : parseRecord crc32c bytes = .ok (some (payload, rest))) :
    walRecordHeaderSize ≤ bytes.length ∧ bytes.getD 8 0 = 1 ∧ payload ≠ [] ∧
      u32FromLeBytes ((bytes.drop 4).take 4) = payload.length ∧
      u32FromLeBytes (bytes.take 4) = (crc32c (1 :: payload)).toNat ∧
      bytes.drop walRecordHeaderSize = payload ++ rest := by
  rw [parseRecord] at h
  split at h
  · cases h
  rename_i hlong
  split at h
  · cases h
  rename_i htag
  simp only at h
  split at h
  · cases h
  rename_i hlen
  obtain ⟨hne, hle⟩ := not_or.mp hlen
  split at h
  · cases h
  rename_i hcrc
  obtain ⟨rfl, rfl⟩ : _ = payload ∧ _ = rest := by simpa using h
  have hlength : ((bytes.drop walRecordHeaderSize).take
      (u32FromLeBytes ((bytes.drop 4).take 4))).length =
      u32FromLeBytes ((bytes.drop 4).take 4) := by
    rw [List.length_take]
    omega
  refine ⟨not_lt.mp hlong, not_not.mp htag, fun hnil => hne ?_, hlength.symm, not_not.mp hcrc, ?_⟩
  · rw [hnil] at hlength
    exact hlength.symm
  · rw [← List.drop_drop, List.take_append_drop]

theorem of_parseRecord {bytes payload rest : Bytes}
    (h : parseRecord crc32c bytes = .ok (some (payload, rest))) :
    Loggable payload ∧ bytes = walRecord crc32c payload ++ rest := by
  obtain ⟨hbytes, htag, hne, hlen, hcrc, hrest⟩ := header_of_parseRecord crc32c h
  have hlenBytes : ((bytes.drop 4).take 4).length = 4 := by
    simp only [List.length_take, List.length_drop, walRecordHeaderSize] at hbytes ⊢
    omega
  have hsumBytes : (bytes.take 4).length = 4 := by
    simp only [List.length_take, walRecordHeaderSize] at hbytes ⊢
    omega
  have hlt : payload.length < 2 ^ 32 := hlen ▸ u32FromLeBytes_lt hlenBytes
  have hsmall : asU32 payload.length = payload.length := Nat.mod_eq_of_lt hlt
  refine ⟨⟨hne, hlt⟩, ?_⟩
  calc bytes = bytes.take 4 ++ (bytes.drop 4).take 4 ++ [bytes.getD 8 0] ++
        bytes.drop walRecordHeaderSize := split_header hbytes
    _ = bytes.take 4 ++ (bytes.drop 4).take 4 ++ [1] ++ (payload ++ rest) := by rw [htag, hrest]
    _ = walRecord crc32c payload ++ rest := by
        rw [walRecord, hsmall, ← hlen, u32ToLeBytes_u32FromLeBytes hlenBytes,
          WalRecordType.toU8, ← hcrc, u32ToLeBytes_u32FromLeBytes hsumBytes]
        simp only [List.append_assoc]

/-- The frames of log files and manifests. -/
def walFraming : Framing Bytes UInt8 Error where
  Valid := Loggable
  frame := walRecord crc32c
  parse := parseRecord crc32c
  frame_ne_nil payload := by simp [walRecord]
  parse_nil := rfl
  parse_frame h rest := parseRecord_walRecord crc32c h rest
  parse_torn h n hn := parseRecord_torn crc32c h n hn
  of_parse h := of_parseRecord crc32c h

theorem readRecords_eq {γ : Type} (step : γ → Bytes → Except Error γ) (fuel : Nat) (acc : γ)
    (file : ReadableFile) : readRecords crc32c step fuel acc file =
      (walFraming crc32c).readInto step fuel acc file.rest := by
  induction fuel generalizing acc file with
  | zero => rfl
  | succ fuel ih =>
    have hspec := readRecord_spec crc32c file
    rw [readRecords, Framing.readInto]
    have hparse : (walFraming crc32c).parse file.rest = parseRecord crc32c file.rest := rfl
    rw [hparse]
    cases hp : parseRecord crc32c file.rest with
    | error err =>
      rw [hp] at hspec
      simp only [hspec, bind, Except.bind]
    | ok result =>
      cases result with
      | none =>
        rw [hp] at hspec
        obtain ⟨file', hrun⟩ := hspec
        simp only [hrun, bind, Except.bind]
        rfl
      | some pair =>
        rw [hp] at hspec
        obtain ⟨chunks, hrun⟩ := hspec
        simp only [hrun, bind, Except.bind]
        cases step acc pair.1 with
        | error err => rfl
        | ok acc' => exact ih acc' _

theorem readPayloads_eq (file : ReadableFile) :
    readPayloads crc32c file = (walFraming crc32c).read file.rest := by
  rw [readPayloads, readRecords_eq, Framing.readInto_append, Framing.read]
  cases (walFraming crc32c).readUpTo file.rest.length file.rest <;> rfl

/-- A new record behind leftover bytes is not read as the first record there, for at least
one of two records of different lengths. -/
theorem walRecord_probe {p q : Bytes} (hp : 1 < p.length ∧ p.length < 2 ^ 8)
    (hq : 1 < q.length ∧ q.length < 2 ^ 8) (hne : p.length ≠ q.length) {t : Bytes} (ht : t ≠ []) :
    (∀ rest, t ++ walRecord crc32c p ≠ walRecord crc32c p ++ rest) ∨
      ∀ rest, t ++ walRecord crc32c q ≠ walRecord crc32c q ++ rest := by
  have hpos : 0 < t.length := List.length_pos_of_ne_nil ht
  -- the bytes of the length field and the type byte
  have hbyte : ∀ payload : Bytes, payload.length < 2 ^ 8 → ∀ rest,
      (walRecord crc32c payload ++ rest)[4]? = some (UInt8.ofNat payload.length) ∧
      (walRecord crc32c payload ++ rest)[5]? = some 0 ∧
      (walRecord crc32c payload ++ rest)[6]? = some 0 ∧
      (walRecord crc32c payload ++ rest)[7]? = some 0 ∧
      (walRecord crc32c payload ++ rest)[8]? = some 1 := by
    intro payload hlen rest
    have hsmall : asU32 payload.length = payload.length :=
      Nat.mod_eq_of_lt (hlen.trans (by norm_num))
    have h8 : payload.length / 2 ^ 8 = 0 := Nat.div_eq_of_lt hlen
    have h16 : payload.length / 2 ^ 16 = 0 := Nat.div_eq_of_lt (hlen.trans (by norm_num))
    have h24 : payload.length / 2 ^ 24 = 0 := Nat.div_eq_of_lt (hlen.trans (by norm_num))
    rw [walRecord, hsmall]
    simp only [u32ToLeBytes, h8, h16, h24]
    exact ⟨rfl, rfl, rfl, rfl, rfl⟩
  by_cases hlong : 4 < t.length
  · -- the length field of the first record is that of the leftover bytes
    by_contra hboth
    simp only [not_or, not_forall, not_not] at hboth
    obtain ⟨⟨rest, hrest⟩, rest', hrest'⟩ := hboth
    have hget := congrArg (·[4]?) hrest
    have hget' := congrArg (·[4]?) hrest'
    simp only [List.getElem?_append_left hlong, (hbyte p hp.2 rest).1] at hget
    simp only [List.getElem?_append_left hlong, (hbyte q hq.2 rest').1] at hget'
    have hsame := congrArg UInt8.toNat (Option.some.inj (hget.symm.trans hget'))
    rw [UInt8.toNat_ofNat', UInt8.toNat_ofNat', Nat.mod_eq_of_lt hp.2, Nat.mod_eq_of_lt hq.2]
      at hsame
    exact hne hsame
  · -- the type byte of the first record is one of the new record's length field
    refine .inl fun rest hrest => ?_
    obtain ⟨h4, h5, h6, h7, _⟩ := hbyte p hp.2 []
    rw [List.append_nil] at h4 h5 h6 h7
    have hget := congrArg (·[8]?) hrest
    simp only [List.getElem?_append_right (by omega : t.length ≤ 8), (hbyte p hp.2 rest).2.2.2.2]
      at hget
    have hcases : 8 - t.length = 4 ∨ 8 - t.length = 5 ∨ 8 - t.length = 6 ∨ 8 - t.length = 7 := by
      omega
    rcases hcases with hc | hc | hc | hc
    · rw [hc, h4] at hget
      have hone := congrArg UInt8.toNat (Option.some.inj hget)
      rw [UInt8.toNat_ofNat', Nat.mod_eq_of_lt hp.2] at hone
      exact absurd hone hp.1.ne'
    all_goals simp [hc, h5, h6, h7] at hget

end

/-- A file that is written at its end. -/
structure WritableFile where
  contents : Bytes
  /-- After how many bytes a write fails, and with which error. -/
  fault : Option (Nat × Error)
  syncFault : Option Error

/-- A write that fails leaves the bytes it has written. -/
def writeAll (bytes : Bytes) : EStateM Error WritableFile Unit := fun file =>
  match file.fault with
  | none => .ok () { file with contents := file.contents ++ bytes }
  | some (budget, err) =>
    if bytes.length ≤ budget then
      .ok () { file with
        contents := file.contents ++ bytes
        fault := some (budget - bytes.length, err) }
    else .error err { file with contents := file.contents ++ bytes.take budget, fault := none }

/-- A sync that fails leaves the written bytes in place. -/
def syncAll : EStateM Error WritableFile Unit := fun file =>
  match file.syncFault with
  | none => .ok () file
  | some err => .error err { file with syncFault := none }

theorem writeAll_append (l r : Bytes) : (do writeAll l; writeAll r) = writeAll (l ++ r) := by
  funext file
  change EStateM.bind (writeAll l) (fun _ => writeAll r) file = _
  obtain ⟨contents, fault, syncFault⟩ := file
  cases fault with
  | none => simp [EStateM.bind, writeAll]
  | some fault =>
    obtain ⟨budget, err⟩ := fault
    by_cases hl : l.length ≤ budget
    · by_cases hr : r.length ≤ budget - l.length
      · have hboth : l.length + r.length ≤ budget := by omega
        simp [EStateM.bind, writeAll, hl, hr, hboth, Nat.sub_sub]
      · have hboth : ¬ l.length + r.length ≤ budget := by omega
        simp [EStateM.bind, writeAll, hl, hr, hboth, List.take_append, List.take_of_length_le hl]
    · have hboth : ¬ l.length + r.length ≤ budget := by omega
      have hzero : budget - l.length = 0 := by omega
      simp [EStateM.bind, writeAll, hl, hboth, List.take_append, hzero]

section

variable (crc32c : Bytes → UInt32)

def WalWriter.append (payload : Bytes) : EStateM Error WritableFile Unit := do
  let recordType := WalRecordType.full.toU8
  let checksum := crc32c (recordType :: payload)
  writeAll (u32ToLeBytes checksum.toNat)
  writeAll (u32ToLeBytes (asU32 payload.length))
  writeAll [recordType]
  writeAll payload

theorem append_eq_writeAll (payload : Bytes) :
    WalWriter.append crc32c payload = writeAll (walRecord crc32c payload) := by
  rw [WalWriter.append, writeAll_append, writeAll_append, writeAll_append, walRecord]
  simp

end

end TyLsm
