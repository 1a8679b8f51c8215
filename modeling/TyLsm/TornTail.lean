import TyLsm.Wal
import TyLsm.Codec

/-! What is read back from logs and manifests. A reader takes an empty record, and the part
of a record at the end of a file, for the end; a writer appends behind it. -/

namespace TyLsm

section

variable (crc32c : Bytes → UInt32)

def ManifestWriter.append (edit : VersionEdit) : EStateM Error WritableFile Unit := do
  WalWriter.append crc32c edit.encode
  syncAll

def ManifestReader.readAll (file : ReadableFile) : Except Error (List VersionEdit) :=
  readRecords crc32c (fun edits payload => do return edits ++ [← VersionEdit.decode payload])
    file.rest.length [] file

/-- An edit whose fields fit their encoding, and whose encoding fits a record. -/
def VersionEdit.Loggable (edit : VersionEdit) : Prop :=
  edit.Encodable ∧ edit.encode.length < 2 ^ 32

/-- What a file holds after a writer, opened on it in append mode, has appended without a
fault. -/
def appendedTo {α : Type} (append : α → EStateM Error WritableFile Unit) (contents : Bytes)
    (items : List α) : Bytes :=
  match items.forM append ⟨contents, none, none⟩ with
  | .ok _ file => file.contents
  | .error _ file => file.contents

def walFile (contents : Bytes) (payloads : List Bytes) : Bytes :=
  appendedTo (WalWriter.append crc32c) contents payloads

def manifestFile (contents : Bytes) (edits : List VersionEdit) : Bytes :=
  appendedTo (ManifestWriter.append crc32c) contents edits

theorem forM_append_eq {α : Type} (append : α → EStateM Error WritableFile Unit)
    (encode : α → Bytes) (h : ∀ item contents, append item ⟨contents, none, none⟩ =
      .ok () ⟨contents ++ walRecord crc32c (encode item), none, none⟩) (items : List α)
    (contents : Bytes) : items.forM append ⟨contents, none, none⟩ =
      .ok () ⟨contents ++ (walFraming crc32c).frames (items.map encode), none, none⟩ := by
  induction items generalizing contents with
  | nil => simp [pure, EStateM.pure]
  | cons item items ih =>
    have hrest := ih (contents ++ walRecord crc32c (encode item))
    change EStateM.bind (append item) (fun _ => items.forM append) ⟨contents, none, none⟩ = _
    simp only [EStateM.bind, h, hrest, List.map_cons, Framing.frames_cons, List.append_assoc]
    rfl

theorem walFile_eq (contents : Bytes) (payloads : List Bytes) :
    walFile crc32c contents payloads = contents ++ (walFraming crc32c).frames payloads := by
  have hrun := forM_append_eq crc32c (WalWriter.append crc32c) id
    (fun payload contents => by rw [append_eq_writeAll]; rfl) payloads contents
  rw [walFile, appendedTo, hrun, List.map_id]

theorem manifestFile_eq (contents : Bytes) (edits : List VersionEdit) :
    manifestFile crc32c contents edits =
      contents ++ (walFraming crc32c).frames (edits.map VersionEdit.encode) := by
  have hrun := forM_append_eq crc32c (ManifestWriter.append crc32c) VersionEdit.encode
    (fun edit contents => by rw [ManifestWriter.append, append_eq_writeAll]; rfl) edits contents
  rw [manifestFile, appendedTo, hrun]

theorem parseRecord_fields (sum : UInt32) (tag : UInt8) {payload : Bytes}
    (hlen : payload.length < 2 ^ 32) (rest : Bytes) :
    parseRecord crc32c (u32ToLeBytes sum.toNat ++ u32ToLeBytes payload.length ++ [tag] ++
        payload ++ rest) =
      if tag ≠ 1 then .error (.corruption "unknown WAL record type")
      else if payload = [] then .ok none
      else if sum ≠ crc32c (1 :: payload) then .error (.corruption "WAL checksum mismatch")
      else .ok (some (payload, rest)) := by
  obtain ⟨hsum, hl, htag, hrest, hlong⟩ := header_fields sum.toNat payload.length tag
    (payload ++ rest)
  have hshort : ¬ (payload ++ rest).length < payload.length := by simp
  rw [List.append_assoc _ payload, parseRecord, if_neg hlong, hsum, hl, htag, hrest,
    u32FromLeBytes_u32ToLeBytes sum.toNat_lt, u32FromLeBytes_u32ToLeBytes hlen]
  simp only [hshort, or_false, List.length_eq_zero_iff, List.take_left', List.drop_left',
    UInt32.toNat_inj, ne_eq]

/-- What is appended to a new log is read back, however the file is read, exactly when no
payload is empty: an empty one is taken for the end. A complete record with a wrong checksum
or type is an error unless it is empty with the right type. -/
theorem wal_round_trip_iff {payloads : List Bytes}
    (hlen : ∀ payload ∈ payloads, payload.length < 2 ^ 32) :
    ((∀ chunks, readPayloads crc32c ⟨walFile crc32c [] payloads, chunks⟩ = .ok payloads) ↔
      ∀ payload ∈ payloads, payload ≠ []) ∧
    ((∀ payload ∈ payloads, payload ≠ []) → ∀ (sum : UInt32) (tag : UInt8) (payload rest : Bytes),
      payload.length < 2 ^ 32 → (tag ≠ 1 ∨ sum ≠ crc32c (1 :: payload)) →
      ((∀ chunks, ∃ message, readPayloads crc32c ⟨walFile crc32c [] payloads ++
          (u32ToLeBytes sum.toNat ++ u32ToLeBytes payload.length ++ [tag] ++ payload ++ rest),
          chunks⟩ = .error (.corruption message)) ↔ tag ≠ 1 ∨ payload ≠ [])) := by
  simp only [readPayloads_eq, walFile_eq, List.nil_append, forall_const]
  refine ⟨⟨fun h payload hmem => (Framing.valid_of_read h payload hmem).1, fun h =>
    Framing.read_frames fun payload hmem => ⟨h payload hmem, hlen payload hmem⟩⟩, ?_⟩
  intro hne sum tag payload rest hl hbad
  have hparse := parseRecord_fields crc32c sum tag hl rest
  have hvalid : ∀ payload ∈ payloads, Loggable payload := fun payload hmem =>
    ⟨hne payload hmem, hlen payload hmem⟩
  rw [Framing.read_frames_append (F := walFraming crc32c) hvalid]
  by_cases htag : tag = 1
  · rw [if_neg (not_not.mpr htag)] at hparse
    have hsum : sum ≠ crc32c (1 :: payload) := hbad.resolve_left (not_not.mpr htag)
    by_cases hempty : payload = []
    · rw [if_pos hempty] at hparse
      rw [Framing.read_of_end hparse]
      simp [htag, hempty, Except.map]
    · rw [if_neg hempty, if_pos hsum] at hparse
      rw [Framing.read_of_error hparse]
      exact ⟨fun _ => .inr hempty, fun _ => ⟨_, rfl⟩⟩
  · rw [if_pos htag] at hparse
    rw [Framing.read_of_error hparse]
    exact ⟨fun _ => .inl htag, fun _ => ⟨_, rfl⟩⟩

theorem readAll_of_read (file : ReadableFile) {edits : List VersionEdit}
    (h : (walFraming crc32c).read file.rest = .ok (edits.map VersionEdit.encode))
    (hedits : ∀ edit ∈ edits, edit.Encodable) :
    ManifestReader.readAll crc32c file = .ok edits := by
  have hfold : ∀ (l acc : List VersionEdit), (∀ edit ∈ l, edit.Encodable) →
      (l.map VersionEdit.encode).foldlM (m := Except Error) (fun edits payload => do
        return edits ++ [← VersionEdit.decode payload]) acc = .ok (acc ++ l) := by
    intro l
    induction l with
    | nil => simp [pure, Except.pure]
    | cons edit l ih =>
      intro acc hl
      rw [List.map_cons, List.foldlM_cons, VersionEdit.decode_encode (hl edit (by simp))]
      have hrest := ih (acc ++ [edit]) fun e he => hl e (by simp [he])
      rw [List.append_assoc] at hrest
      exact hrest
  rw [ManifestReader.readAll, readRecords_eq, Framing.readInto_of_read le_rfl h]
  exact hfold edits [] hedits

/-- Items are appended to a file and read after the payloads expected there exactly when it
holds only the frames of these; two items of different lengths are enough to tell. -/
theorem log_continues_iff {α : Type} {P : α → Prop} (encode : α → Bytes)
    (hP : ∀ item, P item → Loggable (encode item)) {p q : α} (hp : P p) (hq : P q)
    (hpl : 1 < (encode p).length ∧ (encode p).length < 2 ^ 8)
    (hql : 1 < (encode q).length ∧ (encode q).length < 2 ^ 8)
    (hne : (encode p).length ≠ (encode q).length) (file : Bytes) (payloads : List Bytes) :
    (∀ more : List α, (∀ item ∈ more, P item) → ∀ chunks, readPayloads crc32c
        ⟨file ++ (walFraming crc32c).frames (more.map encode), chunks⟩ =
        .ok (payloads ++ more.map encode)) ↔
      file = (walFraming crc32c).frames payloads ∧ ∀ payload ∈ payloads, Loggable payload := by
  have hclass : ∀ payload, (∃ item, P item ∧ encode item = payload) → Loggable payload := by
    rintro _ ⟨item, hitem, rfl⟩
    exact hP item hitem
  have hprobe : ∀ t : Bytes, t ≠ [] → ∃ a, (∃ item, P item ∧ encode item = a) ∧
      ∀ rest, t ++ walRecord crc32c a ≠ walRecord crc32c a ++ rest := by
    intro t ht
    rcases walRecord_probe crc32c hpl hql hne ht with h | h
    · exact ⟨encode p, ⟨p, hp, rfl⟩, h⟩
    · exact ⟨encode q, ⟨q, hq, rfl⟩, h⟩
  have hiff := (walFraming crc32c).continues_iff hclass hprobe file payloads
  simp only [readPayloads_eq]
  constructor
  · intro h
    refine hiff.mp fun more hmore => ?_
    obtain ⟨items, hitems, rfl⟩ : ∃ items : List α, (∀ item ∈ items, P item) ∧
        items.map encode = more := by
      clear hiff
      induction more with
      | nil => exact ⟨[], by simp, rfl⟩
      | cons payload more ih =>
        obtain ⟨item, hitem, rfl⟩ := hmore payload (by simp)
        obtain ⟨items, hitems, rfl⟩ := ih fun x hx => hmore x (by simp [hx])
        exact ⟨item :: items, by simpa using ⟨hitem, hitems⟩, rfl⟩
    exact h items hitems fun _ => 0
  · intro h more hmore _
    refine hiff.mpr h _ fun payload hmem => ?_
    obtain ⟨item, hitem, rfl⟩ := List.mem_map.mp hmem
    exact ⟨item, hmore item hitem, rfl⟩

theorem wal_continues_iff (file : Bytes) (payloads : List Bytes) :
    (∀ more, (∀ payload ∈ more, Loggable payload) → ∀ chunks, readPayloads crc32c
        ⟨file ++ (walFraming crc32c).frames more, chunks⟩ = .ok (payloads ++ more)) ↔
      file = (walFraming crc32c).frames payloads ∧ ∀ payload ∈ payloads, Loggable payload := by
  have hiff := log_continues_iff crc32c (P := Loggable) id (fun _ h => h) (p := [0, 0]) (q := [0, 0, 0])
    ⟨by simp, by simp⟩ ⟨by simp, by simp⟩ (by decide) (by decide) (by decide) file payloads
  simpa only [List.map_id] using hiff

theorem VersionEdit.Loggable.payload {edit : VersionEdit} (h : edit.Loggable) :
    TyLsm.Loggable edit.encode := ⟨edit.encode_ne_nil, h.2⟩

theorem manifest_continues_iff (file : Bytes) (payloads : List Bytes) :
    (∀ more : List VersionEdit, (∀ edit ∈ more, edit.Loggable) → ∀ chunks, readPayloads crc32c
        ⟨file ++ (walFraming crc32c).frames (more.map VersionEdit.encode), chunks⟩ =
        .ok (payloads ++ more.map VersionEdit.encode)) ↔
      file = (walFraming crc32c).frames payloads ∧ ∀ payload ∈ payloads, Loggable payload :=
  log_continues_iff crc32c VersionEdit.encode (fun _ h => h.payload)
    (p := .nextFileNumber 0) (q := .nextFileNumber 128) ⟨Nat.two_pow_pos 64, by decide⟩
    ⟨by norm_num [VersionEdit.Encodable], by decide⟩ (by decide) (by decide) (by decide) file
    payloads

/-- For a file cut off at `n`, what `log_continues_iff` asks for is that the cut is at the
end of a record. -/
theorem cut_eq_frames_iff {payloads : List Bytes} {n : Nat} :
    ((walFraming crc32c).frames payloads).take n =
        (walFraming crc32c).frames ((walFraming crc32c).complete payloads n) ↔
      ∃ k, ((walFraming crc32c).frames payloads).take n =
        (walFraming crc32c).frames (payloads.take k) := by
  rw [← Framing.leftover_eq_nil_iff, Framing.take_frames, List.append_right_eq_self]

/-- A log, or a manifest, can be continued behind the first `n` bytes of its file exactly
when these end at the end of a record: whatever is appended then is read after the records
that are complete in them. -/
theorem log_continues_iff_no_torn_record (n : Nat) :
    (∀ payloads : List Bytes, (∀ payload ∈ payloads, payload ≠ []) →
      ((∀ more, (∀ payload ∈ more, Loggable payload) → ∀ chunks, readPayloads crc32c
          ⟨walFile crc32c ((walFile crc32c [] payloads).take n) more, chunks⟩ =
          .ok ((walFraming crc32c).complete payloads n ++ more)) ↔
        (∃ k, (walFile crc32c [] payloads).take n = walFile crc32c [] (payloads.take k)) ∧
          ∀ payload ∈ (walFraming crc32c).complete payloads n, payload.length < 2 ^ 32)) ∧
    ∀ edits : List VersionEdit, (∀ edit ∈ edits, edit.Loggable) →
      ((∀ more, (∀ edit ∈ more, edit.Loggable) → ∀ chunks, readPayloads crc32c
          ⟨manifestFile crc32c ((manifestFile crc32c [] edits).take n) more, chunks⟩ =
          .ok ((walFraming crc32c).complete (edits.map VersionEdit.encode) n ++
            more.map VersionEdit.encode)) ↔
        ∃ k, (manifestFile crc32c [] edits).take n = manifestFile crc32c [] (edits.take k)) ∧
      ∀ k, (manifestFile crc32c [] edits).take n = manifestFile crc32c [] (edits.take k) →
        ∀ more, (∀ edit ∈ more, edit.Loggable) → ∀ chunks, ManifestReader.readAll crc32c
          ⟨manifestFile crc32c ((manifestFile crc32c [] edits).take n) more, chunks⟩ =
          .ok (edits.take k ++ more) := by
  simp only [walFile_eq, manifestFile_eq, List.nil_append]
  constructor
  · intro payloads hpayloads
    rw [wal_continues_iff, cut_eq_frames_iff]
    refine and_congr_right fun _ => forall₂_congr fun payload hmem => ?_
    have hne := hpayloads payload (((walFraming crc32c).complete_sublist payloads n).subset hmem)
    exact ⟨fun h => h.2, fun h => ⟨hne, h⟩⟩
  · intro edits hedits
    constructor
    · have hvalid : ∀ payload ∈ (walFraming crc32c).complete (edits.map VersionEdit.encode) n,
          Loggable payload := by
        intro payload hmem
        obtain ⟨edit, hedit, rfl⟩ :=
          List.mem_map.mp (((walFraming crc32c).complete_sublist _ n).subset hmem)
        exact (hedits edit hedit).payload
      rw [manifest_continues_iff, cut_eq_frames_iff, and_iff_left hvalid]
      simp only [List.map_take]
    · intro k hk more hmore chunks
      have hall : ∀ edit ∈ edits.take k ++ more, edit.Loggable := by
        intro edit hmem
        rcases List.mem_append.mp hmem with hmem | hmem
        · exact hedits edit (List.mem_of_mem_take hmem)
        · exact hmore edit hmem
      refine readAll_of_read crc32c _ ?_ fun edit hmem => (hall edit hmem).1
      simp only [hk]
      rw [← Framing.frames_append, ← List.map_append]
      refine Framing.read_frames fun payload hmem => ?_
      obtain ⟨edit, hedit, rfl⟩ := List.mem_map.mp hmem
      exact (hall edit hedit).payload

/-! Appends that fail on an open writer. -/

/-- One call on an open writer: what the file holds, and the items of the calls that
returned without an error. -/
def callOne {α : Type} (append : α → EStateM Error WritableFile Unit) (s : Bytes × List α)
    (call : α × Option (Nat × Error)) : Bytes × List α :=
  match append call.1 ⟨s.1, call.2, none⟩ with
  | .ok _ file => (file.contents, s.2 ++ [call.1])
  | .error _ file => (file.contents, s.2)

/-- The calls on a writer of a new file. -/
def callAll {α : Type} (append : α → EStateM Error WritableFile Unit)
    (calls : List (α × Option (Nat × Error))) : Bytes × List α :=
  calls.foldl (callOne append) ([], [])

/-- How many bytes of its record a call writes before it fails. -/
def failsAfter (payload : Bytes) (fault : Option (Nat × Error)) : Option Nat :=
  match fault with
  | none => none
  | some (budget, _) => if walRecordHeaderSize + payload.length ≤ budget then none else some budget

section

variable {α : Type} {append : α → EStateM Error WritableFile Unit} {encode : α → Bytes}

/-- A writer that puts the record of an item behind the file. -/
def Appends (append : α → EStateM Error WritableFile Unit) (encode : α → Bytes) : Prop :=
  ∀ item contents fault, append item ⟨contents, fault, none⟩ =
    writeAll (walRecord crc32c (encode item)) ⟨contents, fault, none⟩

/-- The bytes of its record that a call writes. -/
def written (encode : α → Bytes) (call : α × Option (Nat × Error)) : Bytes :=
  match failsAfter (encode call.1) call.2 with
  | none => walRecord crc32c (encode call.1)
  | some count => (walRecord crc32c (encode call.1)).take count

/-- The items of the calls that return without an error. -/
def acknowledged (encode : α → Bytes) (calls : List (α × Option (Nat × Error))) : List α :=
  (calls.filter fun call => (failsAfter (encode call.1) call.2).isNone).map Prod.fst

theorem callOne_eq (h : Appends crc32c append encode) (s : Bytes × List α)
    (call : α × Option (Nat × Error)) : callOne append s call =
      (s.1 ++ written crc32c encode call, s.2 ++ acknowledged encode [call]) := by
  obtain ⟨item, fault⟩ := call
  have hlen := length_walRecord crc32c (encode item)
  simp only [callOne, h item s.1 fault, writeAll, written, acknowledged]
  cases fault with
  | none => simp [failsAfter]
  | some fault =>
    obtain ⟨budget, err⟩ := fault
    by_cases hfit : walRecordHeaderSize + (encode item).length ≤ budget
    · simp [failsAfter, hfit, hlen]
    · simp [failsAfter, hfit, hlen]

theorem acknowledged_cons (call : α × Option (Nat × Error))
    (calls : List (α × Option (Nat × Error))) : acknowledged encode (call :: calls) =
      acknowledged encode [call] ++ acknowledged encode calls := by
  rw [acknowledged, ← List.singleton_append, List.filter_append, List.map_append]
  rfl

theorem callAll_eq (h : Appends crc32c append encode) (calls : List (α × Option (Nat × Error))) :
    callAll append calls = (calls.flatMap (written crc32c encode), acknowledged encode calls) := by
  have hfold : ∀ s, calls.foldl (callOne append) s =
      (s.1 ++ calls.flatMap (written crc32c encode), s.2 ++ acknowledged encode calls) := by
    induction calls with
    | nil => simp [acknowledged]
    | cons call calls ih =>
      intro s
      rw [List.foldl_cons, ih, callOne_eq crc32c h, acknowledged_cons call calls]
      simp
  simpa [callAll] using hfold ([], [])

theorem appends_wal : Appends crc32c (WalWriter.append crc32c) id := by
  intro payload contents fault
  rw [append_eq_writeAll]
  rfl

theorem appends_manifest : Appends crc32c (ManifestWriter.append crc32c) VersionEdit.encode := by
  intro edit contents fault
  rw [ManifestWriter.append, append_eq_writeAll]
  change EStateM.bind (writeAll (walRecord crc32c edit.encode)) (fun _ => syncAll) _ = _
  simp only [EStateM.bind, writeAll]
  cases fault with
  | none => rfl
  | some fault =>
    by_cases hfit : (walRecord crc32c edit.encode).length ≤ fault.1
    · simp only [hfit, if_true]
      rfl
    · simp only [hfit, if_false]

/-- A call that fails after it has written a part of its record. -/
def Torn (encode : α → Bytes) (call : α × Option (Nat × Error)) : Prop :=
  ∃ count, failsAfter (encode call.1) call.2 = some (count + 1)

theorem failsAfter_lt {payload : Bytes} {fault : Option (Nat × Error)} {count : Nat}
    (h : failsAfter payload fault = some count) : count < walRecordHeaderSize + payload.length := by
  cases fault with
  | none => cases h
  | some fault =>
    simp only [failsAfter] at h
    split at h
    · cases h
    · rename_i hlt
      obtain rfl := Option.some.inj h
      exact not_le.mp hlt

theorem written_cases (call : α × Option (Nat × Error)) :
    (acknowledged encode [call] = [call.1] ∧ ¬ Torn encode call ∧
        written crc32c encode call = walRecord crc32c (encode call.1)) ∨
      (acknowledged encode [call] = [] ∧ ¬ Torn encode call ∧ written crc32c encode call = []) ∨
      (acknowledged encode [call] = [] ∧ Torn encode call ∧ written crc32c encode call ≠ [] ∧
        ∃ count < (walRecord crc32c (encode call.1)).length,
          written crc32c encode call = (walRecord crc32c (encode call.1)).take count) := by
  simp only [acknowledged, written, Torn]
  cases hfail : failsAfter (encode call.1) call.2 with
  | none => exact .inl (by simp [hfail])
  | some count =>
    cases count with
    | zero => exact .inr (.inl (by simp [hfail]))
    | succ count =>
      have hlt := failsAfter_lt hfail
      rw [← length_walRecord crc32c] at hlt
      have hne : (walRecord crc32c (encode call.1)).take (count + 1) ≠ [] := by
        rw [ne_eq, ← List.length_eq_zero_iff, List.length_take]
        omega
      exact .inr (.inr ⟨by simp [hfail], ⟨count, rfl⟩, hne, count + 1, hlt, rfl⟩)

variable (encode) in
theorem flatMap_written_iff (calls : List (α × Option (Nat × Error))) :
    ((walFraming crc32c).frames ((acknowledged encode calls).map encode)).length ≤
        (calls.flatMap (written crc32c encode)).length ∧
      (calls.flatMap (written crc32c encode) =
          (walFraming crc32c).frames ((acknowledged encode calls).map encode) ↔
        ∀ call ∈ calls, ¬ Torn encode call) := by
  induction calls with
  | nil => simp [acknowledged]
  | cons call calls ih =>
    obtain ⟨hle, hiff⟩ := ih
    rw [acknowledged_cons, List.flatMap_cons, List.forall_mem_cons, List.map_append,
      Framing.frames_append]
    rcases written_cases crc32c call with ⟨hack, hwhole, hw⟩ | ⟨hack, hwhole, hw⟩ |
      ⟨hack, htorn, hne, -⟩
    · rw [hack, hw, List.map_singleton, Framing.frames_cons, Framing.frames_nil, List.append_nil,
        and_iff_right hwhole, ← hiff]
      refine ⟨?_, List.append_right_inj _⟩
      rw [List.length_append, List.length_append]
      exact Nat.add_le_add_left hle _
    · rw [hack, hw, List.map_nil, Framing.frames_nil, List.nil_append, List.nil_append,
        and_iff_right hwhole]
      exact ⟨hle, hiff⟩
    · have hpos := List.length_pos_of_ne_nil hne
      rw [hack, List.map_nil, Framing.frames_nil, List.nil_append, List.length_append]
      refine ⟨by omega, fun heq => ?_, fun h => absurd htorn h.1⟩
      have hlen := congrArg List.length heq
      rw [List.length_append] at hlen
      omega

variable (encode) in
/-- Where the writes after a torn one leave nothing, the file ends in the torn record. -/
theorem read_flatMap_written {calls : List (α × Option (Nat × Error))}
    (hvalid : ∀ call ∈ calls, Loggable (encode call.1))
    (h : calls.Pairwise fun call later => Torn encode call → written crc32c encode later = []) :
    (walFraming crc32c).read (calls.flatMap (written crc32c encode)) =
      .ok ((acknowledged encode calls).map encode) := by
  induction calls with
  | nil => exact Framing.read_of_end (walFraming crc32c).parse_nil
  | cons call calls ih =>
    obtain ⟨hfirst, hrest⟩ := List.pairwise_cons.mp h
    have ih := ih (fun c hc => hvalid c (by simp [hc])) hrest
    rw [acknowledged_cons, List.flatMap_cons, List.map_append]
    rcases written_cases crc32c call with ⟨hack, -, hw⟩ | ⟨hack, -, hw⟩ |
      ⟨hack, htorn, -, count, hlt, hw⟩
    · have hread := Framing.read_of_parse ((walFraming crc32c).parse_frame (hvalid call (by simp))
        (calls.flatMap (written crc32c encode)))
      rw [ih] at hread
      rw [hack, hw]
      exact hread
    · rw [hack, hw]
      exact ih
    · -- nothing follows the part of the record
      have hnone : calls.flatMap (written crc32c encode) = [] :=
        List.flatMap_eq_nil_iff.mpr fun c hc => hfirst c hc htorn
      have hack' : (acknowledged encode calls).map encode = [] := by
        rw [hnone, Framing.read_of_end (walFraming crc32c).parse_nil] at ih
        exact (Except.ok.inj ih).symm
      rw [hack, hack', hnone, List.append_nil, hw]
      exact Framing.read_of_end ((walFraming crc32c).parse_torn (hvalid call (by simp)) count hlt)

theorem written_of_failsAfter_zero {call : α × Option (Nat × Error)}
    (h : failsAfter (encode call.1) call.2 = some 0) : written crc32c encode call = [] := by
  rw [written, h]
  rfl

theorem mem_acknowledged {calls : List (α × Option (Nat × Error))} {item : α} :
    item ∈ acknowledged encode calls ↔
      ∃ call ∈ calls, failsAfter (encode call.1) call.2 = none ∧ call.1 = item := by
  simp [acknowledged, and_assoc]

end

/-- Records appended after failed appends on the same writer are read exactly when no failed
append has written a part of its record; and such a part is ignored as long as nothing is
written behind it. -/
theorem appends_survive_failures_iff :
    (∀ calls : List (Bytes × Option (Nat × Error)), (∀ call ∈ calls, call.1 ≠ []) →
      ((∀ more, (∀ payload ∈ more, Loggable payload) → ∀ chunks, readPayloads crc32c
          ⟨walFile crc32c (callAll (WalWriter.append crc32c) calls).1 more, chunks⟩ =
          .ok ((callAll (WalWriter.append crc32c) calls).2 ++ more)) ↔
        (∀ call ∈ calls, ¬ Torn id call) ∧
          ∀ call ∈ calls, failsAfter call.1 call.2 = none → call.1.length < 2 ^ 32) ∧
      ((∀ call ∈ calls, call.1.length < 2 ^ 32) → (calls.Pairwise fun call later =>
          Torn id call → failsAfter later.1 later.2 = some 0) → ∀ chunks, readPayloads crc32c
          ⟨(callAll (WalWriter.append crc32c) calls).1, chunks⟩ =
          .ok (callAll (WalWriter.append crc32c) calls).2)) ∧
    ∀ calls : List (VersionEdit × Option (Nat × Error)), (∀ call ∈ calls, call.1.Loggable) →
      ((∀ more, (∀ edit ∈ more, edit.Loggable) → ∀ chunks, readPayloads crc32c
          ⟨manifestFile crc32c (callAll (ManifestWriter.append crc32c) calls).1 more, chunks⟩ =
          .ok (((callAll (ManifestWriter.append crc32c) calls).2 ++ more).map
            VersionEdit.encode)) ↔
        ∀ call ∈ calls, ¬ Torn VersionEdit.encode call) ∧
      ((calls.Pairwise fun call later => Torn VersionEdit.encode call →
          failsAfter later.1.encode later.2 = some 0) → ∀ chunks, ManifestReader.readAll crc32c
          ⟨(callAll (ManifestWriter.append crc32c) calls).1, chunks⟩ =
          .ok (callAll (ManifestWriter.append crc32c) calls).2) := by
  constructor
  · intro calls hne
    have hcalls := callAll_eq crc32c (appends_wal crc32c) calls
    rw [hcalls]
    simp only [walFile_eq]
    constructor
    · rw [wal_continues_iff]
      have hfile := (flatMap_written_iff crc32c id calls).2
      rw [List.map_id] at hfile
      refine and_congr hfile ⟨fun h call hmem hack => ?_, fun h payload hmem => ?_⟩
      · exact (h call.1 (mem_acknowledged.mpr ⟨call, hmem, hack, rfl⟩)).2
      · obtain ⟨call, hcall, hack, rfl⟩ := mem_acknowledged.mp hmem
        exact ⟨hne call hcall, h call hcall hack⟩
    · intro hlen hpair chunks
      have hread := read_flatMap_written crc32c id
        (fun call hmem => ⟨hne call hmem, hlen call hmem⟩)
        (hpair.imp fun h ht => written_of_failsAfter_zero crc32c (h ht))
      rw [List.map_id] at hread
      rw [readPayloads_eq]
      exact hread
  · intro calls hedits
    have hcalls := callAll_eq crc32c (appends_manifest crc32c) calls
    rw [hcalls]
    simp only [manifestFile_eq, List.map_append]
    have hmem : ∀ edit ∈ acknowledged VersionEdit.encode calls, edit.Loggable := by
      intro edit hmem
      obtain ⟨call, hcall, -, rfl⟩ := mem_acknowledged.mp hmem
      exact hedits call hcall
    constructor
    · rw [manifest_continues_iff, (flatMap_written_iff crc32c VersionEdit.encode calls).2,
        and_iff_left]
      intro payload hpayload
      obtain ⟨edit, hedit, rfl⟩ := List.mem_map.mp hpayload
      exact (hmem edit hedit).payload
    · intro hpair chunks
      refine readAll_of_read crc32c _ ?_ fun edit hedit => (hmem edit hedit).1
      exact read_flatMap_written crc32c _ (fun call hcall => (hedits call hcall).payload)
        (hpair.imp fun h ht => written_of_failsAfter_zero crc32c (h ht))

end

/-- CRC-32C, bit by bit. -/
def castagnoli (bytes : Bytes) : UInt32 :=
  let shift (crc : UInt32) : UInt32 :=
    if crc &&& 1 = 1 then (crc >>> 1) ^^^ 0x82f63b78 else crc >>> 1
  bytes.foldl (fun crc byte => (shift ∘ shift ∘ shift ∘ shift ∘ shift ∘ shift ∘ shift ∘ shift)
    (crc ^^^ byte.toUInt32)) 0xffffffff ^^^ 0xffffffff

example : castagnoli [0x31, 0x32, 0x33, 0x34, 0x35, 0x36, 0x37, 0x38, 0x39] = 0xe3069283 := by
  decide +kernel

theorem empty_payload_ends_log :
    readPayloads castagnoli ⟨walFile castagnoli [] [[], [1]], fun _ => 0⟩ = .ok [] := by
  decide +kernel

theorem wal_round_trip_iff_small :
    readPayloads castagnoli ⟨walFile castagnoli [] [[0], [1, 2]], fun _ => 0⟩ =
      .ok [[0], [1, 2]] :=
  (wal_round_trip_iff castagnoli (by decide)).1.mpr (by decide) fun _ => 0

/-- One byte of a record is left; the log is reopened, and a record appended to it. -/
theorem log_lost_behind_torn_record :
    readPayloads castagnoli ⟨(walFile castagnoli [] [[1]]).take 1, fun _ => 0⟩ = .ok [] ∧
    (walFraming castagnoli).complete [[1]] 1 = [] ∧
    readPayloads castagnoli
      ⟨walFile castagnoli ((walFile castagnoli [] [[1]]).take 1) [[2, 3]], fun _ => 0⟩ =
      .error (.corruption "unknown WAL record type") := by
  decide +kernel

theorem log_continues_iff_no_torn_record_small :
    readPayloads castagnoli
      ⟨walFile castagnoli ((walFile castagnoli [] [[1], [2]]).take 10) [[3]], fun _ => 0⟩ =
      .ok ((walFraming castagnoli).complete [[1], [2]] 10 ++ [[3]]) := by
  have hiff := (log_continues_iff_no_torn_record castagnoli 10).1 [[1], [2]] (by decide)
  refine hiff.mpr ⟨⟨1, by decide +kernel⟩, ?_⟩ [[3]] (by simp [Loggable]) fun _ => 0
  have hone : (walFraming castagnoli).complete [[1], [2]] 10 = [[1]] := by decide +kernel
  simp [hone]

/-- An append fails in the length field of its record, and the next one succeeds. -/
theorem append_lost_behind_failed_one :
    (callAll (WalWriter.append castagnoli) [([1], some (5, .io .other "injected")),
      ([2, 3], none)]).2 = [[2, 3]] ∧
    readPayloads castagnoli ⟨(callAll (WalWriter.append castagnoli)
      [([1], some (5, .io .other "injected")), ([2, 3], none)]).1, fun _ => 0⟩ =
      .error (.corruption "unknown WAL record type") := by
  decide +kernel

theorem appends_survive_failures_iff_small :
    readPayloads castagnoli ⟨(callAll (WalWriter.append castagnoli)
      [([1], some (0, .io .other "injected")), ([2, 3], none),
        ([4], some (5, .io .other "injected"))]).1, fun _ => 0⟩ =
      .ok (callAll (WalWriter.append castagnoli)
        [([1], some (0, .io .other "injected")), ([2, 3], none),
          ([4], some (5, .io .other "injected"))]).2 := by
  refine ((appends_survive_failures_iff castagnoli).1 _ (by decide)).2 (by decide) ?_ fun _ => 0
  have hwhole : ∀ call : Bytes × Option (Nat × Error), failsAfter call.1 call.2 = none ∨
      failsAfter call.1 call.2 = some 0 → ¬ Torn id call := by
    rintro call (h | h) ⟨count, hcount⟩
    · rw [id, h] at hcount
      cases hcount
    · rw [id, h] at hcount
      cases hcount
  refine List.pairwise_cons.mpr ⟨fun _ _ ht => absurd ht (hwhole _ (.inr rfl)), ?_⟩
  refine List.pairwise_cons.mpr ⟨fun _ _ ht => absurd ht (hwhole _ (.inl rfl)), ?_⟩
  exact List.pairwise_singleton _ _

end TyLsm
