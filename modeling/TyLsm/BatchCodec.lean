import TyLsm.Codec
import TyLsm.Delimited

/-! The payloads of the log: an encoded write batch is accepted as a whole, and neither a
part of it nor anything longer. -/

namespace TyLsm

def Error.IsCorruption (err : Error) : Prop := ∃ message, err = .corruption message

/-! The parts of a payload. -/

theorem getVarLoop_cut (k shift acc v n : Nat) (h : n < (putVarLoop k v).length) :
    getVarLoop (k + 1) shift acc ((putVarLoop k v).take n) =
      .error (.corruption "truncated varint") := by
  induction k generalizing shift acc v n with
  | zero =>
    rw [putVarLoop, List.length_singleton] at h
    rw [Nat.lt_one_iff.mp h]
    rfl
  | succ k ih =>
    cases n with
    | zero => rfl
    | succ n =>
      by_cases hsmall : v < 0x80
      · rw [putVarLoop, if_pos hsmall, List.length_singleton] at h
        omega
      · have hcmp : ¬ UInt8.ofNat (v % 0x80 + 0x80) < 0x80 := by
          rw [UInt8.lt_iff_toNat_lt, UInt8.toNat_ofNat']
          simp
          omega
        rw [putVarLoop, if_neg hsmall, List.length_cons] at h
        rw [putVarLoop, if_neg hsmall, List.take_succ_cons, getVarLoop]
        rw [if_neg hcmp]
        exact ih _ _ _ _ (by omega)

theorem delimits_varU64 {v : Nat} (hv : v < 2 ^ 64) :
    Delimits Error.IsCorruption getVarU64 (putVarU64 v) v := by
  refine ⟨getVarU64_putVarU64 hv, fun n hn => ?_⟩
  exact ⟨_, getVarLoop_cut 9 0 0 v n hn, _, rfl⟩

theorem delimits_varU32 {v : Nat} (hv : v < 2 ^ 32) :
    Delimits Error.IsCorruption getVarU32 (putVarU32 v) v := by
  refine ⟨getVarU32_putVarU32 hv, fun n hn => ?_⟩
  have hcut : getVarU64 ((putVarU32 v).take n) = .error (.corruption "truncated varint") :=
    getVarLoop_cut 9 0 0 v n hn
  refine ⟨.corruption "truncated varint", ?_, _, rfl⟩
  rw [getVarU32, hcut]

theorem delimits_bytes (bytes : Bytes) :
    Delimits Error.IsCorruption (fun src => takeBytes src bytes.length) bytes bytes := by
  refine ⟨takeBytes_append bytes, fun n hn => ⟨.corruption "truncated byte slice", ?_, _, rfl⟩⟩
  have hlen : (bytes.take n).length < bytes.length := by
    rw [List.length_take]
    omega
  rw [takeBytes, if_pos hlen]

/-! Records and batches. -/

theorem delimits_record {record : BatchRecord} (h : record.Encodable) :
    Delimits Error.IsCorruption BatchRecord.decode record.encode record := by
  cases record with
  | put key value =>
    obtain ⟨hk, hv⟩ := h
    have hkl : asU32 key.length = key.length := Nat.mod_eq_of_lt hk
    have hvl : asU32 value.length = value.length := Nat.mod_eq_of_lt hv
    rw [BatchRecord.encode, hkl, hvl, List.append_assoc, List.append_assoc, List.append_assoc]
    change Delimits _ (fun src => BatchRecord.decode src) _ _
    unfold BatchRecord.decode
    refine (delimits_bytes [1]).andThen ?_
    refine (delimits_varU32 hk).andThen ?_
    refine (delimits_bytes key).andThen ?_
    refine (delimits_varU32 hv).andThen ?_
    exact (delimits_bytes value).thenReturn fun src => rfl
  | delete key =>
    have hkl : asU32 key.length = key.length := Nat.mod_eq_of_lt h
    have hzero : [2] ++ (putVarU32 key.length ++ (key ++ putVarU32 0)) =
        [2] ++ (putVarU32 key.length ++ (key ++ (putVarU32 0 ++ ([] : Bytes)))) := by
      rw [List.append_nil]
    rw [BatchRecord.encode, hkl, List.append_assoc, List.append_assoc, hzero]
    change Delimits _ (fun src => BatchRecord.decode src) _ _
    unfold BatchRecord.decode
    refine (delimits_bytes [2]).andThen ?_
    refine (delimits_varU32 h).andThen ?_
    refine (delimits_bytes key).andThen ?_
    refine (delimits_varU32 (by norm_num)).andThen ?_
    exact (delimits_bytes []).thenReturn fun src => rfl

theorem delimits_records {records : List BatchRecord} (h : ∀ record ∈ records, record.Encodable) :
    Delimits Error.IsCorruption (decodeBatchRecords records.length)
      (records.flatMap BatchRecord.encode) records := by
  induction records with
  | nil => exact Delimits.pure []
  | cons record records ih =>
    rw [List.length_cons, List.flatMap_cons]
    change Delimits _ (fun src => decodeBatchRecords (records.length + 1) src) _ _
    unfold decodeBatchRecords
    refine (delimits_record (h record (by simp))).andThen ?_
    exact (ih fun r hr => h r (by simp [hr])).thenReturn fun src => rfl

/-- The part of `decode_payload` before its check for trailing bytes. -/
def decodeBatch (payload : Bytes) : Except Error ((Nat × WriteBatch) × Bytes) := do
  let (count, src) ← getVarU32 payload
  let (startSequence, src) ← getVarU64 src
  let (records, src) ← decodeBatchRecords count src
  return ((startSequence, ⟨records⟩), src)

theorem delimits_batch {batch : WriteBatch} (h : batch.Encodable) {startSequence : Nat}
    (hseq : startSequence < 2 ^ 64) :
    Delimits Error.IsCorruption decodeBatch (batch.encodeWithSequence startSequence)
      (startSequence, batch) := by
  have hcount : asU32 batch.records.length = batch.records.length := Nat.mod_eq_of_lt h.count
  rw [WriteBatch.encodeWithSequence, hcount, List.append_assoc]
  change Delimits _ (fun src => decodeBatch src) _ _
  unfold decodeBatch
  refine (delimits_varU32 h.count).andThen ?_
  refine (delimits_varU64 hseq).andThen ?_
  exact (delimits_records h.records).thenReturn fun src => rfl

theorem decodePayload_eq (payload : Bytes) : WriteBatch.decodePayload payload = (do
    let (result, src) ← decodeBatch payload
    if !src.isEmpty then throw (.corruption "trailing batch payload bytes")
    return result) := by
  simp only [WriteBatch.decodePayload, decodeBatch, bind_assoc]
  rfl

/-- An encoded batch decodes to itself; cut short or continued, it is refused as corrupt. -/
theorem batch_payload_unambiguous {batch : WriteBatch} (h : batch.Encodable)
    {startSequence : Nat} (hseq : startSequence < 2 ^ 64) :
    WriteBatch.decodePayload (batch.encodeWithSequence startSequence) =
        .ok (startSequence, batch) ∧
      (∀ payload, payload <+: batch.encodeWithSequence startSequence →
        payload ≠ batch.encodeWithSequence startSequence →
        ∃ message, WriteBatch.decodePayload payload = .error (.corruption message)) ∧
      (∀ more, more ≠ [] → ∃ message, WriteBatch.decodePayload
        (batch.encodeWithSequence startSequence ++ more) = .error (.corruption message)) ∧
      ∀ (batch' : WriteBatch) (startSequence' : Nat), batch'.Encodable → startSequence' < 2 ^ 64 →
        batch'.encodeWithSequence startSequence' = batch.encodeWithSequence startSequence →
        (startSequence', batch') = (startSequence, batch) := by
  have hbatch := delimits_batch h hseq
  refine ⟨WriteBatch.decodePayload_encode h hseq, ?_, ?_, ?_⟩
  · intro payload hpart hne
    have hlt : payload.length < (batch.encodeWithSequence startSequence).length :=
      lt_of_le_of_ne hpart.length_le fun hlen => hne (hpart.eq_of_length hlen)
    obtain ⟨err, herr, message, rfl⟩ := hbatch.cut payload.length hlt
    rw [← List.prefix_iff_eq_take.mp hpart] at herr
    exact ⟨message, by rw [decodePayload_eq, herr]; rfl⟩
  · intro more hmore
    have hrest : more.isEmpty = false := by simpa using hmore
    refine ⟨"trailing batch payload bytes", ?_⟩
    rw [decodePayload_eq, hbatch.whole more]
    simp only [bind, Except.bind, hrest]
    rfl
  · intro batch' startSequence' h' hseq' heq
    have hdecode := WriteBatch.decodePayload_encode h' hseq'
    rw [heq, WriteBatch.decodePayload_encode h hseq] at hdecode
    exact (Except.ok.inj hdecode).symm

theorem batch_payload_unambiguous_small :
    WriteBatch.decodePayload ((⟨[.put [1] [2, 3], .delete [4]]⟩ : WriteBatch).encodeWithSequence 300) =
        .ok (300, ⟨[.put [1] [2, 3], .delete [4]]⟩) ∧
      ∃ message, WriteBatch.decodePayload
        ((⟨[.put [1] [2, 3], .delete [4]]⟩ : WriteBatch).encodeWithSequence 300 ++ [0]) =
          .error (.corruption message) := by
  have hfits : (⟨[.put [1] [2, 3], .delete [4]]⟩ : WriteBatch).Encodable := by
    refine ⟨by decide, fun record hrecord => ?_⟩
    simp only [List.mem_cons, List.not_mem_nil, or_false] at hrecord
    rcases hrecord with rfl | rfl
    · exact ⟨by decide, by decide⟩
    · exact (by decide : [4].length < 2 ^ 32)
  obtain ⟨hdecode, -, hmore, -⟩ := batch_payload_unambiguous hfits (by norm_num : 300 < 2 ^ 64)
  exact ⟨hdecode, hmore [0] (List.cons_ne_nil _ _)⟩

end TyLsm
