import ObjectLog.Proof.RoundTripObjects

/-!
# Collection plans and recovery tokens are read as they were written
-/

namespace ObjectLog

open Cbor

/-! ## Collection plans -/

theorem ImmutableKind.wire_lt (k : ImmutableKind) : k.wire < 2 ^ 8 := by cases k <;> decide

theorem candidate_length (c : CollectionCandidate) :
    c.encode.length = 75 + cborHeadLen c.bytes.toNat := by
  have hk : cborHeadLen c.key.kind.wire = 1 := by cases c.key.kind <;> rfl
  have hs : cborHeadLen 1 = 1 ∧ cborHeadLen 2 = 1 ∧ cborHeadLen 3 = 1 ∧ cborHeadLen 4 = 1 ∧
      cborHeadLen 5 = 1 ∧ cborHeadLen 16 = 1 ∧ cborHeadLen 32 = 2 := by decide
  simp only [CollectionCandidate.encode, record, List.flatMap_cons, List.flatMap_nil,
    List.length_append, List.length_cons, List.length_nil, bytes, u64, uint, head_length,
    Digest.toBytes_length, Uuid.toBytes_length, Nat.zero_add, Nat.reduceAdd, hk, hs]
  omega

theorem reads_candidate (c : CollectionCandidate) : Reads decodeCandidate c.encode c := by
  rw [show c.encode = head 5 5 ++ (uint 1 ++ (bytes (Uuid.toBytes c.key.incarnation) ++
    (uint 2 ++ (uint c.key.kind.wire ++ (uint 3 ++
    (bytes (Uuid.toBytes c.key.storageId.uuid) ++ (uint 4 ++ (bytes c.key.digest.toBytes ++
    (uint 5 ++ u64 c.bytes))))))))) by simp [CollectionCandidate.encode, record]]
  refine (reads_exactMap (by omega)).bind ((reads_valid rfl).nil_bind ?_)
  refine (reads_field (by omega)).bind ?_
  refine (reads_exact (reads_id _)).bind ?_
  refine (reads_lift (uuidOf_toBytes _ _)).nil_bind ?_
  refine (reads_field (by omega)).bind ?_
  refine (reads_exact (reads_uint c.key.kind.wire_lt (by omega))).bind ?_
  have key : Reads (do
      Dec.field 3
      let storageId ← storageIdOf (← Dec.exactBytes)
      Dec.field 4
      let digest ← digestOf (← Dec.exactBytes)
      Dec.field 5
      let bytes ← Dec.exactU64
      return { key := { incarnation := c.key.incarnation, kind := c.key.kind, storageId, digest },
               bytes } : Dec CollectionCandidate)
      (uint 3 ++ (bytes (Uuid.toBytes c.key.storageId.uuid) ++ (uint 4 ++
        (bytes c.key.digest.toBytes ++ (uint 5 ++ u64 c.bytes))))) c := by
    refine (reads_field (by omega)).bind ?_
    refine (reads_exact (reads_id _)).bind ?_
    refine (reads_lift (storageIdOf_toBytes _)).nil_bind ?_
    refine (reads_field (by omega)).bind ?_
    refine (reads_exact (reads_digest _)).bind ?_
    refine (reads_lift (digestOf_toBytes _)).nil_bind ?_
    refine (reads_field (by omega)).bind ?_
    exact (reads_exact (reads_u64 _)).bind_pure (Reads.pure _)
  cases hk : c.key.kind <;> (rw [hk] at key; exact key)

theorem readsAll_collectionPayload {plan : CollectionPlan} {options : Options}
    (h : plan.validate options = .ok ()) :
    ReadsAll (decodeCollectionPayload options) plan.wire plan := by
  have hcount : plan.candidates.length ≤ options.maxCollectionObjects.toNat := by
    simp only [CollectionPlan.validate, bind_ok, ensure_ok, exists_const] at h
    exact h.2.2.1
  have hn : plan.candidates.length < 2 ^ 64 := lt_of_le_of_lt hcount (UInt64.toNat_lt _)
  have hroom : plan.candidates.length ≤
      ((plan.candidates.map CollectionCandidate.encode).flatten).length / 76 := by
    rw [Nat.le_div_iff_mul_le (by omega)]
    have := flatten_length_ge (plan.candidates.map CollectionCandidate.encode) (n := 76)
      (by
        intro v hv
        obtain ⟨c, -, rfl⟩ := List.mem_map.1 hv
        have := cborHeadLen_pos c.bytes.toNat
        rw [candidate_length]
        omega)
    simpa using this
  rw [show plan.wire = head 5 4 ++ (uint 1 ++ (uint formatVersion ++ (uint 2 ++
    (text plan.logId.value ++ (uint 3 ++ (u64 plan.collectionEpoch ++ (uint 4 ++
    (head 4 plan.candidates.length ++
      (plan.candidates.map CollectionCandidate.encode).flatten))))))))
    by simp [CollectionPlan.wire, record, array]]
  refine (reads_exactMap (by omega)).bind_all ((reads_valid rfl).nil_bind_all ?_)
  refine (reads_field (by omega)).bind_all ?_
  refine (reads_exact reads_version).bind_all ((reads_check rfl).nil_bind_all ?_)
  refine (reads_field (by omega)).bind_all ?_
  refine (reads_exact (reads_logId _)).bind_all ((reads_check plan.logId.length_le).nil_bind_all ?_)
  refine (reads_lift (LogId.new_value _)).nil_bind_all ?_
  refine (reads_field (by omega)).bind_all ?_
  refine (reads_exact (reads_u64 _)).bind_all ?_
  refine (reads_field (by omega)).bind_all ?_
  refine (reads_exactArray hn).bind_all ((reads_check hcount).nil_bind_all ?_)
  refine readsAll_remaining (fun n => plan.candidates.length ≤ n / 76) hroom ?_
  have hread : Reads (decTimes decodeCandidate plan.candidates.length) _ plan.candidates :=
    reads_decTimes fun c _ => reads_candidate c
  rw [← List.append_nil (plan.candidates.map CollectionCandidate.encode).flatten]
  refine hread.bind_all (readsAll_finished.bind ?_)
  exact ((reads_lift h).nil_bind (Reads.pure plan)).all

section

variable [Blake3]

/-- **What `encode_collection_plan` writes, `decode_collection_plan` reads.** -/
theorem decodeCollectionPlan_encodeCollectionPlan {plan : CollectionPlan} {options : Options}
    {encoded : Bytes} (h : encodeCollectionPlan plan options = .ok encoded) :
    decodeCollectionPlan encoded options = .ok plan := by
  simp only [encodeCollectionPlan, bind_ok, ensure_ok, exists_const, pure, Except.pure,
    Except.ok.injEq] at h
  obtain ⟨⟨⟩, hv, hmax, rfl⟩ := h
  have hlen : plan.wire.length < 2 ^ 64 :=
    (encodeEnvelope_length _).trans (lt_of_le_of_lt hmax (UInt64.toNat_lt _))
  refine bind_ok.2 ⟨(), ensure_ok.2 hmax, ?_⟩
  refine bind_ok.2 ⟨_, decodeBorrowedEnvelope_encode hlen, ?_⟩
  exact Dec.run_eq (readsAll_collectionPayload hv)

end

/-! ## Recovery tokens -/

theorem textBytes_utf8 (s : String) :
    (ByteArray.mk (textBytes s).toArray).validateUTF8 = true := by
  rw [ByteArray.validateUTF8_eq_true_iff]
  exact s.isValidUTF8

@[simp] theorem textOf_textBytes (s : String) : textOf (textBytes s) = .ok s := by
  have h : String.fromUTF8? (ByteArray.mk (textBytes s).toArray) = some s := by
    change String.fromUTF8? s.toUTF8 = some s
    have hv : s.toUTF8.IsValidUTF8 := s.isValidUTF8
    simp only [String.fromUTF8?, hv, dif_pos]
    rfl
  rw [textOf, h]
  rfl

theorem reads_textBytes {s : String} (h : (textBytes s).length < 2 ^ 64) :
    Reads (Reader.nullable Reader.text) (text (textBytes s)) (some (textBytes s)) :=
  reads_nullable (reads_text h (textBytes_utf8 s)) (head_ne_null (by omega) _ _)

theorem reads_token {t : RecoveryToken} (h : t.toWire.encode.length < 2 ^ 64) :
    Reads RecoveryTokenWire.read t.toWire.encode t.toWire := by
  have hop : t.operation.length < 2 ^ 64 :=
    ((length_le_bytes _).trans
      (length_le_record (k := 6) (by simp [RecoveryToken.toWire]))).trans_lt h
  have hres : t.result.length < 2 ^ 64 :=
    ((length_le_bytes _).trans
      (length_le_record (k := 7) (by simp [RecoveryToken.toWire]))).trans_lt h
  have hobj : t.objects.length < 2 ^ 64 :=
    ((objectRefs_length _).trans
      (length_le_record (k := 8) (by simp [RecoveryToken.toWire]))).trans_lt h
  have htag : ∀ s, t.version.eTag = some s → (textBytes s).length < 2 ^ 64 := fun s hs =>
    ((length_le_text _).trans
      (length_le_record (k := 3) (by simp [RecoveryToken.toWire, Cbor.optional, hs]))).trans_lt h
  have hver : ∀ s, t.version.version = some s → (textBytes s).length < 2 ^ 64 := fun s hs =>
    ((length_le_text _).trans
      (length_le_record (k := 4) (by simp [RecoveryToken.toWire, Cbor.optional, hs]))).trans_lt h
  refine reads_struct ?_ ?_ (by simp)
  · have h3 := optional_length_le 3 (t.toWire.eTag.map text)
    have h4 := optional_length_le 4 (t.toWire.storageVersion.map text)
    have h13 := optional_length_le 13 (t.toWire.tip.map bytes)
    simp only [List.length_append, List.length_cons, List.length_nil]
    omega
  simp only [List.append_assoc, List.cons_append, List.nil_append]
  refine Fills.cons (by omega) rfl (reads_version.set _) ?_
  refine Fills.cons (by omega) rfl ((reads_digest _).set _) ?_
  refine Fills.optional (fun tag => RecoveryTokenWire.mk formatVersion t.headDigest.toBytes tag
    none [] [] [] [] [] [] 0 0 none [] [] []) (by omega) rfl ?_ ?_
  · intro w hw
    obtain ⟨s, hs, rfl⟩ := Option.map_eq_some_iff.1 hw
    exact ⟨_, rfl, (reads_textBytes (htag s hs)).set _⟩
  refine Fills.optional (fun version => RecoveryTokenWire.mk formatVersion t.headDigest.toBytes
    (t.version.eTag.map textBytes) version [] [] [] [] [] [] 0 0 none [] [] []) (by omega) rfl ?_ ?_
  · intro w hw
    obtain ⟨s, hs, rfl⟩ := Option.map_eq_some_iff.1 hw
    exact ⟨_, rfl, (reads_textBytes (hver s hs)).set _⟩
  refine Fills.cons (by omega) rfl ((reads_id _).set _) ?_
  refine Fills.cons (by omega) rfl ((reads_bytes hop).set _) ?_
  refine Fills.cons (by omega) rfl ((reads_bytes hres).set _) ?_
  refine Fills.cons (by omega) rfl ((reads_objectRefs hobj).set _) ?_
  dsimp only
  refine Fills.cons (by omega) rfl ((reads_id _).set _) ?_
  refine Fills.cons (by omega) rfl ((reads_digest _).set _) ?_
  refine Fills.cons (by omega) rfl ((reads_u64 _).set _) ?_
  refine Fills.cons (by omega) rfl ((reads_u64 _).set _) ?_
  dsimp only
  refine Fills.optional (fun tip => RecoveryTokenWire.mk formatVersion t.headDigest.toBytes
    (t.version.eTag.map textBytes) (t.version.version.map textBytes)
    (Uuid.toBytes t.transactionId.uuid) t.operation t.result (t.objects.map ObjectRef.toWire)
    (Uuid.toBytes t.storageId.uuid) t.publicationBaseDigest.toBytes t.generation t.nextSequence
    tip [] [] []) (by omega) rfl ?_ ?_
  · intro w hw
    obtain ⟨d, -, rfl⟩ := Option.map_eq_some_iff.1 hw
    exact ⟨_, rfl, (reads_nullable (reads_digest d) (head_ne_null (by omega) _ _)).set _⟩
  refine Fills.cons (by omega) rfl ((reads_logId _).set _) ?_
  refine Fills.cons (by omega) rfl ((reads_id _).set _) ?_
  refine Fills.cons (by omega) rfl ((reads_digest _).set _) ?_
  exact Fills.nil _

theorem RecoveryToken.ofWire_toWire {t : RecoveryToken} (h : ∀ r ∈ t.objects, r.Counted) :
    RecoveryToken.ofWire t.toWire = .ok t := by
  obtain ⟨hd, pb, ⟨eTag, version⟩, gen, next, tip, logId, inc, od, tid, op, res, objs, sid⟩ := t
  have h1 : ∀ x : Option String, (x.map textBytes).mapM textOf = .ok x :=
    fun x => option_mapM_toWire _ _ fun s _ => textOf_textBytes s
  have h2 : (tip.map Digest.toBytes).mapM digestOf = .ok tip :=
    option_mapM_toWire _ _ fun d _ => digestOf_toBytes d
  simp only [RecoveryToken.ofWire, RecoveryToken.toWire, LogId.new_value, uuidOf_toBytes,
    digestOf_toBytes, transactionIdOf_toBytes, storageIdOf_toBytes, objectRefs_ofWire h, h1, h2,
    bind, Except.bind, pure, Except.pure]

section

variable [Blake3]

theorem decodeEnvelope_encode {payload : Bytes} (h : payload.length < 2 ^ 64) :
    decodeEnvelope (encodeEnvelope payload) = .ok payload := by
  have hread : Reads (Reader.struct [1, 2] EnvelopeWire.step ⟨[], []⟩) (encodeEnvelope payload)
      ⟨payload, (Digest.of payload).toBytes⟩ := by
    refine reads_struct (by simp) ?_ (by simp)
    refine Fills.cons (by omega) rfl ((reads_bytes h).set _) ?_
    refine Fills.cons (by omega) rfl ((reads_digest _).set _) ?_
    exact Fills.nil _
  refine bind_ok.2 ⟨_, decodeExact_eq hread, ?_⟩
  refine bind_ok.2 ⟨_, digestOf_toBytes _, ?_⟩
  exact bind_ok.2 ⟨(), ensure_ok.2 rfl, rfl⟩

/-- **What `RecoveryToken::encode` writes, `decode_recovery_token` reads**, as far as its
source position is one a head has. -/
theorem decodeRecoveryToken_encode {t : RecoveryToken} (hc : ∀ r ∈ t.objects, r.Counted)
    (hpos : t.nextSequence ≤ t.generation ∧ t.tip.isSome = decide (0 < t.nextSequence))
    (hlen : t.encode.length < 2 ^ 64) : decodeRecoveryToken t.encode = .ok t := by
  have hp : t.toWire.encode.length < 2 ^ 64 := (encodeEnvelope_length _).trans hlen
  refine bind_ok.2 ⟨_, decodeEnvelope_encode hp, ?_⟩
  refine bind_ok.2 ⟨_, decodeExact_eq (reads_token hp), ?_⟩
  refine bind_ok.2 ⟨(), ensure_ok.2 rfl, ?_⟩
  refine bind_ok.2 ⟨_, RecoveryToken.ofWire_toWire hc, ?_⟩
  refine bind_ok.2 ⟨(), ensure_ok.2 hpos, ?_⟩
  exact bind_ok.2 ⟨(), ensure_ok.2 rfl, rfl⟩

end

end ObjectLog
