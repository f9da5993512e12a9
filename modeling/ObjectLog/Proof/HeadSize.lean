import ObjectLog.Proof.Canonical
import ObjectLog.Proof.HeadChange

/-!
# How large a head can get

Every part of a head has a largest encoding, so the limits on the lists of a head bound the
bytes of the whole.
-/

namespace ObjectLog

open Cbor

theorem cborHeadLen_le (n : Nat) : cborHeadLen n ≤ 9 := by
  unfold cborHeadLen
  split_ifs <;> omega

theorem cborHeadLen_small {n : Nat} (h : n ≤ 0xff) : cborHeadLen n ≤ 2 := by
  unfold cborHeadLen
  split_ifs <;> omega

theorem record_length (fields : List (Nat × List UInt8)) : (record fields).length =
    cborHeadLen fields.length + (fields.map fun f => cborHeadLen f.1 + f.2.length).sum := by
  have hsum : (fields.flatMap fun f => uint f.1 ++ f.2).length =
      (fields.map fun f => cborHeadLen f.1 + f.2.length).sum := by
    induction fields with
    | nil => rfl
    | cons f fields ih =>
        rw [List.flatMap_cons, List.length_append, ih, List.map_cons, List.sum_cons,
          List.length_append, uint, head_length]
  rw [record, List.length_append, head_length, hsum]

theorem u64_length_le (x : UInt64) : (u64 x).length ≤ 9 := by
  rw [u64, uint, head_length]
  exact cborHeadLen_le _

theorem uuid_length (u : Uuid) : (bytes (Uuid.toBytes u)).length = 17 := by
  have h16 : cborHeadLen 16 = 1 := by decide
  rw [bytes, List.length_append, head_length, Uuid.toBytes_length, h16]

theorem digest_length (d : Digest) : (bytes d.toBytes).length = 34 := by
  have h32 : cborHeadLen 32 = 2 := by decide
  rw [bytes, List.length_append, head_length, Digest.toBytes_length, h32]

theorem array_length_le (items : List Bytes) (n : Nat) (h : ∀ v ∈ items, v.length ≤ n) :
    (array items).length ≤ 9 + n * items.length := by
  have hflat : items.flatten.length ≤ n * items.length := by
    induction items with
    | nil => simp
    | cons v items ih =>
        have hv := h v (by simp)
        have hrest := ih fun w hw => h w (by simp [hw])
        rw [List.flatten_cons, List.length_append, List.length_cons, Nat.mul_succ]
        omega
  have hhead := cborHeadLen_le items.length
  rw [array, List.length_append, head_length]
  omega

/-- The field numbers of the format are written in one byte. -/
theorem fieldNumber_length : cborHeadLen 1 = 1 ∧ cborHeadLen 2 = 1 ∧ cborHeadLen 3 = 1 ∧
    cborHeadLen 4 = 1 ∧ cborHeadLen 5 = 1 ∧ cborHeadLen 6 = 1 ∧ cborHeadLen 7 = 1 ∧
    cborHeadLen 8 = 1 ∧ cborHeadLen 9 = 1 ∧ cborHeadLen 10 = 1 ∧ cborHeadLen 11 = 1 ∧
    cborHeadLen 12 = 1 := by decide

theorem commitRef_length_le (c : CommitRef) : c.toWire.encode.length ≤ 92 := by
  have hs := u64_length_le c.sequence
  have hl := u64_length_le c.len
  rw [CommitRefWire.encode, record_length]
  simp only [CommitRef.toWire, List.map_cons, List.map_nil, List.sum_cons, List.sum_nil,
    List.length_cons, List.length_nil, Nat.zero_add, Nat.reduceAdd, fieldNumber_length,
    uuid_length, digest_length]
  omega

theorem objectRef_length_le (r : ObjectRef) : r.toWire.encode.length ≤ 76 := by
  have hl := cborHeadLen_le r.len.toNat
  have hs := cborHeadLen_le r.subtreeObjects.toNat
  rw [child_length]
  omega

theorem checkpointRef_length_le (c : CheckpointRef) : c.toWire.encode.length ≤ 123 := by
  have hs := u64_length_le c.throughSequence
  have ho := objectRef_length_le c.object
  rw [CheckpointRefWire.encode, record_length]
  simp only [CheckpointRef.toWire, Option.map_some, Cbor.optional, List.cons_append,
    List.nil_append, List.map_cons, List.map_nil, List.sum_cons, List.sum_nil, List.length_cons,
    List.length_nil, Nat.zero_add, Nat.reduceAdd, fieldNumber_length, digest_length]
  omega

theorem planRef_length_le (p : CollectionPlanRef) : p.toWire.encode.length ≤ 64 := by
  have hl := u64_length_le p.len
  rw [CollectionPlanRefWire.encode, record_length]
  simp only [CollectionPlanRef.toWire, List.map_cons, List.map_nil, List.sum_cons, List.sum_nil,
    List.length_cons, List.length_nil, Nat.zero_add, Nat.reduceAdd, fieldNumber_length,
    uuid_length, digest_length]
  omega

theorem options_length_le (o : Options) : o.encode.length ≤ 121 := by
  have h1 := u64_length_le o.maxTailEntries
  have h2 := u64_length_le o.resolutionWindow
  have h3 := u64_length_le o.maxInlineOperationBytes
  have h4 := u64_length_le o.maxInlineResultBytes
  have h5 := u64_length_le o.maxObjectRefs
  have h6 := u64_length_le o.maxCommitBytes
  have h7 := u64_length_le o.maxHeadBytes
  have h8 := u64_length_le o.maxCheckpointBytes
  have h9 := u64_length_le o.maxObjectBytes
  have h10 := u64_length_le o.maxRetentionIds
  have h11 := u64_length_le o.maxCollectionObjects
  have h12 := u64_length_le o.maxCollectionPlanBytes
  rw [Options.encode, record_length]
  simp only [List.map_cons, List.map_nil, List.sum_cons, List.sum_nil, List.length_cons,
    List.length_nil, Nat.zero_add, Nat.reduceAdd, fieldNumber_length]
  omega

theorem logId_length_le (l : LogId) : (text l.value).length ≤ 130 := by
  have hlen := l.length_le
  rw [maxLogIdLen] at hlen
  have hhead := cborHeadLen_small (n := l.value.length) (by omega)
  rw [text, List.length_append, head_length]
  omega

theorem commitRefs_length_le (cs : List CommitRef) :
    (array ((cs.map CommitRef.toWire).map CommitRefWire.encode)).length ≤ 9 + 92 * cs.length := by
  have h := array_length_le ((cs.map CommitRef.toWire).map CommitRefWire.encode) 92
  simp only [List.length_map] at h
  refine h fun v hv => ?_
  simp only [List.map_map, List.mem_map, Function.comp] at hv
  obtain ⟨c, -, rfl⟩ := hv
  exact commitRef_length_le c

theorem retentionIds_length_le (ids : Finset RetentionId) :
    (array (((ascending ids).map fun id => Uuid.toBytes id.uuid).map bytes)).length ≤
      9 + 17 * ids.card := by
  have h := array_length_le (((ascending ids).map fun id => Uuid.toBytes id.uuid).map bytes) 17
  simp only [List.length_map, ascending_eq_sort, Finset.length_sort] at h ⊢
  refine h fun v hv => ?_
  simp only [List.map_map, List.mem_map, Function.comp] at hv
  obtain ⟨id, -, rfl⟩ := hv
  rw [uuid_length]

/-- An optional field of a head, with its number. -/
theorem optional_sum_le {τ : Type} (k n : Nat) (x : Option τ) (encode : τ → Bytes)
    (hk : cborHeadLen k = 1) (h : ∀ a, (encode a).length ≤ n) :
    ((Cbor.optional k (x.map encode)).map fun f => cborHeadLen f.1 + f.2.length).sum ≤ n + 1 := by
  cases x with
  | none => simp [Cbor.optional]
  | some a =>
      have ha := h a
      simp only [Option.map_some, Cbor.optional, List.map_cons, List.map_nil, List.sum_cons,
        List.sum_nil, hk]
      omega

/-- A head has at most twelve fields, so their number is written in one byte. -/
theorem headWire_fields_length (w : HeadWire) : cborHeadLen
    ([(1, uint w.formatVersion), (2, text w.logId), (3, u64 w.generation),
      (4, u64 w.nextSequence)] ++
    Cbor.optional 5 (w.checkpoint.map CheckpointRefWire.encode) ++
    [(6, array (w.tail.map CommitRefWire.encode)),
      (7, array (w.recentOutcomes.map CommitRefWire.encode)), (8, bytes w.incarnation),
      (9, w.options.encode), (10, u64 w.collectionEpoch)] ++
    Cbor.optional 11 (w.activePlan.map CollectionPlanRefWire.encode) ++
    [(12, array (w.retentionIds.map bytes))]).length = 1 := by
  have h5 := optional_length_le 5 (w.checkpoint.map CheckpointRefWire.encode)
  have h11 := optional_length_le 11 (w.activePlan.map CollectionPlanRefWire.encode)
  simp only [List.length_append, List.length_cons, List.length_nil]
  unfold cborHeadLen
  rw [if_pos (by omega)]

/-- The bytes of a head besides its lists. -/
def headOverhead : Nat := 569

/-- **The bytes of a head**, by the number of its commits and retentions. -/
theorem encodeHead_length_le [Blake3] {h : Head} {encoded : Bytes}
    (he : encodeHead h = .ok encoded) : encoded.length ≤
      headOverhead + 92 * (h.tail.length + h.recentOutcomes.length) + 17 * h.retentionIds.card := by
  obtain ⟨_, -, he⟩ := bind_ok.1 he
  obtain rfl := Except.ok.inj he
  have h2 := logId_length_le h.logId
  have h3 := u64_length_le h.generation
  have h4 := u64_length_le h.nextSequence
  have h5 := optional_sum_le 5 123 h.checkpoint (fun c => c.toWire.encode) (by decide)
    checkpointRef_length_le
  have h6 := commitRefs_length_le h.tail
  have h7 := commitRefs_length_le h.recentOutcomes
  have h9 := options_length_le h.options
  have h10 := u64_length_le h.collectionEpoch
  have h11 := optional_sum_le 11 64 h.activePlan (fun p => p.toWire.encode) (by decide)
    planRef_length_le
  have h12 := retentionIds_length_le h.retentionIds
  have h8 := uuid_length h.incarnation
  have henv := cborHeadLen_le h.toWire.encode.length
  have hpayload : h.toWire.encode.length ≤ 523 +
      92 * (h.tail.length + h.recentOutcomes.length) + 17 * h.retentionIds.card := by
    have hmap := headWire_fields_length h.toWire
    have hversion : (uint formatVersion).length = 1 := by decide
    rw [HeadWire.encode, record_length]
    simp only [List.map_append, List.sum_append, List.map_cons, List.map_nil, List.sum_cons,
      List.sum_nil, Head.toWire, Option.map_map, fieldNumber_length, hversion] at hmap ⊢
    simp only [Function.comp_def] at hmap ⊢
    omega
  rw [envelope_length]
  unfold headOverhead
  omega

/-! ## Commits and plans -/

theorem bytes_length_le (value : Bytes) : (bytes value).length ≤ 9 + value.length := by
  have hhead := cborHeadLen_le value.length
  rw [bytes, List.length_append, head_length]
  omega

theorem objectRefs_length_le (refs : List ObjectRef) :
    (array ((refs.map ObjectRef.toWire).map ObjectRefWire.encode)).length ≤
      9 + 76 * refs.length := by
  have hitems := array_length_le ((refs.map ObjectRef.toWire).map ObjectRefWire.encode) 76 ?_
  · simpa using hitems
  · intro v hv
    obtain ⟨w, hw, rfl⟩ := List.mem_map.1 hv
    obtain ⟨r, -, rfl⟩ := List.mem_map.1 hw
    exact objectRef_length_le r

/-- The bytes of a commit besides its contents. -/
def commitOverhead : Nat := 281

/-- **The bytes of a commit**, by the length of its contents. -/
theorem encodeCommit_length_le [Blake3] (c : Commit) : (encodeCommit c).length ≤
    commitOverhead + c.operation.length + c.result.length + 76 * c.objects.length := by
  have h2 := logId_length_le c.logId
  have h3 := uuid_length c.transactionId.uuid
  have h4 := optional_sum_le 4 34 c.expectedTip (fun d => bytes d.toBytes) (by decide)
    fun d => (digest_length d).le
  have h5 := bytes_length_le c.operation
  have h6 := bytes_length_le c.result
  have h7 := objectRefs_length_le c.objects
  have h8 := uuid_length c.incarnation
  have henv := cborHeadLen_le c.toWire.encode.length
  have hpayload : c.toWire.encode.length ≤ 235 + c.operation.length + c.result.length +
      76 * c.objects.length := by
    have hversion : (uint formatVersion).length = 1 := by decide
    have hmap : cborHeadLen ([(1, uint c.toWire.formatVersion), (2, text c.toWire.logId),
          (3, bytes c.toWire.transactionId)] ++
        Cbor.optional 4 (c.toWire.expectedTip.map bytes) ++
        [(5, bytes c.toWire.operation), (6, bytes c.toWire.result),
          (7, array (c.toWire.objects.map ObjectRefWire.encode)),
          (8, bytes c.toWire.incarnation)]).length = 1 := by
      have hopt := optional_length_le 4 (c.toWire.expectedTip.map bytes)
      simp only [List.length_append, List.length_cons, List.length_nil]
      unfold cborHeadLen
      rw [if_pos (by omega)]
    rw [CommitWire.encode, record_length]
    simp only [List.map_append, List.sum_append, List.map_cons, List.map_nil, List.sum_cons,
      List.sum_nil, Commit.toWire, Option.map_map, fieldNumber_length, hversion] at hmap ⊢
    simp only [Function.comp_def] at hmap ⊢
    omega
  rw [encodeCommit, envelope_length]
  unfold commitOverhead
  omega

theorem candidate_length_le (c : CollectionCandidate) : c.encode.length ≤ 84 := by
  have := cborHeadLen_le c.bytes.toNat
  rw [candidate_length]
  omega

/-- The bytes of a plan besides its candidates. -/
def planOverhead : Nat := 200

/-- **The bytes of a plan**, by the number of its candidates. -/
theorem planWire_length_le [Blake3] (plan : CollectionPlan) :
    (encodeEnvelope plan.wire).length ≤ planOverhead + 84 * plan.candidates.length := by
  have h2 := logId_length_le plan.logId
  have h3 := u64_length_le plan.collectionEpoch
  have h4 := array_length_le (plan.candidates.map CollectionCandidate.encode) 84 ?_
  swap
  · intro v hv
    obtain ⟨c, -, rfl⟩ := List.mem_map.1 hv
    exact candidate_length_le c
  have henv := cborHeadLen_le plan.wire.length
  have hwire : plan.wire.length ≤ 154 + 84 * plan.candidates.length := by
    have hversion : (uint formatVersion).length = 1 := by decide
    rw [List.length_map] at h4
    rw [CollectionPlan.wire, record_length]
    simp only [List.map_cons, List.map_nil, List.sum_cons, List.sum_nil, List.length_cons,
      List.length_nil, fieldNumber_length, hversion, Nat.zero_add, Nat.reduceAdd]
    omega
  rw [envelope_length]
  unfold planOverhead
  omega

end ObjectLog
