import ObjectLog.Proof.NodeSize

/-!
# Immutable objects and tokens are decoded as they were encoded
-/

namespace ObjectLog

open Cbor

/-! ## Lists of references -/

theorem reads_objectRefs {refs : List ObjectRef} (h : refs.length < 2 ^ 64) :
    Reads (Reader.list ObjectRefWire.read)
      (array ((refs.map ObjectRef.toWire).map ObjectRefWire.encode))
      (refs.map ObjectRef.toWire) := by
  refine reads_list (by simpa using h) fun w hw => ?_
  obtain ⟨r, -, rfl⟩ := List.mem_map.1 hw
  exact reads_objectRef r

theorem objectRefs_length (refs : List ObjectRef) :
    refs.length ≤ (array ((refs.map ObjectRef.toWire).map ObjectRefWire.encode)).length := by
  refine (le_of_eq ?_).trans (length_le_array fun v hv => ?_)
  · simp
  · obtain ⟨w, -, rfl⟩ := List.mem_map.1 hv
    exact record_length_pos _

theorem objectRefs_ofWire {refs : List ObjectRef} (h : ∀ r ∈ refs, r.Counted) :
    (refs.map ObjectRef.toWire).mapM ObjectRef.ofWire = .ok refs :=
  mapM_toWire _ _ fun r hr => ObjectRef.ofWire_toWire (h r hr)

/-! ## Commits -/

theorem reads_commit {c : Commit} (h : c.toWire.encode.length < 2 ^ 64) :
    Reads CommitWire.read c.toWire.encode c.toWire := by
  have hop : c.operation.length < 2 ^ 64 :=
    ((length_le_bytes _).trans (length_le_record (k := 5) (by simp [Commit.toWire]))).trans_lt h
  have hres : c.result.length < 2 ^ 64 :=
    ((length_le_bytes _).trans (length_le_record (k := 6) (by simp [Commit.toWire]))).trans_lt h
  have hobj : c.objects.length < 2 ^ 64 :=
    ((objectRefs_length _).trans (length_le_record (k := 7) (by simp [Commit.toWire]))).trans_lt h
  refine reads_struct ?_ ?_ (by simp)
  · have := optional_length_le 4 (c.toWire.expectedTip.map bytes)
    simp only [List.length_append, List.length_cons, List.length_nil]
    omega
  simp only [List.cons_append, List.nil_append]
  refine Fills.cons (by omega) rfl (reads_version.set _) ?_
  refine Fills.cons (by omega) rfl ((reads_logId _).set _) ?_
  refine Fills.cons (by omega) rfl ((reads_id _).set _) ?_
  refine Fills.optional (fun tip => CommitWire.mk formatVersion c.logId.value
    (Uuid.toBytes c.transactionId.uuid) tip [] [] [] []) (by omega) rfl ?_ ?_
  · intro w hw
    obtain ⟨d, -, rfl⟩ := Option.map_eq_some_iff.1 hw
    exact ⟨_, rfl, (reads_nullable (reads_digest d) (head_ne_null (by omega) _ _)).set _⟩
  refine Fills.cons (by omega) rfl ((reads_bytes hop).set _) ?_
  refine Fills.cons (by omega) rfl ((reads_bytes hres).set _) ?_
  refine Fills.cons (by omega) rfl ((reads_objectRefs hobj).set _) ?_
  refine Fills.cons (by omega) rfl ((reads_id _).set _) ?_
  exact Fills.nil _

theorem Commit.ofWire_toWire {c : Commit} (h : ∀ r ∈ c.objects, r.Counted) :
    Commit.ofWire c.toWire = .ok c := by
  have h1 : (c.expectedTip.map Digest.toBytes).mapM digestOf = .ok c.expectedTip :=
    option_mapM_toWire _ _ fun d _ => digestOf_toBytes d
  simp only [Commit.ofWire, Commit.toWire, LogId.new_value, uuidOf_toBytes,
    transactionIdOf_toBytes, h1, objectRefs_ofWire h, bind, Except.bind, pure, Except.pure]

section

variable [Blake3]

/-- **What `encode_commit` writes, `decode_commit` reads.** -/
theorem decodeCommit_encodeCommit {c : Commit} (hc : ∀ r ∈ c.objects, r.Counted)
    (hlen : (encodeCommit c).length < 2 ^ 64) : decodeCommit (encodeCommit c) = .ok c := by
  have hp : c.toWire.encode.length < 2 ^ 64 := (encodeEnvelope_length _).trans hlen
  refine bind_ok.2 ⟨_, decodeBorrowedEnvelope_encode hp, ?_⟩
  refine bind_ok.2 ⟨_, decodeExact_eq (reads_commit hp), ?_⟩
  refine bind_ok.2 ⟨(), ensure_ok.2 rfl, ?_⟩
  refine bind_ok.2 ⟨_, Commit.ofWire_toWire hc, ?_⟩
  exact bind_ok.2 ⟨(), ensure_ok.2 rfl, rfl⟩

end

/-! ## Checkpoints -/

theorem reads_checkpoint {c : Checkpoint} (h : c.toWire.encode.length < 2 ^ 64) :
    Reads CheckpointWire.read c.toWire.encode c.toWire := by
  have hsnap : c.snapshot.length < 2 ^ 64 :=
    ((length_le_bytes _).trans
      (length_le_record (k := 5) (by simp [Checkpoint.toWire]))).trans_lt h
  have hobj : c.objects.length < 2 ^ 64 :=
    ((objectRefs_length _).trans
      (length_le_record (k := 7) (by simp [Checkpoint.toWire]))).trans_lt h
  refine reads_struct (by simp) ?_ (by simp)
  refine Fills.cons (by omega) rfl (reads_version.set _) ?_
  refine Fills.cons (by omega) rfl ((reads_logId _).set _) ?_
  refine Fills.cons (by omega) rfl ((reads_u64 _).set _) ?_
  refine Fills.cons (by omega) rfl ((reads_digest _).set _) ?_
  refine Fills.cons (by omega) rfl ((reads_bytes hsnap).set _) ?_
  refine Fills.cons (by omega) rfl ((reads_id _).set _) ?_
  refine Fills.cons (by omega) rfl ((reads_objectRefs hobj).set _) ?_
  exact Fills.nil _

theorem Checkpoint.ofWire_toWire {c : Checkpoint} (h : ∀ r ∈ c.objects, r.Counted) :
    Checkpoint.ofWire c.toWire = .ok c := by
  simp only [Checkpoint.ofWire, Checkpoint.toWire, LogId.new_value, uuidOf_toBytes,
    digestOf_toBytes, objectRefs_ofWire h, bind, Except.bind, pure, Except.pure]

section

variable [Blake3]

/-- **What `encode_checkpoint` writes, `decode_checkpoint` reads.** -/
theorem decodeCheckpoint_encodeCheckpoint {c : Checkpoint} (hc : ∀ r ∈ c.objects, r.Counted)
    (hlen : (encodeCheckpoint c).length < 2 ^ 64) :
    decodeCheckpoint (encodeCheckpoint c) = .ok c := by
  have hp : c.toWire.encode.length < 2 ^ 64 := (encodeEnvelope_length _).trans hlen
  refine bind_ok.2 ⟨_, decodeBorrowedEnvelope_encode hp, ?_⟩
  refine bind_ok.2 ⟨_, decodeExact_eq (reads_checkpoint hp), ?_⟩
  refine bind_ok.2 ⟨(), ensure_ok.2 rfl, ?_⟩
  refine bind_ok.2 ⟨_, Checkpoint.ofWire_toWire hc, ?_⟩
  exact bind_ok.2 ⟨(), ensure_ok.2 rfl, rfl⟩

end

/-! ## Nodes -/

/-- A child a node may have: its kind, its count and its length pass the decoder. -/
structure ObjectRef.ChildOk (r : ObjectRef) (options : Options) : Prop where
  kind : r.kind ≠ .checkpoint
  counted : r.Counted
  len : r.len ≤ options.maxObjectBytes

theorem reads_child {r : ObjectRef} {options : Options} (h : r.ChildOk options) :
    Reads (decodeChild options) r.toWire.encode r := by
  obtain ⟨hkind, hcount, hlen⟩ := h
  rw [show r.toWire.encode = head 5 5 ++ (uint 1 ++ (uint r.kind.wire ++ (uint 2 ++
    (bytes r.digest.toBytes ++ (uint 3 ++ (u64 r.len ++ (uint 4 ++
    (bytes (Uuid.toBytes r.storageId.uuid) ++ (uint 5 ++ u64 r.subtreeObjects)))))))))
    by simp [ObjectRefWire.encode, ObjectRef.toWire, record]]
  refine (reads_exactMap (by omega)).bind ((reads_valid rfl).nil_bind ?_)
  refine (reads_field (by omega)).bind ?_
  refine (reads_exact (reads_uint r.kind.wire_lt (by omega))).bind ?_
  -- the kind on the wire is that of a blob or a node
  have key : Reads (do
      Dec.field 2
      let digestBytes ← Dec.exactBytes
      Dec.field 3
      let len ← Dec.exactU64
      ensure (len ≤ options.maxObjectBytes) (.limitExceeded "object bytes")
      Dec.field 4
      let storageIdBytes ← Dec.exactBytes
      Dec.field 5
      let subtreeObjects ← Dec.exactU64
      let storageId ← storageIdOf storageIdBytes
      let digest ← digestOf digestBytes
      let child : ObjectRef := { kind := r.kind, storageId, digest, len, subtreeObjects }
      child.validateCount
      return child : Dec ObjectRef)
      (uint 2 ++ (bytes r.digest.toBytes ++ (uint 3 ++ (u64 r.len ++ (uint 4 ++
        (bytes (Uuid.toBytes r.storageId.uuid) ++ (uint 5 ++ u64 r.subtreeObjects))))))) r := by
    refine (reads_field (by omega)).bind ?_
    refine (reads_exact (reads_digest _)).bind ?_
    refine (reads_field (by omega)).bind ?_
    refine (reads_exact (reads_u64 _)).bind ?_
    refine (reads_check hlen).nil_bind ?_
    refine (reads_field (by omega)).bind ?_
    refine (reads_exact (reads_id _)).bind ?_
    refine (reads_field (by omega)).bind ?_
    refine (reads_exact (reads_u64 _)).bind_pure ?_
    refine (reads_lift (storageIdOf_toBytes _)).nil_bind ?_
    refine (reads_lift (digestOf_toBytes _)).nil_bind ?_
    exact (reads_lift hcount).nil_bind (Reads.pure _)
  cases hk : r.kind with
  | blob => rw [hk] at key; exact key
  | node => rw [hk] at key; exact key
  | checkpoint => exact absurd hk hkind

theorem reads_decTimes {α : Type} {d : Dec α} {encode : α → Bytes} {items : List α}
    (h : ∀ a ∈ items, Reads d (encode a) a) :
    Reads (decTimes d items.length) (items.map encode).flatten items := by
  induction items with
  | nil => exact Reads.pure _
  | cons a rest ih =>
      simp only [List.map_cons, List.flatten_cons, List.length_cons, decTimes]
      refine (h a (by simp)).bind ?_
      exact (ih fun b hb => h b (by simp [hb])).bind_pure (Reads.pure _)

/-- A check on what is left of the input. -/
theorem readsAll_remaining {α : Type} (p : Nat → Prop) [∀ n, Decidable (p n)] {d : Dec α}
    {input : Bytes} {a : α} (hp : p input.length) (h : ReadsAll d input a) :
    ReadsAll (do Dec.valid (p (← get).length); d) input a := by
  have hget : (do Dec.valid (p (← get).length); d : Dec α) input =
      ensure (p input.length) invalidCanonicalObject >>= fun _ => d input := by
    simp only [Dec.valid, bind, StateT.bind, get, getThe, MonadStateOf.get, StateT.get, pure,
      Except.pure, Except.bind]
    cases ensure (p input.length) invalidCanonicalObject <;> rfl
  unfold ReadsAll
  rw [hget, ensure_ok (u := ()).2 hp]
  exact h

theorem flatten_length_ge (items : List Bytes) {n : Nat} (h : ∀ v ∈ items, n ≤ v.length) :
    items.length * n ≤ items.flatten.length := by
  induction items with
  | nil => simp
  | cons v rest ih =>
      have h1 := h v (by simp)
      have h2 := ih fun w hw => h w (by simp [hw])
      simp only [List.length_cons, List.flatten_cons, List.length_append, Nat.add_mul, Nat.one_mul]
      omega

theorem readsAll_nodePayload {node : Node} {options : Options}
    (hp : node.payload.length < 2 ^ 64)
    (hrefs : node.children.length ≤ options.maxObjectRefs.toNat)
    (hc : ∀ r ∈ node.children, r.ChildOk options) :
    ReadsAll (decodeNodePayload options) (nodePayload node node.children.length) node := by
  have hn : node.children.length < 2 ^ 64 := lt_of_le_of_lt hrefs (UInt64.toNat_lt _)
  have hroom : node.children.length ≤
      ((node.children.map fun c => c.toWire.encode).flatten).length / 60 := by
    rw [Nat.le_div_iff_mul_le (by omega)]
    have := flatten_length_ge (node.children.map fun c => c.toWire.encode) (n := 60)
      (by
        intro v hv
        obtain ⟨c, -, rfl⟩ := List.mem_map.1 hv
        have h1 := cborHeadLen_pos c.len.toNat
        have h2 := cborHeadLen_pos c.subtreeObjects.toNat
        rw [child_length]
        omega)
    simpa using this
  simp only [nodePayload, List.append_assoc]
  refine (reads_exactMap (by omega)).bind_all ((reads_valid rfl).nil_bind_all ?_)
  refine (reads_field (by omega)).bind_all ?_
  refine (reads_exact reads_version).bind_all ((reads_check rfl).nil_bind_all ?_)
  refine (reads_field (by omega)).bind_all ?_
  refine (reads_exact (reads_bytes hp)).bind_all ?_
  refine (reads_field (by omega)).bind_all ?_
  refine (reads_exactArray hn).bind_all ((reads_check hrefs).nil_bind_all ?_)
  refine readsAll_remaining (fun n => node.children.length ≤ n / 60) hroom ?_
  have := (reads_decTimes fun r hr => reads_child (hc r hr)).bind_all
    (f := fun children => do Dec.finished; return ({ payload := node.payload, children } : Node))
    (readsAll_finished.bind (Reads.pure _).all)
  simpa using this

section

variable [Blake3]

/-- The hand-written encoder writes the envelope of the node's map. -/
theorem encodeNode_eq {node : Node} {options : Options} {encoded : Bytes}
    (h : encodeNode node options = .ok encoded) :
    encoded = encodeEnvelope (nodePayload node node.children.length) ∧
      node.children.length ≤ options.maxObjectRefs.toNat ∧ node.payload.length < 2 ^ 64 ∧
      encoded.length ≤ options.maxObjectBytes.toNat := by
  obtain ⟨hrefs, hfits, rfl⟩ := encodeNode_ok.1 h
  have hlen : (encodeEnvelope (nodePayload node node.children.length)).length =
      encodedLen node.payload.length (node.children.map ObjectRef.sizes) := by
    rw [envelope_length, nodePayload_length, encodedLen]
  have hmax : options.maxObjectBytes.toNat < 2 ^ 64 := UInt64.toNat_lt _
  refine ⟨rfl, hrefs, ?_, hlen ▸ hfits⟩
  unfold encodedLen innerLen at hfits
  omega

/-- **What `encode_node` writes, `decode_node` reads.** -/
theorem decodeNode_encodeNode {node : Node} {options : Options} {encoded : Bytes}
    (h : encodeNode node options = .ok encoded) (hc : ∀ r ∈ node.children, r.ChildOk options) :
    decodeNode encoded options = .ok node := by
  obtain ⟨rfl, hrefs, hp, hmax⟩ := encodeNode_eq h
  have hlen : (nodePayload node node.children.length).length < 2 ^ 64 :=
    (encodeEnvelope_length _).trans (lt_of_le_of_lt hmax (UInt64.toNat_lt _))
  refine bind_ok.2 ⟨_, decodeBorrowedEnvelope_encode hlen, ?_⟩
  exact Dec.run_eq (readsAll_nodePayload hp hrefs hc)

end

end ObjectLog
