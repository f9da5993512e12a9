import ObjectLog.Format.Plan
import ObjectLog.Proof.HeadValid

/-!
# What is encoded is decoded

For every durable record, decoding its encoding gives it back. The only condition on
sizes is that the encoding is shorter than `2 ^ 64` bytes, so that no length on the
wire was cut.
-/

namespace ObjectLog

open Cbor

/-! ## Identities -/

@[simp] theorem Uuid.toBytes_length (u : Uuid) : (Uuid.toBytes u).length = 16 := by
  simp [Uuid.toBytes]

@[simp] theorem Digest.toBytes_length (d : Digest) : d.toBytes.length = 32 := by
  simp [Digest.toBytes]

@[simp] theorem uuidOf_toBytes (u : Uuid) (name : String) :
    uuidOf (Uuid.toBytes u) name = .ok u := by
  have h : ofBigEndian (bigEndian 16 u.val) = u.val := ofBigEndian_bigEndian
    (u.isLt.trans_eq (by decide))
  rw [uuidOf, if_pos (Uuid.toBytes_length u), Uuid.toBytes, h, Fin.ofNat_val_eq_self]

@[simp] theorem digestOf_toBytes (d : Digest) : digestOf d.toBytes = .ok d := by
  have h : ofBigEndian (bigEndian 32 d.val.val) = d.val.val := ofBigEndian_bigEndian
    (d.val.isLt.trans_eq (by decide))
  rw [digestOf, if_pos (Digest.toBytes_length d), Digest.toBytes, h, Fin.ofNat_val_eq_self]

@[simp] theorem transactionIdOf_toBytes (t : TransactionId) :
    transactionIdOf (Uuid.toBytes t.uuid) = .ok t := by
  simp [transactionIdOf, bind, Except.bind, pure, Except.pure]

@[simp] theorem storageIdOf_toBytes (i : StorageId) :
    storageIdOf (Uuid.toBytes i.uuid) = .ok i := by
  simp [storageIdOf, bind, Except.bind, pure, Except.pure]

theorem LogId.new_value (l : LogId) : LogId.new l.value = .ok l := by
  rw [LogId.new, dif_pos l.valid]

theorem reads_u64 (x : UInt64) : Reads readU64 (u64 x) x := by
  have h := (reads_uint x.toNat_lt (Nat.le_refl 64)).set UInt64.ofNat
  rwa [UInt64.ofNat_toNat] at h

theorem reads_id (u : Uuid) : Reads Reader.bytes (bytes (Uuid.toBytes u)) (Uuid.toBytes u) :=
  reads_bytes (by simp)

theorem reads_digest (d : Digest) : Reads Reader.bytes (bytes d.toBytes) d.toBytes :=
  reads_bytes (by simp)

/-- A log identifier is ASCII, so it is a text. -/
theorem LogId.utf8 (l : LogId) : (ByteArray.mk l.value.toArray).validateUTF8 = true := by
  refine validateUTF8_ascii fun b hb => ?_
  have h := l.valid
  simp only [logIdValid, Bool.and_eq_true, List.all_eq_true] at h
  have hb' := h.1.1.2 b hb
  simp only [logIdByte, Bool.or_eq_true, Bool.and_eq_true, decide_eq_true_eq, beq_iff_eq,
    UInt8.le_iff_toNat_le] at hb'
  rcases hb' with ((((⟨-, h⟩ | ⟨-, h⟩) | ⟨-, h⟩) | rfl) | rfl) | rfl
  · exact lt_of_le_of_lt h (by decide)
  · exact lt_of_le_of_lt h (by decide)
  · exact lt_of_le_of_lt h (by decide)
  · decide
  · decide
  · decide

theorem LogId.length_le (l : LogId) : l.value.length ≤ maxLogIdLen := by
  have h := l.valid
  simp only [logIdValid, Bool.and_eq_true, decide_eq_true_eq] at h
  exact h.1.1.1.2

theorem reads_logId (l : LogId) : Reads Reader.text (text l.value) l.value :=
  reads_text (by have := l.length_le; unfold maxLogIdLen at this; omega) l.utf8

theorem reads_version : Reads (Reader.uint 32) (uint formatVersion) formatVersion :=
  reads_uint (by decide) (by omega)

/-! ## References -/

theorem reads_commitRef (c : CommitRef) :
    Reads CommitRefWire.read c.toWire.encode c.toWire := by
  refine reads_struct (by simp) ?_ (by simp)
  refine Fills.cons (by omega) rfl ((reads_u64 _).set _) ?_
  refine Fills.cons (by omega) rfl ((reads_id _).set _) ?_
  refine Fills.cons (by omega) rfl ((reads_digest _).set _) ?_
  refine Fills.cons (by omega) rfl ((reads_u64 _).set _) ?_
  refine Fills.cons (by omega) rfl ((reads_id _).set _) ?_
  exact Fills.nil _

@[simp] theorem CommitRef.ofWire_toWire (c : CommitRef) : CommitRef.ofWire c.toWire = .ok c := by
  simp [CommitRef.ofWire, CommitRef.toWire, bind, Except.bind, pure, Except.pure]

theorem ObjectKind.wire_lt (k : ObjectKind) : k.wire < 2 ^ 8 := by cases k <;> decide

theorem reads_objectRef (r : ObjectRef) :
    Reads ObjectRefWire.read r.toWire.encode r.toWire := by
  refine reads_struct (by simp) ?_ (by simp)
  refine Fills.cons (by omega) rfl ((reads_uint ?_ (by omega)).set _) ?_
  · exact r.kind.wire_lt
  refine Fills.cons (by omega) rfl ((reads_digest _).set _) ?_
  refine Fills.cons (by omega) rfl ((reads_u64 _).set _) ?_
  refine Fills.cons (by omega) rfl ((reads_id _).set _) ?_
  refine Fills.cons (by omega) rfl ((reads_u64 _).set _) ?_
  exact Fills.nil _

/-- A reference whose count is one the format accepts. -/
def ObjectRef.Counted (r : ObjectRef) : Prop := r.validateCount = .ok ()

theorem ObjectRef.ofWire_toWire {r : ObjectRef} (h : r.Counted) :
    ObjectRef.ofWire r.toWire = .ok r := by
  obtain ⟨kind, storageId, digest, len, count⟩ := r
  unfold ObjectRef.Counted at h
  cases kind <;>
    simp only [ObjectRef.ofWire, ObjectRef.toWire, ObjectKind.wire, storageIdOf_toBytes,
      digestOf_toBytes, bind, Except.bind, h, pure, Except.pure]

theorem reads_checkpointRef (c : CheckpointRef) :
    Reads CheckpointRefWire.read c.toWire.encode c.toWire := by
  refine reads_struct (by simp [Cbor.optional, CheckpointRef.toWire]) ?_ (by simp)
  refine Fills.cons (by omega) rfl ((reads_u64 _).set _) ?_
  refine Fills.cons (by omega) rfl ((reads_digest _).set _) ?_
  refine Fills.cons (by omega) rfl ((reads_nullable (reads_objectRef _) ?_).set _) ?_
  · exact head_ne_null (by omega) _ _
  exact Fills.nil _

theorem CheckpointRef.ofWire_toWire {c : CheckpointRef} (hc : c.object.Counted)
    (hk : c.object.kind = .checkpoint) : CheckpointRef.ofWire c.toWire = .ok c := by
  unfold CheckpointRef.ofWire
  simp only [CheckpointRef.toWire, okOr, ObjectRef.ofWire_toWire hc, digestOf_toBytes, bind,
    Except.bind, ensure, hk, if_true]
  rfl

theorem reads_planRef (p : CollectionPlanRef) :
    Reads CollectionPlanRefWire.read p.toWire.encode p.toWire := by
  refine reads_struct (by simp) ?_ (by simp)
  refine Fills.cons (by omega) rfl ((reads_id _).set _) ?_
  refine Fills.cons (by omega) rfl ((reads_digest _).set _) ?_
  refine Fills.cons (by omega) rfl ((reads_u64 _).set _) ?_
  exact Fills.nil _

@[simp] theorem CollectionPlanRef.ofWire_toWire (p : CollectionPlanRef) :
    CollectionPlanRef.ofWire p.toWire = .ok p := by
  simp [CollectionPlanRef.ofWire, CollectionPlanRef.toWire, bind, Except.bind, pure, Except.pure]

theorem reads_options (o : Options) : Reads Options.read o.encode o := by
  refine reads_struct (by simp) ?_ (by simp)
  iterate 12 refine Fills.cons (by omega) rfl ((reads_u64 _).set _) ?_
  exact Fills.nil _

/-! ## Envelopes -/

/-- A library read inside a hand-written decoder. -/
theorem reads_cbor {α : Type} {r : Reader α} {v : Bytes} {a : α} (h : Reads r v a) :
    Reads (Dec.cbor r) v a := by
  intro rest
  rw [Dec.cbor, h rest]
  rfl

theorem reads_exact {α : Type} {r : Reader α} {encode : α → Bytes} {a : α}
    (h : Reads r (encode a) a) : Reads (Dec.exact r encode) (encode a) a := by
  intro rest
  rw [Dec.exact, h rest]
  simp [okOr, ensure, bind, Except.bind, pure, Except.pure]

theorem reads_exactLen {r : Reader (Option Nat)} {major n : Nat}
    (h : Reads r (head major n) (some n)) : Reads (Dec.exactLen r major) (head major n) n := by
  intro rest
  rw [Dec.exactLen, h rest]
  simp [okOr, ensure, bind, Except.bind, pure, Except.pure]

theorem reads_valid {p : Prop} [Decidable p] (h : p) : Reads (Dec.valid p) [] () := by
  intro rest
  simp [Dec.valid, ensure, h, bind, Except.bind, pure, Except.pure]

/-- A check of the log inside a hand-written decoder. -/
theorem reads_lift {α : Type} {x : Except Error α} {a : α} (h : x = .ok a) :
    Reads (liftM x : Dec α) [] a := by
  intro rest
  subst h
  rfl

theorem reads_check {p : Prop} [Decidable p] {e : Error} (h : p) :
    Reads (liftM (ensure p e) : Dec Unit) [] () :=
  reads_lift (ensure_ok.2 h)

theorem reads_exactMap {n : Nat} (h : n < 2 ^ 64) : Reads Dec.exactMap (head 5 n) n :=
  reads_exactLen (reads_argument (by omega) h)

theorem reads_exactArray {n : Nat} (h : n < 2 ^ 64) : Reads Dec.exactArray (head 4 n) n :=
  reads_exactLen (reads_argument (by omega) h)

theorem reads_field {k : Nat} (h : k < 2 ^ 8) : Reads (Dec.field k) (uint k) () :=
  (reads_exact (reads_uint h (by omega))).bind_pure (reads_valid rfl)

theorem readsAll_finished : ReadsAll Dec.finished [] () := by
  simp [ReadsAll, Dec.finished, Dec.valid, ensure, bind, StateT.bind, Except.bind, pure,
    Except.pure, get, getThe, MonadStateOf.get, StateT.get]

/-- A decoder that reads all of its input runs to its value. -/
theorem Dec.run_eq {α : Type} {d : Dec α} {input : Bytes} {a : α} (h : ReadsAll d input a) :
    Dec.run d input = .ok a := by
  rw [Dec.run, h]
  rfl

theorem decodeExact_eq {α : Type} {r : Reader α} {v : Bytes} {a : α} (h : Reads r v a) :
    decodeExact r v = .ok a := by
  have h' : r v = some (a, []) := h.all
  simp [decodeExact, h', okOr, ensure, bind, Except.bind, pure, Except.pure]

section

variable [Blake3]

/-- **The payload of an envelope is found.** -/
theorem decodeBorrowedEnvelope_encode {payload : Bytes} (h : payload.length < 2 ^ 64) :
    decodeBorrowedEnvelope (encodeEnvelope payload) = .ok payload := by
  refine Dec.run_eq ?_
  rw [show encodeEnvelope payload = head 5 2 ++ (uint 1 ++ (bytes payload ++ (uint 2 ++
    (bytes (Digest.of payload).toBytes ++ [])))) by simp [encodeEnvelope, record]]
  refine (reads_exactMap (by omega)).bind_all ((reads_valid rfl).nil_bind_all ?_)
  refine (reads_field (by omega)).bind_all ?_
  refine (reads_exact (reads_bytes h)).bind_all ?_
  refine (reads_field (by omega)).bind_all ?_
  refine (reads_exact (reads_digest _)).bind_all ?_
  refine readsAll_finished.bind ?_
  refine (reads_lift (digestOf_toBytes _)).nil_bind_all ?_
  exact (reads_check rfl).nil_bind_all (Reads.pure _).all

/-- What an encoding holds is no longer than the encoding. -/
theorem encodeEnvelope_length (payload : Bytes) :
    payload.length < (encodeEnvelope payload).length := by
  simp only [encodeEnvelope, record, bytes, List.length_append, List.flatMap_cons,
    Digest.toBytes_length]
  omega

theorem encodeEnvelope_length_mono {a b : Bytes} (h : a.length ≤ b.length) :
    (encodeEnvelope a).length ≤ (encodeEnvelope b).length := by
  have := head_length_mono 2 h
  simp only [encodeEnvelope, record, bytes, List.length_append, List.flatMap_cons,
    List.flatMap_nil, List.length_nil, List.length_cons, Digest.toBytes_length]
  omega

end

/-! ## Heads -/

/-- A valid shape in front of any input. -/
def Shaped (d : Dec Unit) (v : Bytes) : Prop := Reads d v ()

theorem shaped_uint {n : Nat} (h : n < 2 ^ 64) : Shaped shapeUint (uint n) :=
  (reads_cbor (reads_uint h (by omega))).bind_pure (Reads.pure _)

theorem shaped_bytes {value : Bytes} {len : Nat} (h : value.length = len) (hl : len < 2 ^ 64) :
    Shaped (shapeBytes len) (bytes value) :=
  (reads_cbor (reads_bytes (h ▸ hl))).bind_pure (reads_valid h)

theorem shaped_u64 (x : UInt64) : Shaped shapeUint (u64 x) := shaped_uint x.toNat_lt

theorem shaped_id (u : Uuid) : Shaped (shapeBytes 16) (bytes (Uuid.toBytes u)) :=
  shaped_bytes (by simp) (by omega)

theorem shaped_digest (d : Digest) : Shaped (shapeBytes 32) (bytes d.toBytes) :=
  shaped_bytes (by simp) (by omega)

/-- The fields come in increasing order and every one has its shape. -/
def Fitting (field : Nat → Dec Unit) : Nat → List (Nat × Bytes) → Prop
  | _, [] => True
  | previous, (k, v) :: rest =>
      previous < k ∧ k < 16 ∧ Shaped (field k) v ∧ Fitting field k rest

theorem reads_headShapeFields {field : Nat → Dec Unit} {fs : List (Nat × Bytes)} {previous : Nat}
    (seen : List Nat) (h : Fitting field previous fs) :
    Reads (headShapeFields field fs.length previous seen)
      (fs.flatMap fun f => uint f.1 ++ f.2) ((fs.map Prod.fst).reverse ++ seen) := by
  induction fs generalizing previous seen with
  | nil => exact Reads.pure _
  | cons f rest ih =>
      obtain ⟨k, v⟩ := f
      obtain ⟨hlt, hk, hv, hrest⟩ := h
      have hk8 : k < 2 ^ 8 := by omega
      simp only [List.flatMap_cons, List.append_assoc, List.length_cons, headShapeFields]
      refine (reads_cbor (reads_uint hk8 (by omega))).bind ((reads_valid hlt).nil_bind ?_)
      refine Reads.bind hv ((reads_valid hk).nil_bind ?_)
      simpa using ih (k :: seen) hrest

theorem shaped_record {required : List Nat} {field : Nat → Dec Unit} {fs : List (Nat × Bytes)}
    (hlen : fs.length < 2 ^ 64) (h : Fitting field 0 fs)
    (hreq : ∀ k ∈ required, k ∈ fs.map Prod.fst) :
    Shaped (headShapeMap required field) (record fs) := by
  refine (reads_cbor (reads_argument (by omega) hlen)).bind ?_
  refine (reads_lift (okOr_ok.2 rfl)).nil_bind ?_
  refine (reads_headShapeFields [] h).bind_pure (reads_valid ?_)
  simpa using hreq

theorem shaped_array {d : Dec Unit} {items : List Bytes} (hlen : items.length < 2 ^ 64)
    (h : ∀ v ∈ items, Shaped d v) : Shaped (shapeArray d) (array items) := by
  refine (reads_cbor (reads_argument (by omega) hlen)).bind ?_
  refine (reads_lift (okOr_ok.2 rfl)).nil_bind ?_
  clear hlen
  induction items with
  | nil => exact Reads.pure _
  | cons v rest ih =>
      exact Reads.bind (h v (by simp)) (ih fun w hw => h w (by simp [hw]))

theorem shaped_objectRef (r : ObjectRef) : Shaped shapeObjectRef r.toWire.encode :=
  shaped_record (by simp)
    ⟨by omega, by omega, shaped_uint (r.kind.wire_lt.trans (by omega)), by omega, by omega,
      shaped_digest _, by omega, by omega, shaped_u64 _, by omega, by omega, shaped_id _, by omega,
      by omega, shaped_u64 _, trivial⟩ (by simp)

theorem shaped_checkpointRef (c : CheckpointRef) : Shaped shapeCheckpointRef c.toWire.encode :=
  shaped_record (by simp [Cbor.optional, CheckpointRef.toWire])
    ⟨by omega, by omega, shaped_u64 _, by omega, by omega, shaped_digest _, by omega, by omega,
      shaped_objectRef _, trivial⟩ (by simp [Cbor.optional, CheckpointRef.toWire])

theorem shaped_commitRef (c : CommitRef) : Shaped shapeCommitRef c.toWire.encode :=
  shaped_record (by simp)
    ⟨by omega, by omega, shaped_u64 _, by omega, by omega, shaped_id _, by omega, by omega,
      shaped_digest _, by omega, by omega, shaped_u64 _, by omega, by omega, shaped_id _, trivial⟩
    (by simp)

theorem shaped_planRef (p : CollectionPlanRef) : Shaped shapePlanRef p.toWire.encode :=
  shaped_record (by simp)
    ⟨by omega, by omega, shaped_id _, by omega, by omega, shaped_digest _, by omega, by omega,
      shaped_u64 _, trivial⟩ (by simp)

theorem shaped_options (o : Options) : Shaped shapeOptions o.encode := by
  have h : ∀ k x, 1 ≤ k ∧ k ≤ 12 →
      Shaped (do Dec.valid (1 ≤ k ∧ k ≤ 12); shapeUint) (u64 x) :=
    fun k x hk => (reads_valid hk).nil_bind (shaped_u64 x)
  refine shaped_record (by simp) ?_ (by simp)
  iterate 12 refine ⟨by omega, by omega, h _ _ (by omega), ?_⟩
  trivial

theorem shaped_logId (l : LogId) : Shaped shapeLogId (text l.value) :=
  (reads_cbor (reads_logId l)).bind_pure (reads_check l.length_le)

theorem Fitting.cons {field : Nat → Dec Unit} {previous k : Nat} {v : Bytes}
    {rest : List (Nat × Bytes)} (hlt : previous < k) (hk : k < 16) (hv : Shaped (field k) v)
    (h : Fitting field k rest) : Fitting field previous ((k, v) :: rest) := ⟨hlt, hk, hv, h⟩

/-- An optional field keeps the order whether it is there or not. -/
theorem Fitting.optional {τ : Type} {field : Nat → Dec Unit} {previous k : Nat} {x : Option τ}
    {encode : τ → Bytes} {rest : List (Nat × Bytes)} (hlt : previous < k) (hk : k < 16)
    (hv : ∀ a, x = some a → Shaped (field k) (encode a))
    (h : ∀ p, p ≤ k → Fitting field p rest) :
    Fitting field previous (Cbor.optional k (x.map encode) ++ rest) := by
  cases x with
  | none => exact h previous (by omega)
  | some a => exact ⟨hlt, hk, hv a rfl, h k (le_refl k)⟩

theorem headWire_length (w : HeadWire) :
    ([(1, uint w.formatVersion), (2, text w.logId), (3, u64 w.generation),
      (4, u64 w.nextSequence)] ++
    optional 5 (w.checkpoint.map CheckpointRefWire.encode) ++
    [(6, array (w.tail.map CommitRefWire.encode)),
      (7, array (w.recentOutcomes.map CommitRefWire.encode)), (8, bytes w.incarnation),
      (9, w.options.encode), (10, u64 w.collectionEpoch)] ++
    optional 11 (w.activePlan.map CollectionPlanRefWire.encode) ++
    [(12, array (w.retentionIds.map bytes))]).length < 2 ^ 64 := by
  have h5 := optional_length_le 5 (w.checkpoint.map CheckpointRefWire.encode)
  have h11 := optional_length_le 11 (w.activePlan.map CollectionPlanRefWire.encode)
  simp only [List.length_append, List.length_cons, List.length_nil]
  omega

/-- The lists of a valid head are short enough for their lengths to be written. -/
theorem Head.Valid.lengths {h : Head} (v : h.Valid) :
    h.tail.length < 2 ^ 64 ∧ h.recentOutcomes.length < 2 ^ 64 ∧
      (ascending h.retentionIds).length < 2 ^ 64 := by
  refine ⟨lt_of_le_of_lt v.tailLen (UInt64.toNat_lt _),
    lt_of_le_of_lt v.outcomesLen (UInt64.toNat_lt _), ?_⟩
  rw [ascending_eq_sort, Finset.length_sort]
  exact lt_of_le_of_lt v.retentions (UInt64.toNat_lt _)

theorem reads_head {h : Head} (v : h.Valid) : Reads HeadWire.read h.toWire.encode h.toWire := by
  obtain ⟨htail, hout, hret⟩ := v.lengths
  refine reads_struct (headWire_length _) ?_ (by simp)
  simp only [List.append_assoc, List.cons_append, List.nil_append]
  refine Fills.cons (by omega) rfl (reads_version.set _) ?_
  refine Fills.cons (by omega) rfl ((reads_logId _).set _) ?_
  refine Fills.cons (by omega) rfl ((reads_u64 _).set _) ?_
  refine Fills.cons (by omega) rfl ((reads_u64 _).set _) ?_
  refine Fills.optional (fun c => HeadWire.mk formatVersion h.logId.value h.generation
    h.nextSequence c [] [] [] Options.default 0 none []) (by omega) rfl ?_ ?_
  · intro w hw
    obtain ⟨c, -, rfl⟩ := Option.map_eq_some_iff.1 hw
    exact ⟨_, rfl, (reads_nullable (reads_checkpointRef c) (head_ne_null (by omega) _ _)).set _⟩
  have hrefs : ∀ cs : List CommitRef, cs.length < 2 ^ 64 →
      Reads (Reader.list CommitRefWire.read) (array ((cs.map CommitRef.toWire).map
        CommitRefWire.encode)) (cs.map CommitRef.toWire) := by
    intro cs hcs
    refine reads_list (by simpa using hcs) fun w hw => ?_
    obtain ⟨c, -, rfl⟩ := List.mem_map.1 hw
    exact reads_commitRef c
  refine Fills.cons (by omega) rfl ((hrefs _ htail).set _) ?_
  refine Fills.cons (by omega) rfl ((hrefs _ hout).set _) ?_
  refine Fills.cons (by omega) rfl ((reads_id _).set _) ?_
  refine Fills.cons (by omega) rfl ((reads_options _).set _) ?_
  refine Fills.cons (by omega) rfl ((reads_u64 _).set _) ?_
  refine Fills.optional (fun p => HeadWire.mk formatVersion h.logId.value h.generation
    h.nextSequence (h.checkpoint.map CheckpointRef.toWire) (h.tail.map CommitRef.toWire)
    (h.recentOutcomes.map CommitRef.toWire) (Uuid.toBytes h.incarnation) h.options
    h.collectionEpoch p []) (by omega) rfl ?_ ?_
  · intro w hw
    obtain ⟨p, -, rfl⟩ := Option.map_eq_some_iff.1 hw
    exact ⟨_, rfl, (reads_nullable (reads_planRef p) (head_ne_null (by omega) _ _)).set _⟩
  have hids : Reads (Reader.list Reader.bytes) (array (h.toWire.retentionIds.map bytes))
      h.toWire.retentionIds := by
    refine reads_list (by simpa [Head.toWire] using hret) fun b hb => ?_
    obtain ⟨id, -, rfl⟩ := List.mem_map.1 hb
    exact reads_id _
  refine Fills.cons (by omega) rfl (hids.set _) ?_
  exact Fills.nil _

theorem shaped_head {h : Head} (v : h.Valid) : Shaped shapeHead h.toWire.encode := by
  obtain ⟨htail, hout, hret⟩ := v.lengths
  have hrefs : ∀ cs : List CommitRef, cs.length < 2 ^ 64 →
      Shaped (shapeArray shapeCommitRef) (array ((cs.map CommitRef.toWire).map
        CommitRefWire.encode)) := by
    intro cs hcs
    refine shaped_array (by simpa using hcs) fun v hv => ?_
    simp only [List.mem_map, exists_exists_and_eq_and] at hv
    obtain ⟨c, -, rfl⟩ := hv
    exact shaped_commitRef c
  refine shaped_record (headWire_length _) ?_ (by simp)
  simp only [List.append_assoc, List.cons_append, List.nil_append]
  refine Fitting.cons (by omega) (by omega) (shaped_uint (n := formatVersion) (by decide)) ?_
  refine Fitting.cons (by omega) (by omega) (shaped_logId _) ?_
  refine Fitting.cons (by omega) (by omega) (shaped_u64 _) ?_
  refine Fitting.cons (by omega) (by omega) (shaped_u64 _) ?_
  refine Fitting.optional (by omega) (by omega) ?_ fun p hp => ?_
  · intro w hw
    obtain ⟨c, -, rfl⟩ := Option.map_eq_some_iff.1 hw
    exact shaped_checkpointRef c
  refine Fitting.cons (by omega) (by omega) (hrefs _ htail) ?_
  refine Fitting.cons (by omega) (by omega) (hrefs _ hout) ?_
  refine Fitting.cons (by omega) (by omega) (shaped_id _) ?_
  refine Fitting.cons (by omega) (by omega) (shaped_options _) ?_
  refine Fitting.cons (by omega) (by omega) (shaped_u64 _) ?_
  refine Fitting.optional (by omega) (by omega) ?_ fun p hp => ?_
  · intro w hw
    obtain ⟨q, -, rfl⟩ := Option.map_eq_some_iff.1 hw
    exact shaped_planRef q
  refine Fitting.cons (by omega) (by omega) (shaped_array (by simpa [Head.toWire] using hret) ?_)
    trivial
  intro v hv
  simp only [Head.toWire, List.map_map, List.mem_map, Function.comp] at hv
  obtain ⟨id, -, rfl⟩ := hv
  exact shaped_id _

theorem mapM_toWire {α β : Type} (f : α → β) (g : β → Except Error α) {xs : List α}
    (h : ∀ x ∈ xs, g (f x) = .ok x) : (xs.map f).mapM g = .ok xs := by
  induction xs with
  | nil => rfl
  | cons x xs ih =>
      rw [List.map_cons, List.mapM_cons, h x (by simp), ih fun y hy => h y (by simp [hy])]
      rfl

theorem option_mapM_toWire {α β : Type} (f : α → β) (g : β → Except Error α) {x : Option α}
    (h : ∀ a, x = some a → g (f a) = .ok a) : (x.map f).mapM g = .ok x := by
  cases x with
  | none => rfl
  | some a =>
      rw [Option.map_some, Option.mapM_some, h a rfl]
      rfl

/-- Sorted identities are read back into the set they came from. -/
theorem retentionIdsOf_sorted {ids : List RetentionId} (hs : ids.Pairwise (· < ·)) :
    ∀ (previous : Option RetentionId) (acc : Finset RetentionId),
      (∀ p ∈ previous, ∀ id ∈ ids, p < id) →
      retentionIdsOf (ids.map fun id => Uuid.toBytes id.uuid) previous acc =
        .ok (acc ∪ ids.toFinset) := by
  induction ids with
  | nil => intro previous acc _; simp [retentionIdsOf]
  | cons id rest ih =>
      intro previous acc hp
      obtain ⟨hlt, hrest⟩ := List.pairwise_cons.1 hs
      have hid : ∀ p ∈ previous, p < id := fun p hpm => hp p hpm id (by simp)
      have hnext := ih hrest (some id) (insert id acc) (by
        rintro p ⟨⟩ q hq
        exact hlt q hq)
      simp only [List.map_cons, retentionIdsOf, uuidOf_toBytes, bind, Except.bind, ensure,
        if_pos hid, hnext]
      congr 1
      ext x
      simp only [Finset.mem_union, Finset.mem_insert, List.mem_toFinset, List.mem_cons]
      tauto

/-- The references of a head satisfy the count check of the format. -/
def Head.Counted (h : Head) : Prop := ∀ c, h.checkpoint = some c → c.object.Counted

theorem Head.ofWire_toWire {h : Head} (v : h.Valid) (hc : h.Counted) :
    Head.ofWire h.toWire = .ok h := by
  have h1 : (h.checkpoint.map CheckpointRef.toWire).mapM CheckpointRef.ofWire =
      .ok h.checkpoint :=
    option_mapM_toWire _ _ fun c e => CheckpointRef.ofWire_toWire (hc c e) (v.baseKind c e)
  have h2 : ∀ cs : List CommitRef, (cs.map CommitRef.toWire).mapM CommitRef.ofWire = .ok cs :=
    fun cs => mapM_toWire _ _ fun c _ => CommitRef.ofWire_toWire c
  have h3 : (h.activePlan.map CollectionPlanRef.toWire).mapM CollectionPlanRef.ofWire =
      .ok h.activePlan :=
    option_mapM_toWire _ _ fun p _ => CollectionPlanRef.ofWire_toWire p
  have h4 := retentionIdsOf_sorted (Finset.sortedLT_sort h.retentionIds).pairwise none ∅ (by simp)
  rw [Finset.sort_toFinset, Finset.empty_union, ← ascending_eq_sort] at h4
  simp only [Head.ofWire, Head.toWire, LogId.new_value, uuidOf_toBytes, h1, h2, h3, h4, bind,
    Except.bind, pure, Except.pure]

section

variable [Blake3]

/-- **What `encode_head` writes, `decode_head` reads.** -/
theorem decodeHead_encodeHead {h : Head} {encoded : Bytes} (he : encodeHead h = .ok encoded)
    (hc : h.Counted) (hlen : encoded.length < 2 ^ 64) : decodeHead encoded = .ok h := by
  have he' := he
  simp only [encodeHead, bind_ok, pure, Except.pure, Except.ok.injEq] at he'
  obtain ⟨_, hv, rfl⟩ := he'
  have v := validate_ok.1 hv
  have hp : h.toWire.encode.length < 2 ^ 64 := (encodeEnvelope_length _).trans hlen
  have hshape : validateHeadShape h.toWire.encode = .ok () := by
    refine Dec.run_eq ?_
    have := Reads.bind_all (f := fun _ => Dec.finished) (shaped_head v) readsAll_finished
    rwa [List.append_nil] at this
  refine bind_ok.2 ⟨_, decodeBorrowedEnvelope_encode hp, ?_⟩
  refine bind_ok.2 ⟨_, hshape, ?_⟩
  refine bind_ok.2 ⟨_, decodeExact_eq (reads_head v), ?_⟩
  refine bind_ok.2 ⟨(), ensure_ok.2 rfl, ?_⟩
  refine bind_ok.2 ⟨_, Head.ofWire_toWire v hc, ?_⟩
  refine bind_ok.2 ⟨_, hv, ?_⟩
  refine bind_ok.2 ⟨_, he, ?_⟩
  exact bind_ok.2 ⟨(), ensure_ok.2 rfl, rfl⟩

end

end ObjectLog
