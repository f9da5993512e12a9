import ObjectLog.Proof.Cursor
import ObjectLog.Proof.World

/-!
# The durable format

Every durable record has exactly one encoding: encoding and decoding are inverse to each
other, on the values that the format admits and on the byte strings that its decoders accept.
Lengths on the wire have 64 bits, so encodings are assumed to be shorter than `2 ^ 64` bytes,
as every byte string in memory is.
-/

namespace ObjectLog

open Cbor

/-! ## Heads -/

/-- **The codec of heads is exact and canonical.** -/
theorem head_codec_exact [Blake3] :
    (∀ h : Head, h.validate = .ok () → h.Counted →
      ∃ b, encodeHead h = .ok b ∧ (b.length < 2 ^ 64 → decodeHead b = .ok h)) ∧
    ∀ (b : Bytes) (h : Head), decodeHead b = .ok h →
      h.validate = .ok () ∧ h.Counted ∧ encodeHead h = .ok b := by
  constructor
  · intro h hv hc
    have henc : encodeHead h = .ok (encodeEnvelope h.toWire.encode) := bind_ok.2 ⟨(), hv, rfl⟩
    exact ⟨_, henc, decodeHead_encodeHead henc hc⟩
  · intro b h hd
    obtain ⟨henc, hv⟩ := decodeHead_ok hd
    exact ⟨validate_ok.2 hv, decodeHead_counted hd, henc⟩

/-! ## Commits, checkpoints and recovery tokens -/

/-- **The codec of nodes.** The hand-written encoder writes the envelope of the map that a
derived encoder would write, decoding inverts it in both directions, and the decoder with
its cursors has no fault on any input: it returns what is decoded here, or its error. -/
theorem node_codec_exact [Blake3] (options : Options) :
    (∀ (node : Node) (b : Bytes), encodeNode node options = .ok b →
      b = encodeEnvelope (record [(1, uint formatVersion), (2, bytes node.payload),
        (3, array (node.children.map fun child => child.toWire.encode))])) ∧
    (∀ (node : Node) (b : Bytes), (∀ r ∈ node.children, r.ChildOk options) →
      encodeNode node options = .ok b → decodeNode b options = .ok node) ∧
    (∀ (b : Bytes) (node : Node), b.length ≤ options.maxObjectBytes.toNat →
      decodeNode b options = .ok node → encodeNode node options = .ok b) ∧
    ∀ b : Bytes, b.length < 2 ^ 64 →
      scanDecodeNode b options = (decodeNode b options).mapError Fault.error := by
  refine ⟨fun node b h => ?_, fun node b hc h => decodeNode_encodeNode h hc,
    fun b node hlen h => (decodeNode_ok hlen h).1, fun b hlen => scanDecodeNode_eq hlen⟩
  rw [← nodePayload_eq]
  exact (encodeNode_eq h).1

/-- A node with a payload of this length and with children of these lengths and counts. -/
structure Node.Sized (node : Node) (payloadBytes : Nat) (children : List (UInt64 × UInt64)) :
    Prop where
  payload : node.payload.length = payloadBytes
  children : node.children.map ObjectRef.sizes = children

theorem Node.Sized.exists (payloadBytes : Nat) (children : List (UInt64 × UInt64)) :
    ∃ node : Node, node.Sized payloadBytes children := by
  refine ⟨⟨List.replicate payloadBytes 0, children.map fun c => ⟨.blob, ⟨0⟩, ⟨0⟩, c.1, c.2⟩⟩,
    by simp, ?_⟩
  rw [List.map_map]
  exact List.map_id _

theorem Node.Sized.length [Blake3] {node : Node} {payloadBytes : Nat}
    {children : List (UInt64 × UInt64)} (h : node.Sized payloadBytes children) :
    node.children.length = children.length ∧
      (nodePayload node node.children.length).length = innerLen payloadBytes children ∧
      (encodeEnvelope (nodePayload node node.children.length)).length =
        encodedLen payloadBytes children := by
  refine ⟨by rw [← h.children, List.length_map], ?_, ?_⟩
  · rw [nodePayload_length, h.payload, h.children]
  · rw [envelope_length, nodePayload_length, h.payload, h.children, encodedLen]

theorem encodeNode_sized [Blake3] {options : Options} {node : Node} {payloadBytes : Nat}
    {children : List (UInt64 × UInt64)} (h : node.Sized payloadBytes children) :
    (∃ b, encodeNode node options = .ok b) ↔
      children.length ≤ options.maxObjectRefs.toNat ∧
        encodedLen payloadBytes children ≤ options.maxObjectBytes.toNat := by
  simp only [encodeNode_ok, h.payload, h.children, h.length.1]
  exact ⟨fun ⟨_, hrefs, hfits, _⟩ => ⟨hrefs, hfits⟩, fun ⟨hrefs, hfits⟩ => ⟨_, hrefs, hfits, rfl⟩⟩

/-- **The size of a node is known before it is encoded.** `node_size` succeeds exactly if
every node of these sizes can be encoded, and then it has the length of the encoding and the
two numbers that the encoder writes in front of what they count. It fails, with a limit
error, exactly if there are too many children or the encoding, without any bound on its
length, is too long for the options or for a machine integer. -/
theorem node_size_exact [Blake3] (payloadBytes : Nat) (children : List (UInt64 × UInt64))
    (options : Options) :
    ((∃ size, nodeSize payloadBytes children options = .ok size) ↔
      ∀ node : Node, node.Sized payloadBytes children → ∃ b, encodeNode node options = .ok b) ∧
    (∀ (size : NodeSize) (node : Node) (b : Bytes),
      nodeSize payloadBytes children options = .ok size → node.Sized payloadBytes children →
      encodeNode node options = .ok b →
      b.length = size.encoded ∧ size.children = node.children.length ∧
      size.inner = (nodePayload node node.children.length).length ∧
      b = encodeEnvelope (nodePayload node node.children.length)) ∧
    ∀ node : Node, node.Sized payloadBytes children →
      ((∃ what, nodeSize payloadBytes children options = .error (.limitExceeded what)) ↔
        options.maxObjectRefs.toNat < children.length ∨
        2 ^ 64 ≤ (encodeEnvelope (nodePayload node node.children.length)).length ∨
        options.maxObjectBytes.toNat <
          (encodeEnvelope (nodePayload node node.children.length)).length) := by
  refine ⟨?_, ?_, ?_⟩
  · constructor
    · rintro ⟨size, hsize⟩ node hnode
      obtain ⟨hrefs, hfits, -⟩ := nodeSize_ok.1 hsize
      exact (encodeNode_sized hnode).2 ⟨hrefs, hfits⟩
    · intro hall
      obtain ⟨node, hnode⟩ := Node.Sized.exists payloadBytes children
      obtain ⟨hrefs, hfits⟩ := (encodeNode_sized hnode).1 (hall node hnode)
      exact ⟨_, nodeSize_ok.2 ⟨hrefs, hfits, rfl⟩⟩
  · intro size node b hsize hnode hb
    obtain ⟨-, -, rfl⟩ := nodeSize_ok.1 hsize
    obtain ⟨-, -, rfl⟩ := encodeNode_ok.1 hb
    obtain ⟨hcount, hinner, hlen⟩ := hnode.length
    exact ⟨hlen, hcount.symm, hinner.symm, rfl⟩
  · intro node hnode
    have hmax : options.maxObjectBytes.toNat < 2 ^ 64 := UInt64.toNat_lt _
    rw [hnode.length.2.2]
    constructor
    · rintro ⟨what, herror⟩
      by_contra hover
      rw [not_or, not_or, not_lt, not_lt] at hover
      rw [nodeSize_ok.2 ⟨hover.1, hover.2.2, rfl⟩] at herror
      cases herror
    · intro hover
      cases hsize : nodeSize payloadBytes children options with
      | ok size =>
          obtain ⟨hrefs, hfits, -⟩ := nodeSize_ok.1 hsize
          omega
      | error e =>
          rcases nodeSize_error.error hsize with rfl | rfl
          · exact ⟨_, rfl⟩
          · exact ⟨_, rfl⟩

/-! ## Collection plans -/

/-- The byte total of a plan is the sum of its candidates. -/
theorem candidateBytes_ok {candidates : List CollectionCandidate} {total sum : UInt64}
    (h : candidates.foldlM (fun total candidate =>
      okOr (checkedAdd total candidate.bytes) (.limitExceeded "collection candidate bytes"))
        total = .ok sum) :
    sum.toNat = total.toNat + (candidates.map fun c => c.bytes.toNat).sum := by
  induction candidates generalizing total with
  | nil =>
      obtain rfl := Except.ok.inj h
      simp
  | cons c rest ih =>
      rw [List.foldlM_cons] at h
      obtain ⟨next, hnext, h⟩ := bind_ok.1 h
      have hadd := checkedAdd_toNat (okOr_ok.1 hnext)
      rw [ih h, hadd, List.map_cons, List.sum_cons]
      omega

/-- **The codec of collection plans.** The derived encoder and the streaming decoder are
inverse to each other, an accepted plan is well formed, and the search of it answers for
exactly the keys it lists. -/
theorem plan_codec_exact [Blake3] (options : Options) :
    (∀ (plan : CollectionPlan) (b : Bytes), plan.validate options = .ok () →
      encodeCollectionPlan plan options = .ok b → decodeCollectionPlan b options = .ok plan) ∧
    ∀ (b : Bytes) (plan : CollectionPlan), decodeCollectionPlan b options = .ok plan →
      0 < plan.collectionEpoch ∧ plan.candidates ≠ [] ∧ strictlySorted plan.candidates ∧
      plan.candidates.length ≤ options.maxCollectionObjects.toNat ∧
      (plan.candidates.map fun c => c.bytes.toNat).sum < 2 ^ 64 ∧
      encodeCollectionPlan plan options = .ok b ∧
      ∀ key, isCollectionCandidate plan.candidates key = true ↔
        key ∈ plan.candidates.map CollectionCandidate.key := by
  refine ⟨fun plan b _ h => decodeCollectionPlan_encodeCollectionPlan h, fun b plan h => ?_⟩
  obtain ⟨hval, henc⟩ := decodeCollectionPlan_ok h
  obtain ⟨hepoch, hne, hcount, hsorted, total, htotal⟩ := CollectionPlan.validate_ok hval
  refine ⟨?_, hne, hsorted, hcount, ?_, henc, fun key => ?_⟩
  · rw [UInt64.lt_iff_toNat_lt]
    exact Nat.pos_of_ne_zero fun h0 => hepoch (UInt64.toNat_inj.1 h0)
  · have hsum := candidateBytes_ok htotal
    have hlt := total.toNat_lt
    rw [UInt64.toNat_zero, Nat.zero_add] at hsum
    omega
  · rw [isCollectionCandidate_iff hsorted, List.mem_map]

end ObjectLog
