import ObjectLog.Lib.Answers
import ObjectLog.Proof.RoundTrip

/-!
# The size of a node

`node_size` predicts the length of an encoding before there is one. Here the length is
computed without a bound first. The checks on the way then amount to two comparisons, of the
number of children and of that length, because the limit on the length is itself a machine
integer.
-/

namespace ObjectLog

open Cbor Rely

/-! ## Lengths -/

theorem head_length (major n : Nat) : (head major n).length = cborHeadLen n := by
  unfold head cborHeadLen
  split_ifs <;> first | omega | simp

theorem cborHeadLen_pos (n : Nat) : 1 ≤ cborHeadLen n := by
  unfold cborHeadLen; split_ifs <;> omega

theorem checkedNodeLen_ok {a b c : Nat} :
    checkedNodeLen a b = .ok c ↔ a + b < 2 ^ 64 ∧ c = a + b := by
  unfold checkedNodeLen
  split_ifs with h
  · simp only [Except.ok.injEq, h, true_and, eq_comm]
  · exact ⟨nofun, fun hc => absurd hc.1 h⟩

/-- The length of one child reference on the wire. -/
theorem child_length (r : ObjectRef) :
    r.toWire.encode.length = 58 + cborHeadLen r.len.toNat + cborHeadLen r.subtreeObjects.toNat := by
  have hk : cborHeadLen r.kind.wire = 1 := by cases r.kind <;> rfl
  have hs : cborHeadLen 1 = 1 ∧ cborHeadLen 2 = 1 ∧ cborHeadLen 3 = 1 ∧ cborHeadLen 4 = 1 ∧
      cborHeadLen 5 = 1 ∧ cborHeadLen 16 = 1 ∧ cborHeadLen 32 = 2 := by decide
  simp only [ObjectRefWire.encode, ObjectRef.toWire, record, List.flatMap_cons, List.flatMap_nil,
    List.length_append, List.length_cons, List.length_nil, bytes, u64, uint, head_length,
    Digest.toBytes_length, Uuid.toBytes_length, Nat.zero_add, Nat.reduceAdd, hk, hs]
  omega

theorem cborHeadLen_mono {a b : Nat} (h : a ≤ b) : cborHeadLen a ≤ cborHeadLen b := by
  unfold cborHeadLen
  split_ifs <;> omega

/-- The length of a reference to a child with this length and count. -/
def referenceLen (child : UInt64 × UInt64) : Nat :=
  58 + cborHeadLen child.1.toNat + cborHeadLen child.2.toNat

/-- The length of the references to the children. -/
def referencesLen (children : List (UInt64 × UInt64)) : Nat := (children.map referenceLen).sum

/-- The length of the map of a node. -/
def innerLen (payloadBytes : Nat) (children : List (UInt64 × UInt64)) : Nat :=
  5 + cborHeadLen payloadBytes + payloadBytes + cborHeadLen children.length +
    referencesLen children

/-- The length of the envelope of a node. -/
def encodedLen (payloadBytes : Nat) (children : List (UInt64 × UInt64)) : Nat :=
  37 + cborHeadLen (innerLen payloadBytes children) + innerLen payloadBytes children

theorem innerLen_lt_encodedLen (payloadBytes : Nat) (children : List (UInt64 × UInt64)) :
    innerLen payloadBytes children < encodedLen payloadBytes children := by
  unfold encodedLen
  omega

/-- What a reference says about the size of its object. -/
def ObjectRef.sizes (r : ObjectRef) : UInt64 × UInt64 := (r.len, r.subtreeObjects)

theorem referencesLen_children (children : List ObjectRef) :
    ((children.map fun c => c.toWire.encode).flatten).length =
      referencesLen (children.map ObjectRef.sizes) := by
  induction children with
  | nil => rfl
  | cons c rest ih =>
      simp only [List.map_cons, List.flatten_cons, List.length_append, ih, child_length,
        referencesLen, List.sum_cons, referenceLen, ObjectRef.sizes]

theorem nodePayload_length (node : Node) : (nodePayload node node.children.length).length =
    innerLen node.payload.length (node.children.map ObjectRef.sizes) := by
  have hs : cborHeadLen 1 = 1 ∧ cborHeadLen 2 = 1 ∧ cborHeadLen 3 = 1 := by decide
  simp only [nodePayload, formatVersion, List.length_append, bytes, uint, head_length, hs,
    referencesLen_children, innerLen, List.length_map]
  omega

theorem envelope_length [Blake3] (payload : Bytes) :
    (encodeEnvelope payload).length = 37 + cborHeadLen payload.length + payload.length := by
  have hs : cborHeadLen 1 = 1 ∧ cborHeadLen 2 = 1 ∧ cborHeadLen 32 = 2 := by decide
  simp only [encodeEnvelope, record, bytes, uint, List.length_append, List.flatMap_cons,
    List.flatMap_nil, head_length, Digest.toBytes_length, List.length_cons, List.length_nil,
    Nat.zero_add, Nat.reduceAdd, hs]
  omega

/-! ## The checks -/

theorem fails_ensure {S : Error → Prop} {p : Prop} [Decidable p] {e : Error} (h : S e) :
    Fails S (ensure p e) := by
  unfold ensure
  split
  · trivial
  · exact h

theorem fails_okOr {S : Error → Prop} {α : Type} {o : Option α} {e : Error} (h : S e) :
    Fails S (okOr o e) := by
  cases o with
  | some a => trivial
  | none => exact h

section

variable {options : Options} {children : List (UInt64 × UInt64)} {count len : Nat}

/-- The children are counted and summed up, or one of the two is over its limit. -/
theorem nodeChildren_ok {r : Nat × Nat} (hcount : count ≤ options.maxObjectRefs.toNat)
    (hlen : len < 2 ^ 64) : nodeChildren options children count len = .ok r ↔
      count + children.length ≤ options.maxObjectRefs.toNat ∧
        len + referencesLen children < 2 ^ 64 ∧
        r = (count + children.length, len + referencesLen children) := by
  induction children generalizing count len with
  | nil =>
      simp only [nodeChildren, Except.ok.injEq, referencesLen, List.map_nil, List.sum_nil,
        List.length_nil, Nat.add_zero, hcount, hlen, true_and, eq_comm]
  | cons child rest ih =>
      have hmax : options.maxObjectRefs.toNat < 2 ^ 64 := UInt64.toNat_lt _
      obtain ⟨length, subtree⟩ := child
      simp only [nodeChildren, bind_ok, ensure_ok, checkedNodeLen_ok, exists_const,
        List.length_cons, referencesLen, List.map_cons, List.sum_cons, referenceLen]
      constructor
      · rintro ⟨⟨-, hc⟩, a, ⟨-, rfl⟩, b, ⟨-, rfl⟩, d, ⟨hd, rfl⟩, h⟩
        obtain ⟨h1, h2, rfl⟩ := (ih hc hd).1 h
        rw [referencesLen] at h2
        refine ⟨by omega, by omega, ?_⟩
        rw [referencesLen, Prod.mk.injEq]
        omega
      · rintro ⟨h1, h2, rfl⟩
        refine ⟨by omega, _, ⟨by omega, rfl⟩, _, ⟨by omega, rfl⟩, _, ⟨by omega, rfl⟩, ?_⟩
        refine (ih (by omega) (by omega)).2 ⟨by omega, ?_, ?_⟩
        · rw [referencesLen]
          omega
        · rw [referencesLen, Prod.mk.injEq]
          omega

/-- **`node_size` computes the length and compares it with the limits.** -/
theorem nodeSize_ok {payloadBytes : Nat} {size : NodeSize} :
    nodeSize payloadBytes children options = .ok size ↔
      children.length ≤ options.maxObjectRefs.toNat ∧
        encodedLen payloadBytes children ≤ options.maxObjectBytes.toNat ∧
        size = ⟨encodedLen payloadBytes children, innerLen payloadBytes children,
          children.length⟩ := by
  have hmax : options.maxObjectBytes.toNat < 2 ^ 64 := UInt64.toNat_lt _
  simp only [nodeSize, bind_ok, ensure_ok, exists_const, List.foldlM_cons, List.foldlM_nil,
    checkedNodeLen_ok, pure, Except.pure, Except.ok.injEq,
    nodeChildren_ok (Nat.zero_le options.maxObjectRefs.toNat) (by decide : 0 < 2 ^ 64),
    Nat.zero_add, encodedLen, innerLen]
  constructor
  · rintro ⟨r, ⟨hrefs, -, rfl⟩, -, inner, ⟨a, ⟨-, rfl⟩, b, ⟨-, rfl⟩, c, ⟨-, rfl⟩, d, ⟨-, rfl⟩, e,
      ⟨-, rfl⟩, rfl⟩, enc, ⟨f, ⟨-, rfl⟩, g, ⟨-, rfl⟩, i, ⟨-, rfl⟩, rfl⟩, hfits, rfl⟩
    exact ⟨hrefs, hfits, rfl⟩
  · rintro ⟨hrefs, hfits, rfl⟩
    -- every partial sum is below the last one
    refine ⟨_, ⟨hrefs, by omega, rfl⟩, by omega, ?_⟩
    dsimp only
    refine ⟨_, ⟨_, ⟨by omega, rfl⟩, _, ⟨by omega, rfl⟩, _, ⟨by omega, rfl⟩, _, ⟨by omega, rfl⟩, _,
      ⟨by omega, rfl⟩, rfl⟩, ?_⟩
    exact ⟨_, ⟨_, ⟨by omega, rfl⟩, _, ⟨by omega, rfl⟩, _, ⟨by omega, rfl⟩, rfl⟩, hfits, rfl⟩

/-- The error of `node_size` is one of its two limits. -/
theorem nodeSize_error {payloadBytes : Nat} : Fails (fun e => e = .limitExceeded "object references" ∨
    e = .limitExceeded "object bytes") (nodeSize payloadBytes children options) := by
  have hlen : ∀ a b, Fails (fun e => e = .limitExceeded "object references" ∨
      e = .limitExceeded "object bytes") (checkedNodeLen a b) := by
    intro a b
    unfold checkedNodeLen
    split
    · trivial
    · exact .inr rfl
  have hchildren : ∀ count len, Fails (fun e => e = .limitExceeded "object references" ∨
      e = .limitExceeded "object bytes") (nodeChildren options children count len) := by
    induction children with
    | nil => exact fun _ _ => trivial
    | cons child rest ih =>
        intro count len
        refine Fails.bind (fails_ensure (.inl rfl)) fun _ _ => ?_
        refine Fails.bind (hlen _ _) fun _ _ => Fails.bind (hlen _ _) fun _ _ => ?_
        exact Fails.bind (hlen _ _) fun _ _ => ih _ _
  refine Fails.bind (hchildren 0 0) fun _ _ => Fails.bind (fails_ensure (.inr rfl)) fun _ _ => ?_
  refine Fails.bind (Fails.foldlM (fun b a _ => hlen b a) 0) fun _ _ => ?_
  refine Fails.bind (Fails.foldlM (fun b a _ => hlen b a) 0) fun _ _ => ?_
  exact Fails.bind (fails_ensure (.inr rfl)) fun _ _ => trivial

end

/-! ## The encoder -/

/-- **What `encode_node` writes**: the envelope of the node's map, if it is within the limits. -/
theorem encodeNode_ok [Blake3] {node : Node} {options : Options} {encoded : Bytes} :
    encodeNode node options = .ok encoded ↔
      node.children.length ≤ options.maxObjectRefs.toNat ∧
        encodedLen node.payload.length (node.children.map ObjectRef.sizes) ≤
          options.maxObjectBytes.toNat ∧
        encoded = encodeEnvelope (nodePayload node node.children.length) := by
  have hfront : ∀ inner, (head 5 2 ++ uint 1 ++ head 2 inner).length = 2 + cborHeadLen inner := by
    intro inner
    simp only [List.length_append, uint, head_length]
    rfl
  -- the header that is written in advance is that of the map
  have hwritten : ∀ size : NodeSize, size.inner = (nodePayload node node.children.length).length →
      size.children = node.children.length →
      head 5 2 ++ uint 1 ++ head 2 size.inner ++ nodePayload node size.children ++ uint 2 ++
        bytes (Digest.of ((head 5 2 ++ uint 1 ++ head 2 size.inner ++
          nodePayload node size.children).drop (2 + cborHeadLen size.inner))).toBytes =
      encodeEnvelope (nodePayload node node.children.length) := by
    intro size hinner hchildren
    rw [hchildren, ← hfront, List.drop_left, hinner]
    simp [encodeEnvelope, record, bytes]
  have hsizes : (fun child : ObjectRef => (child.len, child.subtreeObjects)) = ObjectRef.sizes := rfl
  simp only [encodeNode, bind_ok, ensure_ok, exists_const, pure, Except.pure, Except.ok.injEq,
    hsizes, nodeSize_ok, List.length_map]
  constructor
  · rintro ⟨hrefs, size, ⟨-, hfits, rfl⟩, rfl⟩
    exact ⟨hrefs, hfits, hwritten _ (nodePayload_length node).symm rfl⟩
  · rintro ⟨hrefs, hfits, rfl⟩
    exact ⟨hrefs, _, ⟨hrefs, hfits, rfl⟩, hwritten _ (nodePayload_length node).symm rfl⟩

end ObjectLog
