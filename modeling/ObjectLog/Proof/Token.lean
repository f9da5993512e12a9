import ObjectLog.Proof.Candidate

/-!
# Recovery tokens

A token carries a candidate across processes. It names the head the candidate was prepared
on by two digests: one of the head, one of its publication base, which is the head without
what retentions change. What a handle computes from the token is what it would compute from
the candidate itself.
-/

set_option linter.unusedSectionVars false

namespace ObjectLog

open Rely

variable [Blake3] {s s' u : State} {t L : Nat} {log : Log} {ref : CommitRef}
  {p p₀ : PreparedCommit} {h h' : Head} {v v' : UpdateVersion} {i j : Nat}

/-! ## The publication base -/

theorem publicationBase_valid (hv : h.Valid) : (publicationBase h).Valid where
  tailLen := hv.tailLen
  outcomesLen := hv.outcomesLen
  generation := by
    unfold publicationBase
    simp only
    rw [UInt64.toNat_max]
    exact le_max_left _ _
  epoch := by
    unfold publicationBase
    simp only
    rw [UInt64.toNat_max]
    exact le_max_right _ _
  retentions := by simp [publicationBase]
  fence := fun _ => rfl
  planEpoch := hv.planEpoch
  planLen := hv.planLen
  baseKind := hv.baseKind
  start := hv.start
  tail := hv.tail
  next := hv.next
  outcomesCount := hv.outcomesCount
  outcomes := hv.outcomes
  anchor := hv.anchor
  distinct := hv.distinct

/-- The digest of the publication base of a valid head exists. -/
theorem publicationBaseDigest_ok (hv : h.Valid) : ∃ bytes,
    encodeHead (publicationBase h) = .ok bytes ∧
      publicationBaseDigest h = .ok (Digest.of bytes) := by
  obtain ⟨bytes, hb⟩ := encodeHead_of_valid (publicationBase_valid hv)
  refine ⟨bytes, hb, ?_⟩
  unfold publicationBaseDigest
  rw [hb]
  rfl

theorem sameBase_iff_publicationBase : SameBase h h' ↔ publicationBase h = publicationBase h' := by
  rw [sameBase_iff]
  unfold publicationBase
  constructor
  · rintro ⟨e1, e2, e3, e4, e5, e6, e7, e8, e9⟩
    simp only [e1, e2, e3, e4, e5, e6, e7, e8, e9]
  · intro e
    simp only [Head.mk.injEq] at e
    tauto

/-- The encoding of the publication base is not longer than that of the head. -/
theorem publicationBase_encode_length (hv : h.Valid) :
    (publicationBase h).toWire.encode.length ≤ h.toWire.encode.length := by
  have hgen : (max h.nextSequence h.collectionEpoch).toNat ≤ h.generation.toNat := by
    rw [UInt64.toNat_max]
    exact max_le hv.generation hv.epoch
  have h1 := Cbor.head_length_mono 0 hgen
  have h2 := Cbor.head_length_mono 4 (Nat.zero_le (ascending h.retentionIds).length)
  simp only [HeadWire.encode, Head.toWire, publicationBase, Cbor.record, u64, Cbor.uint, Cbor.array,
    List.length_append, List.flatMap_append, List.flatMap_cons, List.flatMap_nil, List.length_nil,
    List.length_cons, ascending_eq_sort, Finset.sort_empty, List.map_nil, List.flatten_nil,
    List.length_map] at h1 h2 ⊢
  omega

/-- The publication base of a durable head can be read back. -/
theorem State.HeadAt.decodeBase (inv : Inv s) (hh : s.HeadAt i h v) {a : Bytes}
    (ha : encodeHead (publicationBase h) = .ok a) : decodeHead a = .ok (publicationBase h) := by
  refine decodeHead_encodeHead ha (hh.counted inv : h.Counted) ?_
  obtain ⟨bytes, hst, hd⟩ := hh
  obtain ⟨henc, hv⟩ := decodeHead_ok hd
  obtain ⟨h₁, hd₁, hlen⟩ := inv.heads _ (List.mem_of_getElem? hst)
  simp only [encodeHead, bind_ok, pure, Except.pure, Except.ok.injEq] at ha henc
  obtain ⟨_, -, rfl⟩ := ha
  obtain ⟨_, -, rfl⟩ := henc
  have hmono := encodeEnvelope_length_mono (publicationBase_encode_length hv)
  have hmax : h₁.options.maxHeadBytes.toNat < 2 ^ 64 := UInt64.toNat_lt _
  simp only at hlen
  omega

/-- Two durable heads with one publication base digest have one publication base. -/
theorem Good.sameBase (g : Good s) (hh : s.HeadAt i h v) (hh' : s.HeadAt j h' v') {a b : Bytes}
    (ha : encodeHead (publicationBase h) = .ok a) (hb : encodeHead (publicationBase h') = .ok b)
    (hd : Digest.of a = Digest.of b) : SameBase h h' := by
  obtain rfl := g.noCollision i j h h' v v' a b hh hh' ha hb hd
  rw [sameBase_iff_publicationBase]
  exact Except.ok.inj ((hh.decodeBase g.inv ha).symm.trans (hh'.decodeBase g.inv hb))

/-! ## What a token says -/

/-- The token of a candidate, with the two digests of its head. -/
def PreparedCommit.toToken (p : PreparedCommit) (headDigest baseDigest : Digest) :
    RecoveryToken where
  headDigest := headDigest
  publicationBaseDigest := baseDigest
  version := p.view.version
  generation := p.view.head.generation
  nextSequence := p.view.head.nextSequence
  tip := p.view.head.tip
  logId := p.view.head.logId
  incarnation := p.view.head.incarnation
  optionsDigest := optionsDigest p.view.head.options
  transactionId := p.transactionId
  operation := p.operation
  result := p.result
  objects := p.objects
  storageId := p.storageId

theorem encodeRecoveryToken_ok {token : Bytes} (h : encodeRecoveryToken p = .ok token) :
    ∃ encoded base, encodeHead p.view.head = .ok encoded ∧
      encodeHead (publicationBase p.view.head) = .ok base ∧
      token = (p.toToken (Digest.of encoded) (Digest.of base)).encode := by
  simp only [encodeRecoveryToken, publicationBaseDigest, bind_ok, pure, Except.pure,
    Except.ok.injEq] at h
  obtain ⟨encoded, he, _, ⟨base, hb, rfl⟩, rfl⟩ := h
  exact ⟨encoded, base, he, hb, rfl⟩

/-- A head has a tip when something was published before it. -/
theorem Head.Valid.tip_isSome (hv : h.Valid) : h.tip.isSome = decide (0 < h.nextSequence) := by
  have hpos : 0 < h.nextSequence ↔ 0 < h.start + h.tail.length := by
    rw [← hv.next]
    exact UInt64.lt_iff_toNat_lt
  rw [Bool.eq_iff_iff, decide_eq_true_iff, hpos, Head.tip, Option.isSome_or, Bool.or_eq_true]
  rcases List.eq_nil_or_concat h.tail with htail | ⟨front, last, htail⟩
  · -- only a checkpoint can have left a tip
    rw [htail]
    unfold Head.start
    cases h.checkpoint with
    | none => simp
    | some c => simp
  · rw [htail]
    simp

/-- What the objects of a candidate are. -/
theorem State.PreparedOK.stored (hp : s.PreparedOK L p) (hl : s.LogOK log) (inv : Inv s) :
    (∀ o ∈ p.objects, Stored s.body log.incarnation log.options o) ∧
      log.validatePreparedSizes p.operation p.result = .ok () ∧
      log.validateDependencies p.objects = .ok () ∧
      p.view.head.tail.length < log.options.maxTailEntries.toNat := by
  obtain ⟨q, log₀, p₀, hp₀, hs, -, hobj, -⟩ := hp.candidate hl inv
  obtain ⟨⟨⟨i, hi, hh⟩, -⟩, q', log', p', hp', h1, h2, h3, h4, h5, hs'⟩ := hp
  have d := hp'.preparedBy inv
  obtain ⟨b, -, ⟨k, -, hk⟩, -⟩ := d.begun
  have e := hl.head inv hh
  have e' := hl.head inv hk
  have e'' := d.handle.head inv hk
  have hopt : log'.options = log.options := e''.2.2.symm.trans e'.2.2
  refine ⟨fun o ho => ?_, ?_, ?_, ?_⟩
  · rw [h5] at ho
    rw [← e'.2.1, ← e'.2.2]
    exact (d.proven o ho).stored
  · have := d.sizes
    rw [validatePreparedSizes_ok] at this ⊢
    rw [h3, h4, ← hopt]
    exact this
  · rw [h5, ← validateDependencies_congr hopt]
    exact d.dependencies
  · have := (validateCommitPosition_ok.1 d.position).1
    rw [hopt] at this
    rw [← (sameBase_iff.1 hs').2.2.2.2.2.1]
    exact this

/-- **A token that was handed out decodes**, to the candidate it was made from. -/
theorem State.TokenOK.decode {token : Bytes} (h : s.TokenOK L token) (hl : s.LogOK log)
    (inv : Inv s) : ∃ p encoded base, s.PreparedOK L p ∧
      encodeHead p.view.head = .ok encoded ∧
      encodeHead (publicationBase p.view.head) = .ok base ∧
      decodeRecoveryToken token = .ok (p.toToken (Digest.of encoded) (Digest.of base)) := by
  obtain ⟨p, hp, he, hlen⟩ := h
  obtain ⟨encoded, base, henc, hbase, rfl⟩ := encodeRecoveryToken_ok he
  refine ⟨p, encoded, base, hp, henc, hbase, decodeRecoveryToken_encode ?_ ⟨?_, ?_⟩ hlen⟩
  · intro r hr
    obtain ⟨_, m⟩ := ((hp.stored hl inv).1 r hr).matches
    exact m.counted
  · obtain ⟨⟨i, -, hh⟩, -⟩ := hp.1
    exact UInt64.le_iff_toNat_le.2 hh.valid.generation
  · obtain ⟨⟨i, -, hh⟩, -⟩ := hp.1
    exact hh.valid.tip_isSome

/-- **Cold and warm recovery compute the same reference.** -/
theorem recoveredCommitRef_toToken (d d' : Digest) (hv : log.validateView p.view = .ok ())
    (hs : log.validatePreparedSizes p.operation p.result = .ok ())
    (hd : log.validateDependencies p.objects = .ok ()) :
    log.recoveredCommitRef (p.toToken d d') = (log.encodePrepared p).map Prod.fst := by
  obtain ⟨e1, e2, e3⟩ := validateView_ok.1 hv
  unfold Log.recoveredCommitRef Log.encodePrepared Log.preparedCommit PreparedCommit.toToken
  simp only [e1, e2, e3, hs, hd, ensure, if_true, bind, Except.bind]
  generalize encodeCommit _ = bytes
  by_cases hfits : bytes.length ≤ log.options.maxCommitBytes.toNat
  · simp only [hfits, if_true]
    cases commitReference p.view.head.nextSequence p.transactionId p.storageId bytes <;> rfl
  · simp only [hfits, if_false]
    rfl

end ObjectLog
