import ObjectLog.Format.Objects

/-!
# Collection plans and recovery tokens
-/

namespace ObjectLog

open Cbor

variable [Blake3]

/-! ## Collection plans -/

/-- `CollectionPlan::candidate_bytes`. -/
def CollectionPlan.candidateBytes (plan : CollectionPlan) : Except Error UInt64 :=
  plan.candidates.foldlM (fun total candidate =>
    okOr (checkedAdd total candidate.bytes) (.limitExceeded "collection candidate bytes")) 0

/-- The candidates are strictly sorted by key. -/
def strictlySorted (candidates : List CollectionCandidate) : Prop :=
  (candidates.map CollectionCandidate.key).IsChain (· < ·)

instance (candidates : List CollectionCandidate) : Decidable (strictlySorted candidates) :=
  inferInstanceAs (Decidable ((candidates.map CollectionCandidate.key).IsChain (· < ·)))

/-- `CollectionPlan::validate`. -/
def CollectionPlan.validate (plan : CollectionPlan) (options : Options) : Except Error Unit := do
  ensure (plan.collectionEpoch ≠ 0) (invalid "collection plan epoch must be positive")
  ensure (plan.candidates ≠ []) (invalid "collection plan must contain a positive deletion set")
  ensure (plan.candidates.length ≤ options.maxCollectionObjects.toNat)
    (.limitExceeded "collection plan objects")
  ensure (strictlySorted plan.candidates)
    (invalid "collection plan candidates are not strictly sorted")
  let _ ← plan.candidateBytes
  return ()

/-- `ImmutableKindWire`. -/
def ImmutableKind.wire : ImmutableKind → Nat
  | .commit => 1
  | .blob => 2
  | .node => 3
  | .checkpoint => 4
  | .collectionPlan => 5

/-- `CollectionCandidateWire` of a candidate. -/
def CollectionCandidate.encode (c : CollectionCandidate) : Bytes :=
  record [(1, Cbor.bytes (Uuid.toBytes c.key.incarnation)), (2, uint c.key.kind.wire),
    (3, Cbor.bytes (Uuid.toBytes c.key.storageId.uuid)),
    (4, Cbor.bytes c.key.digest.toBytes), (5, u64 c.bytes)]

/-- `CollectionPlanWire` of a plan. -/
def CollectionPlan.wire (plan : CollectionPlan) : Bytes :=
  record [(1, uint formatVersion), (2, text plan.logId.value), (3, u64 plan.collectionEpoch),
    (4, array (plan.candidates.map CollectionCandidate.encode))]

/-- `encode_collection_plan`. -/
def encodeCollectionPlan (plan : CollectionPlan) (options : Options) : Except Error Bytes := do
  plan.validate options
  let encoded := encodeEnvelope plan.wire
  ensure (encoded.length ≤ options.maxCollectionPlanBytes.toNat)
    (.limitExceeded "encoded collection plan bytes")
  return encoded

/-- One candidate of `decode_collection_payload`. -/
def decodeCandidate : Dec CollectionCandidate := do
  let n ← Dec.exactMap
  Dec.valid (n = 5)
  Dec.field 1
  let incarnation ← uuidOf (← Dec.exactBytes) "object incarnation"
  Dec.field 2
  let kind ← match ← Dec.exactUint 8 with
    | 1 => pure ImmutableKind.commit
    | 2 => pure ImmutableKind.blob
    | 3 => pure ImmutableKind.node
    | 4 => pure ImmutableKind.checkpoint
    | 5 => pure ImmutableKind.collectionPlan
    | _ => throw (invalid "invalid immutable kind")
  Dec.field 3
  let storageId ← storageIdOf (← Dec.exactBytes)
  Dec.field 4
  let digest ← digestOf (← Dec.exactBytes)
  Dec.field 5
  let bytes ← Dec.exactU64
  return { key := { incarnation, kind, storageId, digest }, bytes }

/-- `decode_collection_payload`. -/
def decodeCollectionPayload (options : Options) : Dec CollectionPlan := do
  let n ← Dec.exactMap
  Dec.valid (n = 4)
  Dec.field 1
  requireVersion (← Dec.exactUint 32)
  Dec.field 2
  let id ← Dec.exactText
  ensure (id.length ≤ maxLogIdLen) .invalidLogId
  let logId ← LogId.new id
  Dec.field 3
  let collectionEpoch ← Dec.exactU64
  Dec.field 4
  let count ← Dec.exactArray
  ensure (count ≤ options.maxCollectionObjects.toNat) (.limitExceeded "collection plan objects")
  -- a canonical candidate needs at least 76 bytes
  Dec.valid (count ≤ (← get).length / 76)
  let candidates ← decTimes decodeCandidate count
  Dec.finished
  let plan : CollectionPlan := { logId, collectionEpoch, candidates }
  plan.validate options
  return plan

/-- `decode_collection_plan`. -/
def decodeCollectionPlan (input : Bytes) (options : Options) : Except Error CollectionPlan := do
  ensure (input.length ≤ options.maxCollectionPlanBytes.toNat)
    (.limitExceeded "encoded collection plan bytes")
  let payload ← decodeBorrowedEnvelope input
  Dec.run (decodeCollectionPayload options) payload

/-! ## Recovery tokens -/

structure RecoveryToken where
  headDigest : Digest
  publicationBaseDigest : Digest
  version : UpdateVersion
  generation : UInt64
  nextSequence : UInt64
  tip : Option Digest
  logId : LogId
  incarnation : Uuid
  optionsDigest : Digest
  transactionId : TransactionId
  operation : Bytes
  result : Bytes
  objects : List ObjectRef
  storageId : StorageId
  deriving DecidableEq

structure RecoveryTokenWire where
  formatVersion : Nat
  headDigest : Bytes
  eTag : Option Bytes
  storageVersion : Option Bytes
  transactionId : Bytes
  operation : Bytes
  result : Bytes
  objects : List ObjectRefWire
  storageId : Bytes
  publicationBaseDigest : Bytes
  generation : UInt64
  nextSequence : UInt64
  tip : Option Bytes
  logId : Bytes
  incarnation : Bytes
  optionsDigest : Bytes

def RecoveryTokenWire.encode (w : RecoveryTokenWire) : Bytes :=
  record ([(1, uint w.formatVersion), (2, bytes w.headDigest)] ++
    optional 3 (w.eTag.map text) ++ optional 4 (w.storageVersion.map text) ++
    [(5, bytes w.transactionId), (6, bytes w.operation), (7, bytes w.result),
      (8, array (w.objects.map ObjectRefWire.encode)), (9, bytes w.storageId),
      (10, bytes w.publicationBaseDigest), (11, u64 w.generation), (12, u64 w.nextSequence)] ++
    optional 13 (w.tip.map bytes) ++
    [(14, text w.logId), (15, bytes w.incarnation), (16, bytes w.optionsDigest)])

def RecoveryTokenWire.step : Nat → RecoveryTokenWire → Option (Reader RecoveryTokenWire)
  | 1, w => some do return { w with formatVersion := ← Reader.uint 32 }
  | 2, w => some do return { w with headDigest := ← Reader.bytes }
  | 3, w => some do return { w with eTag := ← Reader.nullable Reader.text }
  | 4, w => some do return { w with storageVersion := ← Reader.nullable Reader.text }
  | 5, w => some do return { w with transactionId := ← Reader.bytes }
  | 6, w => some do return { w with operation := ← Reader.bytes }
  | 7, w => some do return { w with result := ← Reader.bytes }
  | 8, w => some do return { w with objects := ← Reader.list ObjectRefWire.read }
  | 9, w => some do return { w with storageId := ← Reader.bytes }
  | 10, w => some do return { w with publicationBaseDigest := ← Reader.bytes }
  | 11, w => some do return { w with generation := ← readU64 }
  | 12, w => some do return { w with nextSequence := ← readU64 }
  | 13, w => some do return { w with tip := ← Reader.nullable Reader.bytes }
  | 14, w => some do return { w with logId := ← Reader.text }
  | 15, w => some do return { w with incarnation := ← Reader.bytes }
  | 16, w => some do return { w with optionsDigest := ← Reader.bytes }
  | _, _ => none

def RecoveryTokenWire.read : Reader RecoveryTokenWire :=
  Reader.struct [1, 2, 5, 6, 7, 8, 9, 10, 11, 12, 14, 15, 16] RecoveryTokenWire.step
    ⟨0, [], none, none, [], [], [], [], [], [], 0, 0, none, [], [], []⟩

/-- The bytes of a text. -/
def textBytes (s : String) : Bytes := s.toUTF8.data.toList

def textOf (value : Bytes) : Except Error String :=
  okOr (String.fromUTF8? (ByteArray.mk value.toArray)) cborError

def RecoveryToken.toWire (t : RecoveryToken) : RecoveryTokenWire where
  formatVersion := ObjectLog.formatVersion
  headDigest := t.headDigest.toBytes
  eTag := t.version.eTag.map textBytes
  storageVersion := t.version.version.map textBytes
  transactionId := Uuid.toBytes t.transactionId.uuid
  operation := t.operation
  result := t.result
  objects := t.objects.map ObjectRef.toWire
  storageId := Uuid.toBytes t.storageId.uuid
  publicationBaseDigest := t.publicationBaseDigest.toBytes
  generation := t.generation
  nextSequence := t.nextSequence
  tip := t.tip.map Digest.toBytes
  logId := t.logId.value
  incarnation := Uuid.toBytes t.incarnation
  optionsDigest := t.optionsDigest.toBytes

def RecoveryToken.ofWire (w : RecoveryTokenWire) : Except Error RecoveryToken := do
  -- the texts were checked when they were read
  let eTag ← w.eTag.mapM textOf
  let version ← w.storageVersion.mapM textOf
  let headDigest ← digestOf w.headDigest
  let publicationBaseDigest ← digestOf w.publicationBaseDigest
  let tip ← w.tip.mapM digestOf
  let logId ← LogId.new w.logId
  let incarnation ← uuidOf w.incarnation "log incarnation"
  let optionsDigest ← digestOf w.optionsDigest
  let transactionId ← transactionIdOf w.transactionId
  let storageId ← storageIdOf w.storageId
  let objects ← w.objects.mapM ObjectRef.ofWire
  return { headDigest, publicationBaseDigest, version := { eTag, version },
           generation := w.generation, nextSequence := w.nextSequence, tip, logId, incarnation,
           optionsDigest, transactionId, operation := w.operation, result := w.result, objects,
           storageId }

/-- `RecoveryToken::encode`. -/
def RecoveryToken.encode (t : RecoveryToken) : Bytes := encodeEnvelope t.toWire.encode

structure EnvelopeWire where
  payload : Bytes
  digest : Bytes

def EnvelopeWire.step : Nat → EnvelopeWire → Option (Reader EnvelopeWire)
  | 1, w => some do return { w with payload := ← Reader.bytes }
  | 2, w => some do return { w with digest := ← Reader.bytes }
  | _, _ => none

/-- `decode_envelope`: the payload of an envelope in any form the library reads. -/
def decodeEnvelope (input : Bytes) : Except Error Bytes := do
  let envelope ← decodeExact (Reader.struct [1, 2] EnvelopeWire.step ⟨[], []⟩) input
  let digest ← digestOf envelope.digest
  ensure (digest = Digest.of envelope.payload) .corruptObject
  return envelope.payload

/-- `decode_recovery_token`. -/
def decodeRecoveryToken (input : Bytes) : Except Error RecoveryToken := do
  let payload ← decodeEnvelope input
  let wire ← decodeExact RecoveryTokenWire.read payload
  requireVersion wire.formatVersion
  let recovered ← RecoveryToken.ofWire wire
  ensure (recovered.nextSequence ≤ recovered.generation ∧
      recovered.tip.isSome = decide (0 < recovered.nextSequence))
    (invalid "recovery token source position is invalid")
  requireCanonical input recovered.encode
  return recovered

/-- `publication_base_digest`: the head without its retentions and without the
generations they took. -/
def publicationBase (h : Head) : Head :=
  { h with generation := max h.nextSequence h.collectionEpoch, retentionIds := ∅ }

def publicationBaseDigest (h : Head) : Except Error Digest := do
  return Digest.of (← encodeHead (publicationBase h))

/-- `options_digest`. -/
def optionsDigest (options : Options) : Digest := Digest.of options.encode

end ObjectLog
