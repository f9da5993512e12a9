import ObjectLog.Format.Plan
import ObjectLog.Lib.Search

/-!
# The values a caller holds

Handles, views, staging proofs and publication evidence. Two of them have an identity
that the source compares by pointer: a staging domain (`Arc<StagingDomain>`) and the
observed state behind a view (`Arc<ObservedState>`), which carries two caches shared by
every clone of the view. Both identities are numbers here, drawn when the source
allocates.
-/

namespace ObjectLog

/-- The identity of one `Arc<StagingDomain>`. -/
abbrev Domain := Nat

/-- The identity of one `Arc<ObservedState>`. -/
abbrev ViewId := Nat

/-- One observed state of the head. -/
structure View where
  id : ViewId
  head : Head
  version : UpdateVersion
  deriving DecidableEq

/-- One handle of the log. Clones share the staging domain; a request guard does not
change the value, since any request of any handle may be denied. -/
structure Log where
  logId : LogId
  options : Options
  incarnation : Uuid
  stagingDomain : Domain
  deriving DecidableEq

/-- A proof that the complete graph under `object` was durable at a collection epoch. -/
structure StagedObject where
  object : ObjectRef
  domain : Domain
  collectionEpoch : UInt64
  deriving DecidableEq

structure PreparedCommit where
  view : View
  stagingDomain : Domain
  transactionId : TransactionId
  storageId : StorageId
  operation : Bytes
  result : Bytes
  objects : List ObjectRef
  deriving DecidableEq

structure PendingCommit where
  prepared : Option PreparedCommit
  commitRef : CommitRef
  token : Option Bytes
  deriving DecidableEq

structure PendingCheckpoint where
  view : View
  stagingDomain : Domain
  through : CommitRef
  checkpoint : CheckpointRef
  deriving DecidableEq

structure CommitRecord where
  reference : CommitRef
  expectedTip : Option Digest
  operation : Bytes
  result : Bytes
  objects : List ObjectRef
  deriving DecidableEq

structure CheckpointRecord where
  snapshot : Bytes
  objects : List ObjectRef
  deriving DecidableEq

/-! ## Outcomes -/

inductive CommitStatus
  | committed (view : View)
  | conflict (view : View)
  | pending (pending : PendingCommit)
  deriving DecidableEq

inductive Resolution
  | committed (view : View)
  | notCommitted (view : View)
  | stillPending (pending : PendingCommit)
  | expired (view : View)
  deriving DecidableEq

inductive CheckpointStatus
  | published (view : View)
  | conflict (view : View)
  | pending (pending : PendingCheckpoint)
  deriving DecidableEq

inductive CheckpointResolution
  | published (view : View)
  | notPublished (view : View)
  | stillPending (pending : PendingCheckpoint)
  | expired (view : View)
  deriving DecidableEq

inductive RetentionStatus
  | applied (view : View)
  | activeCollection (view : View)
  | conflict (view : View)
  | pending
  deriving DecidableEq

structure CollectionReport where
  candidateCount : Nat
  candidateBytes : UInt64
  deleteAttempts : Nat
  deriving DecidableEq

inductive CollectionStart
  | empty (report : CollectionReport)
  | installed (view : View) (report : CollectionReport)
  | active (view : View)
  | retained (view : View)
  | conflict (view : View)
  | pending
  deriving DecidableEq

inductive CollectionFinish
  | complete (view : View) (report : CollectionReport)
  | conflict (view : View) (report : CollectionReport)
  | pending (report : CollectionReport)
  deriving DecidableEq

inductive HeadPublication
  | updated (view : View)
  | changed (current : View) (attemptedGeneration : UInt64)
  | contended (view : View)
  | pending

inductive CheckpointEvidence
  | published (view : View)
  | notPublished (view : View)
  | expired (view : View)

/-! ## Physical keys -/

/-- The kind of the key of an object. -/
def ObjectKind.immutable : ObjectKind → ImmutableKind
  | .blob => .blob
  | .node => .node
  | .checkpoint => .checkpoint

/-- `Log::object_immutable_key`. -/
def objectKey (incarnation : Uuid) (object : ObjectRef) : ImmutableKey where
  incarnation := incarnation
  kind := object.kind.immutable
  storageId := object.storageId
  digest := object.digest

/-- `Log::commit_immutable_key`. -/
def commitKey (incarnation : Uuid) (reference : CommitRef) : ImmutableKey where
  incarnation := incarnation
  kind := .commit
  storageId := reference.storageId
  digest := reference.digest

/-- `Log::collection_plan_key`. -/
def collectionPlanKey (incarnation : Uuid) (reference : CollectionPlanRef) : ImmutableKey where
  incarnation := incarnation
  kind := .collectionPlan
  storageId := reference.storageId
  digest := reference.digest

/-! ## Checks of a handle -/

/-- `Log::validate_view`. -/
def Log.validateView (log : Log) (view : View) : Except Error Unit := do
  ensure (view.head.logId = log.logId) (invalid "the view belongs to another log")
  ensure (view.head.incarnation = log.incarnation)
    (invalid "the view belongs to another log incarnation")
  ensure (view.head.options = log.options) (.configurationMismatch "options")

/-- `Log::validate_prepared_sizes`. -/
def Log.validatePreparedSizes (log : Log) (operation result : Bytes) : Except Error Unit := do
  ensure (operation.length ≤ log.options.maxInlineOperationBytes.toNat)
    (.limitExceeded "inline operation bytes")
  ensure (result.length ≤ log.options.maxInlineResultBytes.toNat)
    (.limitExceeded "inline result bytes")

/-- `Log::publication_objects`. -/
def Log.publicationObjects (log : Log) (objects : List ObjectRef) : Except Error UInt64 := do
  let count ← subtreeObjects objects
  ensure (count ≤ log.options.maxCollectionObjects) (.limitExceeded "publication objects")
  return count

/-- `Log::validate_dependencies`. -/
def Log.validateDependencies (log : Log) (objects : List ObjectRef) : Except Error Unit := do
  ensure (objects.length ≤ log.options.maxObjectRefs.toNat) (.limitExceeded "object references")
  ensure (∀ object ∈ objects, object.kind ≠ .checkpoint)
    (invalid "application dependencies cannot name a checkpoint")
  let _ ← log.publicationObjects objects
  return ()

/-- `Log::proof_matches`. -/
def Log.proofMatches (log : Log) (proof : Domain) : Bool := proof == log.stagingDomain

/-- `Log::staged_object`. -/
def Log.stagedObject (log : Log) (view : View) (object : ObjectRef) : StagedObject where
  object := object
  domain := log.stagingDomain
  collectionEpoch := view.head.collectionEpoch

/-- `Log::validate_staged_object`. -/
def Log.validateStagedObject (log : Log) (view : View) (object : StagedObject) :
    Except Error Unit :=
  ensure (object.domain = log.stagingDomain ∧ object.collectionEpoch = view.head.collectionEpoch)
    .invalidStagedObject

/-- `Log::validate_staged_objects`. -/
def Log.validateStagedObjects (log : Log) (view : View) (objects : List StagedObject) :
    Except Error Unit := do
  log.validateView view
  ensure (objects.length ≤ log.options.maxObjectRefs.toNat) (.limitExceeded "object references")
  objects.forM (log.validateStagedObject view)

/-- `Log::validate_commit_position`. -/
def Log.validateCommitPosition (log : Log) (view : View) (transactionId : TransactionId) :
    Except Error Unit := do
  ensure (view.head.tail.length < log.options.maxTailEntries.toNat)
    (.limitExceeded "active tail entries")
  ensure (∀ entry ∈ view.head.tail ++ view.head.recentOutcomes,
      entry.transactionId ≠ transactionId) (invalid "the transaction ID is already committed")

/-- `Log::validate_head_size`. -/
def validateHeadSize (options : Options) (bytes : Bytes) : Except Error Unit :=
  ensure (bytes.length ≤ options.maxHeadBytes.toNat) (.limitExceeded "encoded head bytes")

/-- `Log::validate_checkpoint_bytes`. -/
def Log.validateCheckpointBytes (log : Log) (len : Nat) : Except Error Unit := do
  ensure (len ≤ log.options.maxCheckpointBytes.toNat) (.limitExceeded "encoded checkpoint bytes")
  ensure (len ≤ log.options.maxObjectBytes.toNat) (.limitExceeded "object bytes")

/-- `Log::commit_read_window`. -/
def Log.commitReadWindow (log : Log) (cap : Nat) : Nat :=
  min cap (max (log.options.maxObjectBytes.toNat / max log.options.maxCommitBytes.toNat 1) 1)

/-- `Log::is_collection_candidate`. -/
def isCollectionCandidate (candidates : List CollectionCandidate) (key : ImmutableKey) : Bool :=
  (Search.binarySearchByKey candidates CollectionCandidate.key key).isSome

section

variable [Blake3]

/-- The body a prepared commit stands for. -/
def Log.preparedCommit (log : Log) (prepared : PreparedCommit) : Commit where
  logId := log.logId
  incarnation := log.incarnation
  transactionId := prepared.transactionId
  expectedTip := prepared.view.head.tip
  operation := prepared.operation
  result := prepared.result
  objects := prepared.objects

/-- The reference under which a commit body is published. -/
def commitReference (sequence : UInt64) (transactionId : TransactionId) (storageId : StorageId)
    (bytes : Bytes) : Except Error CommitRef := do
  let len ← okOr (toU64 bytes.length) (.limitExceeded "commit byte length")
  return { sequence, transactionId, storageId, digest := Digest.of bytes, len }

/-- `Log::encode_prepared`. -/
def Log.encodePrepared (log : Log) (prepared : PreparedCommit) :
    Except Error (CommitRef × Bytes) := do
  let bytes := encodeCommit (log.preparedCommit prepared)
  ensure (bytes.length ≤ log.options.maxCommitBytes.toNat) (.limitExceeded "encoded commit bytes")
  let reference ← commitReference prepared.view.head.nextSequence prepared.transactionId
    prepared.storageId bytes
  return (reference, bytes)

/-- `Log::validate_prepared`. -/
def Log.validatePrepared (log : Log) (prepared : PreparedCommit) : Except Error Unit := do
  log.validateView prepared.view
  log.validatePreparedSizes prepared.operation prepared.result
  log.validateDependencies prepared.objects
  log.validateCommitPosition prepared.view prepared.transactionId

/-- `encode_recovery_token`. -/
def encodeRecoveryToken (prepared : PreparedCommit) : Except Error Bytes := do
  let head := prepared.view.head
  let encoded ← encodeHead head
  let publicationBaseDigest ← publicationBaseDigest head
  return RecoveryToken.encode
    { headDigest := Digest.of encoded
      publicationBaseDigest
      version := prepared.view.version
      generation := head.generation
      nextSequence := head.nextSequence
      tip := head.tip
      logId := head.logId
      incarnation := head.incarnation
      optionsDigest := optionsDigest head.options
      transactionId := prepared.transactionId
      operation := prepared.operation
      result := prepared.result
      objects := prepared.objects
      storageId := prepared.storageId }

/-- `PendingCommit::recovery_token`. -/
def PendingCommit.recoveryToken (pending : PendingCommit) : Except Error Bytes :=
  match pending.prepared, pending.token with
  | some prepared, _ => encodeRecoveryToken prepared
  | none, some token => .ok token
  | none, none => .error (invalid "pending commit has no recovery evidence")

/-- `Log::verify_object`. -/
def verifyObject (object : ObjectRef) (bytes : Bytes) : Except Error Unit := do
  object.validateCount
  let len ← okOr (toU64 bytes.length) (.limitExceeded "object byte length")
  ensure (len = object.len ∧ Digest.of bytes = object.digest) .corruptObject

/-- `Log::decode_node_reference`. -/
def Log.decodeNodeReference (log : Log) (object : ObjectRef) (bytes : Bytes) :
    Except Error Node := do
  let node ← decodeNode bytes log.options
  ensure (object.subtreeObjects = (← subtreeObjects node.children)) .corruptObject
  return node

/-- `Log::decode_checkpoint_reference`. -/
def Log.decodeCheckpointReference (log : Log) (reference : CheckpointRef) (bytes : Bytes) :
    Except Error Checkpoint := do
  let checkpoint ← decodeCheckpoint bytes
  log.validateDependencies checkpoint.objects
  ensure (reference.object.subtreeObjects = (← subtreeObjects checkpoint.objects)) .corruptObject
  ensure (checkpoint.logId = log.logId ∧ checkpoint.incarnation = log.incarnation ∧
      checkpoint.throughSequence = reference.throughSequence ∧
      checkpoint.throughCommit = reference.throughCommit)
    (invalid "a checkpoint does not match its index reference")
  return checkpoint

end

end ObjectLog
