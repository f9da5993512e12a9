import ObjectLog.Log.Graph

/-!
# Staging and publication

New objects under fresh physical identities, and the publication of commits and
checkpoints: sixteen attempts to replace the head, each rebuilt from the newest head as
long as that head still has the publication base of the candidate.
-/

namespace ObjectLog

open Rely

variable [Blake3]

/-! ## Creating immutable objects -/

/-- `Log::ensure_immutable`. -/
def ensureImmutable (key : ImmutableKey) (bytes : Bytes) : Op Unit := do
  let createError ← match ← (create key bytes).attempt with
    | .ok true => return ()
    | .ok false => pure none
    | .error error => pure (some error)
  match ← readKey key bytes.length with
  | some stored => if stored = bytes then return () else throw .corruptObject
  | none => throw (createError.getD (invalid "an immutable object is missing"))

/-- The attempts of `Log::create_fresh_object_with`. -/
def Log.createFresh (log : Log) (kind : ObjectKind) (bytes : Bytes) (len subtree : UInt64)
    (blocked : Option (List CollectionCandidate)) : Nat → Op ObjectRef
  | 0 => throw (.limitExceeded "fresh physical storage identity")
  | attempts + 1 => do
      let storageId ← newStorageId
      let object : ObjectRef :=
        { kind, storageId, digest := Digest.of bytes, len, subtreeObjects := subtree }
      let key := objectKey log.incarnation object
      if blocked.any (isCollectionCandidate · key) then
        return ← log.createFresh kind bytes len subtree blocked attempts
      if ← create key bytes then return object
      log.createFresh kind bytes len subtree blocked attempts

def maxFreshObjectAttempts : Nat := 16

/-- `Log::create_fresh_object_with`. -/
def Log.createFreshObject (log : Log) (kind : ObjectKind) (bytes : Bytes) (subtree : UInt64)
    (blocked : Option (List CollectionCandidate)) : Op ObjectRef := do
  let len ← Prog.lift (okOr (toU64 bytes.length) (.limitExceeded "object byte length"))
  log.createFresh kind bytes len subtree blocked maxFreshObjectAttempts

/-- `Log::put_object`. -/
def Log.putObject (log : Log) (view : View) (bytes : Bytes) : Op StagedObject := do
  Prog.lift (log.validateView view)
  Prog.lift (ensure (bytes.length ≤ log.options.maxObjectBytes.toNat)
    (.limitExceeded "object bytes"))
  let blocked ← log.activeCollectionCandidates view
  let object ← log.createFreshObject .blob bytes 1 blocked
  return log.stagedObject view object

/-- `Log::put_node`. -/
def Log.putNode (log : Log) (view : View) (payload : Bytes) (children : List StagedObject) :
    Op StagedObject := do
  Prog.lift (log.validateStagedObjects view children)
  let node : Node := { payload, children := children.map StagedObject.object }
  let subtree ← Prog.lift (subtreeObjects node.children)
  let bytes ← Prog.lift (encodeNode node log.options)
  let blocked ← log.activeCollectionCandidates view
  let object ← log.createFreshObject .node bytes subtree blocked
  return log.stagedObject view object

/-- `Log::stage_objects`. -/
def Log.stageObjects (log : Log) (view : View) (objects : List ObjectRef) :
    Op (List StagedObject) := do
  Prog.lift (log.validateView view)
  Prog.lift (log.validateDependencies objects)
  let _ ← log.verifyPublicationDependencies view objects
  return objects.map (log.stagedObject view)

/-! ## Replacing the head -/

/-- `Log::update_head`. -/
def Log.updateHead (log : Log) (current : View) (candidate : Head) : Op (Option View) := do
  let bytes ← Prog.lift (encodeHead candidate)
  Prog.lift (validateHeadSize log.options bytes)
  match ← update bytes current.version with
  | none => return none
  | some version => return some (← newView candidate version)

/-- The attempts of a publication after the first (`MAX_HEAD_PUBLICATION_ATTEMPTS` is
sixteen). -/
def furtherAttempts : Nat := 15

/-- One turn of `Log::publish_head_compatible`. A head that only moved compatibly goes
to `again`. -/
def Log.publishAttempt (log : Log) (source : View) (candidate : View → Except Error Head)
    (compatible : Head → Head → Bool) (again : View → Op HeadPublication) (view : View) :
    Op HeadPublication := do
  let head ← Prog.lift (candidate view)
  match ← (log.updateHead view head).attempt with
  | .ok (some next) => return .updated next
  | .ok none =>
      match ← publicationEvidence log.load with
      | none => return .pending
      | some current =>
          if ¬ compatible source.head current.head then
            return .changed current view.head.generation
          if current.head = view.head ∧ current.version = view.version then return .pending
          if current.head.generation ≤ view.head.generation then
            throw (invalid "head version changed without a monotonic head change")
          again current
  | .error (.store _) => return .pending
  | .error error => throw error

/-- `Log::publish_head_compatible`, from the attempt that `further` attempts can follow. -/
def Log.publishAttempts (log : Log) (source : View) (candidate : View → Except Error Head)
    (compatible : Head → Head → Bool) : Nat → View → Op HeadPublication
  | 0 => log.publishAttempt source candidate compatible fun current => return .contended current
  | further + 1 => log.publishAttempt source candidate compatible
      (log.publishAttempts source candidate compatible further)

/-- `Log::publish_head`. -/
def Log.publishHead (log : Log) (source : View) (candidate : View → Except Error Head) :
    Op HeadPublication :=
  log.publishAttempts source candidate Head.hasSamePublicationBase furtherAttempts source

/-- `Log::publish_checkpoint_head`. -/
def Log.publishCheckpointHead (log : Log) (source : View) (candidate : View → Except Error Head) :
    Op HeadPublication :=
  log.publishAttempts source candidate Head.hasCheckpointAppendBase furtherAttempts source

/-- `Log::compatible_publication_view`. -/
def compatiblePublicationView (source current : View) (compatible : Head → Head → Bool) :
    Except Error (Option View) :=
  if current.head = source.head ∧ current.version = source.version then .ok (some current)
  else if ¬ compatible source.head current.head then .ok none
  else if current.head.generation ≤ source.head.generation then
    .error (invalid "head version changed without a monotonic head change")
  else .ok (some current)

/-! ## Commits -/

/-- `Log::prepare`. -/
def Log.prepare (log : Log) (view : View) (transactionId : TransactionId)
    (operation result : Bytes) (objects : List StagedObject) : Op PreparedCommit := do
  Prog.lift (log.validateStagedObjects view objects)
  let _ ← Prog.lift (log.publicationObjects (objects.map StagedObject.object))
  Prog.lift (log.validatePreparedSizes operation result)
  Prog.lift (log.validateCommitPosition view transactionId)
  let storageId ← newStorageId
  return { view, stagingDomain := log.stagingDomain, transactionId, storageId, operation, result,
           objects := objects.map StagedObject.object }

/-- `Log::contains_commit`. -/
def containsCommit (view : View) (target : CommitRef) : Bool :=
  (view.head.tail ++ view.head.recentOutcomes).contains target

/-- `Log::tail_contains`. -/
def tailContains (view : View) (target : CommitRef) : Bool := view.head.tail.contains target

/-- What the head says about a candidate. -/
inductive Classification
  | committed
  | notCommitted
  | expired
  deriving DecidableEq

/-- `Log::classify_resolution`, which answers with the view it was given. -/
def classifyResolution (target : CommitRef) (current : View) : Except Error Classification :=
  if containsCommit current target then .ok .committed
  else if target.sequence < current.head.nextSequence then
    if (current.head.tail ++ current.head.recentOutcomes).any
        (fun entry => entry.sequence == target.sequence) then .ok .notCommitted
    else .ok .expired
  else if current.head.nextSequence < target.sequence then
    .error (invalid "the head precedes the pending commit position")
  else .ok .notCommitted

/-- The resolution with the view. -/
def Classification.resolution (classification : Classification) (view : View) : Resolution :=
  match classification with
  | .committed => .committed view
  | .notCommitted => .notCommitted view
  | .expired => .expired view

/-- `Log::commit`. -/
def Log.commit (log : Log) (prepared : PreparedCommit) : Op CommitStatus := do
  Prog.lift (log.validatePrepared prepared)
  let (commitRef, commitBytes) ← Prog.lift (log.encodePrepared prepared)
  log.verifyPublication prepared.view (commitKey log.incarnation commitRef) prepared.objects
    prepared.stagingDomain
  ensureImmutable (commitKey log.incarnation commitRef) commitBytes
  let prepared := { prepared with stagingDomain := log.stagingDomain }
  let pending : PendingCommit := { prepared := some prepared, commitRef, token := none }
  match ← log.publishHead prepared.view (fun view => candidateHead view.head commitRef) with
  | .updated next =>
      if ← log.tailIsVerified prepared.view then log.rememberTail next
      return .committed next
  | .pending => return .pending pending
  | .contended current => return .conflict current
  | .changed current _ =>
      match ← Prog.lift (classifyResolution commitRef current) with
      | .committed => return .committed current
      | .notCommitted => return .conflict current
      | .expired => return .pending pending

/-- `Log::validate_pending`. -/
def Log.validatePending (log : Log) (prepared : PreparedCommit) (commitRef : CommitRef) :
    Except Error Unit := do
  log.validateView prepared.view
  log.validatePreparedSizes prepared.operation prepared.result
  log.validateDependencies prepared.objects
  ensure (prepared.view.head.tail.length < log.options.maxTailEntries.toNat)
    (.limitExceeded "active tail entries")
  let (expectedRef, _) ← log.encodePrepared prepared
  ensure (expectedRef = commitRef) (invalid "pending commit evidence does not match its candidate")

/-- `Log::resolve` of a candidate the process still has in memory. -/
def Log.resolvePrepared (log : Log) (prepared : PreparedCommit) (commitRef : CommitRef)
    (token : Option Bytes) : Op Resolution := do
  let pending : PendingCommit := { prepared := some prepared, commitRef, token }
  Prog.lift (log.validatePending prepared commitRef)
  match ← publicationEvidence log.load with
  | none => return .stillPending pending
  | some current =>
  match ← Prog.lift (compatiblePublicationView prepared.view current
      Head.hasSamePublicationBase) with
  | none =>
      let classification ← Prog.lift (classifyResolution commitRef current)
      if classification = .committed ∧ tailContains current commitRef ∧
          ¬ log.proofMatches prepared.stagingDomain then
        match ← publicationEvidence (log.verifyPublishedCommit commitRef) with
        | none => return .stillPending pending
        | some _ => return classification.resolution current
      return classification.resolution current
  | some publicationView =>
      let (_, commitBytes) ← Prog.lift (log.encodePrepared prepared)
      match ← publicationEvidence (log.verifyPublication prepared.view
          (commitKey log.incarnation commitRef) prepared.objects prepared.stagingDomain) with
      | none => return .stillPending pending
      | some _ =>
      let ensured ← if log.proofMatches prepared.stagingDomain then pure (some ()) else
        publicationEvidence (ensureImmutable (commitKey log.incarnation commitRef) commitBytes)
      match ensured with
      | none => return .stillPending pending
      | some _ =>
      let pending : PendingCommit :=
        { pending with prepared := some { prepared with stagingDomain := log.stagingDomain } }
      match ← (log.publishHead publicationView
          (fun view => candidateHead view.head commitRef)).attempt with
      | .ok (.updated view) => return .committed view
      | .ok .pending => return .stillPending pending
      | .error (.store _) => return .stillPending pending
      | .error .requestDenied => return .stillPending pending
      | .ok (.contended current) => return .notCommitted current
      | .error error => throw error
      | .ok (.changed current _) =>
          return (← Prog.lift (classifyResolution commitRef current)).resolution current

/-- `Log::recovered_commit_ref`. -/
def Log.recoveredCommitRef (log : Log) (recovered : RecoveryToken) : Except Error CommitRef := do
  ensure (recovered.logId = log.logId) (invalid "the view belongs to another log")
  ensure (recovered.incarnation = log.incarnation)
    (invalid "the view belongs to another log incarnation")
  ensure (recovered.optionsDigest = optionsDigest log.options) (.configurationMismatch "options")
  log.validatePreparedSizes recovered.operation recovered.result
  log.validateDependencies recovered.objects
  let bytes := encodeCommit
    { logId := recovered.logId, incarnation := recovered.incarnation,
      transactionId := recovered.transactionId, expectedTip := recovered.tip,
      operation := recovered.operation, result := recovered.result, objects := recovered.objects }
  ensure (bytes.length ≤ log.options.maxCommitBytes.toNat) (.limitExceeded "encoded commit bytes")
  commitReference recovered.nextSequence recovered.transactionId recovered.storageId bytes

/-- `Log::resume`. -/
def Log.resume (log : Log) (token : Bytes) : Op Resolution := do
  let recovered ← Prog.lift (decodeRecoveryToken token)
  let commitRef ← Prog.lift (log.recoveredCommitRef recovered)
  let pending : PendingCommit := { prepared := none, commitRef, token := some token }
  match ← publicationEvidence log.load with
  | none => return .stillPending pending
  | some current =>
  let fullDigest := Digest.of (← Prog.lift (encodeHead current.head))
  let exactSource := current.version = recovered.version ∧
    current.head.generation = recovered.generation ∧ fullDigest = recovered.headDigest
  let retentionOnly :=
    (← Prog.lift (publicationBaseDigest current.head)) = recovered.publicationBaseDigest
  if exactSource ∨ (retentionOnly ∧ recovered.generation < current.head.generation) then
    Prog.lift (ensure (current.head.nextSequence = recovered.nextSequence ∧
      current.head.tip = recovered.tip) (invalid "recovery token source fields disagree"))
    let stagingDomain ← newStagingDomain
    let prepared : PreparedCommit :=
      { view := current, stagingDomain, transactionId := recovered.transactionId,
        storageId := recovered.storageId, operation := recovered.operation,
        result := recovered.result, objects := recovered.objects }
    let (recomputed, _) ← Prog.lift (log.encodePrepared prepared)
    Prog.lift (ensure (recomputed = commitRef)
      (invalid "recovery token candidate disagrees with source"))
    match ← log.resolvePrepared prepared commitRef none with
    | .stillPending _ => return .stillPending pending
    | other => return other
  if retentionOnly ∧ current.head.generation ≤ recovered.generation then
    throw (invalid "head version changed without a monotonic head change")
  let classification ← Prog.lift (classifyResolution commitRef current)
  if classification = .committed ∧ tailContains current commitRef then
    match ← publicationEvidence (log.verifyPublishedCommit commitRef) with
    | none => return .stillPending pending
    | some _ => return classification.resolution current
  return classification.resolution current

/-- `Log::resolve`. -/
def Log.resolve (log : Log) (pending : PendingCommit) : Op Resolution :=
  match pending.prepared with
  | some prepared => log.resolvePrepared prepared pending.commitRef pending.token
  | none => do log.resume (← Prog.lift pending.recoveryToken)

/-! ## Checkpoints -/

/-- `Log::classify_checkpoint`. -/
def classifyCheckpoint (pending : PendingCheckpoint) (current : View)
    (attemptedGeneration : UInt64) : Except Error CheckpointEvidence := do
  if current.head.checkpoint = some pending.checkpoint then return .published current
  let nextGeneration ← okOr (checkedAdd attemptedGeneration 1) (.limitExceeded "head generation")
  if current.head.generation < nextGeneration then
    throw (invalid "the head precedes pending checkpoint evidence")
  if current.head.generation = nextGeneration then return .notPublished current
  return .expired current

/-- `Log::publish_checkpoint`. -/
def Log.publishCheckpoint (log : Log) (view : View) (through : CommitRef) (snapshot : Bytes)
    (objects : List StagedObject) : Op CheckpointStatus := do
  Prog.lift (log.validateStagedObjects view objects)
  let subtree ← Prog.lift (log.publicationObjects (objects.map StagedObject.object))
  log.verifyTail view
  let bytes := encodeCheckpoint
    { logId := log.logId, incarnation := log.incarnation, throughSequence := through.sequence,
      throughCommit := through.digest, snapshot, objects := objects.map StagedObject.object }
  Prog.lift (log.validateCheckpointBytes bytes.length)
  let blocked ← log.activeCollectionCandidates view
  let object ← log.createFreshObject .checkpoint bytes subtree blocked
  let pending : PendingCheckpoint :=
    { view, stagingDomain := log.stagingDomain, through,
      checkpoint := { throughSequence := through.sequence, throughCommit := through.digest,
                      object } }
  match ← log.publishCheckpointHead view (fun v => checkpointHead v.head through object) with
  | .updated next =>
      -- a reconciled head can hold commits whose bodies were not verified here
      if next.head.nextSequence = view.head.nextSequence then log.rememberTail next
      return .published next
  | .changed current attemptedGeneration =>
      match ← Prog.lift (classifyCheckpoint pending current attemptedGeneration) with
      | .published view => return .published view
      | .notPublished view => return .conflict view
      | .expired _ => return .pending pending
  | .contended current => return .conflict current
  | .pending => return .pending pending

/-- `Log::verify_checkpoint_publication`. -/
def Log.verifyCheckpointPublication (log : Log) (pending : PendingCheckpoint) : Op Unit := do
  let key := objectKey log.incarnation pending.checkpoint.object
  if log.proofMatches pending.stagingDomain then
    return ← log.verifyPublication pending.view key [] pending.stagingDomain
  let checkpoint ← log.loadCheckpoint pending.checkpoint
  log.verifyPublication pending.view key checkpoint.objects pending.stagingDomain

/-- The resolution of evidence about a checkpoint. -/
def CheckpointEvidence.resolution : CheckpointEvidence → CheckpointResolution
  | .published view => .published view
  | .notPublished view => .notPublished view
  | .expired view => .expired view

/-- `Log::resolve_checkpoint`. -/
def Log.resolveCheckpoint (log : Log) (pending : PendingCheckpoint) : Op CheckpointResolution := do
  Prog.lift (log.validateView pending.view)
  let originalCandidate ← Prog.lift (checkpointHead pending.view.head pending.through
    pending.checkpoint.object)
  Prog.lift (ensure (originalCandidate.checkpoint = some pending.checkpoint)
    (invalid "pending checkpoint evidence does not match its candidate"))
  match ← publicationEvidence log.load with
  | none => return .stillPending pending
  | some current =>
  match ← Prog.lift (compatiblePublicationView pending.view current
      Head.hasCheckpointAppendBase) with
  | none =>
      match ← Prog.lift (classifyCheckpoint pending current pending.view.head.generation) with
      | .published view =>
          if log.proofMatches pending.stagingDomain then return .published view
          match ← publicationEvidence (log.verifyCheckpoint pending.checkpoint) with
          | some _ => return .published view
          | none => return .stillPending pending
      | other => return other.resolution
  | some publicationView =>
      match ← publicationEvidence (log.verifyTail pending.view) with
      | none => return .stillPending pending
      | some _ =>
      match ← publicationEvidence (log.verifyCheckpointPublication pending) with
      | none => return .stillPending pending
      | some _ =>
      let pending := { pending with stagingDomain := log.stagingDomain }
      match ← (log.publishCheckpointHead publicationView (fun v =>
          checkpointHead v.head pending.through pending.checkpoint.object)).attempt with
      | .ok (.updated view) => return .published view
      | .ok .pending => return .stillPending pending
      | .error (.store _) => return .stillPending pending
      | .error .requestDenied => return .stillPending pending
      | .ok (.contended current) => return .notPublished current
      | .error error => throw error
      | .ok (.changed current attemptedGeneration) =>
          return (← Prog.lift (classifyCheckpoint pending current attemptedGeneration)).resolution

end ObjectLog
