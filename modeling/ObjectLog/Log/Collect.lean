import ObjectLog.Log.Publish

/-!
# Retention and collection

Retentions keep collectors away from a view. A collector marks what is live, lists what
is stored, installs the rest as a plan that fences the head, deletes the plan's
candidates and clears the fence.
-/

namespace ObjectLog

open Rely

variable [Blake3]

/-! ## Retention -/

/-- `Log::retention_status`. -/
def retentionStatus (state : RetentionHeadState) (view : View) : RetentionStatus :=
  match state with
  | .applied => .applied view
  | .activeCollection => .activeCollection view
  | .conflict => .conflict view

/-- One turn of the update loop of `Log::change_retention`. Only an acquisition tries
again, and not after the last turn. -/
def Log.retentionAttempt (log : Log) (view : View) (change : RetentionChange)
    (again : Option (View → Op RetentionStatus)) (current : View) : Op RetentionStatus := do
  if change.isAcquire ∧
      log.options.maxRetentionIds.toNat ≤ current.head.retentionIds.card then
    throw (.limitExceeded "retention IDs")
  let candidate ← Prog.lift (retentionHead current.head change)
  match ← (log.updateHead current candidate).attempt with
  | .ok (some next) => return .applied next
  | .ok none =>
      match ← publicationEvidence log.load with
      | none => return .pending
      | some next =>
          if next.head = current.head ∧ next.version = current.version then return .pending
          if change.isAcquire ∧ next.head.collectionEpoch ≠ view.head.collectionEpoch then
            return .conflict next
          match again, change.isAcquire, change.classify next.head with
          | some again, true, .conflict =>
              if next.head.generation ≤ current.head.generation then
                throw (invalid "head version changed without a monotonic head change")
              again next
          | _, _, state => return retentionStatus state next
  | .error (.store _) => return .pending
  | .error error => throw error

/-- The update loop of `Log::change_retention`, from the attempt that `further` attempts
can follow. -/
def Log.retentionAttempts (log : Log) (view : View) (change : RetentionChange) :
    Nat → View → Op RetentionStatus
  | 0 => log.retentionAttempt view change none
  | further + 1 => log.retentionAttempt view change (some (log.retentionAttempts view change further))

/-- `Log::change_retention`. -/
def Log.changeRetention (log : Log) (view : View) (change : RetentionChange) :
    Op RetentionStatus := do
  Prog.lift (log.validateView view)
  let source := change.classify view.head
  if source = .conflict then
    return ← log.retentionAttempts view change furtherAttempts view
  match ← log.refresh view with
  | none => return retentionStatus source view
  | some current =>
      if change.isAcquire ∧ current.head.collectionEpoch ≠ view.head.collectionEpoch then
        return .conflict current
      return retentionStatus (change.classify current.head) current

/-- `Log::retain`. -/
def Log.retain (log : Log) (view : View) (id : RetentionId) : Op RetentionStatus :=
  log.changeRetention view (.acquire id)

/-- `Log::release_retention`. -/
def Log.releaseRetention (log : Log) (view : View) (id : RetentionId) : Op RetentionStatus :=
  log.changeRetention view (.release id)

/-- `Log::clear_retentions_after_drain`. -/
def Log.clearRetentionsAfterDrain (log : Log) (view : View) : Op RetentionStatus :=
  log.changeRetention view .clearAfterDrain

/-! ## Collection -/

/-- `BTreeMap::insert`: the candidates stay sorted by key, and a repeated key must
declare the size it had. -/
def insertCandidate (candidate : CollectionCandidate) :
    List CollectionCandidate → Except Error (List CollectionCandidate)
  | [] => .ok [candidate]
  | c :: rest =>
      if candidate.key < c.key then .ok (candidate :: c :: rest)
      else if candidate.key = c.key then
        if candidate.bytes = c.bytes then .ok (c :: rest) else .error .corruptObject
      else do return c :: (← insertCandidate candidate rest)

/-- The scan of `Log::start_collection_with_limit`: at most `scanLimit` items are taken
from the listing. The flag says whether the listing ended. -/
def scanCandidates (live : Visited) (maxCandidates : Nat) :
    Nat → List CollectionCandidate → Op (List CollectionCandidate × Bool)
  | 0, candidates => return (candidates, false)
  | scanLimit + 1, candidates => do
      match ← listNext with
      | .error error => throw (.store error)
      | .ok none => return (candidates, true)
      | .ok (some item) =>
          match item.immutableKey with
          | none => scanCandidates live maxCandidates scanLimit candidates
          | some key =>
              if (live.lookup key).isSome then
                return ← scanCandidates live maxCandidates scanLimit candidates
              let candidates ← Prog.lift (insertCandidate { key, bytes := item.size } candidates)
              if candidates.length = maxCandidates then return (candidates, false)
              scanCandidates live maxCandidates scanLimit candidates

/-- The attempts of `Log::create_collection_plan`. -/
def Log.createPlanAttempts (log : Log) (bytes : Bytes) (len : UInt64) :
    Nat → Op CollectionPlanRef
  | 0 => throw (.limitExceeded "fresh physical storage identity")
  | attempts + 1 => do
      let storageId ← newStorageId
      let reference : CollectionPlanRef := { storageId, digest := Digest.of bytes, len }
      if ← create (collectionPlanKey log.incarnation reference) bytes then return reference
      log.createPlanAttempts bytes len attempts

def maxPlanAttempts : Nat := 16

/-- `Log::create_collection_plan`. -/
def Log.createCollectionPlan (log : Log) (plan : CollectionPlan) : Op CollectionPlanRef := do
  let bytes ← Prog.lift (encodeCollectionPlan plan log.options)
  let len ← Prog.lift (okOr (toU64 bytes.length) (.limitExceeded "collection plan byte length"))
  log.createPlanAttempts bytes len maxPlanAttempts

/-- `Log::cleanup_collection_plan`. -/
def cleanupCollectionPlan (key : ImmutableKey) : Op Unit := do
  let _ ← publicationEvidence (deleteImmutableBatch [key])
  return ()

/-- The number of listed items that are examined: one more than the live set and the
candidates together. -/
def scanLimitOf (live : Visited) (maxCandidates : UInt64) : Except Error Nat := do
  let liveLen ← okOr (toU64 live.length) (.limitExceeded "collection scan objects")
  let limit ← okOr (checkedAdd liveLen maxCandidates) (.limitExceeded "collection scan objects")
  let limit ← okOr (checkedAdd limit 1) (.limitExceeded "collection scan objects")
  return limit.toNat

/-- The end of `Log::start_collection_with_limit`: the plan is stored and installed. -/
def Log.installPlan (log : Log) (view : View) (candidates : List CollectionCandidate) :
    Op CollectionStart := do
  let epoch ← Prog.lift (okOr (checkedAdd view.head.collectionEpoch 1)
    (.limitExceeded "collection epoch"))
  let plan : CollectionPlan := { logId := log.logId, collectionEpoch := epoch, candidates }
  let report : CollectionReport :=
    { candidateCount := candidates.length, candidateBytes := ← Prog.lift plan.candidateBytes,
      deleteAttempts := 0 }
  let planRef ← log.createCollectionPlan plan
  let planKey := collectionPlanKey log.incarnation planRef
  let candidate ← Prog.lift (fenceHead view.head epoch planRef)
  match ← (log.updateHead view candidate).attempt with
  | .ok (some next) => return .installed next report
  | .ok none =>
      match ← log.load.attempt with
      | .ok current =>
          if current.head.activePlan = some planRef then return .installed current report
          if current.head = view.head ∧ current.version = view.version then return .pending
          cleanupCollectionPlan planKey
          return .conflict current
      | .error (.store _) => return .pending
      | .error .requestDenied => return .pending
      | .error error => throw error
  | .error (.store _) => return .pending
  | .error error => throw error

/-- `Log::start_collection_with_limit`. -/
def Log.startCollectionWithLimit (log : Log) (view : View) (maxCandidates : UInt64) :
    Op CollectionStart := do
  if maxCandidates = 0 ∨ log.options.maxCollectionObjects < maxCandidates then
    throw (.limitExceeded "collection candidate objects")
  Prog.lift (log.validateView view)
  if view.head.activePlan.isSome then return .active view
  if view.head.retentionIds ≠ ∅ then return .retained view
  let live ← log.markLive view
  let scanLimit ← Prog.lift (scanLimitOf live maxCandidates)
  -- the listing is admitted with its first item, and the limit is never zero
  admitRequest .list
  let (candidates, complete) ← scanCandidates live maxCandidates.toNat scanLimit []
  if candidates = [] ∧ ¬ complete then throw (.limitExceeded "collection scan objects")
  if candidates = [] then
    return .empty { candidateCount := 0, candidateBytes := 0, deleteAttempts := 0 }
  log.installPlan view candidates

/-- `Log::start_collection`. -/
def Log.startCollection (log : Log) (view : View) : Op CollectionStart :=
  log.startCollectionWithLimit view log.options.maxCollectionObjects

/-- One turn of `Log::clear_collection_plan`. -/
def Log.clearAttempt (log : Log) (planRef : CollectionPlanRef) (planKey : ImmutableKey)
    (report : CollectionReport) (again : View → Op CollectionFinish) (current : View) :
    Op CollectionFinish := do
  let candidate ← Prog.lift (clearHead current.head)
  match ← (log.updateHead current candidate).attempt with
  | .ok (some next) =>
      cleanupCollectionPlan planKey
      return .complete next report
  | .ok none =>
      match ← publicationEvidence log.load with
      | none => return .pending report
      | some reloaded =>
          if reloaded.head = current.head ∧ reloaded.version = current.version then
            return .pending report
          match reloaded.head.activePlan with
          | none =>
              cleanupCollectionPlan planKey
              return .complete reloaded report
          | some active =>
              if active ≠ planRef then return .conflict reloaded report
              if reloaded.head.generation ≤ current.head.generation then
                throw (invalid "head version changed without a monotonic head change")
              again reloaded
  | .error (.store _) => return .pending report
  | .error .requestDenied => return .pending report
  | .error error => throw error

/-- `Log::clear_collection_plan`, from the attempt that `further` attempts can follow. -/
def Log.clearAttempts (log : Log) (planRef : CollectionPlanRef) (planKey : ImmutableKey)
    (report : CollectionReport) : Nat → View → Op CollectionFinish
  | 0 => log.clearAttempt planRef planKey report fun reloaded => return .conflict reloaded report
  | further + 1 => log.clearAttempt planRef planKey report
      (log.clearAttempts planRef planKey report further)

/-- `slice::chunks` of the candidates. -/
def deleteBatches (candidates : List CollectionCandidate) : List (List ImmutableKey) :=
  (candidates.map CollectionCandidate.key).toChunks maxDeleteBatch

/-- The deletions of `Log::resume_collection`. A refused batch counts no attempt. -/
def deleteCandidates : List (List ImmutableKey) → CollectionReport →
    Op (Except CollectionReport CollectionReport)
  | [], report => return .ok report
  | batch :: batches, report => do
      let attempted := { report with deleteAttempts := report.deleteAttempts + batch.length }
      match ← (deleteImmutableBatch batch).attempt with
      | .ok () => deleteCandidates batches attempted
      | .error .requestDenied => return .error report
      | .error (.store _) => return .error attempted
      | .error error => throw error

/-- `Log::resume_collection`. -/
def Log.resumeCollection (log : Log) (view : View) : Op CollectionFinish := do
  let noReport : CollectionReport :=
    { candidateCount := 0, candidateBytes := 0, deleteAttempts := 0 }
  Prog.lift (log.validateView view)
  let current ← log.load
  match current.head.activePlan with
  | none =>
      match view.head.activePlan with
      | some requested =>
          cleanupCollectionPlan (collectionPlanKey view.head.incarnation requested)
          return .complete current noReport
      | none => return .complete current noReport
  | some planRef =>
      if view.head.activePlan ≠ some planRef then return .conflict current noReport
      let planKey := collectionPlanKey current.head.incarnation planRef
      let plan ← log.readCollectionPlan current.head planRef
      let report : CollectionReport :=
        { candidateCount := plan.candidates.length,
          candidateBytes := ← Prog.lift plan.candidateBytes, deleteAttempts := 0 }
      match ← deleteCandidates (deleteBatches plan.candidates) report with
      | .error report => return .pending report
      | .ok report => log.clearAttempts planRef planKey report furtherAttempts current

end ObjectLog
