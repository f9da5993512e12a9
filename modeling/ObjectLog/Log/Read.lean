import ObjectLog.Store

/-!
# Reading the log

Loading the head, reading immutable objects on behalf of a view, and the bounded
read-ahead over the tail. A read that finds nothing decides afterwards, by loading the
head again, whether the view has expired or the store is corrupt.
-/

namespace ObjectLog

open Rely

variable [Blake3]

/-! ## Views -/

/-- `Log::view`. -/
def newView (head : Head) (version : UpdateVersion) : Op View := do
  let id : ViewId ← Prog.ask (Effect.observe head version)
  return { id, head, version }

/-- The checks of `Log::view_from_stored`. -/
def Log.headFromStored (log : Log) (stored : StoredObject) : Except Error Head := do
  let head ← decodeHead stored.bytes
  ensure (head.logId = log.logId) (invalid "the durable head belongs to another log")
  ensure (head.incarnation = log.incarnation)
    (invalid "the durable head belongs to another log incarnation")
  ensure (head.options = log.options) (.configurationMismatch "options")
  return head

/-- `Log::view_from_stored`. -/
def Log.viewFromStored (log : Log) (stored : StoredObject) : Op View := do
  newView (← Prog.lift (log.headFromStored stored)) stored.version

/-- `Log::load`. -/
def Log.load (log : Log) : Op View := do
  match ← readHead log.options.maxHeadBytes.toNat with
  | none => throw (invalid "the opened log has no durable head")
  | some stored => log.viewFromStored stored

/-- `Log::refresh`. -/
def Log.refresh (log : Log) (view : View) : Op (Option View) := do
  Prog.lift (log.validateView view)
  match ← readIfChanged view.version log.options.maxHeadBytes.toNat with
  | .notModified => return none
  | .modified stored => return some (← log.viewFromStored stored)
  | .missing => throw (invalid "the opened log has no durable head")

/-- `publication_evidence`: a failure or refusal of the store settles nothing. -/
def publicationEvidence {α : Type} (op : Op α) : Op (Option α) := do
  match ← op.attempt with
  | .ok value => return some value
  | .error (.store _) => return none
  | .error .requestDenied => return none
  | .error error => throw error

/-- `Log::remember_tail`. -/
def Log.rememberTail (log : Log) (view : View) : Op Unit :=
  Prog.ask (Effect.setVerifiedTail view.id log.stagingDomain)

/-- `Log::tail_is_verified`. -/
def Log.tailIsVerified (log : Log) (view : View) : Op Bool := do
  let proof : Option Domain ← Prog.ask (Effect.verifiedTail view.id)
  return proof.any log.proofMatches

/-- `Log::missing_read_error`. -/
def Log.missingReadError {α : Type} (log : Log) (view : View) : Op α := do
  let current ← log.load
  match compare current.head.collectionEpoch.toNat view.head.collectionEpoch.toNat with
  | .gt => throw .viewExpired
  | .eq => throw .corruptObject
  | .lt => throw (invalid "the durable collection epoch precedes the supplied view")

/-! ## Immutable objects -/

/-- The length check before an object is read. -/
def Log.readableLen (log : Log) (object : ObjectRef) : Except Error Nat := do
  ensure (object.len ≤ log.options.maxObjectBytes) (.limitExceeded "object bytes")
  return object.len.toNat

/-- `Log::read_immutable_optional`. -/
def Log.readImmutableOptional (log : Log) (object : ObjectRef) : Op (Option Bytes) := do
  let declaredLen ← Prog.lift (log.readableLen object)
  match ← readKey (objectKey log.incarnation object) declaredLen with
  | none => return none
  | some bytes =>
      Prog.lift (verifyObject object bytes)
      return some bytes

/-- `Log::read_immutable_for_view`. -/
def Log.readImmutableForView (log : Log) (view : View) (object : ObjectRef) : Op Bytes := do
  match ← log.readImmutableOptional object with
  | some bytes => return bytes
  | none => log.missingReadError view

/-- `Log::read_immutable`. -/
def Log.readImmutable (log : Log) (object : ObjectRef) : Op Bytes := do
  match ← log.readImmutableOptional object with
  | some bytes => return bytes
  | none => throw (invalid "a referenced object is missing")

/-- `Log::read_object`. -/
def Log.readObject (log : Log) (view : View) (object : ObjectRef) : Op Bytes := do
  Prog.lift (log.validateView view)
  if object.kind ≠ .blob then throw (invalid "a payload read requires a blob reference")
  log.readImmutableForView view object

/-- `Log::read_node`. -/
def Log.readNode (log : Log) (view : View) (object : ObjectRef) : Op Node := do
  Prog.lift (log.validateView view)
  if object.kind ≠ .node then throw (invalid "a node read requires a reference-node object")
  let bytes ← log.readImmutableForView view object
  Prog.lift (log.decodeNodeReference object bytes)

/-- `Log::read_staged_node`. -/
def Log.readStagedNode (log : Log) (view : View) (node : StagedObject) :
    Op (Bytes × List StagedObject) := do
  Prog.lift (log.validateView view)
  Prog.lift (log.validateStagedObject view node)
  let node ← log.readNode view node.object
  return (node.payload, node.children.map (log.stagedObject view))

/-! ## Checkpoints -/

/-- `Log::load_checkpoint`. -/
def Log.loadCheckpoint (log : Log) (reference : CheckpointRef) : Op Checkpoint := do
  let bytes ← log.readImmutable reference.object
  Prog.lift (log.decodeCheckpointReference reference bytes)

/-- `Log::load_checkpoint_for_view`. -/
def Log.loadCheckpointForView (log : Log) (view : View) (reference : CheckpointRef) :
    Op Checkpoint := do
  let bytes ← log.readImmutableForView view reference.object
  Prog.lift (log.decodeCheckpointReference reference bytes)

/-- `Log::read_checkpoint`. -/
def Log.readCheckpoint (log : Log) (view : View) : Op (Option CheckpointRecord) := do
  Prog.lift (log.validateView view)
  match view.head.checkpoint with
  | none => return none
  | some reference =>
      Prog.lift (log.validateCheckpointBytes reference.object.len.toNat)
      let checkpoint ← log.loadCheckpointForView view reference
      return some { snapshot := checkpoint.snapshot, objects := checkpoint.objects }

/-! ## Commits -/

/-- The checks `Log::read_commit_optional` makes on the stored body. -/
def Log.commitRecord (log : Log) (reference : CommitRef) (bytes : Bytes) :
    Except Error CommitRecord := do
  let len ← okOr (toU64 bytes.length) (.limitExceeded "commit byte length")
  ensure (len = reference.len ∧ Digest.of bytes = reference.digest) .corruptObject
  let commit ← decodeCommit bytes
  log.validatePreparedSizes commit.operation commit.result
  log.validateDependencies commit.objects
  ensure (commit.logId = log.logId ∧ commit.incarnation = log.incarnation ∧
      commit.transactionId = reference.transactionId)
    (invalid "a commit does not match its head reference")
  return { reference, expectedTip := commit.expectedTip, operation := commit.operation,
           result := commit.result, objects := commit.objects }

/-- What `Log::read_commit_optional` makes of the answer to its GET. A body longer than
its reference says is a corrupt one. -/
def Log.collectCommit (log : Log) (reference : CommitRef) :
    Option Bytes → Except Error (Option CommitRecord)
  | none => .ok none
  | some bytes => do
      ensure (bytes.length ≤ reference.len.toNat) .corruptObject
      return some (← log.commitRecord reference bytes)

/-- The first half of `Log::read_commit_optional`: the length check, the admission and
the request. -/
def Log.startCommit (log : Log) (reference : CommitRef) : Op (Except Error FlightId) :=
  if log.options.maxCommitBytes < reference.len then
    return .error (.limitExceeded "encoded commit bytes")
  else startRead reference.len.toNat (.get (commitKey log.incarnation reference))

/-- The second half of `Log::read_commit_optional`. -/
def Log.finishCommit (log : Log) (reference : CommitRef) (started : Except Error FlightId) :
    Op (Option CommitRecord) :=
  finishRead reference.len.toNat (.get (commitKey log.incarnation reference))
    (log.collectCommit reference) furtherReads started

/-- `Log::read_commit_optional`. -/
def Log.readCommitOptional (log : Log) (reference : CommitRef) : Op (Option CommitRecord) := do
  log.finishCommit reference (← log.startCommit reference)

/-- `Log::read_commit`. -/
def Log.readCommit (log : Log) (reference : CommitRef) : Op CommitRecord := do
  match ← log.readCommitOptional reference with
  | some record => return record
  | none => throw (invalid "a referenced commit is missing")

/-! ## The tail -/

/-- The parent that the commit at `index` of the tail must name. -/
def View.expectedTipAt (view : View) (index : Nat) : Option Digest :=
  match index with
  | 0 => view.head.checkpoint.map CheckpointRef.throughCommit
  | index + 1 => view.head.tail[index]?.map CommitRef.digest

/-- The chain check of a tail record. -/
def checkParent (expectedTip : Option Digest) (record : CommitRecord) : Except Error Unit :=
  ensure (record.expectedTip = expectedTip)
    (invalid "the commit tail has a broken parent chain")

/-- The second half of `Log::read_tail_record_optional`. -/
def Log.finishTailRecord (log : Log) (view : View) (index : Nat) (reference : CommitRef)
    (started : Except Error FlightId) : Op (Option CommitRecord) := do
  match ← log.finishCommit reference started with
  | none => return none
  | some record =>
      Prog.lift (checkParent (view.expectedTipAt index) record)
      return some record

/-- `Log::read_tail_record_optional`. -/
def Log.readTailRecordOptional (log : Log) (view : View) (index : Nat) :
    Op (Option CommitRecord) := do
  Prog.lift (log.validateView view)
  match view.head.tail[index]? with
  | none => throw (invalid "history cursor exceeds the active tail")
  | some reference =>
      log.finishTailRecord view index reference (← log.startCommit reference)

/-- `Log::read_tail_record`. -/
def Log.readTailRecord (log : Log) (view : View) (index : Nat) : Op CommitRecord := do
  match ← log.readTailRecordOptional view index with
  | some record => return record
  | none => log.missingReadError view

def maxConcurrentReads : Nat := 32

/-- Starts the reads of `references` that are not started yet, as far as `room` goes. -/
def Log.readAhead (log : Log) (room : Nat) (references : List CommitRef)
    (ahead : List (Except Error FlightId)) : Op (List (Except Error FlightId)) := do
  let started ← ((references.drop ahead.length).take (room - ahead.length)).mapM log.startCommit
  return ahead ++ started

/-- The read in front: the first that is in progress, or a new one. -/
def Log.nextRead (log : Log) (reference : CommitRef) :
    List (Except Error FlightId) → Op (Except Error FlightId × List (Except Error FlightId))
  | [] => do return (← log.startCommit reference, [])
  | next :: ahead => return (next, ahead)

/-- The stream of `Log::tail_records`, consumed to its end by `consume`. Reads are in
progress for the next record and for those `ahead` of it, at most `window` together. -/
def Log.consumeTail {σ : Type} (log : Log) (view : View) (window : Nat)
    (consume : σ → CommitRecord → Except Error σ) :
    List CommitRef → List (Except Error FlightId) → Option Digest → σ → Op σ
  | [], _, _, state => return state
  | reference :: references, started, expectedTip, state => do
      let (next, ahead) ← log.nextRead reference started
      let ahead ← log.readAhead (window - 1) references ahead
      match ← log.finishCommit reference next with
      | none => log.missingReadError view
      | some record =>
          Prog.lift (checkParent expectedTip record)
          let state ← Prog.lift (consume state record)
          log.consumeTail view window consume references ahead (some record.reference.digest) state

/-- `Log::tail_records` and its consumer. -/
def Log.tailRecords {σ : Type} (log : Log) (view : View)
    (consume : σ → CommitRecord → Except Error σ) (init : σ) : Op σ := do
  Prog.lift (log.validateView view)
  log.consumeTail view (log.commitReadWindow maxConcurrentReads) consume view.head.tail []
    (view.head.checkpoint.map CheckpointRef.throughCommit) init

/-- `Log::read_tail`. -/
def Log.readTail (log : Log) (view : View) : Op (List CommitRecord) := do
  let records ← log.tailRecords view (fun records record => .ok (records ++ [record])) []
  log.rememberTail view
  return records

/-- `Log::verify_tail`. -/
def Log.verifyTail (log : Log) (view : View) : Op Unit := do
  Prog.lift (log.validateView view)
  if ← log.tailIsVerified view then return ()
  log.tailRecords view (fun _ _ => .ok ()) ()
  log.rememberTail view

end ObjectLog
