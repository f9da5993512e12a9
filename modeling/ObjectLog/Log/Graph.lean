import ObjectLog.Log.Read

/-!
# Walking the object graph

The marking walk over blobs and nodes, with its bounded set of concurrent reads, and its
three users: the live set of a collector, the verification of the dependencies of a
publication, and the check of what has already been published.
-/

namespace ObjectLog

open Rely

variable [Blake3]

/-! ## The collection plan of a view -/

/-- The check `Log::read_collection_plan` makes on the stored plan. -/
def Log.planOfHead (log : Log) (head : Head) (reference : CollectionPlanRef) (bytes : Bytes) :
    Except Error CollectionPlan := do
  ensure (bytes.length = reference.len.toNat ∧ Digest.of bytes = reference.digest) .corruptObject
  let plan ← decodeCollectionPlan bytes log.options
  ensure (plan.logId = log.logId ∧ plan.collectionEpoch = head.collectionEpoch)
    (invalid "the collection plan does not match its head fence")
  return plan

/-- `Log::read_collection_plan`. -/
def Log.readCollectionPlan (log : Log) (head : Head) (reference : CollectionPlanRef) :
    Op CollectionPlan := do
  if log.options.maxCollectionPlanBytes < reference.len then
    throw (.limitExceeded "encoded collection plan bytes")
  match ← readKey (collectionPlanKey head.incarnation reference) reference.len.toNat with
  | some bytes => Prog.lift (log.planOfHead head reference bytes)
  | none => do
      -- a fence is cleared before its plan is deleted, so an older head expires
      let current ← log.load
      if head.generation < current.head.generation ∧
          current.head.activePlan ≠ some reference ∧
          (head.collectionEpoch < current.head.collectionEpoch ∨
            (current.head.collectionEpoch = head.collectionEpoch ∧
              current.head.activePlan = none)) then
        throw .viewExpired
      throw (invalid "the active collection plan is missing")

/-- `Log::active_collection_candidates`. The lock that lets one caller load the plan is
left out: two callers may load it, and the cache keeps the first. -/
def Log.activeCollectionCandidates (log : Log) (view : View) :
    Op (Option (List CollectionCandidate)) := do
  match view.head.activePlan with
  | none => return none
  | some reference =>
      let cached : Option (List CollectionCandidate) ←
        Prog.ask (Effect.collectionCandidates view.id)
      match cached with
      | some candidates => return some candidates
      | none =>
          let plan ← log.readCollectionPlan view.head reference
          let candidates : List CollectionCandidate ←
            Prog.ask (Effect.initCollectionCandidates view.id plan.candidates)
          return some candidates

/-! ## The walk -/

inductive GraphWalk
  | reachability
  | verifyBlobs
  deriving DecidableEq

/-- The keys a walk has met, with the length and count their references declare. -/
abbrev Visited := List (ImmutableKey × (UInt64 × UInt64))

/-- A walk between two reads. -/
structure Walk where
  visited : Visited
  pending : List ObjectRef

/-- `Log::enqueue_object`. -/
def Log.enqueueObject (log : Log) (blocked : Option (List CollectionCandidate)) (walk : Walk)
    (object : ObjectRef) : Except Error Walk := do
  ensure (object.kind ≠ .checkpoint) (invalid "application dependencies cannot name a checkpoint")
  object.validateCount
  let key := objectKey log.incarnation object
  ensure (¬ blocked.any (isCollectionCandidate · key)) .collectionFence
  let metadata := (object.len, object.subtreeObjects)
  match walk.visited.lookup key with
  | some declared =>
      ensure (declared = metadata) .corruptObject
      return walk
  | none =>
      let visited := (key, metadata) :: walk.visited
      ensure (visited.length ≤ log.options.maxCollectionObjects.toNat)
        (.limitExceeded "collection live objects")
      ensure (object.len ≤ log.options.maxObjectBytes) (.limitExceeded "object bytes")
      return { visited, pending := walk.pending ++ [object] }

/-- A read in progress: the bytes it reserves, the object, and the request. -/
abbrev GraphRead := Nat × ObjectRef × Except Error FlightId

/-- What `Log::read_immutable_optional` and the node checks, or
`Log::verify_object_durable`, make of the answer to a GET. -/
def Log.collectChildren (log : Log) (object : ObjectRef) :
    Option Bytes → Except Error (List ObjectRef)
  | none => .error (invalid "a referenced object is missing")
  | some bytes => do
      let bytes ← collectObject object.len.toNat bytes
      match object.kind with
      | .blob =>
          let len ← okOr (toU64 bytes.length) (.limitExceeded "read bytes")
          ensure (Digest.of bytes = object.digest ∧ len = object.len) .corruptObject
          return []
      | .node =>
          verifyObject object bytes
          return (← log.decodeNodeReference object bytes).children
      | .checkpoint => throw (invalid "application dependencies cannot name a checkpoint")

/-- The first half of `Log::read_graph_children`. -/
def Log.startChildren (log : Log) (object : ObjectRef) : Op (Except Error FlightId) :=
  if object.kind = .checkpoint then
    return .error (invalid "application dependencies cannot name a checkpoint")
  else if log.options.maxObjectBytes < object.len then
    return .error (.limitExceeded "object bytes")
  else startRead object.len.toNat (.get (objectKey log.incarnation object))

/-- The second half of `Log::read_graph_children`. -/
def Log.finishChildren (log : Log) (object : ObjectRef) (started : Except Error FlightId) :
    Op (List ObjectRef) :=
  finishRead object.len.toNat (.get (objectKey log.incarnation object))
    (log.collectChildren object) furtherReads started

/-- Moves pending objects into reads while there is room for them. A walk that only asks
what is reachable does not read blobs. -/
def Log.startReads (log : Log) (mode : GraphWalk) :
    List ObjectRef → List GraphRead → Nat → Op (List ObjectRef × List GraphRead × Nat)
  | [], reads, activeBytes => return ([], reads, activeBytes)
  | object :: pending, reads, activeBytes => do
      if maxConcurrentReads ≤ reads.length then return (object :: pending, reads, activeBytes)
      if mode = .reachability ∧ object.kind = .blob then
        return ← log.startReads mode pending reads activeBytes
      let bytes := object.len.toNat
      if reads ≠ [] ∧ log.options.maxObjectBytes.toNat - activeBytes < bytes then
        return (object :: pending, reads, activeBytes)
      if 2 ^ 64 ≤ activeBytes + bytes then throw (.limitExceeded "graph read bytes")
      let started ← log.startChildren object
      log.startReads mode pending (reads ++ [(bytes, object, started)]) (activeBytes + bytes)

/-- The loop of `Log::mark_object_graph`. Each turn takes one object off the walk, and
only objects met for the first time are put on it, so `fuel` is never short: when it is
zero, nothing is left to walk. -/
def Log.walkGraph (log : Log) (blocked : Option (List CollectionCandidate)) (mode : GraphWalk) :
    Nat → Walk → List GraphRead → Nat → Op Visited
  | 0, walk, _, _ => return walk.visited
  | fuel + 1, walk, reads, activeBytes => do
      let (pending, reads, activeBytes) ←
        log.startReads mode walk.pending reads activeBytes
      match reads with
      | [] => return walk.visited
      | read :: rest =>
          let i ← choose rest.length
          let (bytes, object, started) := (read :: rest).get i
          let children ← log.finishChildren object started
          let walk ← Prog.lift (children.foldlM (log.enqueueObject blocked)
            { walk with pending })
          log.walkGraph blocked mode fuel walk ((read :: rest).eraseIdx i) (activeBytes - bytes)

/-- `Log::mark_object_graph`. -/
def Log.markObjectGraph (log : Log) (roots : List ObjectRef) (visited : Visited)
    (blocked : Option (List CollectionCandidate)) (mode : GraphWalk) : Op Visited := do
  let walk ← Prog.lift (roots.foldlM (log.enqueueObject blocked) { visited, pending := [] })
  log.walkGraph blocked mode
    (walk.pending.length + (log.options.maxCollectionObjects.toNat - walk.visited.length))
    walk [] 0

/-- `Log::verify_publication_dependencies`. -/
def Log.verifyPublicationDependencies (log : Log) (view : View) (objects : List ObjectRef) :
    Op (Option (List CollectionCandidate)) := do
  let blocked ← log.activeCollectionCandidates view
  let _ ← log.markObjectGraph objects [] blocked .verifyBlobs
  return blocked

/-- `Log::verify_object_graph`. -/
def Log.verifyObjectGraph (log : Log) (objects : List ObjectRef) : Op Unit := do
  let _ ← log.markObjectGraph objects [] none .verifyBlobs
  return ()

/-- `Log::verify_publication`. -/
def Log.verifyPublication (log : Log) (view : View) (newKey : ImmutableKey)
    (objects : List ObjectRef) (staging : Domain) : Op Unit := do
  let blocked ←
    if log.proofMatches staging then log.activeCollectionCandidates view
    else log.verifyPublicationDependencies view objects
  if blocked.any (isCollectionCandidate · newKey) then throw .collectionFence

/-- `Log::verify_published_commit`. -/
def Log.verifyPublishedCommit (log : Log) (reference : CommitRef) : Op Unit := do
  let record ← log.readCommit reference
  log.verifyObjectGraph record.objects

/-- `Log::verify_checkpoint`. -/
def Log.verifyCheckpoint (log : Log) (reference : CheckpointRef) : Op Unit := do
  let checkpoint ← log.loadCheckpoint reference
  log.verifyObjectGraph checkpoint.objects

/-! ## The live set -/

/-- `Log::insert_live`. -/
def Log.insertLive (log : Log) (live : Visited) (key : ImmutableKey) (len subtree : UInt64) :
    Except Error Visited := do
  ensure ((live.lookup key).all (· = (len, subtree))) .corruptObject
  let live := if (live.lookup key).isSome then live else (key, (len, subtree)) :: live
  ensure (live.length ≤ log.options.maxCollectionObjects.toNat)
    (.limitExceeded "collection live objects")
  return live

/-- The live objects and the roots collected so far. -/
abbrev LiveRoots := Visited × List ObjectRef

/-- Adds the dependencies of one record to the roots. -/
def Log.addRoots (log : Log) (roots objects : List ObjectRef) : Except Error (List ObjectRef) := do
  ensure (objects.length ≤ log.options.maxCollectionObjects.toNat - roots.length)
    (.limitExceeded "collection live objects")
  return roots ++ objects

/-- What `Log::mark_live` does with one tail record. -/
def Log.markCommit (log : Log) (state : LiveRoots) (record : CommitRecord) :
    Except Error LiveRoots := do
  let live ← log.insertLive state.1 (commitKey log.incarnation record.reference)
    record.reference.len 0
  return (live, ← log.addRoots state.2 record.objects)

/-- `Log::mark_live`. -/
def Log.markLive (log : Log) (view : View) : Op Visited := do
  let (live, roots) ← log.tailRecords view log.markCommit ([], [])
  log.rememberTail view
  match view.head.checkpoint with
  | none => log.markObjectGraph roots live none .reachability
  | some reference =>
      let live ← Prog.lift (log.insertLive live (objectKey log.incarnation reference.object)
        reference.object.len reference.object.subtreeObjects)
      let checkpoint ← log.loadCheckpoint reference
      let roots ← Prog.lift (log.addRoots roots checkpoint.objects)
      log.markObjectGraph roots live none .reachability

end ObjectLog
