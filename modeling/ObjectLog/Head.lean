import ObjectLog.Types

/-!
# The durable head

The only mutable value of a log, the checks it must pass before it is written and
after it is read, and the seven ways an operation builds the next one. Everything
here is pure: an operation clones an observed head, changes its own fields and
advances the generation.
-/

namespace ObjectLog

structure Head where
  logId : LogId
  incarnation : Uuid
  options : Options
  generation : UInt64
  nextSequence : UInt64
  checkpoint : Option CheckpointRef
  tail : List CommitRef
  recentOutcomes : List CommitRef
  collectionEpoch : UInt64
  activePlan : Option CollectionPlanRef
  retentionIds : Finset RetentionId
  deriving DecidableEq

/-- `Head::empty`. -/
def Head.empty (logId : LogId) (incarnation : Uuid) (options : Options) : Head where
  logId := logId
  incarnation := incarnation
  options := options
  generation := 0
  nextSequence := 0
  checkpoint := none
  tail := []
  recentOutcomes := []
  collectionEpoch := 0
  activePlan := none
  retentionIds := ∅

/-- `Head::tip`: the digest the next commit names as its parent. -/
def Head.tip (h : Head) : Option Digest :=
  (h.tail.getLast?.map CommitRef.digest).or (h.checkpoint.map CheckpointRef.throughCommit)

/-- `Head::has_same_publication_base`: only the generation and the retentions may differ. -/
def Head.hasSamePublicationBase (h other : Head) : Bool :=
  h.logId == other.logId && h.incarnation == other.incarnation && h.options == other.options &&
    h.nextSequence == other.nextSequence && h.checkpoint == other.checkpoint &&
    h.tail == other.tail && h.recentOutcomes == other.recentOutcomes &&
    h.collectionEpoch == other.collectionEpoch && h.activePlan == other.activePlan

/-- `Head::has_checkpoint_append_base`: the tail may also have grown at its end. -/
def Head.hasCheckpointAppendBase (h other : Head) : Bool :=
  h.tail.isPrefixOf other.tail && h.logId == other.logId && h.incarnation == other.incarnation &&
    h.options == other.options && h.checkpoint == other.checkpoint &&
    h.recentOutcomes == other.recentOutcomes && h.collectionEpoch == other.collectionEpoch &&
    h.activePlan == other.activePlan &&
    ((toU64 (other.tail.drop h.tail.length).length).bind fun count =>
      checkedAdd h.nextSequence count) == some other.nextSequence

/-- `Head::advance_generation`. -/
def Head.advanceGeneration (h : Head) : Except Error Head := do
  let generation ← okOr (checkedAdd h.generation 1) (.limitExceeded "head generation")
  return { h with generation }

/-! ## Validation -/

/-- `validate_commit_sequence`, with the transaction IDs already seen. -/
def validateCommitSequence (start : UInt64) :
    List CommitRef → Nat → List TransactionId → Except Error (List TransactionId)
  | [], _, seen => .ok seen
  | commit :: rest, offset, seen => do
      let offset64 ← okOr (toU64 offset) (invalid "commit offset exceeds u64")
      let expected ← okOr (checkedAdd start offset64)
        (invalid "head commit sequence cannot advance")
      ensure (commit.sequence = expected) (invalid "head commits are not contiguous")
      ensure (commit.transactionId ∉ seen) (invalid "head contains a duplicate transaction")
      validateCommitSequence start rest (offset + 1) (commit.transactionId :: seen)

/-- `Head::validate_collection_state`. -/
def Head.validateCollectionState (h : Head) : Except Error Unit := do
  ensure (h.collectionEpoch ≤ h.generation)
    (invalid "head collection epoch exceeds its generation")
  ensure (h.retentionIds.card ≤ h.options.maxRetentionIds.toNat)
    (invalid "head retention IDs exceed their durable limit")
  ensure (¬ (h.activePlan.isSome ∧ h.retentionIds ≠ ∅))
    (invalid "head has an active plan and active retentions")
  match h.activePlan with
  | some plan =>
      -- the conversion of the plan length to `usize` cannot fail on 64 bits
      ensure (h.collectionEpoch ≠ 0)
        (invalid "head has an active plan before the first collection epoch")
      ensure (plan.len ≤ h.options.maxCollectionPlanBytes)
        (invalid "head collection plan exceeds its durable byte limit")
  | none => .ok ()

/-- The first sequence of the tail, as `Head::validate` computes it. -/
def Head.expectedStart (h : Head) : Except Error UInt64 :=
  match h.checkpoint with
  | some checkpoint => do
      ensure (checkpoint.object.kind = .checkpoint)
        (invalid "head base names a non-checkpoint object")
      okOr (checkedAdd checkpoint.throughSequence 1) (invalid "head base sequence cannot advance")
  | none => .ok 0

/-- The first sequence of the retained outcomes, as `Head::validate` computes it. -/
def Head.expectedOutcomeStart (h : Head) (available : UInt64) : Except Error UInt64 :=
  match h.checkpoint with
  | none => do
      ensure (h.recentOutcomes = []) (invalid "head outcomes exist without a base checkpoint")
      return 0
  | some checkpoint => do
      let retained ← okOr (toU64 h.recentOutcomes.length) (invalid "outcome count exceeds u64")
      ensure (retained = min available h.options.resolutionWindow)
        (invalid "head does not retain the required outcome suffix")
      ensure (∀ commit ∈ h.recentOutcomes.getLast?, commit.digest = checkpoint.throughCommit)
        (invalid "head outcome suffix does not match its checkpoint")
      return available - retained

/-- `Head::validate`. -/
def Head.validate (h : Head) : Except Error Unit := do
  ensure (h.tail.length ≤ h.options.maxTailEntries.toNat)
    (invalid "head tail exceeds its durable limit")
  ensure (h.recentOutcomes.length ≤ h.options.resolutionWindow.toNat)
    (invalid "head outcomes exceed their durable limit")
  ensure (h.nextSequence ≤ h.generation) (invalid "head generation precedes its commit sequence")
  h.validateCollectionState
  let start ← h.expectedStart
  let ids ← validateCommitSequence start h.tail 0 []
  let tailLen ← okOr (toU64 h.tail.length) (invalid "tail length exceeds u64")
  let next ← okOr (checkedAdd start tailLen) (invalid "head next sequence cannot advance")
  ensure (h.nextSequence = next) (invalid "head next sequence does not follow its base and tail")
  let outcomeStart ← h.expectedOutcomeStart start
  let _ ← validateCommitSequence outcomeStart h.recentOutcomes 0 ids
  return ()

/-! ## The next head -/

/-- `Log::candidate_head`: one more commit in the tail. -/
def candidateHead (h : Head) (commitRef : CommitRef) : Except Error Head := do
  let head ← h.advanceGeneration
  let nextSequence ← okOr (checkedAdd head.nextSequence 1) (.limitExceeded "commit sequence")
  return { head with nextSequence, tail := head.tail ++ [commitRef] }

/-- The outcomes a checkpoint keeps: the newest `window` of them. -/
def boundOutcomes (window : Nat) (outcomes : List CommitRef) : List CommitRef :=
  outcomes.drop (outcomes.length - window)

/-- `Log::checkpoint_head`: the covered prefix moves from the tail to the outcomes. -/
def checkpointHead (h : Head) (through : CommitRef) (object : ObjectRef) : Except Error Head := do
  let index ← okOr (h.tail.idxOf? through)
    (invalid "the checkpoint entry is not in the active tail")
  Head.advanceGeneration
    { h with
      tail := h.tail.drop (index + 1)
      recentOutcomes := boundOutcomes h.options.resolutionWindow.toNat
        (h.recentOutcomes ++ h.tail.take (index + 1))
      checkpoint := some
        { throughSequence := through.sequence, throughCommit := through.digest, object } }

inductive RetentionChange
  | acquire (id : RetentionId)
  | release (id : RetentionId)
  | clearAfterDrain
  deriving DecidableEq

inductive RetentionHeadState
  | applied
  | activeCollection
  | conflict
  deriving DecidableEq

/-- `RetentionChange::classify`. -/
def RetentionChange.classify (change : RetentionChange) (h : Head) : RetentionHeadState :=
  match change with
  | .acquire id =>
      if id ∈ h.retentionIds then .applied
      else if h.activePlan.isSome then .activeCollection
      else .conflict
  | .release id => if id ∉ h.retentionIds then .applied else .conflict
  | .clearAfterDrain => if h.retentionIds = ∅ then .applied else .conflict

/-- `RetentionChange::apply`. -/
def RetentionChange.apply (change : RetentionChange) (h : Head) : Head :=
  match change with
  | .acquire id => { h with retentionIds := insert id h.retentionIds }
  | .release id => { h with retentionIds := h.retentionIds.erase id }
  | .clearAfterDrain => { h with retentionIds := ∅ }

def RetentionChange.isAcquire : RetentionChange → Bool
  | .acquire _ => true
  | _ => false

/-- The head `change_retention` submits. -/
def retentionHead (h : Head) (change : RetentionChange) : Except Error Head :=
  (change.apply h).advanceGeneration

/-- The head `start_collection_with_limit` submits. -/
def fenceHead (h : Head) (epoch : UInt64) (plan : CollectionPlanRef) : Except Error Head := do
  let head ← h.advanceGeneration
  return { head with collectionEpoch := epoch, activePlan := some plan }

/-- The head `clear_collection_plan` submits. -/
def clearHead (h : Head) : Except Error Head :=
  Head.advanceGeneration { h with activePlan := none }

end ObjectLog
