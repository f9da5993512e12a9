import ObjectLog.Format.Codec

/-!
# Encodings of immutable objects and recovery tokens

Commits and checkpoints are derived records. Nodes and collection plans are written
or read by hand in the source, with the sizes computed in advance and every count
checked before it is believed.
-/

namespace ObjectLog

open Cbor

/-! ## Values -/

structure Commit where
  logId : LogId
  incarnation : Uuid
  transactionId : TransactionId
  expectedTip : Option Digest
  operation : Bytes
  result : Bytes
  objects : List ObjectRef
  deriving DecidableEq

structure Checkpoint where
  logId : LogId
  incarnation : Uuid
  throughSequence : UInt64
  throughCommit : Digest
  snapshot : Bytes
  objects : List ObjectRef
  deriving DecidableEq

structure Node where
  payload : Bytes
  children : List ObjectRef
  deriving DecidableEq

structure CollectionCandidate where
  key : ImmutableKey
  bytes : UInt64
  deriving DecidableEq

structure CollectionPlan where
  logId : LogId
  collectionEpoch : UInt64
  candidates : List CollectionCandidate
  deriving DecidableEq

/-- `subtree_objects`: one enclosing object and its children, once per reference path. -/
def subtreeObjects (children : List ObjectRef) : Except Error UInt64 :=
  children.foldlM (fun total child => do
    child.validateCount
    okOr (checkedAdd total child.subtreeObjects) (.limitExceeded "subtree objects")) 1

variable [Blake3]

/-! ## Commits -/

structure CommitWire where
  formatVersion : Nat
  logId : Bytes
  transactionId : Bytes
  expectedTip : Option Bytes
  operation : Bytes
  result : Bytes
  objects : List ObjectRefWire
  incarnation : Bytes

def CommitWire.encode (w : CommitWire) : Bytes :=
  record ([(1, uint w.formatVersion), (2, text w.logId), (3, bytes w.transactionId)] ++
    optional 4 (w.expectedTip.map bytes) ++
    [(5, bytes w.operation), (6, bytes w.result),
      (7, array (w.objects.map ObjectRefWire.encode)), (8, bytes w.incarnation)])

def CommitWire.step : Nat → CommitWire → Option (Reader CommitWire)
  | 1, w => some do return { w with formatVersion := ← Reader.uint 32 }
  | 2, w => some do return { w with logId := ← Reader.text }
  | 3, w => some do return { w with transactionId := ← Reader.bytes }
  | 4, w => some do return { w with expectedTip := ← Reader.nullable Reader.bytes }
  | 5, w => some do return { w with operation := ← Reader.bytes }
  | 6, w => some do return { w with result := ← Reader.bytes }
  | 7, w => some do return { w with objects := ← Reader.list ObjectRefWire.read }
  | 8, w => some do return { w with incarnation := ← Reader.bytes }
  | _, _ => none

def CommitWire.read : Reader CommitWire :=
  Reader.struct [1, 2, 3, 5, 6, 7, 8] CommitWire.step ⟨0, [], [], none, [], [], [], []⟩

def Commit.toWire (c : Commit) : CommitWire where
  formatVersion := ObjectLog.formatVersion
  logId := c.logId.value
  transactionId := Uuid.toBytes c.transactionId.uuid
  expectedTip := c.expectedTip.map Digest.toBytes
  operation := c.operation
  result := c.result
  objects := c.objects.map ObjectRef.toWire
  incarnation := Uuid.toBytes c.incarnation

def Commit.ofWire (w : CommitWire) : Except Error Commit := do
  let logId ← LogId.new w.logId
  let incarnation ← uuidOf w.incarnation "log incarnation"
  let transactionId ← transactionIdOf w.transactionId
  let expectedTip ← w.expectedTip.mapM digestOf
  let objects ← w.objects.mapM ObjectRef.ofWire
  return { logId, incarnation, transactionId, expectedTip, operation := w.operation,
           result := w.result, objects }

/-- `encode_commit`. -/
def encodeCommit (c : Commit) : Bytes := encodeEnvelope c.toWire.encode

/-- `decode_commit`. The canonical check is made first and reported last. -/
def decodeCommit (input : Bytes) : Except Error Commit := do
  let payload ← decodeBorrowedEnvelope input
  let wire ← decodeExact CommitWire.read payload
  requireVersion wire.formatVersion
  let commit ← Commit.ofWire wire
  ensure (payload = wire.encode) invalidCanonicalObject
  return commit

/-! ## Checkpoints -/

structure CheckpointWire where
  formatVersion : Nat
  logId : Bytes
  throughSequence : UInt64
  throughCommit : Bytes
  snapshot : Bytes
  incarnation : Bytes
  objects : List ObjectRefWire

def CheckpointWire.encode (w : CheckpointWire) : Bytes :=
  record [(1, uint w.formatVersion), (2, text w.logId), (3, u64 w.throughSequence),
    (4, bytes w.throughCommit), (5, bytes w.snapshot), (6, bytes w.incarnation),
    (7, array (w.objects.map ObjectRefWire.encode))]

def CheckpointWire.step : Nat → CheckpointWire → Option (Reader CheckpointWire)
  | 1, w => some do return { w with formatVersion := ← Reader.uint 32 }
  | 2, w => some do return { w with logId := ← Reader.text }
  | 3, w => some do return { w with throughSequence := ← readU64 }
  | 4, w => some do return { w with throughCommit := ← Reader.bytes }
  | 5, w => some do return { w with snapshot := ← Reader.bytes }
  | 6, w => some do return { w with incarnation := ← Reader.bytes }
  | 7, w => some do return { w with objects := ← Reader.list ObjectRefWire.read }
  | _, _ => none

def CheckpointWire.read : Reader CheckpointWire :=
  Reader.struct [1, 2, 3, 4, 5, 6, 7] CheckpointWire.step ⟨0, [], 0, [], [], [], []⟩

def Checkpoint.toWire (c : Checkpoint) : CheckpointWire where
  formatVersion := ObjectLog.formatVersion
  logId := c.logId.value
  throughSequence := c.throughSequence
  throughCommit := c.throughCommit.toBytes
  snapshot := c.snapshot
  incarnation := Uuid.toBytes c.incarnation
  objects := c.objects.map ObjectRef.toWire

def Checkpoint.ofWire (w : CheckpointWire) : Except Error Checkpoint := do
  let logId ← LogId.new w.logId
  let incarnation ← uuidOf w.incarnation "log incarnation"
  let throughCommit ← digestOf w.throughCommit
  let objects ← w.objects.mapM ObjectRef.ofWire
  return { logId, incarnation, throughSequence := w.throughSequence, throughCommit,
           snapshot := w.snapshot, objects }

/-- `encode_checkpoint`. -/
def encodeCheckpoint (c : Checkpoint) : Bytes := encodeEnvelope c.toWire.encode

/-- `decode_checkpoint`. -/
def decodeCheckpoint (input : Bytes) : Except Error Checkpoint := do
  let payload ← decodeBorrowedEnvelope input
  let wire ← decodeExact CheckpointWire.read payload
  requireVersion wire.formatVersion
  let checkpoint ← Checkpoint.ofWire wire
  ensure (payload = wire.encode) invalidCanonicalObject
  return checkpoint

/-! ## Nodes -/

/-- `cbor_head_len`. -/
def cborHeadLen (value : Nat) : Nat :=
  if value ≤ 23 then 1
  else if value ≤ 0xff then 2
  else if value ≤ 0xffff then 3
  else if value ≤ 0xffffffff then 5
  else 9

/-- `checked_node_len`. -/
def checkedNodeLen (left right : Nat) : Except Error Nat :=
  if left + right < 2 ^ 64 then .ok (left + right) else .error (.limitExceeded "object bytes")

structure NodeSize where
  encoded : Nat
  inner : Nat
  children : Nat

/-- The children of `node_size`: their number and the length of their references. -/
def nodeChildren (options : Options) :
    List (UInt64 × UInt64) → Nat → Nat → Except Error (Nat × Nat)
  | [], count, childrenLen => .ok (count, childrenLen)
  | (length, subtree) :: rest, count, childrenLen => do
      ensure (count + 1 < 2 ^ 64 ∧ count + 1 ≤ options.maxObjectRefs.toNat)
        (.limitExceeded "object references")
      let referenceLen ← checkedNodeLen 58 (cborHeadLen length.toNat)
      let referenceLen ← checkedNodeLen referenceLen (cborHeadLen subtree.toNat)
      let childrenLen ← checkedNodeLen childrenLen referenceLen
      nodeChildren options rest (count + 1) childrenLen

/-- `node_size`. -/
def nodeSize (payloadBytes : Nat) (children : List (UInt64 × UInt64)) (options : Options) :
    Except Error NodeSize := do
  let (count, childrenLen) ← nodeChildren options children 0 0
  ensure (payloadBytes < 2 ^ 64) (.limitExceeded "object bytes")
  let inner ← [5, cborHeadLen payloadBytes, payloadBytes, cborHeadLen count, childrenLen].foldlM
    checkedNodeLen 0
  let encoded ← [37, cborHeadLen inner, inner].foldlM checkedNodeLen 0
  ensure (encoded ≤ options.maxObjectBytes.toNat) (.limitExceeded "object bytes")
  return { encoded, inner, children := count }

/-- The map of a node inside its envelope, with the child count computed in advance. -/
def nodePayload (node : Node) (count : Nat) : Bytes :=
  head 5 3 ++ uint 1 ++ uint formatVersion ++ uint 2 ++ bytes node.payload ++ uint 3 ++
    head 4 count ++ (node.children.map fun child => child.toWire.encode).flatten

/-- `encode_node`. -/
def encodeNode (node : Node) (options : Options) : Except Error Bytes := do
  ensure (node.children.length ≤ options.maxObjectRefs.toNat) (.limitExceeded "object references")
  let size ← nodeSize node.payload.length
    (node.children.map fun child => (child.len, child.subtreeObjects)) options
  let front := head 5 2 ++ uint 1 ++ head 2 size.inner ++ nodePayload node size.children
  let digest := Digest.of (front.drop (2 + cborHeadLen size.inner))
  return front ++ uint 2 ++ bytes digest.toBytes

/-- One child reference of `decode_node_payload`. -/
def decodeChild (options : Options) : Dec ObjectRef := do
  let n ← Dec.exactMap
  Dec.valid (n = 5)
  Dec.field 1
  let kind ← match ← Dec.exactUint 8 with
    | 1 => pure ObjectKind.blob
    | 3 => pure ObjectKind.node
    | _ => throw (invalid "invalid node child kind")
  Dec.field 2
  let digestBytes ← Dec.exactBytes
  Dec.field 3
  let len ← Dec.exactU64
  ensure (len ≤ options.maxObjectBytes) (.limitExceeded "object bytes")
  Dec.field 4
  let storageIdBytes ← Dec.exactBytes
  Dec.field 5
  let subtreeObjects ← Dec.exactU64
  let storageId ← storageIdOf storageIdBytes
  let digest ← digestOf digestBytes
  let child : ObjectRef := { kind, storageId, digest, len, subtreeObjects }
  child.validateCount
  return child

def decTimes {α : Type} (d : Dec α) : Nat → Dec (List α)
  | 0 => return []
  | n + 1 => return (← d) :: (← decTimes d n)

/-- `decode_node_payload`. -/
def decodeNodePayload (options : Options) : Dec Node := do
  let n ← Dec.exactMap
  Dec.valid (n = 3)
  Dec.field 1
  let version ← Dec.exactUint 32
  requireVersion version
  Dec.field 2
  let payload ← Dec.exactBytes
  Dec.field 3
  let count ← Dec.exactArray
  ensure (count ≤ options.maxObjectRefs.toNat) (.limitExceeded "object references")
  -- a canonical child reference needs at least 60 bytes
  Dec.valid (count ≤ (← get).length / 60)
  let children ← decTimes (decodeChild options) count
  Dec.finished
  return { payload, children }

/-- `decode_node`. -/
def decodeNode (input : Bytes) (options : Options) : Except Error Node := do
  let payload ← decodeBorrowedEnvelope input
  Dec.run (decodeNodePayload options) payload

end ObjectLog
