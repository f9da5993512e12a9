import ObjectLog.Head
import ObjectLog.Lib.Cbor

/-!
# Wire records

The records of the durable format with their field numbers, as the source derives
them: identities are byte strings whose width is checked only when the record is
turned into a value. A record that is absent from the wire is left out, never
written as null.
-/

namespace ObjectLog

open Cbor

def formatVersion : Nat := 1

/-- A decoding error of the CBOR library. Its text is the library's own. -/
def cborError : Error := invalid "CBOR decoding failed"

/-- `invalid_canonical_object`. -/
def invalidCanonicalObject : Error :=
  invalid "encoded object is not canonical format version 1"

/-! ## Identities as bytes -/

def Uuid.toBytes (u : Uuid) : Bytes := bigEndian 16 u.val

def Digest.toBytes (d : Digest) : Bytes := bigEndian 32 d.val

/-- `uuid` of the format: a byte string of the right width. -/
def uuidOf (value : Bytes) (name : String) : Except Error Uuid :=
  if value.length = 16 then .ok (Fin.ofNat _ (ofBigEndian value))
  else .error (invalid (name ++ " has an invalid length"))

/-- `digest`. -/
def digestOf (value : Bytes) : Except Error Digest :=
  if value.length = 32 then .ok ⟨Fin.ofNat _ (ofBigEndian value)⟩
  else .error (invalid "digest has an invalid length")

/-- `transaction_id`. -/
def transactionIdOf (value : Bytes) : Except Error TransactionId := do
  return ⟨← uuidOf value "transaction ID"⟩

/-- `storage_id`. -/
def storageIdOf (value : Bytes) : Except Error StorageId := do
  return ⟨← uuidOf value "physical storage ID"⟩

/-- A `u64` on the wire. -/
def u64 (x : UInt64) : Bytes := uint x.toNat

def readU64 : Reader UInt64 := do return UInt64.ofNat (← Reader.uint 64)

/-! ## References -/

structure CommitRefWire where
  sequence : UInt64
  transactionId : Bytes
  digest : Bytes
  len : UInt64
  storageId : Bytes
  deriving DecidableEq

def CommitRefWire.encode (w : CommitRefWire) : Bytes :=
  record [(1, u64 w.sequence), (2, bytes w.transactionId), (3, bytes w.digest), (4, u64 w.len),
    (5, bytes w.storageId)]

def CommitRefWire.step : Nat → CommitRefWire → Option (Reader CommitRefWire)
  | 1, w => some do return { w with sequence := ← readU64 }
  | 2, w => some do return { w with transactionId := ← Reader.bytes }
  | 3, w => some do return { w with digest := ← Reader.bytes }
  | 4, w => some do return { w with len := ← readU64 }
  | 5, w => some do return { w with storageId := ← Reader.bytes }
  | _, _ => none

def CommitRefWire.read : Reader CommitRefWire :=
  Reader.struct [1, 2, 3, 4, 5] CommitRefWire.step ⟨0, [], [], 0, []⟩

/-- `CommitRefWire::from`. -/
def CommitRef.toWire (c : CommitRef) : CommitRefWire where
  sequence := c.sequence
  transactionId := Uuid.toBytes c.transactionId.uuid
  digest := c.digest.toBytes
  len := c.len
  storageId := Uuid.toBytes c.storageId.uuid

/-- `CommitRef::try_from`. -/
def CommitRef.ofWire (w : CommitRefWire) : Except Error CommitRef := do
  let transactionId ← transactionIdOf w.transactionId
  let storageId ← storageIdOf w.storageId
  let digest ← digestOf w.digest
  return { sequence := w.sequence, transactionId, storageId, digest, len := w.len }

structure ObjectRefWire where
  kind : Nat
  digest : Bytes
  len : UInt64
  storageId : Bytes
  subtreeObjects : UInt64
  deriving DecidableEq

def ObjectRefWire.encode (w : ObjectRefWire) : Bytes :=
  record [(1, uint w.kind), (2, bytes w.digest), (3, u64 w.len), (4, bytes w.storageId),
    (5, u64 w.subtreeObjects)]

def ObjectRefWire.step : Nat → ObjectRefWire → Option (Reader ObjectRefWire)
  | 1, w => some do return { w with kind := ← Reader.uint 8 }
  | 2, w => some do return { w with digest := ← Reader.bytes }
  | 3, w => some do return { w with len := ← readU64 }
  | 4, w => some do return { w with storageId := ← Reader.bytes }
  | 5, w => some do return { w with subtreeObjects := ← readU64 }
  | _, _ => none

def ObjectRefWire.read : Reader ObjectRefWire :=
  Reader.struct [1, 2, 3, 4, 5] ObjectRefWire.step ⟨0, [], 0, [], 0⟩

/-- `ObjectKindWire`. -/
def ObjectKind.wire : ObjectKind → Nat
  | .blob => 1
  | .checkpoint => 2
  | .node => 3

/-- `ObjectRefWire::from`. -/
def ObjectRef.toWire (r : ObjectRef) : ObjectRefWire where
  kind := r.kind.wire
  digest := r.digest.toBytes
  len := r.len
  storageId := Uuid.toBytes r.storageId.uuid
  subtreeObjects := r.subtreeObjects

/-- `ObjectRef::try_from`. -/
def ObjectRef.ofWire (w : ObjectRefWire) : Except Error ObjectRef := do
  let kind ← match w.kind with
    | 1 => .ok ObjectKind.blob
    | 2 => .ok ObjectKind.checkpoint
    | 3 => .ok ObjectKind.node
    | _ => .error (invalid "invalid object kind")
  let storageId ← storageIdOf w.storageId
  let digest ← digestOf w.digest
  let object : ObjectRef :=
    { kind, storageId, digest, len := w.len, subtreeObjects := w.subtreeObjects }
  object.validateCount
  return object

structure CheckpointRefWire where
  throughSequence : UInt64
  throughCommit : Bytes
  object : Option ObjectRefWire
  deriving DecidableEq

def CheckpointRefWire.encode (w : CheckpointRefWire) : Bytes :=
  record ([(1, u64 w.throughSequence), (2, bytes w.throughCommit)] ++
    optional 3 (w.object.map ObjectRefWire.encode))

def CheckpointRefWire.step : Nat → CheckpointRefWire → Option (Reader CheckpointRefWire)
  | 1, w => some do return { w with throughSequence := ← readU64 }
  | 2, w => some do return { w with throughCommit := ← Reader.bytes }
  | 3, w => some do return { w with object := ← Reader.nullable ObjectRefWire.read }
  | _, _ => none

def CheckpointRefWire.read : Reader CheckpointRefWire :=
  Reader.struct [1, 2] CheckpointRefWire.step ⟨0, [], none⟩

/-- `CheckpointRefWire::from`. -/
def CheckpointRef.toWire (c : CheckpointRef) : CheckpointRefWire where
  throughSequence := c.throughSequence
  throughCommit := c.throughCommit.toBytes
  object := some c.object.toWire

/-- `CheckpointRef::try_from`. -/
def CheckpointRef.ofWire (w : CheckpointRefWire) : Except Error CheckpointRef := do
  let wire ← okOr w.object (invalid "checkpoint object is missing")
  let object ← ObjectRef.ofWire wire
  ensure (object.kind = .checkpoint) (invalid "checkpoint reference names a non-checkpoint object")
  let throughCommit ← digestOf w.throughCommit
  return { throughSequence := w.throughSequence, throughCommit, object }

structure CollectionPlanRefWire where
  storageId : Bytes
  digest : Bytes
  len : UInt64
  deriving DecidableEq

def CollectionPlanRefWire.encode (w : CollectionPlanRefWire) : Bytes :=
  record [(1, bytes w.storageId), (2, bytes w.digest), (3, u64 w.len)]

def CollectionPlanRefWire.step :
    Nat → CollectionPlanRefWire → Option (Reader CollectionPlanRefWire)
  | 1, w => some do return { w with storageId := ← Reader.bytes }
  | 2, w => some do return { w with digest := ← Reader.bytes }
  | 3, w => some do return { w with len := ← readU64 }
  | _, _ => none

def CollectionPlanRefWire.read : Reader CollectionPlanRefWire :=
  Reader.struct [1, 2, 3] CollectionPlanRefWire.step ⟨[], [], 0⟩

/-- `CollectionPlanRefWire::from`. -/
def CollectionPlanRef.toWire (p : CollectionPlanRef) : CollectionPlanRefWire where
  storageId := Uuid.toBytes p.storageId.uuid
  digest := p.digest.toBytes
  len := p.len

/-- `CollectionPlanRef::try_from`. -/
def CollectionPlanRef.ofWire (w : CollectionPlanRefWire) : Except Error CollectionPlanRef := do
  let storageId ← storageIdOf w.storageId
  let digest ← digestOf w.digest
  return { storageId, digest, len := w.len }

/-! ## Options -/

/-- `OptionsWire`: every limit is a `u64` on the wire and in memory. -/
def Options.encode (o : Options) : Bytes :=
  record [(1, u64 o.maxTailEntries), (2, u64 o.resolutionWindow),
    (3, u64 o.maxInlineOperationBytes), (4, u64 o.maxInlineResultBytes),
    (5, u64 o.maxObjectRefs), (6, u64 o.maxCommitBytes), (7, u64 o.maxHeadBytes),
    (8, u64 o.maxCheckpointBytes), (9, u64 o.maxObjectBytes), (10, u64 o.maxRetentionIds),
    (11, u64 o.maxCollectionObjects), (12, u64 o.maxCollectionPlanBytes)]

def Options.step : Nat → Options → Option (Reader Options)
  | 1, o => some do return { o with maxTailEntries := ← readU64 }
  | 2, o => some do return { o with resolutionWindow := ← readU64 }
  | 3, o => some do return { o with maxInlineOperationBytes := ← readU64 }
  | 4, o => some do return { o with maxInlineResultBytes := ← readU64 }
  | 5, o => some do return { o with maxObjectRefs := ← readU64 }
  | 6, o => some do return { o with maxCommitBytes := ← readU64 }
  | 7, o => some do return { o with maxHeadBytes := ← readU64 }
  | 8, o => some do return { o with maxCheckpointBytes := ← readU64 }
  | 9, o => some do return { o with maxObjectBytes := ← readU64 }
  | 10, o => some do return { o with maxRetentionIds := ← readU64 }
  | 11, o => some do return { o with maxCollectionObjects := ← readU64 }
  | 12, o => some do return { o with maxCollectionPlanBytes := ← readU64 }
  | _, _ => none

def Options.read : Reader Options :=
  Reader.struct [1, 2, 3, 4, 5, 6, 7, 8, 9, 10, 11, 12] Options.step Options.default

end ObjectLog
