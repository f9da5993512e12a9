import ObjectLog.Format.Wire

/-!
# Durable encodings

Heads, commits, checkpoints, nodes, collection plans and recovery tokens as bytes.
Every value is stored in an envelope with the digest of its payload. Each decoder
ends with a check that the bytes are those the encoder would write.
-/

namespace ObjectLog

open Cbor

variable [Blake3]

/-! ## Envelopes -/

/-- `encode_envelope` around an encoded message. -/
def encodeEnvelope (payload : Bytes) : Bytes :=
  record [(1, bytes payload), (2, bytes (Digest.of payload).toBytes)]

/-- A hand-written decoder: it reads from the front and stops with an error of the log. -/
abbrev Dec := StateT Bytes (Except Error)

/-- A read of the CBOR library inside a hand-written decoder. -/
def Dec.cbor {α : Type} (r : Reader α) : Dec α := fun input => okOr (r input) cborError

/-- `valid`. -/
def Dec.valid (p : Prop) [Decidable p] : Dec Unit := fun input => do
  ensure p invalidCanonicalObject
  return ((), input)

/-- `exact_value!`: the value is read, and its own encoding must be what was read. The
matching writer of the source is where the decoder is, since every value before this
one was written in exactly the bytes it was read from. -/
def Dec.exact {α : Type} (r : Reader α) (encode : α → Bytes) : Dec α := fun input => do
  let (a, rest) ← okOr (r input) cborError
  ensure (input = encode a ++ rest) invalidCanonicalObject
  return (a, rest)

/-- `exact_len!`: a definite length. -/
def Dec.exactLen (r : Reader (Option Nat)) (major : Nat) : Dec Nat := fun input => do
  let (n, rest) ← okOr (r input) cborError
  let n ← okOr n invalidCanonicalObject
  ensure (input = head major n ++ rest) invalidCanonicalObject
  return (n, rest)

def Dec.exactMap : Dec Nat := Dec.exactLen Reader.map 5

def Dec.exactArray : Dec Nat := Dec.exactLen Reader.array 4

def Dec.exactUint (bits : Nat) : Dec Nat := Dec.exact (Reader.uint bits) uint

def Dec.exactU64 : Dec UInt64 := Dec.exact readU64 u64

def Dec.exactBytes : Dec Bytes := Dec.exact Reader.bytes bytes

def Dec.exactText : Dec Bytes := Dec.exact Reader.text text

/-- The number of the next field must be `k`. -/
def Dec.field (k : Nat) : Dec Unit := do
  let n ← Dec.exactUint 8
  Dec.valid (n = k)

/-- The input must be used up. -/
def Dec.finished : Dec Unit := do
  Dec.valid ((← get) = [])

/-- Runs a decoder for its value. -/
def Dec.run {α : Type} (d : Dec α) (input : Bytes) : Except Error α := do
  let (a, _) ← d input
  return a

/-- `require_version`. -/
def requireVersion (version : Nat) : Except Error Unit :=
  ensure (version = formatVersion)
    (invalid ("unsupported format version " ++ toString version))

/-- `decode_borrowed_envelope`: the payload of an envelope in canonical form. -/
def decodeBorrowedEnvelope (input : Bytes) : Except Error Bytes :=
  Dec.run (do
    let n ← Dec.exactMap
    Dec.valid (n = 2)
    Dec.field 1
    let payload ← Dec.exactBytes
    Dec.field 2
    let encodedDigest ← Dec.exactBytes
    Dec.finished
    let digest ← digestOf encodedDigest
    ensure (digest = Digest.of payload) .corruptObject
    return payload) input

/-- `decode_exact`. -/
def decodeExact {α : Type} (r : Reader α) (input : Bytes) : Except Error α := do
  let (a, rest) ← okOr (r input) cborError
  ensure (rest = []) (invalid "encoded object contains trailing bytes")
  return a

/-- `require_canonical`. -/
def requireCanonical (input canonical : Bytes) : Except Error Unit :=
  ensure (input = canonical) (invalid "encoded object is not canonical format version 1")

/-! ## Heads -/

structure HeadWire where
  formatVersion : Nat
  logId : Bytes
  generation : UInt64
  nextSequence : UInt64
  checkpoint : Option CheckpointRefWire
  tail : List CommitRefWire
  recentOutcomes : List CommitRefWire
  incarnation : Bytes
  options : Options
  collectionEpoch : UInt64
  activePlan : Option CollectionPlanRefWire
  retentionIds : List Bytes

def HeadWire.encode (w : HeadWire) : Bytes :=
  record ([(1, uint w.formatVersion), (2, text w.logId), (3, u64 w.generation),
      (4, u64 w.nextSequence)] ++
    optional 5 (w.checkpoint.map CheckpointRefWire.encode) ++
    [(6, array (w.tail.map CommitRefWire.encode)),
      (7, array (w.recentOutcomes.map CommitRefWire.encode)), (8, bytes w.incarnation),
      (9, w.options.encode), (10, u64 w.collectionEpoch)] ++
    optional 11 (w.activePlan.map CollectionPlanRefWire.encode) ++
    [(12, array (w.retentionIds.map bytes))])

def HeadWire.step : Nat → HeadWire → Option (Reader HeadWire)
  | 1, w => some do return { w with formatVersion := ← Reader.uint 32 }
  | 2, w => some do return { w with logId := ← Reader.text }
  | 3, w => some do return { w with generation := ← readU64 }
  | 4, w => some do return { w with nextSequence := ← readU64 }
  | 5, w => some do return { w with checkpoint := ← Reader.nullable CheckpointRefWire.read }
  | 6, w => some do return { w with tail := ← Reader.list CommitRefWire.read }
  | 7, w => some do return { w with recentOutcomes := ← Reader.list CommitRefWire.read }
  | 8, w => some do return { w with incarnation := ← Reader.bytes }
  | 9, w => some do return { w with options := ← Options.read }
  | 10, w => some do return { w with collectionEpoch := ← readU64 }
  | 11, w => some do return { w with activePlan := ← Reader.nullable CollectionPlanRefWire.read }
  | 12, w => some do return { w with retentionIds := ← Reader.list Reader.bytes }
  | _, _ => none

def HeadWire.read : Reader HeadWire :=
  Reader.struct [1, 2, 3, 4, 6, 7, 8, 9, 10, 12] HeadWire.step
    ⟨0, [], 0, 0, none, [], [], [], Options.default, 0, none, []⟩

def Head.toWire (h : Head) : HeadWire where
  formatVersion := ObjectLog.formatVersion
  logId := h.logId.value
  generation := h.generation
  nextSequence := h.nextSequence
  checkpoint := h.checkpoint.map CheckpointRef.toWire
  tail := h.tail.map CommitRef.toWire
  recentOutcomes := h.recentOutcomes.map CommitRef.toWire
  incarnation := Uuid.toBytes h.incarnation
  options := h.options
  collectionEpoch := h.collectionEpoch
  activePlan := h.activePlan.map CollectionPlanRef.toWire
  retentionIds := (ascending h.retentionIds).map fun id => Uuid.toBytes id.uuid

/-- `encode_head`. -/
def encodeHead (h : Head) : Except Error Bytes := do
  h.validate
  return encodeEnvelope h.toWire.encode

/-! ### The shape of a head -/

/-- `shape_uint`. -/
def shapeUint : Dec Unit := do let _ ← Dec.cbor (Reader.uint 64)

/-- `shape_bytes`. -/
def shapeBytes (len : Nat) : Dec Unit := do
  let value ← Dec.cbor Reader.bytes
  Dec.valid (value.length = len)

/-- The entries of `head_shape_map`: field numbers increase and fit the mask. -/
def headShapeFields (field : Nat → Dec Unit) : Nat → Nat → List Nat → Dec (List Nat)
  | 0, _, seen => return seen
  | n + 1, previous, seen => do
      let key ← Dec.cbor (Reader.uint 8)
      Dec.valid (previous < key)
      field key
      Dec.valid (key < 16)
      headShapeFields field n key (key :: seen)

/-- `head_shape_map`. -/
def headShapeMap (required : List Nat) (field : Nat → Dec Unit) : Dec Unit := do
  let count ← okOr (← Dec.cbor Reader.map) invalidCanonicalObject
  let seen ← headShapeFields field count 0 []
  Dec.valid (∀ k ∈ required, k ∈ seen)

def shapeTimes (d : Dec Unit) : Nat → Dec Unit
  | 0 => return ()
  | n + 1 => do
      d
      shapeTimes d n

/-- A counted run of entries; no length is trusted before it is read through. -/
def shapeArray (d : Dec Unit) : Dec Unit := do
  let count ← okOr (← Dec.cbor Reader.array) invalidCanonicalObject
  shapeTimes d count

def shapeUnknown : Dec Unit := fun _ => .error invalidCanonicalObject

def shapeObjectRef : Dec Unit :=
  headShapeMap [1, 2, 3, 4, 5] fun
    | 1 | 3 | 5 => shapeUint
    | 2 => shapeBytes 32
    | 4 => shapeBytes 16
    | _ => shapeUnknown

def shapeCheckpointRef : Dec Unit :=
  headShapeMap [1, 2, 3] fun
    | 1 => shapeUint
    | 2 => shapeBytes 32
    | 3 => shapeObjectRef
    | _ => shapeUnknown

def shapeCommitRef : Dec Unit :=
  headShapeMap [1, 2, 3, 4, 5] fun
    | 1 | 4 => shapeUint
    | 2 | 5 => shapeBytes 16
    | 3 => shapeBytes 32
    | _ => shapeUnknown

def shapeOptions : Dec Unit :=
  headShapeMap [1, 2, 3, 4, 5, 6, 7, 8, 9, 10, 11, 12] fun field => do
    Dec.valid (1 ≤ field ∧ field ≤ 12)
    shapeUint

def shapePlanRef : Dec Unit :=
  headShapeMap [1, 2, 3] fun
    | 1 => shapeBytes 16
    | 2 => shapeBytes 32
    | 3 => shapeUint
    | _ => shapeUnknown

def shapeLogId : Dec Unit := do
  let value ← Dec.cbor Reader.text
  ensure (value.length ≤ maxLogIdLen) .invalidLogId

def shapeHead : Dec Unit :=
  headShapeMap [1, 2, 3, 4, 6, 7, 8, 9, 10, 12] fun
    | 1 | 3 | 4 | 10 => shapeUint
    | 2 => shapeLogId
    | 5 => shapeCheckpointRef
    | 6 | 7 => shapeArray shapeCommitRef
    | 8 => shapeBytes 16
    | 9 => shapeOptions
    | 11 => shapePlanRef
    | 12 => shapeArray (shapeBytes 16)
    | _ => shapeUnknown

/-- `validate_head_shape`. -/
def validateHeadShape (payload : Bytes) : Except Error Unit :=
  Dec.run (do shapeHead; Dec.finished) payload

/-- `retention_ids`: strictly increasing identities. -/
def retentionIdsOf :
    List Bytes → Option RetentionId → Finset RetentionId → Except Error (Finset RetentionId)
  | [], _, ids => .ok ids
  | value :: rest, previous, ids => do
      let id : RetentionId := ⟨← uuidOf value "retention ID"⟩
      ensure (∀ p ∈ previous, p < id) (invalid "head retention IDs are not strictly sorted")
      retentionIdsOf rest (some id) (insert id ids)

/-- The value of a decoded head, before it is validated. -/
def Head.ofWire (w : HeadWire) : Except Error Head := do
  let logId ← LogId.new w.logId
  let incarnation ← uuidOf w.incarnation "log incarnation"
  let checkpoint ← w.checkpoint.mapM CheckpointRef.ofWire
  let tail ← w.tail.mapM CommitRef.ofWire
  let recentOutcomes ← w.recentOutcomes.mapM CommitRef.ofWire
  let activePlan ← w.activePlan.mapM CollectionPlanRef.ofWire
  let retentionIds ← retentionIdsOf w.retentionIds none ∅
  return { logId, incarnation, options := w.options, generation := w.generation,
           nextSequence := w.nextSequence, checkpoint, tail, recentOutcomes,
           collectionEpoch := w.collectionEpoch, activePlan, retentionIds }

/-- `decode_head`. -/
def decodeHead (input : Bytes) : Except Error Head := do
  let payload ← decodeBorrowedEnvelope input
  validateHeadShape payload
  let wire ← decodeExact HeadWire.read payload
  requireVersion wire.formatVersion
  let head ← Head.ofWire wire
  head.validate
  let canonical ← encodeHead head
  requireCanonical input canonical
  return head

end ObjectLog
