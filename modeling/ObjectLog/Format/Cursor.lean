import ObjectLog.Format.Plan

/-!
# Decoders with their cursors

The hand-written decoders as the source runs them. The decoder has a position in the input,
the matching writer has a slice of it that is still to be matched, payloads are ranges of the
input, and room for a list is reserved before its items are read. Here an index out of range
or a difference below zero is a fault of its own, and so is room for more items than the rest
of the input can hold. The decoders of `Format.Objects` and `Format.Plan` work on the input
that is left and know none of this.
-/

namespace ObjectLog

open Cbor

/-- Why a decoder stops. Only `error` is a result; the others would be a panic, or a memory
request that the input does not justify. -/
inductive Fault
  | error (error : Error)
  | outOfRange
  | underflow
  | overflow
  | overReserve
  deriving DecidableEq

/-- Where `minicbor::Decoder` is, and what `MatchingWriter` has not matched. -/
structure Cursor where
  position : Nat
  unmatched : Bytes

abbrev Scan := StateT Cursor (Except Fault)

namespace Scan

variable {α : Type}

/-- A step that does not look at the input. -/
def check (x : Except Error α) : Scan α := fun cursor =>
  match x with
  | .ok a => .ok (a, cursor)
  | .error e => .error (.error e)

/-- `valid`. -/
def valid (p : Prop) [Decidable p] : Scan Unit := check (ensure p invalidCanonicalObject)

/-- `decoder.position()`. -/
def position : Scan Nat := fun cursor => .ok (cursor.position, cursor)

/-- A `usize` difference. -/
def subtract (a b : Nat) : Except Fault Nat := if b ≤ a then .ok (a - b) else .error .underflow

/-- A `usize` sum. -/
def add (a b : Nat) : Except Fault Nat := if a + b < 2 ^ 64 then .ok (a + b) else .error .overflow

/-- `&bytes[start..stop]`. -/
def slice (bytes : Bytes) (start stop : Nat) : Except Fault Bytes :=
  if start ≤ stop ∧ stop ≤ bytes.length then .ok ((bytes.drop start).take (stop - start))
  else .error .outOfRange

/-- One read of the library, which moves the position past what it read. -/
def read (input : Bytes) (r : Reader α) : Scan α := fun cursor =>
  match r (input.drop cursor.position) with
  | none => .error (.error cborError)
  | some (a, rest) => .ok (a, { cursor with position := input.length - rest.length })

/-- `MatchingWriter::write_all`. -/
def writeAll (bytes : Bytes) : Scan Unit := fun cursor =>
  if bytes.isPrefixOf cursor.unmatched then do
    let unmatched ← slice cursor.unmatched bytes.length cursor.unmatched.length
    return ((), { cursor with unmatched })
  else .error (.error invalidCanonicalObject)

/-- `exact_value!`. -/
def exactValue (input : Bytes) (r : Reader α) (encode : α → Bytes) : Scan α := do
  let value ← read input r
  writeAll (encode value)
  return value

/-- `exact_len!`. -/
def exactLen (input : Bytes) (r : Reader (Option Nat)) (major : Nat) : Scan Nat := do
  let n ← check (okOr (← read input r) invalidCanonicalObject)
  writeAll (head major n)
  return n

def map (input : Bytes) : Scan Nat := exactLen input Reader.map 5

def array (input : Bytes) : Scan Nat := exactLen input Reader.array 4

def uint (input : Bytes) (bits : Nat) : Scan Nat :=
  exactValue input (Reader.uint bits) Cbor.uint

def u64 (input : Bytes) : Scan UInt64 := exactValue input readU64 ObjectLog.u64

def bytes (input : Bytes) : Scan Bytes := exactValue input Reader.bytes Cbor.bytes

def text (input : Bytes) : Scan Bytes := exactValue input Reader.text Cbor.text

/-- The number of the next field must be `k`. -/
def field (input : Bytes) (k : Nat) : Scan Unit := do
  let n ← uint input 8
  valid (n = k)

/-- A byte string that is kept as a range of the input. -/
def range (input : Bytes) : Scan (Bytes × Nat × Nat) := do
  let value ← bytes input
  let stop ← position
  let start ← subtract stop value.length
  return (value, start, stop)

/-- `valid(decoder.position() == bytes.len())`. -/
def finished (input : Bytes) : Scan Unit := do
  valid ((← position) = input.length)

/-- `bytes.len() - decoder.position()`. -/
def remaining (input : Bytes) : Scan Nat := do
  subtract input.length (← position)

/-- `try_reserve_exact` for items of at least `least` bytes each. -/
def reserve (input : Bytes) (count least : Nat) : Scan Unit := do
  if (← remaining input) < count * least then throw .overReserve

/-- Reads `n` items. -/
def times (s : Scan α) : Nat → Scan (List α)
  | 0 => return []
  | n + 1 => return (← s) :: (← times s n)

/-- Runs a decoder from the start of the input. -/
def run (input : Bytes) (s : Scan α) : Except Fault α := do
  let (a, _) ← s { position := 0, unmatched := input }
  return a

end Scan

/-- `decode_borrowed_envelope`, which returns the range of the payload. -/
def scanEnvelope [Blake3] (input : Bytes) : Scan (Nat × Nat) := do
  let n ← Scan.map input
  Scan.valid (n = 2)
  Scan.field input 1
  let (payload, range) ← Scan.range input
  Scan.field input 2
  let encodedDigest ← Scan.bytes input
  Scan.finished input
  let digest ← Scan.check (digestOf encodedDigest)
  Scan.check (ensure (digest = Digest.of payload) .corruptObject)
  return range

/-- One child of `decode_node_payload`. -/
def scanChild (input : Bytes) (options : Options) : Scan ObjectRef := do
  let n ← Scan.map input
  Scan.valid (n = 5)
  Scan.field input 1
  let kind ← Scan.check (match ← Scan.uint input 8 with
    | 1 => .ok ObjectKind.blob
    | 3 => .ok ObjectKind.node
    | _ => .error (invalid "invalid node child kind"))
  Scan.field input 2
  let digestBytes ← Scan.bytes input
  Scan.field input 3
  let len ← Scan.u64 input
  Scan.check (ensure (len ≤ options.maxObjectBytes) (.limitExceeded "object bytes"))
  Scan.field input 4
  let storageIdBytes ← Scan.bytes input
  Scan.field input 5
  let subtreeObjects ← Scan.u64 input
  let storageId ← Scan.check (storageIdOf storageIdBytes)
  let digest ← Scan.check (digestOf digestBytes)
  let child : ObjectRef := { kind, storageId, digest, len, subtreeObjects }
  Scan.check child.validateCount
  return child

/-- `decode_node_payload`, which returns the range of the payload. -/
def scanNode (input : Bytes) (options : Options) : Scan ((Nat × Nat) × List ObjectRef) := do
  let n ← Scan.map input
  Scan.valid (n = 3)
  Scan.field input 1
  let version ← Scan.uint input 32
  Scan.check (requireVersion version)
  Scan.field input 2
  let (_, range) ← Scan.range input
  Scan.field input 3
  let count ← Scan.array input
  Scan.check (ensure (count ≤ options.maxObjectRefs.toNat) (.limitExceeded "object references"))
  Scan.valid (count ≤ (← Scan.remaining input) / 60)
  Scan.reserve input count 60
  let children ← Scan.times (scanChild input options) count
  Scan.finished input
  return (range, children)

/-- `decode_node`, whose payload is a slice of the input. -/
def scanDecodeNode [Blake3] (input : Bytes) (options : Options) : Except Fault Node := do
  let (start, stop) ← Scan.run input (scanEnvelope input)
  let inner ← Scan.slice input start stop
  let ((payloadStart, payloadStop), children) ← Scan.run inner (scanNode inner options)
  let payload ← Scan.slice input (← Scan.add start payloadStart) (← Scan.add start payloadStop)
  return { payload, children }

end ObjectLog
