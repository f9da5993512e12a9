import ObjectLog.Format.Cursor
import ObjectLog.Log.Stream

/-!
# Reading byte streams with machine integers

`open_bytes` and `read_at` once more, as the source computes them: `u64` products, sums and
differences, and accesses by index and by range. An operation that has no result is a fault
of its own here. The definitions of `Log.Session` know none of this: their differences stop at
zero and their slices at the end.
-/

namespace ObjectLog

open Rely

variable [Blake3]

namespace Scan

variable {α : Type}

/-- A `u64` product. -/
def multiply (a b : Nat) : Except Fault Nat :=
  if a * b < 2 ^ 64 then .ok (a * b) else .error .overflow

/-- Quotient and remainder. A divisor of zero is out of range. -/
def divide (a b : Nat) : Except Fault (Nat × Nat) :=
  if b = 0 then .error .outOfRange else .ok (a / b, a % b)

/-- `u64::div_ceil`. -/
def divCeil (a b : Nat) : Except Fault Nat := do
  let (quotient, remainder) ← divide a b
  if 0 < remainder then add quotient 1 else return quotient

/-- `xs[i]`. -/
def index (xs : List α) (i : Nat) : Except Fault α :=
  match xs[i]? with
  | some x => .ok x
  | none => .error .outOfRange

end Scan

/-- The closure `number` of `Log::open_bytes`. -/
def scanNumber (descriptor : Bytes) (offset : Nat) : Except Fault Nat := do
  let stop ← Scan.add offset 8
  let field ← Scan.slice descriptor offset stop
  if field.length ≠ 8 then throw (.error invalidByteStream)
  return Cbor.ofBigEndian field

/-- What `Log::open_bytes` asks of a child. -/
def scanChunk (len chunkBytes : Nat) (entry : ObjectRef × Nat) : Except Fault Unit := do
  let expected := min (← Scan.subtract len (← Scan.multiply entry.2 chunkBytes)) chunkBytes
  if entry.1.kind ≠ .blob ∨ entry.1.len.toNat ≠ expected then throw (.error invalidByteStream)

/-- The checks `Log::open_bytes` makes on a descriptor node. Each operand of `||` is looked at
only if the ones before it are false. -/
def Log.scanByteStream (log : Log) (node : Node) : Except Fault (Nat × Nat) := do
  if node.payload.length ≠ descriptorBytes then throw (.error invalidByteStream)
  if (← Scan.slice node.payload 0 8) ≠ byteStreamTag then throw (.error invalidByteStream)
  let len ← scanNumber node.payload 8
  let chunkBytes ← scanNumber node.payload 16
  if chunkBytes = 0 then throw (.error invalidByteStream)
  if min log.options.maxObjectBytes.toNat maxChunkBytes < chunkBytes then
    throw (.error invalidByteStream)
  if (← Scan.divCeil len chunkBytes) ≠ node.children.length then throw (.error invalidByteStream)
  node.children.zipIdx.forM (scanChunk len chunkBytes)
  return (len, chunkBytes)

/-- `bytes.slice(start..start + max_len.min(bytes.len() - start))`. -/
def scanSlice (bytes : Bytes) (start maxLen : Nat) : Except Fault Bytes := do
  let left ← Scan.subtract bytes.length start
  let stop ← Scan.add start (min maxLen left)
  Scan.slice bytes start stop

/-- `ByteReader::read_at`, with the reader it leaves behind. -/
def ByteReader.scanAt (reader : ByteReader) (offset maxLen : Nat) :
    Op (ByteReader × Except Fault Bytes) := do
  if maxLen = 0 ∨ reader.len ≤ offset then return (reader, .ok [])
  match Scan.divide offset reader.chunkBytes with
  | .error fault => return (reader, .error fault)
  | .ok (index, start) =>
      match reader.lookup index with
      | some (reader, bytes) => return (reader, scanSlice bytes start maxLen)
      | none =>
          let released := { reader with cached := (reader.cached.1, none) }
          match Scan.index reader.children index with
          | .error fault => return (released, .error fault)
          | .ok child =>
              match ← (reader.log.readObject reader.view child).attempt with
              | .error error => return (released, .error (.error error))
              | .ok bytes =>
                  return ({ reader with cached := (some (index, bytes), reader.cached.1) },
                    scanSlice bytes start maxLen)

end ObjectLog
