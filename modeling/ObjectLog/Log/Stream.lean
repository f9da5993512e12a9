import ObjectLog.Log.History

/-!
# Writing byte streams

A stream is written in chunks of one size. A write that fails or is dropped leaves the writer
marked as failed: the mark is set before the first await and taken back at the end.
-/

namespace ObjectLog

open Rely

variable [Blake3]

structure ByteWriter where
  log : Log
  view : View
  chunkBytes : Nat
  capacity : Nat
  len : Nat
  buffer : Bytes
  children : List StagedObject
  failed : Bool

/-- `Log::node_size`. -/
def Log.nodeSize (log : Log) (payloadBytes : Nat) (children : List ObjectRef) : Except Error Nat := do
  let size ← ObjectLog.nodeSize payloadBytes
    (children.map fun child => (child.len, child.subtreeObjects)) log.options
  return size.encoded

/-- A descriptor with this number of chunks is within the limits. -/
def Log.descriptorFits (log : Log) (chunkBytes count : Nat) : Bool :=
  (ObjectLog.nodeSize descriptorBytes (List.replicate count (.ofNat chunkBytes, 1))
    log.options).toOption.isSome

/-- The search of `Log::byte_writer`. Every turn shortens the interval, so a `fuel` of `high`
is never short. -/
def searchChunks (fits : Nat → Bool) : Nat → Nat → Nat → Nat
  | 0, low, _ => low
  | fuel + 1, low, high =>
      if low < high then
        let mid := low + (high - low + 1) / 2
        if fits mid then searchChunks fits fuel mid high
        else searchChunks fits fuel low (mid - 1)
      else low

/-- `Log::byte_writer`. -/
def Log.byteWriter (log : Log) (view : View) : Except Error ByteWriter := do
  let chunkBytes := min log.options.maxObjectBytes.toNat maxChunkBytes
  let _ ← log.nodeSize descriptorBytes []
  let high := min log.options.maxObjectRefs.toNat (log.options.maxObjectBytes.toNat / 32)
  let chunks := searchChunks (log.descriptorFits chunkBytes) high 0 high
  ensure (chunks * chunkBytes < 2 ^ 64) (.limitExceeded "byte stream length")
  return { log, view, chunkBytes, capacity := chunks * chunkBytes, len := 0, buffer := [],
           children := [], failed := false }

/-- The loop of `ByteWriter::write` and what follows it. The buffer is never full between two
turns, so every turn takes a byte and a `fuel` of the length of the data is never short. -/
def ByteWriter.writeLoop (len : Nat) :
    Nat → Bytes → ByteWriter → Polled ByteWriter (Except Error Unit)
  | _, [], writer => .ended { writer with len, failed := false } (.ok ())
  | 0, _ :: _, writer => .ended writer (.error invalidByteStream)
  | fuel + 1, byte :: data, writer =>
      let n := min (byte :: data).length (writer.chunkBytes - writer.buffer.length)
      let buffer := writer.buffer ++ (byte :: data).take n
      let rest := (byte :: data).drop n
      if buffer.length = writer.chunkBytes then
        -- the buffer is taken out of the writer before the chunk is stored
        .awaiting { writer with buffer := [] } (writer.log.putObject writer.view buffer) fun
          | .error error => .ended { writer with buffer := [] } (.error error)
          | .ok child =>
              ByteWriter.writeLoop len fuel rest
                { writer with buffer := [], children := writer.children ++ [child] }
      else ByteWriter.writeLoop len fuel rest { writer with buffer }

/-- `ByteWriter::write` as a future. -/
def ByteWriter.writePolled (writer : ByteWriter) (data : Bytes) :
    Polled ByteWriter (Except Error Unit) :=
  if writer.failed then .ended writer (.error invalidByteStream)
  else
    let len := writer.len + data.length
    if len < 2 ^ 64 ∧ len ≤ writer.capacity then
      ByteWriter.writeLoop len data.length data { writer with failed := true }
    else .ended { writer with failed := true } (.error (.limitExceeded "byte stream length"))

/-- `ByteWriter::write`, with the writer it leaves behind. -/
def ByteWriter.write (writer : ByteWriter) (data : Bytes) : Op (ByteWriter × Except Error Unit) :=
  (writer.writePolled data).run

/-- The payload of the node over the chunks of a stream. -/
def streamDescriptor (len chunkBytes : Nat) : Bytes :=
  byteStreamTag ++ Cbor.bigEndian 8 len ++ Cbor.bigEndian 8 chunkBytes

/-- The chunks of a finished stream, the incomplete one stored. -/
def ByteWriter.lastChunk (writer : ByteWriter) : Op (List StagedObject) :=
  if writer.buffer = [] then return writer.children
  else do return writer.children ++ [← writer.log.putObject writer.view writer.buffer]

/-- `ByteWriter::finish`. -/
def ByteWriter.finish (writer : ByteWriter) : Op StagedObject := do
  if writer.failed then throw invalidByteStream
  match ← writer.lastChunk with
  | [child] => return child
  | children =>
      writer.log.putNode writer.view (streamDescriptor writer.len writer.chunkBytes) children

/-- `ByteReader::read_at` as a future: the older chunk is released before the read. -/
def ByteReader.readAtPolled (reader : ByteReader) (offset maxLen : Nat) :
    Polled ByteReader (Except Error Bytes) :=
  if maxLen = 0 ∨ reader.len ≤ offset then .ended reader (.ok [])
  else
    let index := offset / reader.chunkBytes
    let start := offset % reader.chunkBytes
    match reader.lookup index with
    | some (reader, bytes) => .ended reader (.ok (byteSlice bytes start maxLen))
    | none =>
        let released := { reader with cached := (reader.cached.1, none) }
        match reader.children[index]? with
        | none => .ended released (.error invalidByteStream)
        | some child =>
            .awaiting released (reader.log.readObject reader.view child) fun
              | .error error => .ended released (.error error)
              | .ok bytes =>
                  .ended { reader with cached := (some (index, bytes), reader.cached.1) }
                    (.ok (byteSlice bytes start maxLen))

end ObjectLog
