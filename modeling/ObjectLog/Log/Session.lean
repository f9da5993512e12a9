import ObjectLog.Log.Collect

/-!
# Opening a log, reading its history, reading byte streams
-/

namespace ObjectLog

open Rely

variable [Blake3]

/-! ## Opening -/

/-- `Log::head_from_stored`: the head of the log, before a handle knows its incarnation. -/
def openedHead (logId : LogId) (options : Options) (stored : StoredObject) : Except Error Head := do
  let head ← decodeHead stored.bytes
  ensure (head.logId = logId) (invalid "the durable head belongs to another log")
  ensure (head.options = options) (.configurationMismatch "options")
  return head

/-- `Log::load_existing_head`. -/
def loadExistingHead (logId : LogId) (options : Options) : Op (Head × UpdateVersion) := do
  match ← readHead options.maxHeadBytes.toNat with
  | none => throw .logNotFound
  | some stored => return (← Prog.lift (openedHead logId options stored), stored.version)

/-- The incarnation `Log::open` finds or creates. -/
def openIncarnation (logId : LogId) (options : Options) : Op Uuid := do
  match ← readHead options.maxHeadBytes.toNat with
  | some stored => return (← Prog.lift (openedHead logId options stored)).incarnation
  | none =>
      let initial := Head.empty logId (← newUuid) options
      let initialBytes ← Prog.lift (encodeHead initial)
      Prog.lift (validateHeadSize options initialBytes)
      match ← (createHead initialBytes).attempt with
      | .ok true => return initial.incarnation
      | .ok false => return (← loadExistingHead logId options).1.incarnation
      | .error createError =>
          match ← readHead options.maxHeadBytes.toNat with
          | some stored => return (← Prog.lift (openedHead logId options stored)).incarnation
          | none => throw createError

/-- `Log::open`. -/
def Log.«open» (logId : LogId) (options : Options) : Op Log := do
  let incarnation ← openIncarnation logId options
  return { logId, options, incarnation, stagingDomain := ← newStagingDomain }

/-- `Log::open_existing_with_view`. -/
def Log.openExistingWithView (logId : LogId) (options : Options) : Op (Log × View) := do
  let (head, version) ← loadExistingHead logId options
  let log : Log :=
    { logId, options, incarnation := head.incarnation, stagingDomain := ← newStagingDomain }
  return (log, ← newView head version)

/-! ## History -/

/-- A record and the proofs of its dependencies. -/
structure Authenticated (ρ : Type) where
  record : ρ
  proofs : List StagedObject
  deriving DecidableEq

inductive HistoryItem
  | checkpoint (item : Authenticated CheckpointRecord)
  | commit (item : Authenticated CommitRecord)
  deriving DecidableEq

structure HistoryCursor where
  log : Log
  view : View
  checkpointRead : Bool
  nextCommit : Nat
  ready : List (Except Error (Option CommitRecord))
  complete : Bool

/-- `history`. -/
def Log.history (log : Log) (view : View) : Except Error HistoryCursor := do
  log.validateView view
  return { log, view, checkpointRead := false, nextCommit := 0, ready := [], complete := false }

/-- `HistoryCursor::clone`: read-ahead is not shared. -/
def HistoryCursor.clone (cursor : HistoryCursor) : HistoryCursor := { cursor with ready := [] }

/-- `record_proofs`. -/
def Log.recordProofs (log : Log) (view : View) (objects : List ObjectRef) : List StagedObject :=
  objects.map (log.stagedObject view)

/-- `tail_record`. -/
def Log.tailRecord (log : Log) (view : View) (index : Nat) : Op (Authenticated CommitRecord) := do
  let record ← log.readTailRecord view index
  return { record, proofs := log.recordProofs view record.objects }

def readAheadWindow : Nat := 8

/-- The read-ahead of a cursor: the reads are all started before the first is taken, and
each keeps its own result. -/
def HistoryCursor.fetch (cursor : HistoryCursor) : Op (List (Except Error (Option CommitRecord))) := do
  let window := cursor.log.commitReadWindow readAheadWindow
  let references := (cursor.view.head.tail.drop cursor.nextCommit).take window
  let started ← references.mapM cursor.log.startCommit
  (references.zip started).zipIdx.mapM fun ((reference, flight), offset) =>
    (cursor.log.finishTailRecord cursor.view (cursor.nextCommit + offset) reference flight).attempt

/-- What `HistoryCursor::next` does with the record in front of its read-ahead. -/
def HistoryCursor.take (cursor : HistoryCursor) :
    Op (HistoryCursor × Except Error (Option HistoryItem)) := do
  match cursor.ready with
  | [] => return (cursor, .error .corruptObject)
  | .ok (some record) :: ready =>
      let proofs := cursor.log.recordProofs cursor.view record.objects
      return ({ cursor with nextCommit := cursor.nextCommit + 1, ready },
        .ok (some (.commit { record, proofs })))
  | .ok none :: _ =>
      let result ← (cursor.log.missingReadError cursor.view).attempt
      return ({ cursor with ready := [] }, result)
  | .error error :: _ => return ({ cursor with ready := [] }, .error error)

/-- The part of `HistoryCursor::next` after the checkpoint. -/
def HistoryCursor.nextRecord (cursor : HistoryCursor) :
    Op (HistoryCursor × Except Error (Option HistoryItem)) := do
  if cursor.nextCommit < cursor.view.head.tail.length then
    if cursor.ready = [] then
      return ← HistoryCursor.take { cursor with ready := ← cursor.fetch }
    cursor.take
  else
    cursor.log.rememberTail cursor.view
    return ({ cursor with complete := true }, .ok none)

/-- `HistoryCursor::next`, with the cursor it leaves behind. -/
def HistoryCursor.next (cursor : HistoryCursor) :
    Op (HistoryCursor × Except Error (Option HistoryItem)) := do
  if cursor.complete then return (cursor, .ok none)
  if cursor.checkpointRead then return ← cursor.nextRecord
  match ← (cursor.log.readCheckpoint cursor.view).attempt with
  | .error error => return (cursor, .error error)
  | .ok (some record) =>
      let proofs := cursor.log.recordProofs cursor.view record.objects
      return ({ cursor with checkpointRead := true }, .ok (some (.checkpoint { record, proofs })))
  | .ok none => HistoryCursor.nextRecord { cursor with checkpointRead := true }

/-! ## Byte streams -/

def byteStreamTag : Bytes := [79, 76, 66, 83, 0, 0, 0, 1]
def descriptorBytes : Nat := 24
def maxChunkBytes : Nat := 2 * 1024 * 1024

def invalidByteStream : Error := invalid "invalid byte stream"

structure ByteReader where
  log : Log
  view : View
  chunkBytes : Nat
  len : Nat
  children : List ObjectRef
  /-- The most recent chunk and the one before it. -/
  cached : Option (Nat × Bytes) × Option (Nat × Bytes)

/-- The checks `Log::open_bytes` makes on a descriptor node. -/
def Log.byteStream (log : Log) (node : Node) : Except Error (Nat × Nat) := do
  ensure (node.payload.length = descriptorBytes ∧ node.payload.take 8 = byteStreamTag)
    invalidByteStream
  let len := Cbor.ofBigEndian ((node.payload.drop 8).take 8)
  let chunkBytes := Cbor.ofBigEndian ((node.payload.drop 16).take 8)
  ensure (chunkBytes ≠ 0 ∧ chunkBytes ≤ min log.options.maxObjectBytes.toNat maxChunkBytes ∧
    (len + chunkBytes - 1) / chunkBytes = node.children.length) invalidByteStream
  ensure (∀ entry ∈ node.children.zipIdx, entry.1.kind = .blob ∧
    entry.1.len.toNat = min (len - entry.2 * chunkBytes) chunkBytes) invalidByteStream
  return (len, chunkBytes)

/-- `Log::open_bytes`. -/
def Log.openBytes (log : Log) (view : View) (root : ObjectRef) : Op ByteReader := do
  if root.kind = .blob then
    Prog.lift (log.validateView view)
    Prog.lift root.validateCount
    let chunkBytes := min log.options.maxObjectBytes.toNat maxChunkBytes
    if chunkBytes < root.len.toNat then throw (.limitExceeded "byte stream chunk bytes")
    let bytes ← log.readObject view root
    return { log, view, chunkBytes, len := root.len.toNat, children := [root],
             cached := (some (0, bytes), none) }
  let node ← log.readNode view root
  let (len, chunkBytes) ← Prog.lift (log.byteStream node)
  return { log, view, chunkBytes, len, children := node.children, cached := (none, none) }

/-- The slice `ByteReader::read_at` returns. -/
def byteSlice (bytes : Bytes) (start maxLen : Nat) : Bytes := (bytes.drop start).take maxLen

/-- The chunk if one of the two caches has it, which then becomes the most recent one. -/
def ByteReader.lookup (reader : ByteReader) (index : Nat) : Option (ByteReader × Bytes) :=
  match reader.cached.1.filter (·.1 = index), reader.cached.2.filter (·.1 = index) with
  | some (_, bytes), _ => some (reader, bytes)
  | none, some (_, bytes) => some ({ reader with cached := reader.cached.swap }, bytes)
  | none, none => none

/-- `ByteReader::read_at`, with the reader it leaves behind. -/
def ByteReader.readAt (reader : ByteReader) (offset maxLen : Nat) :
    Op (ByteReader × Except Error Bytes) := do
  if maxLen = 0 ∨ reader.len ≤ offset then return (reader, .ok [])
  let index := offset / reader.chunkBytes
  let start := offset % reader.chunkBytes
  match reader.lookup index with
  | some (reader, bytes) => return (reader, .ok (byteSlice bytes start maxLen))
  | none =>
      -- the older chunk is released before the read
      let released := { reader with cached := (reader.cached.1, none) }
      match reader.children[index]? with
      | none => return (released, .error invalidByteStream)
      | some child =>
          match ← (reader.log.readObject reader.view child).attempt with
          | .error error => return (released, .error error)
          | .ok bytes =>
              return ({ reader with cached := (some (index, bytes), reader.cached.1) },
                .ok (byteSlice bytes start maxLen))

end ObjectLog
