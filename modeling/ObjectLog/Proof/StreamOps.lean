import ObjectLog.Lib.Chunks
import ObjectLog.Log.Stream
import ObjectLog.Proof.Served
import ObjectLog.Proof.StageOps

/-!
# Byte streams

What a writer has stored at any moment is the data it has accepted, cut into chunks. A root
that `finish` returns stands for that data, and every chunk a reader fetches or keeps in its
cache is one of its chunks.
-/

namespace ObjectLog

open Rely Chunks

variable [Blake3] {σ : Bodies} {log : Log} {view : View} {data : Bytes}

/-! ## Creating objects -/

/-- The contents have the bytes under the reference, which describes them. -/
structure Created (σ : Bodies) (log : Log) (kind : ObjectKind) (bytes : Bytes) (subtree : UInt64)
    (object : ObjectRef) : Prop where
  kind : object.kind = kind
  digest : Digest.of bytes = object.digest
  len : bytes.length = object.len.toNat
  subtree : object.subtreeObjects = subtree
  held : σ (objectKey log.incarnation object) = some bytes

omit [Blake3] in
theorem create_answered (key : ImmutableKey) (bytes : Bytes) :
    Ends (Creating σ) (create key bytes) (Yields fun made => made = true → σ key = some bytes) := by
  have anyway : ∀ {β : Type} {p : Op β}, Ends (Creating σ) p (Yields fun _ => True) := by
    intro β p
    refine Ends.all fun r => ?_
    cases r <;> trivial
  refine anyway.feed fun _ _ => anyway.feed fun flight _ => ?_
  refine Ends.feed (V := Creating σ (.await (.create key bytes) flight)) (Ends.ask fun a ha => ha)
    fun reply hreply => ?_
  cases reply with
  | error e => trivial
  | ok made => exact Ends.pure fun hmade => hreply (congrArg Except.ok hmade)

theorem createFresh_answered {kind : ObjectKind} {bytes : Bytes} {len subtree : UInt64}
    {blocked : Option (List CollectionCandidate)} (hlen : bytes.length = len.toNat)
    (attempts : Nat) :
    Ends (Creating σ) (log.createFresh kind bytes len subtree blocked attempts)
      (Yields (Created σ log kind bytes subtree)) := by
  induction attempts with
  | zero => exact Ends.throw trivial
  | succ attempts ih =>
      refine Ends.feed (V := fun _ => True) (Ends.ask fun _ _ => trivial) fun storageId _ => ?_
      dsimp only
      split
      · exact ih
      · refine (create_answered _ _).feed fun made hmade => ?_
        split
        · rename_i htrue
          exact Ends.pure ⟨rfl, rfl, hlen, rfl, hmade htrue⟩
        · exact ih

theorem createFreshObject_answered {kind : ObjectKind} {bytes : Bytes} {subtree : UInt64}
    {blocked : Option (List CollectionCandidate)} :
    Ends (Creating σ) (log.createFreshObject kind bytes subtree blocked)
      (Yields (Created σ log kind bytes subtree)) :=
  Ends.feedLift fun _ hlen => createFresh_answered (toU64_toNat (okOr_ok.1 hlen)).symm _

theorem putObject_answered {bytes : Bytes} :
    Ends (Creating σ) (log.putObject view bytes) (Yields fun staged =>
      Created σ log .blob bytes 1 staged.object ∧
        bytes.length ≤ log.options.maxObjectBytes.toNat) := by
  refine Ends.feedLift fun _ _ => Ends.feedLift fun _ hfits => ?_
  refine Ends.feed (V := fun _ => True) (Ends.all fun r => ?_) fun blocked _ => ?_
  · cases r <;> trivial
  · exact createFreshObject_answered.feed fun object hobject =>
      Ends.pure ⟨hobject, ensure_ok.1 hfits⟩

theorem putNode_answered {payload : Bytes} {children : List StagedObject} :
    Ends (Creating σ) (log.putNode view payload children) (Yields fun staged =>
      ∃ subtree bytes, subtreeObjects (children.map StagedObject.object) = .ok subtree ∧
        encodeNode { payload, children := children.map StagedObject.object } log.options =
          .ok bytes ∧
        Created σ log .node bytes subtree staged.object) := by
  refine Ends.feedLift fun _ _ => Ends.feedLift fun subtree hsubtree => ?_
  refine Ends.feedLift fun bytes hbytes => ?_
  refine Ends.feed (V := fun _ => True) (Ends.all fun r => ?_) fun blocked _ => ?_
  · cases r <;> trivial
  · exact createFreshObject_answered.feed fun object hobject =>
      Ends.pure ⟨subtree, bytes, hsubtree, hbytes, hobject⟩

/-! ## Writing -/

/-- The chunks in the contents. -/
def ChunksStored (σ : Bodies) (log : Log) (size : Nat) (data : Bytes)
    (children : List StagedObject) : Prop :=
  ∀ (i : Nat) child, children[i]? = some child →
    Created σ log .blob (chunk data size i) 1 child.object

/-- **The invariant of a writer** that has taken `data`: its full chunks are stored and the
rest is in the buffer. -/
structure WriterAt (σ : Bodies) (log : Log) (view : View) (data : Bytes) (writer : ByteWriter) :
    Prop where
  handle : writer.log = log
  shown : writer.view = view
  size : writer.chunkBytes = min log.options.maxObjectBytes.toNat maxChunkBytes
  stored : ChunksStored σ log writer.chunkBytes data writer.children
  full : writer.children.length * writer.chunkBytes ≤ data.length
  buffered : writer.buffer = data.drop (writer.children.length * writer.chunkBytes)
  room : writer.buffer.length < writer.chunkBytes

/-- Data that is taken stays in the buffer, or completes a chunk that is stored. -/
theorem ChunksStored.grow {size : Nat} {children : List StagedObject}
    (h : ChunksStored σ log size data children) (more : Bytes)
    (hfull : children.length * size ≤ data.length) :
    ChunksStored σ log size (data ++ more) children := by
  intro i child hchild
  have hi := (List.getElem?_eq_some_iff.1 hchild).1
  have hle : (i + 1) * size ≤ children.length * size := Nat.mul_le_mul_right _ hi
  rw [chunk_append (by omega)]
  exact h i child hchild

theorem ChunksStored.snoc {size : Nat} {children : List StagedObject} {child : StagedObject}
    (h : ChunksStored σ log size data children)
    (hchild : Created σ log .blob (chunk data size children.length) 1 child.object) :
    ChunksStored σ log size data (children ++ [child]) := by
  intro i x hx
  rw [List.getElem?_append] at hx
  split at hx
  · exact h i x hx
  · rw [List.getElem?_singleton] at hx
    split at hx
    · obtain rfl := Option.some.inj hx
      rwa [show i = children.length by omega]
    · cases hx

/-- How a `write` ends after which the writer would have taken `data`, of length `len`. -/
def WriteEnds (σ : Bodies) (log : Log) (view : View) (len : Nat) (data : Bytes)
    (writer : ByteWriter) : Except Error Unit → Prop
  | .ok _ => WriterAt σ log view data writer ∧ writer.len = len ∧ writer.failed = false ∧
      len < 2 ^ 64
  | .error _ => writer.failed = true

theorem writeLoop_keeps {len : Nat} (fuel : Nat) (rest : Bytes) (data : Bytes)
    (writer : ByteWriter) (h : WriterAt σ log view data writer) (hmark : writer.failed = true)
    (hfuel : rest.length ≤ fuel) (hlt : len < 2 ^ 64) :
    (ByteWriter.writeLoop len fuel rest writer).Keeps (Creating σ) (fun w => w.failed = true)
      (WriteEnds σ log view len (data ++ rest)) := by
  induction fuel generalizing rest data writer with
  | zero =>
      rw [List.length_eq_zero_iff.1 (Nat.le_zero.1 hfuel), List.append_nil]
      exact ⟨{ h with }, rfl, rfl, hlt⟩
  | succ fuel ih =>
      match rest with
      | [] =>
          rw [List.append_nil]
          exact ⟨{ h with }, rfl, rfl, hlt⟩
      | byte :: tail =>
          rw [ByteWriter.writeLoop]
          have hsome : 0 < (byte :: tail).length := Nat.succ_pos _
          generalize byte :: tail = rest at hfuel hsome
          have hroom := h.room
          -- a turn takes at least one byte, and at most what the chunk has room for
          obtain ⟨n, hn⟩ : ∃ n, n = min rest.length (writer.chunkBytes - writer.buffer.length) :=
            ⟨_, rfl⟩
          rw [← hn]
          have hbuffer : writer.buffer ++ rest.take n =
              (data ++ rest.take n).drop (writer.children.length * writer.chunkBytes) := by
            rw [List.drop_append_of_le_length h.full, ← h.buffered]
          have htaken : (writer.buffer ++ rest.take n).length = writer.buffer.length + n := by
            rw [List.length_append, List.length_take]
            omega
          have hstored := h.stored.grow (rest.take n) h.full
          have htotal : (data ++ rest.take n).length =
              writer.children.length * writer.chunkBytes + writer.buffer.length + n := by
            have hdrop := congrArg List.length h.buffered
            have hfull := h.full
            rw [List.length_drop] at hdrop
            rw [List.length_append, List.length_take]
            omega
          have hleft : (rest.drop n).length ≤ fuel := by
            rw [List.length_drop]
            omega
          rw [← List.take_append_drop n rest, ← List.append_assoc, List.take_append_drop]
          split
          · rename_i hfull
            obtain ⟨rfl, rfl⟩ : writer.log = log ∧ writer.view = view := ⟨h.handle, h.shown⟩
            refine ⟨hmark, putObject_answered.mono fun r hr => ?_⟩
            match r with
            | .error e => exact hmark
            | .ok child =>
                have hchunk : chunk (data ++ rest.take n) writer.chunkBytes writer.children.length =
                    writer.buffer ++ rest.take n := by
                  rw [hbuffer]
                  refine chunk_last ?_
                  rw [Nat.add_mul, Nat.one_mul]
                  omega
                refine ih (rest.drop n) (data ++ rest.take n) _
                  ⟨h.handle, h.shown, h.size, hstored.snoc ?_, ?_, ?_, ?_⟩ hmark hleft
                · rw [hchunk]
                  exact hr.1
                · dsimp only
                  rw [List.length_append, List.length_singleton, Nat.add_mul, Nat.one_mul]
                  omega
                · refine (List.drop_eq_nil_of_le ?_).symm
                  dsimp only
                  rw [htotal, List.length_append, List.length_singleton, Nat.add_mul, Nat.one_mul]
                  omega
                · exact Nat.lt_of_le_of_lt (Nat.zero_le _) hroom
          · rename_i hpartial
            refine ih (rest.drop n) (data ++ rest.take n) _
              ⟨h.handle, h.shown, h.size, hstored, ?_, hbuffer, ?_⟩ hmark hleft
            · dsimp only
              omega
            · dsimp only
              omega

/-- **A write on a writer that is in order** takes all its data, or marks the writer. -/
theorem writePolled_keeps {writer : ByteWriter} (h : WriterAt σ log view data writer)
    (hlen : writer.len = data.length) (more : Bytes) (hopen : writer.failed = false) :
    (writer.writePolled more).Keeps (Creating σ) (fun w => w.failed = true)
      (WriteEnds σ log view (data ++ more).length (data ++ more)) := by
  have htotal : (data ++ more).length = writer.len + more.length := by
    rw [List.length_append, hlen]
  unfold ByteWriter.writePolled
  rw [hopen, if_neg Bool.false_ne_true, htotal]
  dsimp only
  split
  · rename_i hfits
    exact writeLoop_keeps more.length more data _ { h with } rfl le_rfl hfits.1
  · exact rfl

/-- A marked writer refuses every write. -/
theorem writePolled_failed {writer : ByteWriter} (more : Bytes) (h : writer.failed = true) :
    writer.writePolled more = .ended writer (.error invalidByteStream) := by
  rw [ByteWriter.writePolled, if_pos h]

/-- The chunks of a finished stream. -/
theorem lastChunk_answered {writer : ByteWriter} (h : WriterAt σ log view data writer) :
    Ends (Creating σ) writer.lastChunk (Yields fun children =>
      ChunksStored σ log writer.chunkBytes data children ∧
        children.length = count data.length writer.chunkBytes) := by
  have hroom := h.room
  have hfull := h.full
  have hlength := congrArg List.length h.buffered
  rw [List.length_drop] at hlength
  unfold ByteWriter.lastChunk
  split
  · rename_i hempty
    rw [hempty, List.length_nil] at hlength hroom
    refine Ends.pure ⟨h.stored, ?_⟩
    have hexact : data.length = writer.children.length * writer.chunkBytes := by omega
    rw [hexact, count_of_full hroom]
  · rename_i hsome
    have hpos := List.length_pos_iff.2 hsome
    rw [h.handle]
    refine putObject_answered.feed fun child hchild => Ends.pure ⟨h.stored.snoc ?_, ?_⟩
    · rw [chunk_last, ← h.buffered]
      · exact hchild.1
      · rw [Nat.add_mul, Nat.one_mul]
        omega
    · rw [List.length_append, List.length_singleton]
      refine (count_of_rest ?_ ?_).symm
      · omega
      · rw [Nat.add_mul, Nat.one_mul]
        omega

/-- The size of a chunk of a log. -/
def Log.chunkBytes (log : Log) : Nat := min log.options.maxObjectBytes.toNat maxChunkBytes

/-- **A root that stands for data**: the blob itself if one chunk is enough, or a node that
describes the stream over the blobs of its chunks. -/
inductive StreamRoot (σ : Bodies) (log : Log) (data : Bytes) : ObjectRef → Prop
  | blob {root : ObjectRef} (created : Created σ log .blob data 1 root)
      (small : data.length ≤ log.chunkBytes) : StreamRoot σ log data root
  | node {root : ObjectRef} {children : List StagedObject} {bytes : Bytes} {subtree : UInt64}
      (stored : ChunksStored σ log log.chunkBytes data children)
      (complete : children.length = count data.length log.chunkBytes)
      (counted : subtreeObjects (children.map StagedObject.object) = .ok subtree)
      (encoded : encodeNode ⟨streamDescriptor data.length log.chunkBytes,
        children.map StagedObject.object⟩ log.options = .ok bytes)
      (created : Created σ log .node bytes subtree root) : StreamRoot σ log data root

/-- A stream of one chunk is that chunk. -/
theorem StreamRoot.single {child : StagedObject} {size : Nat}
    (stored : ChunksStored σ log size data [child]) (complete : 1 = count data.length size)
    (hsize : size = log.chunkBytes) : StreamRoot σ log data child.object := by
  have hsmall : data.length ≤ size := by
    by_contra hlt
    have hpos : 0 < size := by
      rcases Nat.eq_zero_or_pos size with rfl | hpos
      · simp [count] at complete
      · exact hpos
    have h2 : 2 ≤ count data.length size := by
      unfold count
      rw [Nat.le_div_iff_mul_le hpos]
      omega
    omega
  have hchunk := stored 0 child rfl
  rw [chunk_last (by omega), Nat.zero_mul, List.drop_zero] at hchunk
  exact .blob hchunk (hsize ▸ hsmall)

/-- **What `finish` returns stands for the data.** -/
theorem finish_answered {writer : ByteWriter} (h : WriterAt σ log view data writer)
    (hlen : writer.len = data.length) :
    Ends (Creating σ) writer.finish (Yields fun staged => StreamRoot σ log data staged.object) := by
  unfold ByteWriter.finish
  split
  · exact Ends.throw trivial
  refine (lastChunk_answered h).feed fun children hchildren => ?_
  obtain ⟨stored, complete⟩ := hchildren
  have hsize : writer.chunkBytes = log.chunkBytes := h.size
  split
  · exact Ends.pure (StreamRoot.single stored complete hsize)
  · rw [h.handle, hlen, hsize]
    rw [hsize] at stored complete
    refine putNode_answered.mono fun r hr => ?_
    match r with
    | .error e => trivial
    | .ok staged =>
        obtain ⟨subtree, bytes, hsubtree, hbytes, hcreated⟩ := hr
        exact .node stored complete hsubtree hbytes hcreated

/-- A marked writer has no root. -/
theorem finish_failed {writer : ByteWriter} (h : writer.failed = true) :
    Ends (Creating σ) writer.finish (Yields fun _ => False) := by
  unfold ByteWriter.finish
  rw [if_pos h]
  exact trivial

/-! ## Reading -/

/-- Another handle of the same log. -/
theorem StreamRoot.congr {log' : Log} {root : ObjectRef} (h : StreamRoot σ log data root)
    (hi : log'.incarnation = log.incarnation) (ho : log'.options = log.options) :
    StreamRoot σ log' data root := by
  have hsize : log'.chunkBytes = log.chunkBytes := by simp only [Log.chunkBytes, ho]
  have hcreated : ∀ {kind bytes subtree object}, Created σ log kind bytes subtree object →
      Created σ log' kind bytes subtree object := by
    intro kind bytes subtree object hc
    exact { hc with held := by rw [hi]; exact hc.held }
  cases h with
  | blob created small => exact .blob (hcreated created) (by rw [hsize]; exact small)
  | node stored complete counted encoded created =>
      refine .node ?_ (by rw [hsize]; exact complete) counted ?_ (hcreated created)
      · intro i child hchild
        rw [hsize]
        exact hcreated (stored i child hchild)
      · rw [hsize, ho]
        exact encoded

/-- A stream has a length that fits into its descriptor. -/
structure StreamData (log : Log) (data : Bytes) : Prop where
  pos : 0 < log.chunkBytes
  lt : data.length < 2 ^ 64

theorem Created.childOk {bytes : Bytes} {object : ObjectRef}
    (h : Created σ log .blob bytes 1 object)
    (hfits : bytes.length ≤ log.options.maxObjectBytes.toNat) : object.ChildOk log.options := by
  refine ⟨by simp [h.kind], ?_, ?_⟩
  · simp [ObjectRef.Counted, ObjectRef.validateCount, h.subtree]
  · rw [UInt64.le_iff_toNat_le, ← h.len]
    exact hfits

omit [Blake3] in
theorem streamDescriptor_parts {len size : Nat} (hlen : len < 2 ^ 64) (hsize : size < 2 ^ 64) :
    (streamDescriptor len size).length = descriptorBytes ∧
      (streamDescriptor len size).take 8 = byteStreamTag ∧
      Cbor.ofBigEndian (((streamDescriptor len size).drop 8).take 8) = len ∧
      Cbor.ofBigEndian (((streamDescriptor len size).drop 16).take 8) = size := by
  have htag : byteStreamTag.length = 8 := rfl
  have hl : (Cbor.bigEndian 8 len).length = 8 := Cbor.bigEndian_length 8 len
  have hs : (Cbor.bigEndian 8 size).length = 8 := Cbor.bigEndian_length 8 size
  unfold streamDescriptor
  refine ⟨?_, ?_, ?_, ?_⟩
  · simp [htag, descriptorBytes]
  · rw [List.append_assoc, List.take_left' htag]
  · rw [List.append_assoc, List.drop_left' htag, List.take_left' hl]
    exact Cbor.ofBigEndian_bigEndian hlen
  · rw [List.drop_left' (by simp [htag]), List.take_of_length_le (by omega)]
    exact Cbor.ofBigEndian_bigEndian hsize

/-- The descriptor of a stream is accepted. -/
theorem byteStream_descriptor {children : List StagedObject} (d : StreamData log data)
    (stored : ChunksStored σ log log.chunkBytes data children)
    (complete : children.length = count data.length log.chunkBytes) :
    log.byteStream ⟨streamDescriptor data.length log.chunkBytes,
      children.map StagedObject.object⟩ = .ok (data.length, log.chunkBytes) := by
  have hsize : log.chunkBytes < 2 ^ 64 :=
    Nat.lt_of_le_of_lt (Nat.min_le_left _ _) (UInt64.toNat_lt _)
  obtain ⟨h1, h2, h3, h4⟩ := streamDescriptor_parts d.lt hsize
  simp only [Log.byteStream, bind_ok, ensure_ok, exists_const, pure, Except.pure, h1, h2, h3, h4,
    List.length_map]
  refine ⟨⟨trivial, trivial⟩, ⟨Nat.ne_of_gt d.pos, le_rfl, complete.symm⟩, ?_, trivial⟩
  rintro ⟨object, i⟩ hentry
  have hget := List.mem_zipIdx_iff_getElem?.1 hentry
  rw [List.getElem?_map] at hget
  obtain ⟨child, hchild, rfl⟩ := Option.map_eq_some_iff.1 hget
  have created := stored i child hchild
  exact ⟨created.kind, by rw [← created.len, chunk_length]⟩

/-- **The invariant of a reader**: its references name the chunks of the data, and what it has
cached are chunks of the data. -/
structure ReaderAt (σ : Bodies) (size : Nat) (data : Bytes) (reader : ByteReader) : Prop where
  total : reader.len = data.length
  cut : reader.chunkBytes = size
  held : ∀ (i : Nat) child, reader.children[i]? = some child →
    σ (objectKey reader.log.incarnation child) = some (chunk data size i)
  first : ∀ i bytes, reader.cached.1 = some (i, bytes) → bytes = chunk data size i
  second : ∀ i bytes, reader.cached.2 = some (i, bytes) → bytes = chunk data size i

theorem Created.served {kind : ObjectKind} {bytes bytes' : Bytes} {subtree : UInt64}
    {object : ObjectRef} (h : Created σ log kind bytes subtree object)
    (hs : Served σ log object bytes') : bytes' = bytes :=
  Option.some.inj (hs.held.symm.trans h.held)

/-- The children of a stream node pass the decoder of nodes. -/
theorem ChunksStored.childOk {children : List StagedObject}
    (stored : ChunksStored σ log log.chunkBytes data children) :
    ∀ r ∈ children.map StagedObject.object, r.ChildOk log.options := by
  intro r hr
  obtain ⟨child, hchild, rfl⟩ := List.mem_map.1 hr
  obtain ⟨i, hi⟩ := List.getElem?_of_mem hchild
  refine (stored i child hi).childOk ?_
  have hsize : log.chunkBytes ≤ log.options.maxObjectBytes.toNat := Nat.min_le_left _ _
  rw [chunk_length]
  omega

/-- **A reader that was opened on the root reads the data.** -/
theorem openBytes_answered {root : ObjectRef} (d : StreamData log data)
    (h : StreamRoot σ log data root) :
    Ends (Serving σ) (log.openBytes view root) (Yields (ReaderAt σ log.chunkBytes data)) := by
  unfold Log.openBytes
  cases h with
  | blob created small =>
      rw [if_pos created.kind]
      refine Ends.feedLift fun _ _ => Ends.feedLift fun _ _ => ?_
      dsimp only
      split
      · exact trivial
      refine readObject_answered.feed fun bytes hbytes => Ends.pure ?_
      obtain rfl := created.served hbytes.2.served
      have hchunk : chunk bytes log.chunkBytes 0 = bytes := by
        rw [chunk_last (by omega), Nat.zero_mul, List.drop_zero]
      refine ⟨created.len.symm, rfl, ?_, ?_, by simp⟩
      · intro i child hchild
        rw [List.getElem?_singleton] at hchild
        split at hchild
        · rename_i hzero
          obtain rfl := Option.some.inj hchild
          rw [hzero, hchunk]
          exact created.held
        · cases hchild
      · intro i bytes' hcached
        obtain ⟨rfl, rfl⟩ := Prod.mk.inj (Option.some.inj hcached)
        exact hchunk.symm
  | node stored complete counted encoded created =>
      rw [if_neg (by simp [created.kind])]
      refine readNode_answered.feed fun node hnode => ?_
      obtain ⟨-, bytes, hbytes, hdecode⟩ := hnode
      obtain rfl := created.served hbytes.served
      simp only [Log.decodeNodeReference, bind_ok, pure, Except.pure, Except.ok.injEq] at hdecode
      obtain ⟨node', hnode', -, -, -, -, rfl⟩ := hdecode
      obtain rfl := Except.ok.inj
        ((decodeNode_encodeNode encoded stored.childOk).symm.trans hnode')
      refine Ends.feedLift fun shape hshape => ?_
      rw [byteStream_descriptor d stored complete] at hshape
      obtain rfl := Except.ok.inj hshape
      refine Ends.pure ⟨rfl, rfl, ?_, by simp, by simp⟩
      intro i child hchild
      rw [List.getElem?_map] at hchild
      obtain ⟨staged, hstaged, rfl⟩ := Option.map_eq_some_iff.1 hchild
      exact (stored i staged hstaged).held

theorem Created.verified {kind : ObjectKind} {bytes : Bytes} {subtree : UInt64} {root : ObjectRef}
    (h : Created σ log kind bytes subtree root) (hc : root.Counted)
    (hfits : bytes.length ≤ log.options.maxObjectBytes.toNat) : Served σ log root bytes := by
  refine ⟨h.held, verifyObject_ok.2 ⟨hc, h.len, h.digest⟩, ?_⟩
  rw [UInt64.le_iff_toNat_le, ← h.len]
  exact hfits

/-- **Without faults, the root is opened.** -/
theorem openBytes_served {root : ObjectRef} (d : StreamData log data)
    (h : StreamRoot σ log data root) (hview : log.validateView view = .ok ()) :
    Ends (Faultless σ) (log.openBytes view root) fun r => ∃ reader, r = .ok reader := by
  unfold Log.openBytes
  cases h with
  | blob created small =>
      have hcounted : root.Counted := (created.childOk (small.trans (Nat.min_le_left _ _))).counted
      have hserved := created.verified hcounted (small.trans (Nat.min_le_left _ _))
      rw [if_pos created.kind]
      refine Ends.after (Ends.lift hview) (Ends.after (Ends.lift hcounted) ?_)
      dsimp only
      rw [if_neg (by rw [← created.len]; exact Nat.not_lt.2 small)]
      have hread : Ends (Faultless σ) (log.readObject view root) fun r => r = .ok data := by
        refine Ends.after (Ends.lift hview) ?_
        simp only [created.kind, ne_eq, not_true_eq_false, if_false]
        exact readImmutableForView_served hserved
      exact hread.after (Ends.pure ⟨_, rfl⟩)
  | @node children bytes subtree stored complete counted encoded created =>
      have hcounted : root.Counted := by
        have hpos := (subtreeObjects_ok counted).1
        refine counted_of_pos (by simp [created.kind]) ?_
        rw [created.subtree]
        omega
      have hserved := created.verified hcounted (encodeNode_eq encoded).2.2.2
      rw [if_neg (by simp [created.kind])]
      have hdecode : log.decodeNodeReference root bytes =
          .ok ⟨streamDescriptor data.length log.chunkBytes,
            children.map StagedObject.object⟩ := by
        simp only [Log.decodeNodeReference, bind_ok, ensure_ok, pure, Except.pure]
        exact ⟨_, decodeNode_encodeNode encoded stored.childOk, subtree, counted, (),
          created.subtree, rfl⟩
      have hread : Ends (Faultless σ) (log.readNode view root) fun r =>
          r = .ok ⟨streamDescriptor data.length log.chunkBytes,
            children.map StagedObject.object⟩ := by
        refine Ends.after (Ends.lift hview) ?_
        simp only [created.kind, ne_eq, not_true_eq_false, if_false]
        exact (readImmutableForView_served hserved).after (Ends.lift hdecode)
      refine hread.after (Ends.after (Ends.lift (byteStream_descriptor d stored complete)) ?_)
      exact Ends.pure ⟨_, rfl⟩

/-- The bytes that a read at `offset` returns. -/
def streamSlice (data : Bytes) (size offset maxLen : Nat) : Bytes :=
  data.extract offset
    (min (offset + maxLen) (min ((offset / size + 1) * size) data.length))

omit [Blake3] in
theorem streamSlice_nil {size offset maxLen : Nat} (h : maxLen = 0 ∨ data.length ≤ offset) :
    streamSlice data size offset maxLen = [] := by
  unfold streamSlice
  rw [List.extract_eq_take_drop, List.take_eq_nil_iff]
  rcases h with rfl | h
  · left
    omega
  · right
    exact List.drop_eq_nil_of_le h

omit [Blake3] in
/-- A read continues what was read before it. -/
theorem take_append_streamSlice {size offset maxLen : Nat} (h : offset ≤ data.length) :
    data.take offset ++ streamSlice data size offset maxLen =
      data.take (data.take offset ++ streamSlice data size offset maxLen).length := by
  unfold streamSlice
  rw [List.extract_eq_take_drop, ← List.take_add, List.length_take, List.take_eq_take_iff]
  omega

omit [Blake3] in
theorem streamSlice_ne_nil {size offset maxLen : Nat} (hpos : 0 < size) (hlen : 0 < maxLen)
    (h : offset < data.length) : streamSlice data size offset maxLen ≠ [] := by
  have hsplit : offset / size * size + offset % size = offset := Nat.div_add_mod' offset size
  have hlt : offset % size < size := Nat.mod_lt offset hpos
  intro hnil
  have hzero := congrArg List.length hnil
  unfold streamSlice at hzero
  rw [List.extract_eq_take_drop, List.length_take, List.length_drop, List.length_nil, Nat.add_mul,
    Nat.one_mul] at hzero
  omega

omit [Blake3] in
/-- What a cached chunk answers. -/
theorem ReaderAt.lookup {reader reader' : ByteReader} {size index : Nat} {bytes : Bytes}
    (h : ReaderAt σ size data reader) (hl : reader.lookup index = some (reader', bytes)) :
    ReaderAt σ size data reader' ∧ bytes = chunk data size index := by
  unfold ByteReader.lookup at hl
  split at hl
  · rename_i i bytes' hfirst
    obtain ⟨rfl, rfl⟩ := Prod.mk.inj (Option.some.inj hl)
    obtain ⟨hcached, hi⟩ := Option.filter_eq_some_iff.1 hfirst
    exact ⟨h, (of_decide_eq_true hi) ▸ h.first i bytes' hcached⟩
  · rename_i i bytes' _ hsecond
    obtain ⟨rfl, rfl⟩ := Prod.mk.inj (Option.some.inj hl)
    obtain ⟨hcached, hi⟩ := Option.filter_eq_some_iff.1 hsecond
    -- the two chunks change places
    exact ⟨{ h with first := h.second, second := h.first },
      (of_decide_eq_true hi) ▸ h.second i bytes' hcached⟩
  · cases hl

/-- **What a read does to the cache**, where it ends and where it is dropped. -/
theorem readAtPolled_keeps {reader : ByteReader} {size : Nat} (hpos : 0 < size)
    (h : ReaderAt σ size data reader) (offset maxLen : Nat) :
    (reader.readAtPolled offset maxLen).Keeps (Serving σ) (ReaderAt σ size data)
      fun reader' r => ReaderAt σ size data reader' ∧
        ∀ out, r = .ok out → out = streamSlice data size offset maxLen := by
  have hreleased : ReaderAt σ size data { reader with cached := (reader.cached.1, none) } :=
    { h with second := nofun }
  have hslice : ∀ bytes, bytes = chunk data size (offset / reader.chunkBytes) →
      byteSlice bytes (offset % reader.chunkBytes) maxLen =
        streamSlice data size offset maxLen := by
    intro bytes hbytes
    rw [hbytes, h.cut]
    exact chunk_slice hpos offset maxLen
  unfold ByteReader.readAtPolled
  split
  · rename_i hnone
    rw [h.total] at hnone
    refine ⟨h, fun out hout => ?_⟩
    rw [streamSlice_nil hnone, ← Except.ok.inj hout]
  dsimp only
  split
  · rename_i reader' bytes hlookup
    obtain ⟨hreader, hbytes⟩ := h.lookup hlookup
    refine ⟨hreader, fun out hout => ?_⟩
    rw [← Except.ok.inj hout]
    exact hslice bytes hbytes
  · split
    · exact ⟨hreleased, nofun⟩
    · rename_i child hchild
      refine ⟨hreleased, readObject_answered.mono fun r hr => ?_⟩
      match r with
      | .error e => exact ⟨hreleased, nofun⟩
      | .ok bytes =>
          have hbytes : bytes = chunk data size (offset / reader.chunkBytes) :=
            Option.some.inj (hr.2.served.held.symm.trans (h.held _ child hchild))
          refine ⟨{ h with first := ?_, second := h.first }, fun out hout => ?_⟩
          · intro i bytes' hcached
            obtain ⟨rfl, rfl⟩ := Prod.mk.inj (Option.some.inj hcached)
            exact hbytes
          · rw [← Except.ok.inj hout]
            exact hslice bytes hbytes

/-- **Polled to its end, the future is the call.** -/
theorem readAtPolled_run (reader : ByteReader) (offset maxLen : Nat) :
    (reader.readAtPolled offset maxLen).run = reader.readAt offset maxLen := by
  unfold ByteReader.readAtPolled ByteReader.readAt
  split
  · rfl
  dsimp only
  cases reader.lookup (offset / reader.chunkBytes) with
  | some found => rfl
  | none =>
      cases reader.children[offset / reader.chunkBytes]? with
      | none => rfl
      | some child =>
          refine congrArg (Prog.attempt _ >>= ·) (funext fun r => ?_)
          cases r <;> rfl

end ObjectLog
