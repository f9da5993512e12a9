import ObjectLog.Proof.StreamCapacity
import ObjectLog.Proof.StreamRanges
import ObjectLog.Proof.World
import ObjectLog.Replay

/-!
# Byte streams

Whatever is written to a stream is what is read from it, in pieces of any size on either
side, as long as the store keeps what was created.
-/

namespace ObjectLog

open Rely

section

variable [Blake3]

/-- A call of `write`, and whether it ended with success. -/
structure WriteCall where
  data : Bytes
  accepted : Bool

/-- The data of some calls, one after the other. -/
def written (calls : List WriteCall) : Bytes := (calls.map WriteCall.data).flatten

/-- A writer and the calls it has had, each of which succeeded, failed or was dropped. -/
inductive WriterRun (A : Answers Effect Reply) (log : Log) (view : View) :
    ByteWriter → List WriteCall → Prop
  | start {writer : ByteWriter} (h : log.byteWriter view = .ok writer) :
      WriterRun A log view writer []
  | accepted {writer writer' : ByteWriter} {calls : List WriteCall} {data : Bytes}
      (h : WriterRun A log view writer calls)
      (hr : (writer.write data).Reaches A (.done (.ok (writer', .ok ())))) :
      WriterRun A log view writer' (calls ++ [⟨data, true⟩])
  | failed {writer writer' : ByteWriter} {calls : List WriteCall} {data : Bytes} {e : Error}
      (h : WriterRun A log view writer calls)
      (hr : (writer.write data).Reaches A (.done (.ok (writer', .error e)))) :
      WriterRun A log view writer' (calls ++ [⟨data, false⟩])
  | dropped {writer writer' : ByteWriter} {calls : List WriteCall} {data : Bytes}
      (h : WriterRun A log view writer calls) (hl : (writer.writePolled data).Leaves A writer') :
      WriterRun A log view writer' (calls ++ [⟨data, false⟩])

/-- A reader after some calls of `read_at`, at any offsets, that succeeded, failed or were
dropped. -/
inductive ReaderRun (A : Answers Effect Reply) (opened : ByteReader) : ByteReader → Prop
  | start : ReaderRun A opened opened
  | ended {reader reader' : ByteReader} {offset maxLen : Nat} {r : Except Error Bytes}
      (h : ReaderRun A opened reader)
      (hr : (reader.readAt offset maxLen).Reaches A (.done (.ok (reader', r)))) :
      ReaderRun A opened reader'
  | dropped {reader reader' : ByteReader} {offset maxLen : Nat} (h : ReaderRun A opened reader)
      (hl : (reader.readAtPolled offset maxLen).Leaves A reader') : ReaderRun A opened reader'

/-- A caller that reads on from where its last successful read ended. Before each of these
reads the reader may have had other calls. -/
inductive Advances (A : Answers Effect Reply) (opened : ByteReader) : List Bytes → Prop
  | start : Advances A opened []
  | step {reader reader' : ByteReader} {outs : List Bytes} {maxLen : Nat} {out : Bytes}
      (h : Advances A opened outs) (run : ReaderRun A opened reader) (hlen : 0 < maxLen)
      (hr : (reader.readAt outs.flatten.length maxLen).Reaches A
        (.done (.ok (reader', .ok out)))) :
      Advances A opened (outs ++ [out])

variable {σ : Bodies} {log : Log} {view : View} {data : Bytes}

/-! ## Writing -/

/-- A new writer has taken nothing. -/
theorem byteWriter_at {writer : ByteWriter} (h : log.byteWriter view = .ok writer) :
    WriterAt σ log view [] writer ∧ writer.len = 0 ∧ writer.failed = false := by
  simp only [Log.byteWriter, bind_ok, ensure_ok, pure, Except.pure, Except.ok.injEq] at h
  obtain ⟨encoded, hsize, ⟨⟩, -, rfl⟩ := h
  -- a descriptor without children has some bytes, so a chunk has
  have hpos : 0 < min log.options.maxObjectBytes.toNat maxChunkBytes := by
    simp only [Log.nodeSize, bind_ok, pure, Except.pure, Except.ok.injEq] at hsize
    obtain ⟨size, hnode, -⟩ := hsize
    have hfits := (nodeSize_ok.1 hnode).2.1
    have hsome := innerLen_lt_encodedLen descriptorBytes []
    have hmost : 0 < maxChunkBytes := by decide
    rw [List.map_nil] at hfits
    omega
  exact ⟨⟨rfl, rfl, rfl, nofun, by simp, by simp, hpos⟩, rfl, rfl⟩

/-- **A writer that is not marked has taken every call.** -/
theorem WriterRun.at {writer : ByteWriter} {calls : List WriteCall}
    (h : WriterRun (Creating σ) log view writer calls) :
    writer.failed = true ∨
    (writer.failed = false ∧ (∀ call ∈ calls, call.accepted = true) ∧
      WriterAt σ log view (written calls) writer ∧ writer.len = (written calls).length ∧
      (written calls).length < 2 ^ 64) := by
  induction h with
  | start h =>
      obtain ⟨hat, hlen, hopen⟩ := byteWriter_at h
      exact .inr ⟨hopen, nofun, hat, hlen, by simp [written]⟩
  | @accepted writer writer' calls data _ hr ih =>
      rcases ih with hmark | ⟨hopen, hall, hat, hlen, -⟩
      · unfold ByteWriter.write at hr
        rw [writePolled_failed data hmark] at hr
        cases (Ends.pure rfl : Ends (Creating σ) _ fun r => r = _).reached hr
      · have hkeeps := (writePolled_keeps hat hlen data hopen).ended hr
        obtain ⟨hat', hlen', hopen', hlt⟩ := hkeeps
        have hwritten : written (calls ++ [⟨data, true⟩]) = written calls ++ data := by
          simp [written]
        rw [hwritten]
        refine .inr ⟨hopen', fun call hcall => ?_, hat', hlen', hlt⟩
        rcases List.mem_append.1 hcall with hold | hnew
        · exact hall call hold
        · rw [List.mem_singleton.1 hnew]
  | @failed writer writer' calls data e _ hr ih =>
      rcases ih with hmark | ⟨hopen, -, hat, hlen, -⟩
      · unfold ByteWriter.write at hr
        rw [writePolled_failed data hmark] at hr
        have hsame := (Ends.pure rfl : Ends (Creating σ) _ fun r => r = _).reached hr
        rw [(Prod.mk.inj (Except.ok.inj hsame)).1]
        exact .inl hmark
      · exact .inl ((writePolled_keeps hat hlen data hopen).ended hr)
  | @dropped writer writer' calls data _ hl ih =>
      rcases ih with hmark | ⟨hopen, -, hat, hlen, -⟩
      · rw [writePolled_failed data hmark] at hl
        cases hl
      · exact .inl ((writePolled_keeps hat hlen data hopen).dropped hl)

/-! ## Reading -/

theorem ReaderAt.ended {reader reader' : ByteReader} {size offset maxLen : Nat}
    {r : Except Error Bytes} (hpos : 0 < size) (h : ReaderAt σ size data reader)
    (hr : (reader.readAt offset maxLen).Reaches (Serving σ) (.done (.ok (reader', r)))) :
    ReaderAt σ size data reader' ∧ ∀ out, r = .ok out → out = streamSlice data size offset maxLen := by
  rw [← readAtPolled_run] at hr
  exact (readAtPolled_keeps hpos h offset maxLen).ended hr

theorem ReaderRun.at {opened reader : ByteReader} {size : Nat} (hpos : 0 < size)
    (h : ReaderAt σ size data opened) (run : ReaderRun (Serving σ) opened reader) :
    ReaderAt σ size data reader := by
  induction run with
  | start => exact h
  | ended _ hr ih => exact (ih.ended hpos hr).1
  | dropped _ hl ih => exact (readAtPolled_keeps hpos ih _ _).dropped hl

/-- A caller that reads on has read the front of the data, and all of it when it gets
nothing. -/
theorem Advances.front {opened : ByteReader} {size : Nat} {outs : List Bytes} (hpos : 0 < size)
    (h : ReaderAt σ size data opened) (run : Advances (Serving σ) opened outs) :
    outs.flatten = data.take outs.flatten.length ∧ ([] ∈ outs → outs.flatten = data) := by
  induction run with
  | start => exact ⟨rfl, nofun⟩
  | @step reader reader' outs maxLen out _ reads hlen hr ih =>
      obtain ⟨hfront, hend⟩ := ih
      have hout := ((reads.at hpos h).ended hpos hr).2 out rfl
      have hle : outs.flatten.length ≤ data.length := by
        have := congrArg List.length hfront
        rw [List.length_take] at this
        omega
      have happend : (outs ++ [out]).flatten = data.take outs.flatten.length ++
          streamSlice data size outs.flatten.length maxLen := by
        rw [List.flatten_concat, ← hfront, hout]
      refine ⟨?_, fun hnil => ?_⟩
      · rw [happend]
        exact take_append_streamSlice hle
      · -- the last of the data has been returned before the first empty read
        have hall : data.length ≤ outs.flatten.length := by
          rcases List.mem_append.1 hnil with hold | hnew
          · rw [hend hold]
          · by_contra hlt
            refine streamSlice_ne_nil hpos hlen (Nat.lt_of_not_le hlt) ?_
            rw [← hout, ← List.mem_singleton.1 hnew]
        rw [happend, streamSlice_nil (.inr hall), List.append_nil]
        exact List.take_of_length_le hall

omit [Blake3] in
theorem length_le_flatten {α : Type} {outs : List (List α)} (h : ∀ out ∈ outs, out ≠ []) :
    outs.length ≤ outs.flatten.length := by
  induction outs with
  | nil => exact le_rfl
  | cons out outs ih =>
      have hpos := List.length_pos_iff.2 (h out (by simp))
      have := ih fun x hx => h x (by simp [hx])
      rw [List.flatten_cons, List.length_append, List.length_cons]
      omega

/-- **What is written to a stream is read from it.** If `finish` returns a root then every
call of `write` has succeeded. The root is opened, with the length of the data, by every
handle of the log when no request fails. A reader that was opened returns from every
successful `read_at` the bytes of the data from the offset on, up to the end of the chunk, of
the data or of the request, whatever other reads it had before. A caller that reads on from
where it is gets an empty answer after at most as many reads as there are bytes, and has
then read the data. -/
theorem byte_stream_round_trip {log' : Log} {view' : View} {writer : ByteWriter}
    {calls : List WriteCall} {root : StagedObject}
    (hw : WriterRun (Creating σ) log view writer calls)
    (hf : writer.finish.Reaches (Creating σ) (.done (.ok root)))
    (hi : log'.incarnation = log.incarnation) (ho : log'.options = log.options)
    (hview : log'.validateView view' = .ok ()) :
    (∀ call ∈ calls, call.accepted = true) ∧
    Ends (Faultless σ) (log'.openBytes view' root.object)
      (fun r => ∃ reader, r = .ok reader ∧ reader.len = (written calls).length) ∧
    ∀ opened, (log'.openBytes view' root.object).Reaches (Serving σ) (.done (.ok opened)) →
      opened.len = (written calls).length ∧
      (∀ reader reader' offset maxLen out, ReaderRun (Serving σ) opened reader →
        (reader.readAt offset maxLen).Reaches (Serving σ) (.done (.ok (reader', .ok out))) →
        out = streamSlice (written calls) log.chunkBytes offset maxLen) ∧
      ∀ outs, Advances (Serving σ) opened outs →
        ((∀ out ∈ outs, out ≠ []) → outs.length ≤ (written calls).length) ∧
        ([] ∈ outs → outs.flatten = written calls) := by
  rcases hw.at with hmark | ⟨-, hall, hat, hlen, hlt⟩
  · exact ((finish_failed hmark).reached hf).elim
  have hroot : StreamRoot σ log (written calls) root.object := (finish_answered hat hlen).reached hf
  have hpos : 0 < log.chunkBytes := by
    have hsize : writer.chunkBytes = log.chunkBytes := hat.size
    have := hat.room
    omega
  have hsize : log'.chunkBytes = log.chunkBytes := by simp only [Log.chunkBytes, ho]
  have d : StreamData log' (written calls) := ⟨by omega, hlt⟩
  have hopens : Ends (Serving σ) (log'.openBytes view' root.object)
      (Yields (ReaderAt σ log.chunkBytes (written calls))) := by
    rw [← hsize]
    exact openBytes_answered d (hroot.congr hi ho)
  refine ⟨hall, ?_, ?_⟩
  · refine ((openBytes_served d (hroot.congr hi ho) hview).and
      (hopens.answers Faultless.serving)).mono ?_
    rintro r ⟨⟨reader, rfl⟩, hreader⟩
    exact ⟨reader, rfl, hreader.total⟩
  · intro opened hopened
    have hreader : ReaderAt σ log.chunkBytes (written calls) opened := hopens.reached hopened
    refine ⟨hreader.total, ?_, ?_⟩
    · intro reader reader' offset maxLen out run hr
      exact ((run.at hpos hreader).ended hpos hr).2 out rfl
    · intro outs run
      obtain ⟨hfront, hend⟩ := run.front hpos hreader
      refine ⟨fun hsome => ?_, hend⟩
      have hle := length_le_flatten hsome
      rw [hfront, List.length_take] at hle
      omega

end

section

attribute [local instance] sampleHash

/-- A log with chunks of 256 bytes. -/
def streamLog : Log where
  logId := sampleLog
  options := { Options.default with maxObjectBytes := 256, maxObjectRefs := 4 }
  incarnation := 7
  stagingDomain := 0

def streamView : View := ⟨0, Head.empty sampleLog 7 streamLog.options, ⟨none, none⟩⟩

/-- Bodies by their hash. -/
def streamContents (objects : List Bytes) : Bodies := fun key =>
  objects.find? fun bytes => Digest.of bytes = key.digest

/-- Two chunks and the node over them. -/
def streamObjects : List Bytes :=
  let chunks := [List.replicate 256 1, [2]]
  let children := chunks.map fun bytes =>
    ({ kind := .blob, storageId := ⟨0⟩, digest := Digest.of bytes, len := .ofNat bytes.length,
       subtreeObjects := 1 } : ObjectRef)
  chunks ++ ((encodeNode ⟨streamDescriptor 257 256, children⟩ streamLog.options).toOption).toList

/-- A stream is written with two calls and finished. -/
def streamFacts : Bool :=
  let answers := answersFrom (streamContents streamObjects)
  match streamLog.byteWriter streamView with
  | .ok writer =>
      match (writer.write (List.replicate 255 1)).answeredBy answers with
      | .ok (writer₁, .ok ()) =>
          match (writer₁.write [1, 2]).answeredBy answers with
          | .ok (writer₂, .ok ()) =>
              match writer₂.finish.answeredBy answers with
              | .ok root => root.object.kind == .node
              | .error _ => false
          | _ => false
      | _ => false
  | .error _ => false

theorem stream_written : streamFacts = true := by
  decide +kernel

theorem byte_stream_round_trip_twoChunks : ∃ (σ : Bodies) (writer : ByteWriter)
    (calls : List WriteCall) (root : StagedObject),
    WriterRun (Creating σ) streamLog streamView writer calls ∧
    writer.finish.Reaches (Creating σ) (.done (.ok root)) ∧ root.object.kind = .node ∧
    (written calls).length = 257 ∧
    Ends (Faultless σ) (streamLog.openBytes streamView root.object)
      (fun r => ∃ reader, r = .ok reader ∧ reader.len = (written calls).length) := by
  have hf := stream_written
  unfold streamFacts at hf
  dsimp only at hf
  have reaches : ∀ {α : Type} {p : Op α} {r : Except Error α},
      p.answeredBy (answersFrom (streamContents streamObjects)) = r →
      p.Reaches (Creating (streamContents streamObjects)) (.done r) := by
    intro α p r hr
    rw [← hr]
    exact Prog.reaches_answeredBy answersFrom_creating
  split at hf
  · rename_i writer hstart
    split at hf
    · rename_i writer₁ h₁
      split at hf
      · rename_i writer₂ h₂
        split at hf
        · rename_i root hroot
          have run := ((WriterRun.start hstart).accepted (reaches h₁)).accepted (reaches h₂)
          refine ⟨_, writer₂, _, root, run, reaches hroot, beq_iff_eq.1 hf, ?_, ?_⟩
          · decide +kernel
          · exact (byte_stream_round_trip run (reaches hroot) rfl rfl (by decide)).2.1
        · cases hf
      · cases hf
    · cases hf
  · cases hf

end

section

variable [Blake3] {log : Log}

/-! ## Malformed streams -/

theorem ReaderRun.shape {A : Answers Effect Reply} {opened reader : ByteReader}
    (h : ReaderShape opened) (run : ReaderRun A opened reader) : ReaderShape reader := by
  induction run with
  | start => exact h
  | ended _ hr ih =>
      rw [← readAtPolled_run] at hr
      exact ((readAtPolled_shape ih _ _).ended hr).1
  | dropped _ hl ih => exact (readAtPolled_shape ih _ _).dropped hl

/-- **Malformed streams cannot break a reader.** The checks of a descriptor have no fault, and
what they accept has chunks of one size, the last one apart, that make up the length. A reader
that was opened, whatever the store answered, and that has had any calls since, reads at every
offset without a fault; inside the stream it returns some bytes, or the error of the read of
the chunk. -/
theorem malformed_streams_cannot_break_reader :
    (∀ node, log.scanByteStream node = (log.byteStream node).mapError Fault.error) ∧
    (∀ node len chunkBytes, log.byteStream node = .ok (len, chunkBytes) →
      (node.children.map fun child => child.len.toNat).sum = len ∧
      ∀ (i : Nat) child, node.children[i]? = some child → i + 1 < node.children.length →
        child.len.toNat = chunkBytes) ∧
    ∀ (view : View) (root : ObjectRef) (opened reader : ByteReader),
      (log.openBytes view root).Reaches anything (.done (.ok opened)) →
      ReaderRun anything opened reader → ∀ offset maxLen : UInt64,
        (reader.scanAt offset.toNat maxLen.toNat = do
          let (reader, r) ← reader.readAt offset.toNat maxLen.toNat
          return (reader, r.mapError Fault.error)) ∧
        (0 < maxLen → offset.toNat < reader.len →
          Ends anything (reader.readAt offset.toNat maxLen.toNat) fun r =>
            ∃ reader' out, r = .ok (reader', out) ∧
              ReadsSome anything reader offset.toNat out) := by
  refine ⟨scanByteStream_eq log, fun node len chunkBytes h => ?_, ?_⟩
  · obtain ⟨hzero, hcount, hlens⟩ := byteStream_geometry h
    have hpos := Nat.pos_of_ne_zero hzero
    constructor
    · have hmap : (node.children.map fun child => child.len.toNat) =
          (List.range node.children.length).map fun i =>
            min (len - i * chunkBytes) chunkBytes := by
        refine List.ext_getElem (by simp) fun i hi _ => ?_
        rw [List.length_map] at hi
        simpa using (hlens i _ (List.getElem?_eq_getElem hi)).2
      rw [hmap, Chunks.sum_chunk_lengths, hcount]
      exact Nat.min_eq_left (Chunks.length_le_count_mul hpos)
    · intro i child hchild hnext
      -- the chunk after this one starts inside the stream
      rw [hcount] at hnext
      have hlt := Chunks.mul_lt_of_lt_count hnext
      rw [Nat.add_mul, Nat.one_mul] at hlt
      rw [(hlens i child hchild).2]
      omega
  · intro view root opened reader hopen run offset maxLen
    have hopened : ReaderShape opened := openBytes_shape.reached hopen
    have shape := run.shape hopened
    refine ⟨scanAt_eq shape _ _, fun hmax hlt => ?_⟩
    have hne : maxLen.toNat ≠ 0 := by
      have hlt := UInt64.lt_iff_toNat_lt.1 hmax
      exact Nat.ne_of_gt hlt
    rw [← readAtPolled_run]
    refine (readAtPolled_shape shape _ _).run.mono ?_
    rintro r ⟨reader', out, rfl, -, hsome⟩
    exact ⟨reader', out, rfl, hsome hne hlt⟩

end

section

variable [Blake3] {log : Log} {view : View}

/-! ## The capacity of a writer -/

/-- What every writer is made with. -/
theorem byteWriter_ok {writer : ByteWriter} (h : log.byteWriter view = .ok writer) :
    log.HoldsChunks 0 ∧ ∃ n, IsGreatest {n | log.HoldsChunks n} n ∧ n * log.chunkBytes < 2 ^ 64 ∧
      writer = ⟨log, view, log.chunkBytes, n * log.chunkBytes, 0, [], [], false⟩ := by
  by_cases hempty : log.HoldsChunks 0
  · obtain ⟨n, hgreatest, heq⟩ := byteWriter_holds view hempty
    rw [heq] at h
    simp only [bind_ok, ensure_ok, pure, Except.pure, Except.ok.injEq] at h
    obtain ⟨⟨⟩, hlt, rfl⟩ := h
    exact ⟨hempty, n, hgreatest, hlt, rfl⟩
  · obtain ⟨what, heq⟩ := byteWriter_empty view hempty
    rw [heq] at h
    cases h

/-- A writer whose calls were all accepted, whatever the store has answered. -/
structure WriterFits (log : Log) (view : View) (total : Nat) (writer : ByteWriter) : Prop where
  shape : WriterShape log view total writer
  len : writer.len = total
  opened : writer.failed = false
  within : total ≤ writer.capacity
  holds : ∃ n, log.HoldsChunks n ∧ writer.capacity = n * log.chunkBytes
  small : writer.capacity < 2 ^ 64

theorem WriterRun.fits {A : Answers Effect Reply} {writer : ByteWriter} {calls : List WriteCall}
    (h : WriterRun A log view writer calls) (hall : ∀ call ∈ calls, call.accepted = true) :
    WriterFits log view (written calls).length writer := by
  induction h with
  | start h =>
      obtain ⟨hempty, n, hgreatest, hlt, rfl⟩ := byteWriter_ok h
      refine ⟨⟨rfl, rfl, rfl, nofun, by simp [written], hempty.pos⟩, rfl, rfl, ?_,
        ⟨n, hgreatest.1, rfl⟩, hlt⟩
      simp [written]
  | @accepted writer writer' calls data _ hr ih =>
      have fits := ih fun call hcall => hall call (List.mem_append_left _ hcall)
      have hwritten : (written (calls ++ [⟨data, true⟩])).length =
          (written calls).length + data.length := by
        simp [written]
      rw [hwritten]
      by_cases hover : writer.capacity < writer.len + data.length
      · -- a call over the capacity is not accepted
        unfold ByteWriter.write at hr
        rw [writePolled_over fits.opened hover] at hr
        cases (Ends.pure rfl : Ends A _ fun r => r = _).reached hr
      · have hwithin := Nat.le_of_not_lt hover
        unfold ByteWriter.write at hr
        rw [writePolled_within fits.opened hwithin fits.small] at hr
        obtain ⟨hshape, hlen, hopen, hcap⟩ := (writeLoop_shape data.length data
          { writer with failed := true } { fits.shape with } (by rw [fits.len]) rfl).ended hr
        dsimp only at hcap
        rw [fits.len] at hwithin hshape hlen
        refine ⟨hshape, hlen, hopen, ?_, ?_, ?_⟩
        · rwa [hcap]
        · rw [hcap]
          exact fits.holds
        · rw [hcap]
          exact fits.small
  | failed _ _ _ =>
      have := hall _ (List.mem_append_right _ (List.mem_singleton_self _))
      cases this
  | dropped _ _ _ =>
      have := hall _ (List.mem_append_right _ (List.mem_singleton_self _))
      cases this

/-- **The capacity of a byte writer is exact.** `byte_writer` fails, and with a limit error,
exactly if an empty stream does not fit or the capacity has no sixty-four bits; else the
capacity is the greatest number of full chunks that a stream node holds. While all writes are
accepted, a write that would exceed the capacity is refused at once. Run as a call of a
reachable world, one within it meets no limit, nor does `finish`, unless a create was answered
with "already there": the only limit left is that of the attempts at a fresh identity. -/
theorem byte_writer_capacity_exact :
    (∀ (log : Log) (view : View), ((∃ e, log.byteWriter view = .error e) ↔
        ¬ log.HoldsChunks 0 ∨
          ∃ n, IsGreatest {n | log.HoldsChunks n} n ∧ 2 ^ 64 ≤ n * log.chunkBytes) ∧
      ∀ e, log.byteWriter view = .error e → ∃ what, e = .limitExceeded what) ∧
    (∀ (log : Log) (view : View) (writer : ByteWriter), log.byteWriter view = .ok writer →
      writer.chunkBytes = log.chunkBytes ∧
      ∃ n, IsGreatest {n | log.HoldsChunks n} n ∧ writer.capacity = n * log.chunkBytes) ∧
    ∀ (log : Log) (view : View) (writer : ByteWriter) (calls : List WriteCall),
      WriterRun anything log view writer calls → (∀ call ∈ calls, call.accepted = true) →
      (∀ data : Bytes, writer.capacity < (written calls).length + data.length →
        writer.write data = pure ({ writer with failed := true },
          .error (.limitExceeded "byte stream length"))) ∧
      ∀ (scope : LogId) (w : World) (t : Nat) (b : Begun) (bytes : Bytes), Reachable scope w →
        w.state.NoCollision → w.state.calls[t]? = some b → b.call = .putObject log view bytes →
        (∀ data : Bytes, (written calls).length + data.length ≤ writer.capacity →
          Runs t Fresh (writer.write data) (fun r u => ∃ writer' out, r = .ok (writer', out) ∧
            LimitTaken t w.state.now out u) w.state) ∧
        Runs t Fresh writer.finish (LimitTaken t w.state.now) w.state := by
  refine ⟨fun log view => ?_, ?_, ?_⟩
  · by_cases hempty : log.HoldsChunks 0
    · obtain ⟨n, hgreatest, heq⟩ := byteWriter_holds view hempty
      rw [heq]
      by_cases hlt : n * log.chunkBytes < 2 ^ 64
      · rw [ensure, if_pos hlt]
        refine ⟨⟨?_, ?_⟩, fun e he => by cases he⟩
        · rintro ⟨e, he⟩
          cases he
        rintro (hno | ⟨m, hm, hover⟩)
        · exact absurd hempty hno
        · rw [hgreatest.unique hm] at hlt
          omega
      · rw [ensure, if_neg hlt]
        refine ⟨⟨fun _ => .inr ⟨n, hgreatest, Nat.le_of_not_lt hlt⟩, fun _ => ⟨_, rfl⟩⟩, ?_⟩
        intro e he
        exact ⟨_, (Except.error.inj he).symm⟩
    · obtain ⟨what, heq⟩ := byteWriter_empty view hempty
      rw [heq]
      exact ⟨⟨fun _ => .inl hempty, fun _ => ⟨_, rfl⟩⟩,
        fun e he => ⟨what, (Except.error.inj he).symm⟩⟩
  · intro log view writer h
    obtain ⟨-, n, hgreatest, -, rfl⟩ := byteWriter_ok h
    exact ⟨rfl, n, hgreatest, rfl⟩
  · intro log view writer calls run hall
    have fits := run.fits hall
    refine ⟨fun data hover => ?_, ?_⟩
    · unfold ByteWriter.write
      rw [writePolled_over fits.opened (by rw [fits.len]; exact hover)]
      rfl
    · intro scope w t b bytes hr nc hb hcall
      have ok := hr.ok nc
      have inv := ok.good.inv
      have args := (inv.calls t b hb).args
      rw [hcall] at args
      have hl : w.state.LogOK log := args (.log log) (by simp [Call.args])
      have hv : w.state.ViewOK b.heads view := args (.view view) (by simp [Call.args])
      have stages : Stages w.state t w.state.now log view := by
        refine ⟨ok.good, ⟨b, hb, ?_⟩, ⟨hl, hv.mono (.refl _) (inv.calls t b hb).heads⟩, le_rfl⟩
        intro log' view' id operation result objects hprepare
        rw [hcall] at hprepare
        cases hprepare
      refine ⟨fun data hdata => ?_, ?_⟩
      · exact write_limits stages fits.shape fits.opened (by rw [fits.len]; exact hdata) fits.small
      · obtain ⟨n, hholds, hcap⟩ := fits.holds
        exact finish_limits stages fits.shape hholds (hcap ▸ fits.within)

end

end ObjectLog
