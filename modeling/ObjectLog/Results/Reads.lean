import ObjectLog.Proof.Agreement
import ObjectLog.Proof.Misses
import ObjectLog.Results.Collection
import ObjectLog.Results.Cursors
import ObjectLog.Results.Streams

/-!
# Reads of a view

What can be read from a view is fixed by the view: whatever a store has in the place of the
objects, a read that succeeds returns one value. Over a store that loses nothing but what
collectors delete, a read that fails has lost its view to a collection.
-/

namespace ObjectLog

open Rely Chunks

section

variable [Blake3] {A B : Answers Effect Reply} {log : Log} {view : View}

/-! ## Cursors -/

theorem Returned.agree {items items' : List HistoryItem} (apart : NoClash A B)
    (h : Returned A log view items) (h' : Returned B log view items')
    (hlen : items.length = items'.length) : items = items' := by
  unfold Returned at h h'
  rw [← hlen] at h'
  have hboth : List.Forall₂ (fun item item' => item = item') items items' := by
    rw [List.forall₂_iff_get] at h h' ⊢
    refine ⟨hlen, fun i hi hi' => ?_⟩
    have hentry : i < (view.history.take items.length).length := by
      rw [h.1]
      exact hi
    exact (h.2 i hentry hi).agree apart (h'.2 i hentry hi')
  exact List.forall₂_eq_eq_eq ▸ hboth

/-! ## Readers -/

theorem ReaderOf.ended {opened reader reader' : ByteReader} {offset maxLen : Nat}
    {r : Except Error Bytes} (h : ReaderOf A opened reader)
    (hr : (reader.readAt offset maxLen).Reaches A (.done (.ok (reader', r)))) :
    ReaderOf A opened reader' ∧ ∀ out, r = .ok out → SliceReads A opened offset maxLen out := by
  rw [← readAtPolled_run] at hr
  exact (readAtPolled_authentic h offset maxLen).ended hr

theorem ReaderRun.readerOf {opened reader : ByteReader} (h : ReaderOf A opened opened)
    (run : ReaderRun A opened reader) : ReaderOf A opened reader := by
  induction run with
  | start => exact h
  | ended _ hr ih => exact (ih.ended hr).1
  | dropped _ hl ih => exact (readAtPolled_authentic ih _ _).dropped hl

/-- The byte of a stream at one position, as it is found in its chunk. -/
def ByteReads (A : Answers Effect Reply) (opened : ByteReader) (i : Nat) (byte : UInt8) : Prop :=
  ∃ child bytes, opened.children[i / opened.chunkBytes]? = some child ∧
    ReadsAs A opened.log child bytes ∧ bytes[i % opened.chunkBytes]? = some byte

theorem ByteReads.agree {opened : ByteReader} {i : Nat} {byte byte' : UInt8} (apart : NoClash A B)
    (h : ByteReads A opened i byte) (h' : ByteReads B opened i byte') : byte = byte' := by
  obtain ⟨child, bytes, hchild, hread, hbyte⟩ := h
  obtain ⟨child', bytes', hchild', hread', hbyte'⟩ := h'
  rw [hchild] at hchild'
  cases hchild'
  rw [← hread.agree apart hread', hbyte] at hbyte'
  exact Option.some.inj hbyte'

/-- The bytes of a slice are those of the stream from the offset on, and inside it. -/
theorem SliceReads.bytes {opened : ByteReader} {offset maxLen : Nat} {out : Bytes}
    (shape : ReaderShape opened) (h : SliceReads A opened offset maxLen out)
    (hle : offset ≤ opened.len) :
    offset + out.length ≤ opened.len ∧
    ∀ (i : Nat) byte, out[i]? = some byte → ByteReads A opened (offset + i) byte := by
  unfold SliceReads at h
  split at h
  · subst h
    exact ⟨hle, nofun⟩
  rename_i hin
  obtain ⟨child, bytes, hchild, hread, rfl⟩ := h
  obtain ⟨hpos, -, -⟩ := shape.chunk offset (by omega)
  have hlen := hread.length
  rw [shape.lens _ child hchild] at hlen
  have hsplit := Nat.div_add_mod' offset opened.chunkBytes
  refine ⟨?_, fun i byte hbyte => ?_⟩
  · rw [byteSlice, List.length_take, List.length_drop, hlen]
    omega
  · rw [byteSlice, List.getElem?_take] at hbyte
    split at hbyte
    · rw [List.getElem?_drop] at hbyte
      have hlt := (List.getElem?_eq_some_iff.1 hbyte).1
      -- the chunk ends before the next one starts
      have hmod : offset % opened.chunkBytes + i < opened.chunkBytes := by omega
      have hposition : offset + i = (offset % opened.chunkBytes + i) +
          opened.chunkBytes * (offset / opened.chunkBytes) := by
        rw [Nat.mul_comm]
        omega
      have hindex : (offset + i) / opened.chunkBytes = offset / opened.chunkBytes := by
        rw [hposition, Nat.add_mul_div_left _ _ hpos, Nat.div_eq_of_lt hmod, Nat.zero_add]
      have hrest : (offset + i) % opened.chunkBytes = offset % opened.chunkBytes + i := by
        rw [hposition, Nat.add_mul_mod_self_left, Nat.mod_eq_of_lt hmod]
      refine ⟨child, bytes, ?_, hread, ?_⟩
      · rw [hindex]
        exact hchild
      · rw [hrest]
        exact hbyte
    · cases hbyte

theorem SliceReads.ne_nil {opened : ByteReader} {offset maxLen : Nat} (shape : ReaderShape opened)
    (h : SliceReads A opened offset maxLen []) (hlen : 0 < maxLen) : opened.len ≤ offset := by
  by_contra hlt
  unfold SliceReads at h
  rw [if_neg (by omega)] at h
  obtain ⟨child, bytes, hchild, hread, hnil⟩ := h
  obtain ⟨-, -, hinside⟩ := shape.chunk offset (by omega)
  have hstart := hinside child hchild
  rw [← hread.length] at hstart
  exact byteSlice_ne_nil hstart (by omega) hnil.symm

/-- A caller that reads on has the bytes of the stream from its start, and all of them when
it gets nothing. -/
theorem Advances.bytes {opened : ByteReader} {outs : List Bytes} (shape : ReaderShape opened)
    (h : ReaderOf A opened opened) (run : Advances A opened outs) :
    outs.flatten.length ≤ opened.len ∧
    (∀ (i : Nat) byte, outs.flatten[i]? = some byte → ByteReads A opened i byte) ∧
    ([] ∈ outs → opened.len ≤ outs.flatten.length) := by
  induction run with
  | start => exact ⟨Nat.zero_le _, nofun, nofun⟩
  | @step reader reader' outs maxLen out _ reads hlen hr ih =>
      obtain ⟨hle, hbytes, hend⟩ := ih
      have hslice := ((reads.readerOf h).ended hr).2 out rfl
      obtain ⟨hle', hnew⟩ := hslice.bytes shape hle
      rw [List.flatten_concat, List.length_append]
      refine ⟨hle', fun i byte hbyte => ?_, fun hnil => ?_⟩
      · by_cases hi : i < outs.flatten.length
        · rw [List.getElem?_append_left hi] at hbyte
          exact hbytes i byte hbyte
        · rw [List.getElem?_append_right (by omega)] at hbyte
          have hat := hnew _ byte hbyte
          rwa [Nat.add_sub_cancel' (by omega)] at hat
      · rcases List.mem_append.1 hnil with hold | hlast
        · have := hend hold
          omega
        · rw [← List.mem_singleton.1 hlast] at hslice
          have := hslice.ne_nil shape hlen
          omega

/-- Two callers that read on have the same bytes as far as both have come. -/
theorem Advances.agree {opened : ByteReader} {outs outs' : List Bytes} (apart : NoClash A B)
    (shape : ReaderShape opened) (h : ReaderOf A opened opened) (h' : ReaderOf B opened opened)
    (run : Advances A opened outs) (run' : Advances B opened outs')
    (hlen : outs.flatten.length = outs'.flatten.length) : outs.flatten = outs'.flatten := by
  obtain ⟨-, hbytes, -⟩ := run.bytes shape h
  obtain ⟨-, hbytes', -⟩ := run'.bytes shape h'
  refine List.ext_getElem hlen fun i hi hi' => ?_
  exact (hbytes i _ (List.getElem?_eq_getElem hi)).agree apart
    (hbytes' i _ (List.getElem?_eq_getElem hi'))

/-! ## Two stores -/

/-- **A view determines what is read from it.** Take any two contents of a store that do not
collide with each other. A read that succeeds over both returns one value: the tail, the
checkpoint, a record of the tail, and the items of two cursors that have come to their ends.
The same is true of every node, every object and every stream, whatever references name them:
opening a stream gives one reader, a `read_at` returns the same bytes whatever other reads
the readers had, and callers that read on have the same bytes when they have come equally far
and when both have come to the end. -/
theorem view_determines_reads {σ τ : Bodies}
    (apart : ∀ key key' bytes bytes', σ key = some bytes → τ key' = some bytes' →
      Digest.of bytes = Digest.of bytes' → bytes = bytes') (log : Log) (view : View) :
    SameValue (Serving σ) (Serving τ) (log.readTail view) ∧
    SameValue (Serving σ) (Serving τ) (log.readCheckpoint view) ∧
    (∀ index, SameValue (Serving σ) (Serving τ) (log.tailRecord view index)) ∧
    (∀ cursor cursor' items items', CursorRun (Serving σ) log view cursor items →
      CursorRun (Serving τ) log view cursor' items' → cursor.complete = true →
      cursor'.complete = true → items = items') ∧
    (∀ object, SameValue (Serving σ) (Serving τ) (log.readNode view object) ∧
      SameValue (Serving σ) (Serving τ) (log.readObject view object)) ∧
    ∀ root, SameValue (Serving σ) (Serving τ) (log.openBytes view root) ∧
      ∀ opened, (log.openBytes view root).Reaches (Serving σ) (.done (.ok opened)) →
        (log.openBytes view root).Reaches (Serving τ) (.done (.ok opened)) →
        (∀ reader reader' offset maxLen after after' out out',
          ReaderRun (Serving σ) opened reader → ReaderRun (Serving τ) opened reader' →
          (reader.readAt offset maxLen).Reaches (Serving σ) (.done (.ok (after, .ok out))) →
          (reader'.readAt offset maxLen).Reaches (Serving τ) (.done (.ok (after', .ok out'))) →
          out = out') ∧
        ∀ outs outs', Advances (Serving σ) opened outs → Advances (Serving τ) opened outs' →
          outs.flatten.length = outs'.flatten.length ∨ [] ∈ outs ∧ [] ∈ outs' →
          outs.flatten = outs'.flatten := by
  have clash : NoClash (Serving σ) (Serving τ) := by
    intro key key' bytes bytes' hfound hfound'
    exact apart key key' bytes bytes' hfound.served.symm hfound'.served.symm
  refine ⟨?_, ?_, ?_, ?_, ?_, ?_⟩
  · exact .of readTail_answered readTail_answered fun _ _ h h' => h.agree clash h'
  · exact .of readCheckpoint_answered readCheckpoint_answered fun _ _ h h' => h.agree clash h'
  · intro index record record' hr hr'
    obtain ⟨h, hproofs⟩ := tailRecord_answered.reached hr
    obtain ⟨h', hproofs'⟩ := tailRecord_answered.reached hr'
    have hrecord := h.agree clash h'
    rw [← hrecord, ← hproofs] at hproofs'
    cases record
    cases record'
    cases hrecord
    cases hproofs'
    rfl
  · intro cursor cursor' items items' run run' hend hend'
    obtain ⟨hat, hreturned⟩ := run.at
    obtain ⟨hat', hreturned'⟩ := run'.at
    exact hreturned.agree clash hreturned' ((hat.complete hend).trans (hat'.complete hend').symm)
  · intro object
    constructor
    · refine .of readNode_answered readNode_answered fun node node' h h' => ?_
      exact NodeReads.agree clash h.2 h'.2
    · refine .of readObject_answered readObject_answered fun bytes bytes' h h' => ?_
      exact h.2.agree clash h'.2
  · intro root
    refine ⟨.of openBytes_opens openBytes_opens fun _ _ h h' => h.agree clash h', ?_⟩
    intro opened hopened hopened'
    have hreader : ReaderOf (Serving σ) opened opened :=
      OpensAs.readerOf (openBytes_opens.reached hopened)
    have hreader' : ReaderOf (Serving τ) opened opened :=
      OpensAs.readerOf (openBytes_opens.reached hopened')
    have shape : ReaderShape opened := openBytes_shape.reached hopened
    refine ⟨?_, ?_⟩
    · intro reader reader' offset maxLen after after' out out' run run' hr hr'
      have hslice := ((run.readerOf hreader).ended hr).2 out rfl
      have hslice' := ((run'.readerOf hreader').ended hr').2 out' rfl
      exact hslice.agree clash hslice'
    · intro outs outs' run run' hlen
      refine run.agree clash shape hreader hreader' run' ?_
      rcases hlen with hlen | ⟨hend, hend'⟩
      · exact hlen
      · obtain ⟨hle, -, hall⟩ := run.bytes shape hreader
        obtain ⟨hle', -, hall'⟩ := run'.bytes shape hreader'
        have := hall hend
        have := hall' hend'
        omega

end

section

attribute [local instance] sampleHash

/-- The objects of the stream, and one more. -/
def moreObjects : List Bytes := streamObjects ++ [[3]]

/-- The node over the two chunks. -/
def streamNode : ObjectRef :=
  let bytes := streamObjects.getLastD []
  { kind := .node, storageId := ⟨0⟩, digest := Digest.of bytes, len := .ofNat bytes.length,
    subtreeObjects := 3 }

/-- The reader that opening the stream gives over some contents. -/
def opensOver (objects : List Bytes) : Option ByteReader :=
  ((streamLog.openBytes streamView streamNode).answeredBy
    (answersFrom (streamContents objects))).toOption

theorem opensOver_reaches {objects : List Bytes} {opened : ByteReader}
    (h : opensOver objects = some opened) :
    (streamLog.openBytes streamView streamNode).Reaches (Serving (streamContents objects))
      (.done (.ok opened)) := by
  have hanswers : ∀ e, Serving (streamContents objects) e (answersFrom (streamContents objects) e) :=
    fun e => Faultless.serving e _ (answersFrom_faultless e)
  have hreach := Prog.reaches_answeredBy (p := streamLog.openBytes streamView streamNode) hanswers
  unfold opensOver at h
  cases hr : (streamLog.openBytes streamView streamNode).answeredBy
      (answersFrom (streamContents objects)) with
  | error e =>
      rw [hr] at h
      cases h
  | ok found =>
      rw [hr] at h hreach
      cases h
      exact hreach

theorem stream_opens_over_both :
    (opensOver streamObjects).isSome = true ∧ (opensOver moreObjects).isSome = true := by
  decide +kernel

theorem stream_contents_apart : ∀ bytes ∈ streamObjects, ∀ bytes' ∈ moreObjects,
    Digest.of bytes = Digest.of bytes' → bytes = bytes' := by
  decide +kernel

theorem view_determines_reads_twoChunks :
    streamContents streamObjects ≠ streamContents moreObjects ∧
    ∃ opened,
      (streamLog.openBytes streamView streamNode).Reaches (Serving (streamContents streamObjects))
        (.done (.ok opened)) ∧
      (streamLog.openBytes streamView streamNode).Reaches (Serving (streamContents moreObjects))
        (.done (.ok opened)) := by
  refine ⟨fun h => ?_, ?_⟩
  · have hkey := congrFun h ⟨7, .blob, ⟨0⟩, Digest.of [3]⟩
    revert hkey
    decide +kernel
  · obtain ⟨opened, hopened⟩ := Option.isSome_iff_exists.1 stream_opens_over_both.1
    obtain ⟨opened', hopened'⟩ := Option.isSome_iff_exists.1 stream_opens_over_both.2
    have hreach := opensOver_reaches hopened
    have hreach' := opensOver_reaches hopened'
    have apart : ∀ key key' bytes bytes', streamContents streamObjects key = some bytes →
        streamContents moreObjects key' = some bytes' →
        Digest.of bytes = Digest.of bytes' → bytes = bytes' := fun _ _ bytes bytes' h h' =>
      stream_contents_apart bytes (List.mem_of_find?_eq_some h) bytes'
        (List.mem_of_find?_eq_some h')
    have hsame := (view_determines_reads apart streamLog streamView).2.2.2.2.2 streamNode
    have heq := hsame.1 opened opened' hreach hreach'
    rw [← heq] at hreach'
    exact ⟨opened, hreach, hreach'⟩

end

section

variable [Blake3] {w : World} {s : State} {scope : LogId}

/-! ## Expiry -/

/-- What the call reads is in the graph of its view. -/
def State.ReadsInside (s : State) : Call → Prop
  | .readObject _ view object => Inside s.body view.head object ∧ object.kind = .blob
  | .readNode _ view object => Inside s.body view.head object ∧ object.kind = .node
  | .tailRecord _ view index => index < view.head.tail.length
  | .openBytes _ view root => Inside s.body view.head root
  | .readAt reader offset _ => ∃ child,
      reader.children[offset / reader.chunkBytes]? = some child ∧
      Inside s.body reader.view.head child
  | _ => True

/-- The errors that say what the object is not: the root of a stream. -/
def Call.StreamFault : Call → Error → Prop
  | .openBytes _ _ _, e => e = .limitExceeded "byte stream chunk bytes" ∨ e = invalidByteStream
  | _, _ => False

/-- The store or the guard refused, or the durable epoch has moved past the view. -/
def State.ReadFails (s : State) (view : View) (e : Error) : Prop :=
  e.Unavailable ∨
    e = .viewExpired ∧ ∃ h, s.Durable h ∧
      view.head.collectionEpoch.toNat < h.collectionEpoch.toNat

theorem State.ViewError.readFails {view : View} {e : Error} (inv : Inv s)
    (h : s.ViewError view e) : s.ReadFails view e := by
  refine h.imp id fun ⟨he, hx⟩ => ⟨he, ?_⟩
  obtain ⟨i, g, v, hg, -⟩ := id hx
  obtain ⟨n, hlast⟩ : ∃ n, n + 1 = s.now := ⟨s.now - 1, by have := hg.lt; omega⟩
  obtain ⟨h, v', hh⟩ := inv.headAt (i := n) (by omega)
  have hd : s.Durable h := ⟨n, v', hh, hlast⟩
  exact ⟨h, hd, hx.durable inv hd⟩

/-- How a read that has returned can have failed. -/
theorem State.Outcome.failure {t : Nat} {b : Begun} {r : Except Error Value} {log : Log}
    {view : View} {e : Error} (h : s.Outcome t b r) (hc : b.call.readView = some (log, view))
    (he : b.call.failure r = some e) (hin : s.ReadsInside b.call) :
    s.ViewError view e ∨ b.call.StreamFault e := by
  obtain ⟨call, flights, heads⟩ := b
  have error : ∀ {c : Call}, (∀ v, c.failure (.ok v) = none) → c.failure r = some e →
      r = .error e := by
    intro c hok he
    cases r with
    | error e' => rw [← Option.some.inj ((c.failure_error e').symm.trans he)]
    | ok v =>
        rw [hok v] at he
        cases he
  cases call with
  | readObject log view object =>
      cases hc
      obtain rfl := error (fun _ => rfl) he
      exact .inl (h hin.1 hin.2)
  | readNode log view object =>
      cases hc
      obtain rfl := error (fun _ => rfl) he
      exact .inl (h hin.1 hin.2)
  | readTail log view =>
      cases hc
      obtain rfl := error (fun _ => rfl) he
      exact .inl h
  | tailRecord log view index =>
      cases hc
      obtain rfl := error (fun _ => rfl) he
      exact .inl (h hin)
  | readCheckpoint log view =>
      cases hc
      obtain rfl := error (fun _ => rfl) he
      exact .inl h
  | openBytes log view root =>
      cases hc
      obtain rfl := error (fun _ => rfl) he
      rcases h hin with hview | ⟨-, -, hlimit⟩ | ⟨-, hstream, -⟩
      · exact .inl hview
      · exact .inr (.inl hlimit)
      · exact .inr (.inr hstream)
  | historyNext cursor =>
      cases hc
      cases r with
      | error e' => exact h.elim
      | ok v =>
          cases v with
          | history cursor' result =>
              cases result with
              | error e' =>
                  cases he
                  exact .inl h
              | ok item => cases he
          | _ => cases he
  | readAt reader offset maxLen =>
      cases hc
      cases r with
      | error e' => exact h.elim
      | ok v =>
          cases v with
          | readAt reader' result =>
              cases result with
              | error e' =>
                  cases he
                  obtain ⟨child, hchild, hinside⟩ := hin
                  exact .inl (h child hchild hinside)
              | ok bytes => cases he
          | _ => cases he
  | _ => cases hc

/-- The call was told that an object which it needs is not there. A cursor needs the entry that
it stands before: what its read-ahead found out about the later ones is for later calls. -/
def State.ToldMissing (s : State) (t : Nat) (view : View) (c : Call) : Prop :=
  match c with
  | .historyNext cursor => cursor.KnowsMissing ∨
      ∃ key, cursor.entryKey = some key ∧ s.Answered t (.get key) 0 none
  | _ => ∃ key, Reaches s.body view.head key ∧ s.Answered t (.get key) 0 none

/-- **A read of a view reports no false corruption.** An object of the graph of a view is
missing only when the durable epoch has moved past the view. A call that reads for the view
and fails, where what it reads is in the graph, does so because the store or the guard
refused or because the view has expired, or, when a stream is opened, because the object is
no stream. If the call was told that an object which it needs is not there then it does
fail, and in one of the first two ways. -/
theorem view_reads_expire (hr : Reachable scope w) (nc : w.state.NoCollision) :
    (∀ view h key, Known w (.view view) → w.state.Durable h → Reaches w.state.body view.head key →
      w.state.objects key = none →
      view.head.collectionEpoch.toNat < h.collectionEpoch.toNat) ∧
    ∀ t b log view r, w.state.calls[t]? = some b → b.call.readView = some (log, view) →
      w.threads[t]? = some (.done r) →
      (∀ e, b.call.failure r = some e → w.state.ReadsInside b.call →
        w.state.ReadFails view e ∨ b.call.StreamFault e) ∧
      (w.state.ToldMissing t view b.call →
        ∃ e, b.call.failure r = some e ∧ w.state.ReadFails view e) := by
  have ok := hr.ok nc
  have inv := ok.good.inv
  refine ⟨?_, ?_⟩
  · intro view h key hview hdurable hreach hgone
    obtain ⟨n, v, hn, hlast⟩ := hdurable
    obtain ⟨⟨i, -, hi⟩, -⟩ := hview.ok ok
    obtain ⟨e, hlt, hplanned⟩ := inv.reached_lost hi hreach hgone
    have := inv.planned_le hn hlast hplanned
    omega
  · intro t b log view r hb hc ht
    have hfailed : ∀ e, b.call.failure r = some e → w.state.ReadsInside b.call →
        w.state.ReadFails view e ∨ b.call.StreamFault e := by
      intro e he hin
      refine ((ok.returned ht hb).outcome.failure hc he hin).imp ?_ id
      exact fun hview => hview.readFails inv
    refine ⟨hfailed, fun htold => ?_⟩
    by_cases hnext : ∃ cursor, b.call = .historyNext cursor
    · obtain ⟨cursor, hcall⟩ := hnext
      rw [hcall] at htold
      obtain ⟨e, he⟩ := hr.entryMissing nc hb hcall ht htold
      refine ⟨e, he, (hfailed e he ?_).resolve_right ?_⟩
      · rw [hcall]
        trivial
      · rw [hcall]
        exact id
    · have hother : ∀ cursor, b.call ≠ .historyNext cursor := fun cursor hcall =>
        hnext ⟨cursor, hcall⟩
      have hkey : ∃ key, Reaches w.state.body view.head key ∧
          w.state.Answered t (.get key) 0 none := by
        unfold State.ToldMissing at htold
        split at htold
        · exact absurd ‹_› (hother _)
        · exact htold
      obtain ⟨key, hreach, hans⟩ := hkey
      obtain ⟨e, he, hview⟩ := hr.toldMissing nc hb hc hother ht hreach hans
      exact ⟨e, he, hview.readFails inv⟩

end

section

attribute [local instance] sampleHash

/-- The node that was collected is read for the view that had it. -/
def staleRead : List Action :=
  staleStart ++
  alone 9 (fun w => do
    let staged ← w.stagedAt 2
    return .readNode (← w.logAt 0) (← w.viewAt 4) staged.object)

/-- A commit of the tail that lists the object. -/
def State.listsObject [Blake3] (s : State) (h : Head) (object : ObjectRef) : Bool :=
  h.tail.any fun reference =>
    match s.body (commitKey h.incarnation reference) with
    | some bytes => match decodeCommit bytes with
        | .ok commit => decide (object ∈ commit.objects)
        | .error _ => false
    | none => false

theorem State.listsObject_ok {s : State} {h : Head} {object : ObjectRef}
    (hl : s.listsObject h object = true) : Inside s.body h object := by
  obtain ⟨reference, hmem, hl⟩ := List.any_eq_true.1 hl
  split at hl
  · rename_i bytes hb
    split at hl
    · rename_i commit hd
      exact .commitObject hmem hb hd (of_decide_eq_true hl) (.self object)
    · cases hl
  · cases hl

/-- The read finds the view expired. -/
def staleReadFacts (w : World) : Bool :=
  match w.outcomeAt 9 with
  | some (⟨.readNode _ view object, _, _⟩, .error .viewExpired) =>
      decide (object.kind = .node) && w.state.listsObject view.head object
  | _ => false

theorem staleRead_ends : ends staleRead staleReadFacts = true := by
  decide +kernel

theorem view_reads_expire_staleRead : ∃ (view : View) (h : Head),
    (sample staleRead).threads[9]? = some (.done (.error .viewExpired)) ∧
    (sample staleRead).state.Durable h ∧
    view.head.collectionEpoch.toNat < h.collectionEpoch.toNat := by
  obtain ⟨hr, nc, hf⟩ := ends_ok staleRead_ends
  unfold staleReadFacts at hf
  split at hf
  · rename_i log view object _ _ hout
    obtain ⟨hb, ht⟩ := World.outcomeAt_ok hout
    rw [Bool.and_eq_true] at hf
    have hin : Inside (sample staleRead).state.body view.head object ∧ object.kind = .node :=
      ⟨State.listsObject_ok hf.2, of_decide_eq_true hf.1⟩
    have hfails := ((view_reads_expire hr nc).2 9 _ log view _ hb rfl ht).1 .viewExpired rfl hin
    rcases hfails with ((hdenied | ⟨x, hstore⟩) | ⟨-, h, hd, hlt⟩) | hfault
    · cases hdenied
    · cases hstore
    · exact ⟨view, h, ht, hd, hlt⟩
    · exact hfault.elim
  · cases hf

end

end ObjectLog
