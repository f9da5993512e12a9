import ObjectLog.Proof.HistoryOps
import ObjectLog.Proof.Served
import ObjectLog.Proof.StreamRanges

/-!
# What two stores agree on

A reference names its object by digest, so two stores whose contents do not collide agree on
every object that passes the checks of a read. From there on a value of a read is computed:
the tail from its references, a record from its body, a stream from the chunks that its
descriptor lists.
-/

namespace ObjectLog

open Rely

variable [Blake3] {A B : Answers Effect Reply} {log : Log} {view : View} {object : ObjectRef}
  {reference : CommitRef}

/-- No object found on one side collides with one found on the other. -/
def NoClash (A B : Answers Effect Reply) : Prop :=
  ∀ key key' bytes bytes', Finds A key (some bytes) → Finds B key' (some bytes') →
    Digest.of bytes = Digest.of bytes' → bytes = bytes'

/-- Where the program has a value under both answers, it is one value. -/
def SameValue {α : Type} (A B : Answers Effect Reply) (p : Op α) : Prop :=
  ∀ a b, p.Reaches A (.done (.ok a)) → p.Reaches B (.done (.ok b)) → a = b

omit [Blake3] in
theorem SameValue.of {α : Type} {p : Op α} {V W : α → Prop} (h : Ends A p (Yields V))
    (h' : Ends B p (Yields W)) (same : ∀ a b, V a → W b → a = b) : SameValue A B p := by
  intro a b ha hb
  exact same a b (h.reached ha) (h'.reached hb)

/-! ## Objects and records -/

theorem ReadsAs.agree {bytes bytes' : Bytes} (apart : NoClash A B)
    (h : ReadsAs A log object bytes) (h' : ReadsAs B log object bytes') : bytes = bytes' := by
  have hdigest := (verifyObject_ok.1 h.verified).2.2
  have hdigest' := (verifyObject_ok.1 h'.verified).2.2
  exact apart _ _ _ _ h.found h'.found (hdigest.trans hdigest'.symm)

/-- The node that a GET of its object found. -/
def NodeReads (A : Answers Effect Reply) (log : Log) (object : ObjectRef) (node : Node) : Prop :=
  ∃ bytes, ReadsAs A log object bytes ∧ log.decodeNodeReference object bytes = .ok node

theorem NodeReads.agree {node node' : Node} (apart : NoClash A B) (h : NodeReads A log object node)
    (h' : NodeReads B log object node') : node = node' := by
  obtain ⟨bytes, hread, hnode⟩ := h
  obtain ⟨bytes', hread', hnode'⟩ := h'
  rw [← hread.agree apart hread', hnode] at hnode'
  exact Except.ok.inj hnode'

theorem CheckpointReads.agree {reference : CheckpointRef} {checkpoint checkpoint' : Checkpoint}
    (apart : NoClash A B) (h : CheckpointReads A log reference checkpoint)
    (h' : CheckpointReads B log reference checkpoint') : checkpoint = checkpoint' := by
  obtain ⟨bytes, hread, hdecode⟩ := h
  obtain ⟨bytes', hread', hdecode'⟩ := h'
  rw [← hread.agree apart hread', hdecode] at hdecode'
  exact Except.ok.inj hdecode'

theorem CheckpointFound.agree {found found' : Option CheckpointRecord} (apart : NoClash A B)
    (h : CheckpointFound A log view found) (h' : CheckpointFound B log view found') :
    found = found' := by
  cases found with
  | none =>
      cases found' with
      | none => rfl
      | some record' =>
          obtain ⟨reference, -, href, -, -⟩ := h'
          cases h.symm.trans href
  | some record =>
      obtain ⟨reference, checkpoint, href, hread, rfl⟩ := h
      cases found' with
      | none => cases h'.symm.trans href
      | some record' =>
          obtain ⟨reference', checkpoint', href', hread', rfl⟩ := h'
          rw [href] at href'
          cases href'
          rw [hread.agree apart hread']

/-- The body of a commit has the digest of its reference. -/
theorem commitRecord_digest {bytes : Bytes} {record : CommitRecord}
    (h : log.commitRecord reference bytes = .ok record) :
    Digest.of bytes = reference.digest := by
  simp only [Log.commitRecord, bind_ok, ensure_ok] at h
  obtain ⟨-, -, -, ⟨-, hdigest⟩, -⟩ := h
  exact hdigest

theorem CommitReads.agree {record record' : CommitRecord} (apart : NoClash A B)
    (h : CommitReads A log reference record) (h' : CommitReads B log reference record') :
    record = record' := by
  obtain ⟨bytes, hfound, hrecord⟩ := h
  obtain ⟨bytes', hfound', hrecord'⟩ := h'
  have hdigest := (commitRecord_digest hrecord).trans (commitRecord_digest hrecord').symm
  rw [← apart _ _ _ _ hfound hfound' hdigest, hrecord] at hrecord'
  exact Except.ok.inj hrecord'

theorem TailReads.agree {index : Nat} {record record' : CommitRecord} (apart : NoClash A B)
    (h : TailReads A log view index record) (h' : TailReads B log view index record') :
    record = record' := by
  obtain ⟨reference, hindex, hread, -⟩ := h
  obtain ⟨reference', hindex', hread', -⟩ := h'
  rw [hindex] at hindex'
  cases hindex'
  exact hread.agree apart hread'

/-! ## The tail -/

/-- Records of some commits, each of which names the one before it. -/
inductive ChainReads (A : Answers Effect Reply) (log : Log) :
    Option Digest → List CommitRef → List CommitRecord → Prop
  | nil {tip : Option Digest} : ChainReads A log tip [] []
  | cons {tip : Option Digest} {reference : CommitRef} {references : List CommitRef}
      {record : CommitRecord} {records : List CommitRecord}
      (hread : CommitReads A log reference record) (htip : record.expectedTip = tip)
      (h : ChainReads A log (some reference.digest) references records) :
      ChainReads A log tip (reference :: references) (record :: records)

theorem ChainReads.agree {tip tip' : Option Digest} {references : List CommitRef}
    {records records' : List CommitRecord} (apart : NoClash A B)
    (h : ChainReads A log tip references records)
    (h' : ChainReads B log tip' references records') : records = records' := by
  induction h generalizing tip' records' with
  | nil =>
      cases h'
      rfl
  | cons hread _ _ ih =>
      cases h' with
      | cons hread' _ h' => rw [hread.agree apart hread', ih h']

omit [Blake3] in
theorem nextRead_answered (started : List (Except Error FlightId)) :
    Ends A (log.nextRead reference started) fun r => ∃ next, r = .ok next := by
  cases started with
  | nil => exact startCommit_answered.bind (fun next _ => Ends.pure ⟨_, rfl⟩) nofun
  | cons next ahead => exact Ends.pure ⟨_, rfl⟩

omit [Blake3] in
theorem readAhead_answered {room : Nat} (references : List CommitRef)
    (ahead : List (Except Error FlightId)) :
    Ends A (log.readAhead room references ahead) fun r => ∃ started, r = .ok started := by
  refine Ends.bind (Ends.mapM (P := fun _ _ => True) fun reference _ => ?_)
    (fun _ _ => Ends.pure ⟨_, rfl⟩) nofun
  exact startCommit_answered.mono fun r hr => hr.imp fun _ h => ⟨h, trivial⟩

/-- **What the consumer of a tail was handed.** -/
theorem consumeTail_answered {σ : Type} {window : Nat}
    {consume : σ → CommitRecord → Except Error σ} (references : List CommitRef) :
    ∀ (started : List (Except Error FlightId)) (tip : Option Digest) (state : σ),
      Ends A (log.consumeTail view window consume references started tip state)
        (Yields fun state' => ∃ records, ChainReads A log tip references records ∧
          records.foldlM consume state = .ok state') := by
  induction references with
  | nil => exact fun _ _ state => Ends.pure ⟨[], .nil, rfl⟩
  | cons reference references ih =>
      intro started tip state
      unfold Log.consumeTail
      refine (nextRead_answered started).bind (fun next _ => ?_) fun _ _ => trivial
      refine (readAhead_answered references next.2).bind (fun ahead _ => ?_) fun _ _ => trivial
      refine (finishCommit_answered next.1).feed fun found hfound => ?_
      cases found with
      | none => exact missingReadError_answered
      | some record =>
          refine Ends.feedLift fun _ hparent => Ends.feedLift fun state' hstate => ?_
          have hreference : record.reference = reference := by
            obtain ⟨bytes, -, hrecord⟩ := hfound
            exact commitRecord_reference hrecord
          rw [hreference]
          refine (ih ahead _ state').mono fun r hr => ?_
          cases r with
          | error e => trivial
          | ok final =>
              obtain ⟨records, hchain, hfold⟩ := hr
              refine ⟨record :: records, .cons hfound (ensure_ok.1 hparent) hchain, ?_⟩
              rw [List.foldlM_cons, hstate]
              exact hfold

/-- The parent that the first commit of the tail must name. -/
abbrev View.baseTip (view : View) : Option Digest :=
  view.head.checkpoint.map CheckpointRef.throughCommit

theorem tailRecords_answered {σ : Type} {consume : σ → CommitRecord → Except Error σ} {init : σ} :
    Ends A (log.tailRecords view consume init) (Yields fun state =>
      ∃ records, ChainReads A log view.baseTip view.head.tail records ∧
        records.foldlM consume init = .ok state) :=
  Ends.feedLift fun _ _ => consumeTail_answered _ _ _ _

omit [Blake3] in
theorem foldlM_append (records : List CommitRecord) : ∀ before : List CommitRecord,
    records.foldlM (fun records record => (.ok (records ++ [record]) :
      Except Error (List CommitRecord))) before = .ok (before ++ records) := by
  induction records with
  | nil => exact fun before => by rw [List.append_nil]; rfl
  | cons record records ih =>
      intro before
      rw [List.foldlM_cons]
      exact (ih (before ++ [record])).trans (by rw [List.append_assoc]; rfl)

/-- **What `read_tail` returns.** -/
theorem readTail_answered :
    Ends A (log.readTail view) (Yields (ChainReads A log view.baseTip view.head.tail)) := by
  refine tailRecords_answered.feed fun records hrecords => ?_
  obtain ⟨records', hchain, hfold⟩ := hrecords
  rw [foldlM_append, List.nil_append] at hfold
  cases hfold
  exact (Ends.all (Q := fun _ => True) fun _ => trivial).bind (fun _ _ => Ends.pure hchain)
    fun _ _ => trivial

/-- **What `tail_record` reads.** -/
theorem readTailRecord_answered {index : Nat} :
    Ends A (log.readTailRecord view index) (Yields (TailReads A log view index)) := by
  have hoptional : Ends A (log.readTailRecordOptional view index) (Yields fun found =>
      ∀ record, found = some record → TailReads A log view index record) := by
    refine Ends.feedLift fun _ _ => ?_
    cases hindex : view.head.tail[index]? with
    | none => exact Ends.throw trivial
    | some reference =>
        refine startCommit_answered.bind (fun started _ => ?_) fun _ _ => trivial
        refine (finishTailRecord_answered hindex started).mono fun r hr => ?_
        cases r with
        | error e => trivial
        | ok found =>
            intro record hfound
            subst hfound
            exact hr
  refine hoptional.feed fun found hfound => ?_
  cases found with
  | none => exact missingReadError_answered
  | some record => exact Ends.pure (hfound record rfl)

theorem tailRecord_answered {index : Nat} :
    Ends A (log.tailRecord view index) (Yields fun item => TailReads A log view index item.record ∧
      item.proofs = log.recordProofs view item.record.objects) :=
  readTailRecord_answered.feed fun _ hrecord => Ends.pure ⟨hrecord, rfl⟩

/-! ## The history -/

theorem HistoryEntry.Reads.agree {entry : HistoryEntry} {item item' : HistoryItem}
    (apart : NoClash A B) (h : entry.Reads A log view item) (h' : entry.Reads B log view item') :
    item = item' := by
  cases entry with
  | checkpoint reference =>
      cases item with
      | commit item => exact h.elim
      | checkpoint item =>
          cases item' with
          | commit item' => exact h'.elim
          | checkpoint item' =>
              obtain ⟨checkpoint, hread, hrecord, hproofs⟩ := h
              obtain ⟨checkpoint', hread', hrecord', hproofs'⟩ := h'
              rw [← hread.agree apart hread', ← hrecord] at hrecord'
              rw [hrecord', ← hproofs] at hproofs'
              cases item
              cases item'
              cases hrecord'
              cases hproofs'
              rfl
  | commit index reference =>
      cases item with
      | checkpoint item => exact h.elim
      | commit item =>
          cases item' with
          | checkpoint item' => exact h'.elim
          | commit item' =>
              obtain ⟨hread, -, hproofs⟩ := h
              obtain ⟨hread', -, hproofs'⟩ := h'
              have hrecord := hread.agree apart hread'
              rw [← hrecord, ← hproofs] at hproofs'
              cases item
              cases item'
              cases hrecord
              cases hproofs'
              rfl

/-! ## Streams -/

/-- The reader that `open_bytes` makes of what it finds. -/
inductive OpensAs (A : Answers Effect Reply) (log : Log) (view : View) (root : ObjectRef) :
    ByteReader → Prop
  | blob {bytes : Bytes} (hkind : root.kind = .blob) (hread : ReadsAs A log root bytes) :
      OpensAs A log view root
        { log, view, chunkBytes := min log.options.maxObjectBytes.toNat maxChunkBytes,
          len := root.len.toNat, children := [root], cached := (some (0, bytes), none) }
  | node {node : Node} {len chunkBytes : Nat} (hkind : root.kind ≠ .blob)
      (hread : NodeReads A log root node) (hgeometry : log.byteStream node = .ok (len, chunkBytes)) :
      OpensAs A log view root
        { log, view, chunkBytes, len, children := node.children, cached := (none, none) }

theorem openBytes_opens {root : ObjectRef} :
    Ends A (log.openBytes view root) (Yields (OpensAs A log view root)) := by
  unfold Log.openBytes
  by_cases hkind : root.kind = .blob
  · rw [if_pos hkind]
    refine Ends.feedLift fun _ _ => Ends.feedLift fun _ _ => ?_
    dsimp only
    split
    · exact Ends.throw trivial
    · exact readObject_answered.feed fun bytes hbytes => Ends.pure (.blob hkind hbytes.2)
  · rw [if_neg hkind]
    refine readNode_answered.feed fun node hnode => Ends.feedLift fun geometry hgeometry => ?_
    exact Ends.pure (.node hkind hnode.2 hgeometry)

theorem OpensAs.agree {root : ObjectRef} {reader reader' : ByteReader} (apart : NoClash A B)
    (h : OpensAs A log view root reader) (h' : OpensAs B log view root reader') :
    reader = reader' := by
  cases h with
  | blob hkind hread =>
      cases h' with
      | blob _ hread' => rw [hread.agree apart hread']
      | node hkind' _ _ => exact absurd hkind hkind'
  | node hkind hread hgeometry =>
      cases h' with
      | blob hkind' _ => exact absurd hkind' hkind
      | node _ hread' hgeometry' =>
          obtain rfl := hread.agree apart hread'
          rw [hgeometry] at hgeometry'
          cases hgeometry'
          rfl

/-- A cached chunk is what a read of its reference found. -/
def CachedReads (A : Answers Effect Reply) (opened : ByteReader)
    (cached : Option (Nat × Bytes)) : Prop :=
  ∀ i bytes, cached = some (i, bytes) →
    ∃ child, opened.children[i]? = some child ∧ ReadsAs A opened.log child bytes

/-- A reader differs from the one that was opened only in what it caches. -/
structure ReaderOf (A : Answers Effect Reply) (opened reader : ByteReader) : Prop where
  same : reader = { opened with cached := reader.cached }
  first : CachedReads A opened reader.cached.1
  second : CachedReads A opened reader.cached.2

theorem OpensAs.readerOf {root : ObjectRef} {opened : ByteReader}
    (h : OpensAs A log view root opened) : ReaderOf A opened opened := by
  cases h with
  | blob hkind hread =>
      refine ⟨rfl, fun i data hcached => ?_, nofun⟩
      obtain ⟨rfl, rfl⟩ := Prod.mk.inj (Option.some.inj hcached)
      exact ⟨root, rfl, hread⟩
  | node hkind hread hgeometry => exact ⟨rfl, nofun, nofun⟩

/-- What a successful `read_at` returns: nothing outside the stream, and otherwise a part of
the chunk at the offset. -/
def SliceReads (A : Answers Effect Reply) (opened : ByteReader) (offset maxLen : Nat)
    (out : Bytes) : Prop :=
  if maxLen = 0 ∨ opened.len ≤ offset then out = []
  else ∃ child bytes, opened.children[offset / opened.chunkBytes]? = some child ∧
    ReadsAs A opened.log child bytes ∧ out = byteSlice bytes (offset % opened.chunkBytes) maxLen

theorem SliceReads.inside {opened : ByteReader} {offset maxLen : Nat} {child : ObjectRef}
    {bytes : Bytes} (hin : ¬ (maxLen = 0 ∨ opened.len ≤ offset))
    (hchild : opened.children[offset / opened.chunkBytes]? = some child)
    (hread : ReadsAs A opened.log child bytes) :
    SliceReads A opened offset maxLen (byteSlice bytes (offset % opened.chunkBytes) maxLen) := by
  unfold SliceReads
  rw [if_neg hin]
  exact ⟨child, bytes, hchild, hread, rfl⟩

theorem SliceReads.agree {opened : ByteReader} {offset maxLen : Nat} {out out' : Bytes}
    (apart : NoClash A B) (h : SliceReads A opened offset maxLen out)
    (h' : SliceReads B opened offset maxLen out') : out = out' := by
  unfold SliceReads at h h'
  split at h
  · rename_i hout
    rw [if_pos hout] at h'
    rw [h, h']
  · rename_i hin
    rw [if_neg hin] at h'
    obtain ⟨child, bytes, hchild, hread, rfl⟩ := h
    obtain ⟨child', bytes', hchild', hread', rfl⟩ := h'
    rw [hchild] at hchild'
    cases hchild'
    rw [hread.agree apart hread']

theorem ReaderOf.lookup {opened reader reader' : ByteReader} {index : Nat} {bytes : Bytes}
    (h : ReaderOf A opened reader) (hl : reader.lookup index = some (reader', bytes)) :
    ReaderOf A opened reader' ∧
      ∃ child, opened.children[index]? = some child ∧ ReadsAs A opened.log child bytes := by
  obtain ⟨hsame, hfirst, hsecond⟩ := h
  unfold ByteReader.lookup at hl
  split at hl
  · rename_i i data hfound
    obtain ⟨rfl, rfl⟩ := Prod.mk.inj (Option.some.inj hl)
    obtain ⟨hcached, hi⟩ := Option.filter_eq_some_iff.1 hfound
    obtain rfl : i = index := by simpa using hi
    exact ⟨⟨hsame, hfirst, hsecond⟩, hfirst _ _ hcached⟩
  · rename_i i data _ hfound
    obtain ⟨rfl, rfl⟩ := Prod.mk.inj (Option.some.inj hl)
    obtain ⟨hcached, hi⟩ := Option.filter_eq_some_iff.1 hfound
    obtain rfl : i = index := by simpa using hi
    refine ⟨⟨?_, hsecond, hfirst⟩, hsecond _ _ hcached⟩
    rw [hsame]
  · cases hl

/-- **`read_at` keeps what the reader knows**, and returns a part of the stream. -/
theorem readAtPolled_authentic {opened reader : ByteReader} (h : ReaderOf A opened reader)
    (offset maxLen : Nat) :
    (reader.readAtPolled offset maxLen).Keeps A (ReaderOf A opened) fun reader' r =>
      ReaderOf A opened reader' ∧ ∀ out, r = .ok out → SliceReads A opened offset maxLen out := by
  -- a released or exchanged cache leaves the rest of the reader as it was opened
  have hcached : ∀ cached, CachedReads A opened cached.1 → CachedReads A opened cached.2 →
      ReaderOf A opened { reader with cached } := by
    intro cached hfirst hsecond
    refine ⟨?_, hfirst, hsecond⟩
    rw [h.same]
  have hreleased := hcached (reader.cached.1, none) h.first nofun
  have hlen : opened.len = reader.len := by rw [h.same]
  have hchunk : opened.chunkBytes = reader.chunkBytes := by rw [h.same]
  have hchildren : opened.children = reader.children := by rw [h.same]
  have hlog : opened.log = reader.log := by rw [h.same]
  unfold ByteReader.readAtPolled
  by_cases hout : maxLen = 0 ∨ reader.len ≤ offset
  · rw [if_pos hout]
    refine ⟨h, fun out hr => ?_⟩
    cases hr
    unfold SliceReads
    rw [hlen, if_pos hout]
  rw [if_neg hout]
  have hslice : ∀ child bytes, reader.children[offset / reader.chunkBytes]? = some child →
      ReadsAs A opened.log child bytes →
      SliceReads A opened offset maxLen (byteSlice bytes (offset % reader.chunkBytes) maxLen) := by
    intro child bytes hchild hread
    rw [← hchildren, ← hchunk] at hchild
    rw [← hlen] at hout
    rw [← hchunk]
    exact .inside hout hchild hread
  dsimp only
  split
  · rename_i reader' bytes hl
    obtain ⟨hof, child, hchild, hread⟩ := h.lookup hl
    refine ⟨hof, fun out hr => ?_⟩
    cases hr
    rw [hchildren] at hchild
    exact hslice child bytes hchild hread
  · split
    · exact ⟨hreleased, nofun⟩
    · rename_i child hchild
      refine ⟨hreleased, readObject_answered.mono fun r hr => ?_⟩
      cases r with
      | error e => exact ⟨hreleased, nofun⟩
      | ok bytes =>
          have hread : ReadsAs A opened.log child bytes := by
            rw [hlog]
            exact hr.2
          refine ⟨hcached _ ?_ h.first, fun out hout => ?_⟩
          · intro i data hfound
            obtain ⟨rfl, rfl⟩ := Prod.mk.inj (Option.some.inj hfound)
            rw [← hchildren] at hchild
            exact ⟨child, hchild, hread⟩
          · cases hout
            exact hslice child bytes hchild hread

end ObjectLog
