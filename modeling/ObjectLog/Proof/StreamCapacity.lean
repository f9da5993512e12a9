import ObjectLog.Proof.NodeSize
import ObjectLog.Proof.StreamOps

/-!
# The capacity of a byte writer

The capacity of a writer is found by a search over the size of a stream node, before anything
is written. The size grows with the number of chunks, so the search finds the last number that
fits; and a last chunk that is not full makes the node no larger. So what `write` takes,
`finish` can describe. The only limit that is left is that of the attempts at a fresh
identity.
-/

set_option linter.unusedSectionVars false

namespace ObjectLog

open Rely Chunks

variable [Blake3] {log : Log} {view : View}

/-! ## The size of a stream node -/

/-- The lengths and counts of full chunks. -/
def Log.fullChunks (log : Log) (n : Nat) : List (UInt64 × UInt64) :=
  List.replicate n (.ofNat log.chunkBytes, 1)

theorem Log.chunkBytes_toNat (log : Log) :
    (UInt64.ofNat log.chunkBytes).toNat = log.chunkBytes := by
  have hlt : log.options.maxObjectBytes.toNat < 2 ^ 64 := UInt64.toNat_lt _
  have hle : log.chunkBytes ≤ log.options.maxObjectBytes.toNat := Nat.min_le_left _ _
  exact UInt64.toNat_ofNat_of_lt' (lt_of_le_of_lt hle hlt)

/-- Fewer and shorter children make no larger node. -/
theorem encodedLen_mono {payloadBytes : Nat} {xs ys : List (UInt64 × UInt64)}
    (hlen : xs.length ≤ ys.length) (hsum : referencesLen xs ≤ referencesLen ys) :
    encodedLen payloadBytes xs ≤ encodedLen payloadBytes ys := by
  have hinner : innerLen payloadBytes xs ≤ innerLen payloadBytes ys := by
    have hhead := cborHeadLen_mono hlen
    unfold innerLen
    omega
  have hhead := cborHeadLen_mono hinner
  unfold encodedLen
  omega

theorem referencesLen_fullChunks (log : Log) (n : Nat) :
    referencesLen (log.fullChunks n) = n * referenceLen (.ofNat log.chunkBytes, 1) := by
  unfold referencesLen Log.fullChunks
  rw [List.map_replicate, List.sum_replicate, smul_eq_mul]

/-- Chunks of a stream need no more than as many full ones. -/
theorem encodedLen_chunks {payloadBytes n : Nat} {xs : List (UInt64 × UInt64)}
    (hlen : xs.length ≤ n) (hall : ∀ x ∈ xs, x.1.toNat ≤ log.chunkBytes ∧ x.2 = 1) :
    encodedLen payloadBytes xs ≤ encodedLen payloadBytes (log.fullChunks n) := by
  refine encodedLen_mono (by simpa [Log.fullChunks] using hlen) ?_
  rw [referencesLen_fullChunks]
  refine (List.sum_le_card_nsmul (xs.map referenceLen)
    (referenceLen (.ofNat log.chunkBytes, 1)) ?_).trans ?_
  · intro m hm
    obtain ⟨x, hx, rfl⟩ := List.mem_map.1 hm
    obtain ⟨hle, hone⟩ := hall x hx
    have hhead := cborHeadLen_mono hle
    unfold referenceLen
    dsimp only
    rw [hone, log.chunkBytes_toNat]
    omega
  · rw [List.length_map, smul_eq_mul]
    exact Nat.mul_le_mul_right _ hlen

/-- A stream node over `n` full chunks is within the limits of the log: every such node can be
encoded. -/
def Log.HoldsChunks (log : Log) (n : Nat) : Prop :=
  ∀ node : Node, node.payload.length = descriptorBytes → node.children.length = n →
    (∀ c ∈ node.children, c.len.toNat = log.chunkBytes ∧ c.subtreeObjects = 1) →
    ∃ bytes, encodeNode node log.options = .ok bytes

theorem holdsChunks_iff {n : Nat} : log.HoldsChunks n ↔ n ≤ log.options.maxObjectRefs.toNat ∧
    encodedLen descriptorBytes (log.fullChunks n) ≤ log.options.maxObjectBytes.toNat := by
  constructor
  · intro h
    obtain ⟨bytes, hbytes⟩ := h ⟨List.replicate descriptorBytes 0, List.replicate n
      ⟨.blob, ⟨0⟩, Digest.of [], .ofNat log.chunkBytes, 1⟩⟩ (by simp) (by simp) (by
        intro c hc
        rw [List.eq_of_mem_replicate hc]
        exact ⟨log.chunkBytes_toNat, rfl⟩)
    obtain ⟨hcount, hsize, -⟩ := encodeNode_ok.1 hbytes
    rw [List.length_replicate] at hcount
    rw [List.length_replicate, List.map_replicate] at hsize
    exact ⟨hcount, hsize⟩
  · rintro ⟨hcount, hsize⟩ node hpayload hchildren hall
    refine ⟨_, encodeNode_ok.2 ⟨by omega, ?_, rfl⟩⟩
    rw [hpayload]
    refine (encodedLen_chunks (by simp [hchildren]) ?_).trans hsize
    intro x hx
    obtain ⟨c, hc, rfl⟩ := List.mem_map.1 hx
    obtain ⟨hlen, hone⟩ := hall c hc
    exact ⟨hlen.le, hone⟩

theorem Log.HoldsChunks.fewer {m n : Nat} (h : log.HoldsChunks n) (hle : m ≤ n) :
    log.HoldsChunks m := by
  obtain ⟨hcount, hsize⟩ := holdsChunks_iff.1 h
  refine holdsChunks_iff.2 ⟨by omega, (encodedLen_chunks ?_ ?_).trans hsize⟩
  · simpa [Log.fullChunks] using hle
  · intro x hx
    rw [List.eq_of_mem_replicate hx]
    exact ⟨log.chunkBytes_toNat.le, rfl⟩

/-- Where a stream node fits, a chunk has some bytes. -/
theorem Log.HoldsChunks.pos {n : Nat} (h : log.HoldsChunks n) : 0 < log.chunkBytes := by
  have hsize := (holdsChunks_iff.1 h).2
  have hsome := innerLen_lt_encodedLen descriptorBytes (log.fullChunks n)
  have hmost : 0 < maxChunkBytes := by decide
  exact Nat.lt_min.2 ⟨by omega, hmost⟩

/-- A reference has more than thirty-two bytes, so the search starts high enough. -/
theorem Log.HoldsChunks.bound {n : Nat} (h : log.HoldsChunks n) :
    n ≤ min log.options.maxObjectRefs.toNat (log.options.maxObjectBytes.toNat / 32) := by
  obtain ⟨hcount, hsize⟩ := holdsChunks_iff.1 h
  have hinner := innerLen_lt_encodedLen descriptorBytes (log.fullChunks n)
  have hrefs : referencesLen (log.fullChunks n) ≤ innerLen descriptorBytes (log.fullChunks n) := by
    unfold innerLen
    omega
  have heach : 32 ≤ referenceLen (.ofNat log.chunkBytes, 1) := by
    unfold referenceLen
    omega
  have hsum : n * 32 ≤ referencesLen (log.fullChunks n) := by
    rw [referencesLen_fullChunks]
    exact Nat.mul_le_mul_left n heach
  refine Nat.le_min.2 ⟨hcount, ?_⟩
  rw [Nat.le_div_iff_mul_le (by decide)]
  omega

/-- Any chunks of a stream, the last one included, fit where as many full ones do. -/
theorem Log.HoldsChunks.encodes {n : Nat} (h : log.HoldsChunks n) (node : Node)
    (hpayload : node.payload.length = descriptorBytes) (hlen : node.children.length ≤ n)
    (hall : ∀ c ∈ node.children, c.len.toNat ≤ log.chunkBytes ∧ c.subtreeObjects = 1) :
    ∃ bytes, encodeNode node log.options = .ok bytes := by
  obtain ⟨hcount, hsize⟩ := holdsChunks_iff.1 h
  refine ⟨_, encodeNode_ok.2 ⟨by omega, ?_, rfl⟩⟩
  rw [hpayload]
  refine (encodedLen_chunks (by simpa using hlen) ?_).trans hsize
  intro x hx
  obtain ⟨c, hc, rfl⟩ := List.mem_map.1 hx
  exact hall c hc

theorem descriptorFits_iff {n : Nat} :
    log.descriptorFits log.chunkBytes n = true ↔ log.HoldsChunks n := by
  unfold Log.descriptorFits
  rw [holdsChunks_iff]
  cases hsize : ObjectLog.nodeSize descriptorBytes
      (List.replicate n (UInt64.ofNat log.chunkBytes, 1)) log.options with
  | ok size =>
      obtain ⟨hcount, hfits, -⟩ := nodeSize_ok.1 hsize
      rw [List.length_replicate] at hcount
      exact iff_of_true rfl ⟨hcount, hfits⟩
  | error e =>
      refine iff_of_false (by simp [Except.toOption]) fun ⟨hcount, hfits⟩ => ?_
      have hlen : (log.fullChunks n).length ≤ log.options.maxObjectRefs.toNat := by
        rwa [Log.fullChunks, List.length_replicate]
      have hok := nodeSize_ok.2 ⟨hlen, hfits, rfl⟩
      rw [Log.fullChunks, hsize] at hok
      cases hok

/-! ## The search -/

/-- **The search finds the greatest number that fits.** -/
theorem searchChunks_greatest (fits : Nat → Bool)
    (fewer : ∀ m n, m ≤ n → fits n = true → fits m = true) :
    ∀ (fuel low high : Nat), high - low ≤ fuel → fits low = true →
      (∀ n, fits n = true → n ≤ max low high) →
      IsGreatest {n | fits n = true} (searchChunks fits fuel low high)
  | 0, low, high, hfuel, hlow, hhigh => by
      refine ⟨hlow, fun n hn => ?_⟩
      have hle := hhigh n hn
      simp only [searchChunks]
      omega
  | fuel + 1, low, high, hfuel, hlow, hhigh => by
      unfold searchChunks
      split
      · rename_i hlt
        dsimp only
        split
        · rename_i hmid
          refine searchChunks_greatest fits fewer fuel _ high (by omega) hmid fun n hn => ?_
          have hle := hhigh n hn
          omega
        · rename_i hmid
          refine searchChunks_greatest fits fewer fuel low _ (by omega) hlow fun n hn => ?_
          -- what fits is below the middle, which does not
          by_contra hgt
          exact hmid (fewer _ n (by omega) hn)
      · refine ⟨hlow, fun n hn => ?_⟩
        have hle := hhigh n hn
        omega

/-- **What `byte_writer` returns** where an empty stream fits. -/
theorem byteWriter_holds (view : View) (h : log.HoldsChunks 0) :
    ∃ n, IsGreatest {n | log.HoldsChunks n} n ∧ log.byteWriter view = (do
      ensure (n * log.chunkBytes < 2 ^ 64) (.limitExceeded "byte stream length")
      return ⟨log, view, log.chunkBytes, n * log.chunkBytes, 0, [], [], false⟩) := by
  have hempty : log.nodeSize descriptorBytes [] = .ok (encodedLen descriptorBytes []) := by
    have hfits := holdsChunks_iff.1 h
    exact bind_ok.2 ⟨_, nodeSize_ok.2 ⟨hfits.1, hfits.2, rfl⟩, rfl⟩
  have hgreatest := searchChunks_greatest (log.descriptorFits log.chunkBytes)
    (fun m n hle hn => descriptorFits_iff.2 ((descriptorFits_iff.1 hn).fewer hle))
    (min log.options.maxObjectRefs.toNat (log.options.maxObjectBytes.toNat / 32)) 0 _ le_rfl
    (descriptorFits_iff.2 h) fun n hn =>
      ((descriptorFits_iff.1 hn).bound).trans (Nat.le_max_right _ _)
  simp only [descriptorFits_iff] at hgreatest
  refine ⟨_, hgreatest, ?_⟩
  unfold Log.byteWriter
  rw [hempty]
  rfl

theorem byteWriter_empty (view : View) (h : ¬ log.HoldsChunks 0) :
    ∃ what, log.byteWriter view = .error (.limitExceeded what) := by
  cases hsize : ObjectLog.nodeSize descriptorBytes [] log.options with
  | ok size =>
      obtain ⟨hcount, hfits, -⟩ := nodeSize_ok.1 hsize
      exact absurd (holdsChunks_iff.2 ⟨hcount, hfits⟩) h
  | error e =>
      obtain ⟨what, rfl⟩ : ∃ what, e = .limitExceeded what := by
        rcases nodeSize_error.error hsize with rfl | rfl <;> exact ⟨_, rfl⟩
      refine ⟨what, ?_⟩
      unfold Log.byteWriter Log.nodeSize
      rw [List.map_nil, hsize]
      rfl

/-! ## The shape of a writer -/

/-- **The lengths of a writer** that has taken `total` bytes, whatever the store has answered:
full chunks, and less than one in the buffer. -/
structure WriterShape (log : Log) (view : View) (total : Nat) (writer : ByteWriter) : Prop where
  handle : writer.log = log
  shown : writer.view = view
  size : writer.chunkBytes = log.chunkBytes
  chunks : ∀ c ∈ writer.children, c.object.len.toNat = log.chunkBytes ∧ c.object.subtreeObjects = 1
  taken : writer.children.length * log.chunkBytes + writer.buffer.length = total
  room : writer.buffer.length < log.chunkBytes

variable {A : Answers Effect Reply}

theorem createFresh_shape {kind : ObjectKind} {bytes : Bytes} {len subtree : UInt64}
    {blocked : Option (List CollectionCandidate)} (attempts : Nat) :
    Ends A (log.createFresh kind bytes len subtree blocked attempts)
      (Yields fun object => object.len = len ∧ object.subtreeObjects = subtree) := by
  induction attempts with
  | zero => exact Ends.throw trivial
  | succ attempts ih =>
      refine Ends.feed (V := fun _ => True) (Ends.ask fun _ _ => trivial) fun storageId _ => ?_
      dsimp only
      split
      · exact ih
      · refine Ends.feed (V := fun _ => True) (Ends.all fun r => ?_) fun made _ => ?_
        · cases r <;> trivial
        split
        · exact Ends.pure ⟨rfl, rfl⟩
        · exact ih

theorem createFreshObject_shape {kind : ObjectKind} {bytes : Bytes} {subtree : UInt64}
    {blocked : Option (List CollectionCandidate)} :
    Ends A (log.createFreshObject kind bytes subtree blocked)
      (Yields fun object => object.len.toNat = bytes.length ∧ object.subtreeObjects = subtree) := by
  refine Ends.feedLift fun len hlen => (createFresh_shape _).mono fun r hr => ?_
  cases r with
  | error e => trivial
  | ok object => exact ⟨by rw [hr.1]; exact toU64_toNat (okOr_ok.1 hlen), hr.2⟩

/-- A blob that is put declares the length of its bytes. -/
theorem putObject_shape {bytes : Bytes} :
    Ends A (log.putObject view bytes) (Yields fun staged =>
      staged.object.len.toNat = bytes.length ∧ staged.object.subtreeObjects = 1) := by
  refine Ends.feedLift fun _ _ => Ends.feedLift fun _ _ => ?_
  refine Ends.feed (V := fun _ => True) (Ends.all fun r => ?_) fun blocked _ => ?_
  · cases r <;> trivial
  · exact createFreshObject_shape.feed fun object hobject => Ends.pure hobject

/-- How a `write` ends after which the writer would have taken `total` bytes. -/
def WriteShapes (log : Log) (view : View) (capacity total : Nat) (writer : ByteWriter) :
    Except Error Unit → Prop
  | .ok _ => WriterShape log view total writer ∧ writer.len = total ∧ writer.failed = false ∧
      writer.capacity = capacity
  | .error _ => True

theorem writeLoop_shape {len total capacity : Nat} (fuel : Nat) (rest : Bytes)
    (writer : ByteWriter) (h : WriterShape log view total writer)
    (hlen : total + rest.length = len) (hcap : writer.capacity = capacity) :
    (ByteWriter.writeLoop len fuel rest writer).Keeps A (fun _ => True)
      (WriteShapes log view capacity len) := by
  induction fuel generalizing rest total writer with
  | zero =>
      cases rest with
      | nil =>
          obtain rfl : total = len := hlen
          exact ⟨{ h with }, rfl, rfl, hcap⟩
      | cons byte tail => exact trivial
  | succ fuel ih =>
      cases rest with
      | nil =>
          obtain rfl : total = len := hlen
          exact ⟨{ h with }, rfl, rfl, hcap⟩
      | cons byte tail =>
          rw [ByteWriter.writeLoop]
          generalize byte :: tail = rest at hlen
          have hroom := h.room
          have htaken := h.taken
          have hsize := h.size
          obtain ⟨n, hn⟩ : ∃ n, n = min rest.length (writer.chunkBytes - writer.buffer.length) :=
            ⟨_, rfl⟩
          rw [← hn]
          have hbuffer : (writer.buffer ++ rest.take n).length = writer.buffer.length + n := by
            rw [List.length_append, List.length_take]
            omega
          have hleft : (total + n) + (rest.drop n).length = len := by
            rw [List.length_drop]
            omega
          split
          · rename_i hfull
            refine ⟨trivial, putObject_shape.mono fun r hr => ?_⟩
            cases r with
            | error e => exact trivial
            | ok child =>
                refine ih (rest.drop n) _ ⟨h.handle, h.shown, h.size, ?_, ?_, ?_⟩ hleft hcap
                · intro c hc
                  rcases List.mem_append.1 hc with hc | hc
                  · exact h.chunks c hc
                  · rw [List.mem_singleton.1 hc]
                    exact ⟨by rw [hr.1, hfull, hsize], hr.2⟩
                · dsimp only
                  rw [List.length_append, List.length_singleton, Nat.add_mul, Nat.one_mul,
                    List.length_nil]
                  omega
                · exact Nat.lt_of_le_of_lt (Nat.zero_le _) hroom
          · rename_i hrest
            refine ih (rest.drop n) _ ⟨h.handle, h.shown, h.size, h.chunks, ?_, ?_⟩ hleft hcap
            · dsimp only
              omega
            · dsimp only
              omega

/-- A write within the capacity is taken up. -/
theorem writePolled_within {writer : ByteWriter} {data : Bytes} (hopen : writer.failed = false)
    (hfits : writer.len + data.length ≤ writer.capacity) (hlt : writer.capacity < 2 ^ 64) :
    writer.writePolled data = ByteWriter.writeLoop (writer.len + data.length) data.length data
      { writer with failed := true } := by
  unfold ByteWriter.writePolled
  rw [hopen, if_neg Bool.false_ne_true]
  exact if_pos ⟨by omega, hfits⟩

/-- **A write that would exceed the capacity is refused at once.** -/
theorem writePolled_over {writer : ByteWriter} {data : Bytes} (hopen : writer.failed = false)
    (hover : writer.capacity < writer.len + data.length) :
    writer.writePolled data = .ended { writer with failed := true }
      (.error (.limitExceeded "byte stream length")) := by
  unfold ByteWriter.writePolled
  rw [hopen, if_neg Bool.false_ne_true]
  exact if_neg (by omega)

/-! ## Limits among other calls -/

variable {s u : State} {t L : Nat} {B : Effect → Prop} {b : Begun} {α : Type}

/-- A create that the call has sent since moment `L` was answered with "already there". -/
def State.Taken (s : State) (t L : Nat) : Prop :=
  ∃ key bytes, s.Answered t (.create key bytes) L false

theorem State.Taken.mono (hle : s.Le u) (h : s.Taken t L) : u.Taken t L := by
  obtain ⟨key, bytes, ha⟩ := h
  exact ⟨key, bytes, ha.mono hle⟩

/-- The only limit that the call can have met is that of the attempts at a fresh identity, and
then an identity was taken. -/
def LimitTaken (t L : Nat) (r : Except Error α) (u : State) : Prop :=
  ∀ what, r = .error (.limitExceeded what) →
    what = "fresh physical storage identity" ∧ u.Taken t L

theorem LimitTaken.mono {r : Except Error α} (hle : s.Le u) (h : LimitTaken t L r s) :
    LimitTaken t L r u := fun what hw => ⟨(h what hw).1, (h what hw).2.mono hle⟩

/-- An error that is handed on. -/
theorem LimitTaken.error {β : Type} {e : Error} (h : LimitTaken t L (.error e : Except Error α) u) :
    LimitTaken t L (.error e : Except Error β) u := by
  intro what hw
  exact h what (by rw [Except.error.inj hw])

theorem LimitTaken.ok {a : α} : LimitTaken t L (.ok a) u := fun _ h => by cases h

theorem LimitTaken.other {e : Error} (h : ∀ what, e ≠ .limitExceeded what) :
    LimitTaken t L (.error e : Except Error α) u :=
  fun what hw => absurd (Except.error.inj hw) (h what)

theorem Error.Unavailable.other {e : Error} (h : e.Unavailable) (what : String) :
    e ≠ .limitExceeded what := by
  rintro rfl
  rcases h with h | ⟨x, h⟩ <;> cases h

theorem State.PlanError.other {e : Error} (h : s.PlanError t L view e) (what : String) :
    e ≠ .limitExceeded what := by
  rcases h with h | ⟨rfl, -⟩
  · exact h.other what
  · rintro ⟨⟩

/-- The answer to a create. -/
theorem create_told {key : ImmutableKey} {bytes : Bytes} (hB : Reads ≤ B)
    (hs : B (.submit (.create key bytes))) (g : Good s)
    (may : ∀ u, Track t Reads s u → Good u → May t u (.submit (.create key bytes))) :
    Runs t B (create key bytes) (fun r u => (∃ e, r = .error e ∧ e.Unavailable) ∨
      ∃ made, r = .ok made ∧ u.Answered t (.create key bytes) s.now made) s := by
  refine (write_runs hB hs g _ may).mono ?_
  rintro r u gu (⟨rfl, -⟩ | ⟨x, rfl⟩ | ⟨a, rfl, j, h, -⟩)
  · exact .inl ⟨_, rfl, .inl rfl⟩
  · exact .inl ⟨_, rfl, .inr ⟨x, rfl⟩⟩
  · exact .inr ⟨a, rfl, j, h⟩

/-- **A fresh identity is in no plan.** A plan lists what was created. -/
theorem State.Unused.unblocked {blocked : Option (List CollectionCandidate)} (key : ImmutableKey)
    (h : s.Unused t key.storageId) (inv : Inv s) (hv : Viewing s log view)
    (hb : s.BlockedOK view blocked) (hk : key.kind ≠ .commit) :
    ¬ blocked.any (isCollectionCandidate · key) := by
  intro hany
  cases blocked with
  | none => cases hany
  | some candidates =>
      obtain ⟨p, plan, hp, hat, rfl⟩ := hb
      obtain ⟨bytes, -, hdec⟩ := id hat
      obtain ⟨-, -, -, hsorted, -⟩ := CollectionPlan.validate_ok (decodeCollectionPlan_ok hdec).1
      have hmem := (isCollectionCandidate_iff hsorted).1 hany
      obtain ⟨i, hh⟩ := hv.head
      have hplanned : s.Planned view.head.collectionEpoch.toNat key :=
        ⟨i, view.head, view.version, hh, rfl, p, plan, hp, hat, hmem⟩
      obtain ⟨_, _, _, _, _, _, _, _, _, _, _, o, c, hc, hkey⟩ := inv.planned_origin hplanned
      obtain ⟨⟨body, m, hcreated, -⟩, -⟩ := o.candidates c hc
      obtain ⟨j, f, hf, hreq⟩ := (inv.created c.key body m hcreated).request
      exact h.uncreated j f c.key body hf hreq (hkey ▸ hk) (by rw [hkey])

theorem createFresh_limits {kind : ObjectKind} {bytes : Bytes} {len subtree : UInt64}
    {blocked : Option (List CollectionCandidate)} (hB : Fresh ≤ B) :
    ∀ (attempts : Nat) (s : State), Good s → s.DrawOK t → Viewing s log view →
      s.BlockedOK view blocked → L ≤ s.now → (attempts = 0 → s.Taken t L) →
      Runs t B (log.createFresh kind bytes len subtree blocked attempts) (LimitTaken t L) s
  | 0, s, _, _, _, _, _, htaken => by
      refine Runs.throw fun u o _ what hw => ?_
      obtain ⟨⟩ := Except.error.inj hw
      exact ⟨rfl, (htaken rfl).mono o.le⟩
  | attempts + 1, s, g, hd, hv, hblocked, hL, _ => by
      refine Runs.bind le_rfl g (newStorageId_runs (hB _ (.inr rfl)) hd) ?_ nofun
      rintro x u tr gu ⟨x', hx', hu⟩
      obtain rfl := Except.ok.inj hx'
      refine Runs.ite (fun hany => ?_) fun _ => ?_
      · exact absurd hany (State.Unused.unblocked (objectKey log.incarnation _) hu gu.inv
          (hv.mono tr.le) (hblocked.mono tr.le) (objectKey_kind _ _))
      refine Runs.bind le_rfl gu (create_told (reads_fresh.trans hB)
        (hB _ (.inl (.inr ⟨_, _, rfl⟩))) gu fun v tr' gv => ?_) ?_ ?_
      · exact (hu.track tr' gv.inv).may rfl (objectKey_kind _ _)
      · rintro made v tr' gv h
        refine Runs.ite (fun _ => Runs.pure fun _ _ _ => .ok) fun hmade => ?_
        rcases h with ⟨e, he, -⟩ | ⟨made', hm, hanswer⟩
        · cases he
        obtain rfl := Except.ok.inj hm
        obtain rfl : made = false := by simpa using hmade
        have hle := tr.le.trans tr'.le
        exact createFresh_limits hB attempts v gv (hd.mono hle) (hv.mono hle) (hblocked.mono hle)
          (hL.trans hle.now) fun _ => ⟨_, _, hanswer.later (hL.trans tr.le.now)⟩
      · rintro e v - - (⟨e', he', hun⟩ | ⟨_, he', -⟩)
        · rw [Except.error.inj he']
          exact .other hun.other
        · cases he'

/-- A new object with a length of sixty-four bits. -/
theorem createFreshObject_limits {kind : ObjectKind} {bytes : Bytes} {subtree : UInt64}
    {blocked : Option (List CollectionCandidate)} (hB : Fresh ≤ B) (g : Good s) (hd : s.DrawOK t)
    (hv : Viewing s log view) (hblocked : s.BlockedOK view blocked) (hL : L ≤ s.now)
    (hlen : bytes.length ≤ log.options.maxObjectBytes.toNat) :
    Runs t B (log.createFreshObject kind bytes subtree blocked) (LimitTaken t L) s := by
  have hlt : log.options.maxObjectBytes.toNat < 2 ^ 64 := UInt64.toNat_lt _
  refine Runs.liftBind (fun len _ => ?_) fun e _ he _ _ => ?_
  · exact createFresh_limits hB _ s g hd hv hblocked hL fun h => by cases h
  · rw [toU64_eq_some (by omega)] at he
    cases he

/-- Where the stages of a call run. -/
structure Stages (s : State) (t L : Nat) (log : Log) (view : View) : Prop where
  good : Good s
  draw : s.DrawOK t
  viewing : Viewing s log view
  since : L ≤ s.now

theorem Stages.track (h : Stages s t L log view) (tr : Track t B s u) (g : Good u) :
    Stages u t L log view :=
  ⟨g, h.draw.mono tr.le, h.viewing.mono tr.le, h.since.trans tr.le.now⟩

/-- The second half of `put_object` and `put_node`. -/
theorem stage_limits {kind : ObjectKind} {bytes : Bytes} {subtree : UInt64}
    (h : Stages s t L log view) (hlen : bytes.length ≤ log.options.maxObjectBytes.toNat) :
    Runs t Fresh (do
      let blocked ← log.activeCollectionCandidates view
      let object ← log.createFreshObject kind bytes subtree blocked
      return log.stagedObject view object) (LimitTaken t L) s := by
  refine Runs.bind le_rfl h.good (activeCollectionCandidates_runs reads_fresh h.good h.viewing) ?_
    fun e _ _ _ he => .other he.other
  rintro blocked u tr gu hblocked
  have hu := h.track tr gu
  refine Runs.bind le_rfl gu (createFreshObject_limits le_rfl gu hu.draw hu.viewing hblocked
    hu.since hlen) (fun object v _ _ _ => Runs.pure fun _ _ _ => .ok) fun e v _ _ he => he.error

theorem putObject_limits {bytes : Bytes} (h : Stages s t L log view)
    (hlen : bytes.length ≤ log.options.maxObjectBytes.toNat) :
    Runs t Fresh (log.putObject view bytes) (LimitTaken t L) s := by
  refine Runs.liftBind (fun _ _ => ?_) fun e _ he _ _ => ?_
  · refine Runs.liftBind (fun _ _ => stage_limits h hlen) fun e _ he _ _ => ?_
    rw [ensure, if_pos hlen] at he
    cases he
  · rw [h.viewing.checked h.good.inv] at he
    cases he

/-- Children that count one object each are few enough to be counted. -/
theorem subtreeObjects_ones {children : List ObjectRef} (hall : ∀ c ∈ children, c.subtreeObjects = 1)
    (hlt : children.length + 1 < 2 ^ 64) : ∃ n, subtreeObjects children = .ok n := by
  have fold : ∀ (children : List ObjectRef) (total : UInt64),
      (∀ c ∈ children, c.subtreeObjects = 1) → total.toNat + children.length < 2 ^ 64 →
      ∃ n, children.foldlM (fun total child => do
        child.validateCount
        okOr (checkedAdd total child.subtreeObjects) (.limitExceeded "subtree objects")) total =
          (.ok n : Except Error UInt64) := by
    intro children
    induction children with
    | nil => exact fun total _ _ => ⟨total, rfl⟩
    | cons c children ih =>
        intro total hall hlt
        have hone := hall c (by simp)
        rw [List.length_cons] at hlt
        have hcounted : c.validateCount = .ok () := counted_iff.2 (by simp [hone])
        have hadd : checkedAdd total c.subtreeObjects = some (total + 1) := by
          rw [hone]
          exact checkedAdd_eq_some (by simp only [UInt64.toNat_one]; omega)
        obtain ⟨n, hn⟩ := ih (total + 1) (fun d hd => hall d (by simp [hd])) (by
          have := checkedAdd_toNat hadd
          rw [hone, UInt64.toNat_one] at this
          omega)
        refine ⟨n, ?_⟩
        rw [List.foldlM_cons, hcounted]
        change (okOr (checkedAdd total c.subtreeObjects) _ >>= _) = _
        rw [hadd]
        exact hn
  exact fold children 1 hall (by simp only [UInt64.toNat_one]; omega)

/-- Where the children are few, only their proofs can be refused. -/
theorem validateStagedObjects_fails {children : List StagedObject}
    (hview : log.validateView view = .ok ())
    (hcount : children.length ≤ log.options.maxObjectRefs.toNat) :
    Fails (fun e => e = .invalidStagedObject) (log.validateStagedObjects view children) := by
  unfold Log.validateStagedObjects
  rw [hview, ensure, if_pos hcount]
  exact Fails.forM fun c _ => fails_ensure rfl

theorem putNode_limits {payload : Bytes} {children : List StagedObject} {encoded : Bytes}
    (h : Stages s t L log view)
    (hsub : ∃ n, subtreeObjects (children.map StagedObject.object) = .ok n)
    (henc : encodeNode ⟨payload, children.map StagedObject.object⟩ log.options = .ok encoded) :
    Runs t Fresh (log.putNode view payload children) (LimitTaken t L) s := by
  have hcount := (encodeNode_ok.1 henc).1
  rw [List.length_map] at hcount
  obtain ⟨n, hn⟩ := hsub
  refine Runs.liftBind (fun _ _ => ?_) fun e _ he _ _ => ?_
  swap
  · rw [(validateStagedObjects_fails (h.viewing.checked h.good.inv) hcount).error he]
    exact .other fun _ hw => by cases hw
  refine Runs.liftBind (fun _ _ => ?_) fun e _ he _ _ => ?_
  swap
  · rw [hn] at he
    cases he
  refine Runs.liftBind (fun bytes hbytes => ?_) fun e _ he _ _ => ?_
  swap
  · rw [henc] at he
    cases he
  obtain rfl : encoded = bytes := Except.ok.inj (henc.symm.trans hbytes)
  exact stage_limits h (encodeNode_eq henc).2.2.2

/-! ## Writing and finishing -/

variable {writer : ByteWriter} {total : Nat}

/-- The chunks that a write stores are within the limit of an object. -/
theorem writeLoop_limits {len : Nat} (fuel : Nat) (rest : Bytes) (total : Nat)
    (writer : ByteWriter) (s : State) (h : Stages s t L log view)
    (hw : WriterShape log view total writer) :
    Runs t Fresh (ByteWriter.writeLoop len fuel rest writer).run
      (fun r u => ∃ writer' out, r = .ok (writer', out) ∧ LimitTaken t L out u) s := by
  induction fuel generalizing rest total writer s with
  | zero =>
      cases rest with
      | nil => exact Runs.pure fun _ _ _ => ⟨_, _, rfl, .ok⟩
      | cons byte tail =>
          exact Runs.pure fun _ _ _ => ⟨writer, _, rfl, .other fun _ hw => by cases hw⟩
  | succ fuel ih =>
      cases rest with
      | nil => exact Runs.pure fun _ _ _ => ⟨_, _, rfl, .ok⟩
      | cons byte tail =>
          rw [ByteWriter.writeLoop]
          generalize byte :: tail = rest
          have hroom := hw.room
          have htaken := hw.taken
          have hsize := hw.size
          have hmax : log.chunkBytes ≤ log.options.maxObjectBytes.toNat := Nat.min_le_left _ _
          obtain ⟨n, hn⟩ : ∃ n, n = min rest.length (writer.chunkBytes - writer.buffer.length) :=
            ⟨_, rfl⟩
          rw [← hn]
          have hbuffer : (writer.buffer ++ rest.take n).length = writer.buffer.length + n := by
            rw [List.length_append, List.length_take]
            omega
          split
          · rename_i hfull
            have hput : Runs t Fresh (log.putObject view (writer.buffer ++ rest.take n))
                (LimitTaken t L) s := putObject_limits h (by omega)
            rw [← hw.handle, ← hw.shown] at hput
            refine Runs.attemptBind le_rfl h.good (hput.ends putObject_shape) ?_
            intro r u tr gu hr
            obtain ⟨hlimit, hshape⟩ := hr
            cases r with
            | error e => exact Runs.pure fun v o _ => ⟨_, _, rfl, hlimit.error.mono o.le⟩
            | ok child =>
                refine ih (rest.drop n) (total + n) _ u (h.track tr gu)
                  ⟨hw.handle, hw.shown, hw.size, ?_, ?_, ?_⟩
                · intro c hc
                  rcases List.mem_append.1 hc with hc | hc
                  · exact hw.chunks c hc
                  · rw [List.mem_singleton.1 hc]
                    exact ⟨by rw [hshape.1, hfull, hsize], hshape.2⟩
                · dsimp only
                  rw [List.length_append, List.length_singleton, Nat.add_mul, Nat.one_mul,
                    List.length_nil]
                  omega
                · exact Nat.lt_of_le_of_lt (Nat.zero_le _) hroom
          · rename_i hrest
            refine ih (rest.drop n) (total + n) _ s h
              ⟨hw.handle, hw.shown, hw.size, hw.chunks, ?_, ?_⟩
            · dsimp only
              omega
            · dsimp only
              omega

/-- **A write within the capacity meets no limit.** -/
theorem write_limits {data : Bytes} (h : Stages s t L log view)
    (hw : WriterShape log view total writer) (hopen : writer.failed = false)
    (hfits : writer.len + data.length ≤ writer.capacity) (hlt : writer.capacity < 2 ^ 64) :
    Runs t Fresh (writer.write data)
      (fun r u => ∃ writer' out, r = .ok (writer', out) ∧ LimitTaken t L out u) s := by
  unfold ByteWriter.write
  rw [writePolled_within hopen hfits hlt]
  exact writeLoop_limits _ _ total _ s h { hw with }

/-- The chunks of a finished stream: as many as its length asks for, none longer than a
full one. -/
structure StreamChunks (log : Log) (total : Nat) (children : List StagedObject) : Prop where
  count : children.length = count total log.chunkBytes
  each : ∀ c ∈ children, c.object.len.toNat ≤ log.chunkBytes ∧ c.object.subtreeObjects = 1

theorem lastChunk_shape (h : WriterShape log view total writer) :
    Ends A writer.lastChunk (Yields (StreamChunks log total)) := by
  have hroom := h.room
  have htaken := h.taken
  have hold : ∀ c ∈ writer.children,
      c.object.len.toNat ≤ log.chunkBytes ∧ c.object.subtreeObjects = 1 :=
    fun c hc => ⟨(h.chunks c hc).1.le, (h.chunks c hc).2⟩
  unfold ByteWriter.lastChunk
  split
  · rename_i hempty
    rw [hempty, List.length_nil] at htaken
    refine Ends.pure ⟨?_, hold⟩
    rw [← htaken, Nat.add_zero, count_of_full (by omega)]
  · rename_i hsome
    have hpos := List.length_pos_iff.2 hsome
    refine putObject_shape.feed fun child hchild => Ends.pure ⟨?_, fun c hc => ?_⟩
    · rw [List.length_append, List.length_singleton]
      refine (count_of_rest ?_ ?_).symm
      · omega
      · rw [Nat.add_mul, Nat.one_mul]
        omega
    · rcases List.mem_append.1 hc with hc | hc
      · exact hold c hc
      · rw [List.mem_singleton.1 hc, hchild.1]
        exact ⟨hroom.le, hchild.2⟩

theorem lastChunk_limits (h : Stages s t L log view) (hw : WriterShape log view total writer) :
    Runs t Fresh writer.lastChunk (LimitTaken t L) s := by
  have hroom := hw.room
  have hmax : log.chunkBytes ≤ log.options.maxObjectBytes.toNat := Nat.min_le_left _ _
  unfold ByteWriter.lastChunk
  split
  · exact Runs.pure fun _ _ _ => .ok
  · rw [hw.handle, hw.shown]
    refine Runs.bind le_rfl h.good (putObject_limits h (by omega))
      (fun child u _ _ _ => Runs.pure fun _ _ _ => .ok) fun e u _ _ he => he.error

/-- Chunks that are within the capacity need no more than the greatest number that fits. -/
theorem count_le_of_capacity {n : Nat} (hfits : total ≤ n * log.chunkBytes) :
    count total log.chunkBytes ≤ n := by
  by_contra hgt
  have hstart := mul_lt_of_lt_count (Nat.lt_of_not_le hgt)
  omega

/-- **A stream within the capacity can be finished without meeting a limit.** -/
theorem finish_limits {n : Nat} (h : Stages s t L log view)
    (hw : WriterShape log view total writer) (hholds : log.HoldsChunks n)
    (hfits : total ≤ n * log.chunkBytes) :
    Runs t Fresh writer.finish (LimitTaken t L) s := by
  unfold ByteWriter.finish
  refine Runs.ite (fun _ => Runs.throw fun _ _ _ => .other fun _ hw => by cases hw) fun _ => ?_
  refine Runs.bind le_rfl h.good ((lastChunk_limits h hw).ends (lastChunk_shape hw)) ?_ ?_
  swap
  · rintro e u - - ⟨hlimit, -⟩
    exact hlimit.error
  rintro children u tr gu ⟨-, chunks⟩
  split
  · exact Runs.pure fun _ _ _ => .ok
  rw [hw.handle, hw.shown]
  have hcount : children.length ≤ n := by
    rw [chunks.count]
    exact count_le_of_capacity hfits
  have hbound := hholds.bound
  have hmax : log.options.maxObjectBytes.toNat < 2 ^ 64 := UInt64.toNat_lt _
  have hall : ∀ c ∈ children.map StagedObject.object,
      c.len.toNat ≤ log.chunkBytes ∧ c.subtreeObjects = 1 := by
    intro c hc
    obtain ⟨st, hst, rfl⟩ := List.mem_map.1 hc
    exact chunks.each st hst
  obtain ⟨encoded, henc⟩ := hholds.encodes ⟨streamDescriptor writer.len writer.chunkBytes,
    children.map StagedObject.object⟩ (by simp [streamDescriptor, byteStreamTag, descriptorBytes])
    (by simpa using hcount) hall
  refine putNode_limits (h.track tr gu) (subtreeObjects_ones (fun c hc => (hall c hc).2) ?_) henc
  rw [List.length_map]
  omega

end ObjectLog
