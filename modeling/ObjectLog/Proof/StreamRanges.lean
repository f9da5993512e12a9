import ObjectLog.Log.StreamScan
import ObjectLog.Proof.StreamOps

/-!
# The ranges of a byte stream

Length and chunk size of a stream are whatever its descriptor says. The checks of `open_bytes`
tie them to the children: the chunks are as long as the geometry asks, and they reach the end
of the stream. From that every index, difference and range in `read_at` has its bounds, for
the chunk that is read as for the two that are cached.
-/

namespace ObjectLog

open Rely Chunks

variable [Blake3] {A : Answers Effect Reply} {log : Log} {view : View}

/-! ## Machine operations with a result -/

omit [Blake3] in
theorem scanSubtract_ok {a b : Nat} (h : b ≤ a) : Scan.subtract a b = .ok (a - b) := if_pos h

omit [Blake3] in
theorem scanAdd_ok {a b : Nat} (h : a + b < 2 ^ 64) : Scan.add a b = .ok (a + b) := if_pos h

omit [Blake3] in
theorem scanMultiply_ok {a b : Nat} (h : a * b < 2 ^ 64) : Scan.multiply a b = .ok (a * b) :=
  if_pos h

omit [Blake3] in
theorem scanSlice_ok {bytes : Bytes} {start stop : Nat} (h : start ≤ stop)
    (hle : stop ≤ bytes.length) :
    Scan.slice bytes start stop = .ok ((bytes.drop start).take (stop - start)) := if_pos ⟨h, hle⟩

omit [Blake3] in
/-- `div_ceil` is the number of chunks. -/
theorem scanDivCeil_ok {a b : Nat} (ha : a < 2 ^ 64) (hb : b ≠ 0) :
    Scan.divCeil a b = .ok (count a b) := by
  have hpos := Nat.pos_of_ne_zero hb
  have hsplit := Nat.div_add_mod' a b
  have hlt := Nat.mod_lt a hpos
  have hle := Nat.div_le_self a b
  unfold Scan.divCeil Scan.divide
  rw [if_neg hb]
  change (if 0 < a % b then Scan.add (a / b) 1 else .ok (a / b)) = _
  by_cases hrest : 0 < a % b
  · have hle' : a / b * b < a := by omega
    have hquot : a / b < a := lt_of_le_of_lt (Nat.le_mul_of_pos_right _ hpos) hle'
    rw [if_pos hrest, scanAdd_ok (by omega), count_of_rest hle']
    rw [Nat.add_mul, Nat.one_mul]
    omega
  · have hzero : a % b = 0 := by omega
    have hfull : a / b * b = a := by omega
    have hcount := count_of_full (i := a / b) hpos
    rw [hfull] at hcount
    rw [if_neg hrest, hcount]

/-! ## Descriptors -/

omit [Blake3] in
/-- A number of a descriptor has sixty-four bits. -/
theorem scanNumber_ok (descriptor : Bytes) (offset : Nat) (h : offset + 8 ≤ descriptor.length)
    (hlt : offset + 8 < 2 ^ 64) :
    scanNumber descriptor offset = .ok (Cbor.ofBigEndian ((descriptor.drop offset).take 8)) ∧
      Cbor.ofBigEndian ((descriptor.drop offset).take 8) < 2 ^ 64 := by
  have hlen : ((descriptor.drop offset).take 8).length = 8 := by
    rw [List.length_take, List.length_drop]
    omega
  constructor
  · unfold scanNumber
    rw [scanAdd_ok hlt]
    change (Scan.slice descriptor offset (offset + 8) >>= _) = _
    rw [scanSlice_ok (Nat.le_add_right _ _) h, Nat.add_sub_cancel_left]
    change (if _ then _ else _) = _
    rw [if_neg (by rw [hlen]; simp)]
    rfl
  · have hval := Cbor.ofBigEndian_lt ((descriptor.drop offset).take 8)
    rw [hlen] at hval
    exact hval

omit [Blake3] in
/-- The check of one child has a result where the chunk starts inside the stream. -/
theorem scanChunk_ok {len chunkBytes : Nat} {entry : ObjectRef × Nat} (hlen : len < 2 ^ 64)
    (h : entry.2 * chunkBytes ≤ len) : scanChunk len chunkBytes entry =
      (ensure (entry.1.kind = .blob ∧
        entry.1.len.toNat = min (len - entry.2 * chunkBytes) chunkBytes)
        invalidByteStream).mapError Fault.error := by
  unfold scanChunk
  rw [scanMultiply_ok (by omega)]
  change (Scan.subtract len _ >>= _) = _
  rw [scanSubtract_ok h]
  change (if _ then _ else _) = _
  unfold ensure
  split
  · rename_i hbad
    rw [if_neg (by tauto)]
    rfl
  · rename_i hgood
    rw [if_pos (by tauto)]
    rfl

omit [Blake3] in
/-- Checks one after the other are one check. -/
theorem forM_ensure {α : Type} {P : α → Prop} [DecidablePred P] {f : α → Except Fault Unit}
    {e : Error} (xs : List α) (h : ∀ x ∈ xs, f x = (ensure (P x) e).mapError Fault.error) :
    xs.forM f = (ensure (∀ x ∈ xs, P x) e).mapError Fault.error := by
  induction xs with
  | nil => rw [ensure, if_pos (by simp)]; rfl
  | cons x xs ih =>
      change (f x >>= fun _ => xs.forM f) = _
      rw [h x (by simp), ih fun y hy => h y (by simp [hy])]
      unfold ensure
      by_cases hx : P x
      · rw [if_pos hx]
        change (Except.mapError Fault.error (if _ then _ else _)) = _
        congr 1
        exact if_congr (by simp [hx]) rfl rfl
      · have hall : ¬ ∀ y ∈ x :: xs, P y := fun hall => hx (hall x (by simp))
        rw [if_neg hx, if_neg hall]
        rfl

omit [Blake3] in
theorem mapError_then {α β : Type} (x : Except Error α) (b : β) :
    (x.mapError Fault.error >>= fun _ => .ok b) =
      (x >>= fun _ => (.ok b : Except Error β)).mapError Fault.error := by
  cases x <;> rfl

omit [Blake3] in
/-- **Checking a descriptor has no fault**, and the checks of `Log.byteStream` are the same. -/
theorem scanByteStream_eq (log : Log) (node : Node) :
    log.scanByteStream node = (log.byteStream node).mapError Fault.error := by
  unfold Log.scanByteStream Log.byteStream
  by_cases hlen : node.payload.length = descriptorBytes
  swap
  · rw [if_pos hlen, ensure, if_neg (by tauto)]
    rfl
  have h24 : node.payload.length = 24 := hlen
  rw [if_neg (by simp [hlen])]
  change (Scan.slice node.payload 0 8 >>= _) = _
  rw [scanSlice_ok (by omega) (by omega), List.drop_zero]
  by_cases htag : node.payload.take 8 = byteStreamTag
  swap
  · change (if _ then _ else _) = _
    rw [if_pos htag, ensure, if_neg (by tauto)]
    rfl
  change (if _ then _ else _) = _
  rw [if_neg (by simpa using htag), ensure, if_pos ⟨hlen, htag⟩]
  obtain ⟨hnum, hlt⟩ := scanNumber_ok node.payload 8 (by omega) (by omega)
  obtain ⟨hnum', -⟩ := scanNumber_ok node.payload 16 (by omega) (by omega)
  rw [hnum]
  change (scanNumber node.payload 16 >>= _) = _
  rw [hnum']
  change (if _ then _ else _) = Except.mapError Fault.error (ensure _ _ >>= _)
  generalize Cbor.ofBigEndian ((node.payload.drop 8).take 8) = len at hlt ⊢
  generalize Cbor.ofBigEndian ((node.payload.drop 16).take 8) = chunkBytes
  by_cases hzero : chunkBytes = 0
  · rw [if_pos hzero, ensure, if_neg fun h : chunkBytes ≠ 0 ∧ _ => h.1 hzero]
    rfl
  rw [if_neg hzero]
  change (if _ then _ else _) = _
  by_cases hmax : min log.options.maxObjectBytes.toNat maxChunkBytes < chunkBytes
  · rw [if_pos hmax, ensure, if_neg (by omega)]
    rfl
  rw [if_neg hmax]
  change (Scan.divCeil len chunkBytes >>= _) = _
  rw [scanDivCeil_ok hlt hzero]
  change (if _ then _ else _) = _
  by_cases hcount : count len chunkBytes = node.children.length
  swap
  · rw [if_pos hcount, ensure, if_neg fun h => hcount h.2.2]
    rfl
  rw [if_neg (by simpa using hcount), ensure, if_pos ⟨hzero, by omega, hcount⟩]
  -- a child that is listed starts inside the stream
  have hstart : ∀ entry ∈ node.children.zipIdx, entry.2 * chunkBytes ≤ len := by
    intro entry hentry
    have hget := List.mem_zipIdx_iff_getElem?.1 hentry
    have hidx := (List.getElem?_eq_some_iff.1 hget).1
    rw [← hcount] at hidx
    exact (mul_lt_of_lt_count hidx).le
  change (node.children.zipIdx.forM (scanChunk len chunkBytes) >>= _) = _
  rw [forM_ensure _ fun entry hentry => scanChunk_ok hlt (hstart entry hentry)]
  exact mapError_then _ _

omit [Blake3] in
/-- What an accepted descriptor says of the children. -/
theorem byteStream_geometry {node : Node} {len chunkBytes : Nat}
    (h : log.byteStream node = .ok (len, chunkBytes)) :
    chunkBytes ≠ 0 ∧ node.children.length = count len chunkBytes ∧
    ∀ (i : Nat) child, node.children[i]? = some child → child.kind = .blob ∧
      child.len.toNat = min (len - i * chunkBytes) chunkBytes := by
  simp only [Log.byteStream, bind_ok, ensure_ok, pure, Except.pure, Except.ok.injEq,
    Prod.mk.injEq] at h
  obtain ⟨⟨⟩, -, ⟨⟩, ⟨hzero, -, hcount⟩, ⟨⟩, hall, rfl, rfl⟩ := h
  refine ⟨hzero, hcount.symm, fun i child hchild => ?_⟩
  exact hall (child, i) (List.mem_zipIdx_iff_getElem?.2 hchild)

/-! ## Readers -/

/-- A cached chunk is as long as its reference declares. -/
def CachedAs (children : List ObjectRef) (cached : Option (Nat × Bytes)) : Prop :=
  ∀ i bytes, cached = some (i, bytes) →
    ∃ child, children[i]? = some child ∧ bytes.length = child.len.toNat

/-- The geometry of a reader: its chunks have the lengths that its length and chunk size ask
for, and reach its end. -/
structure ReaderShape (reader : ByteReader) : Prop where
  pos : 0 < reader.len → 0 < reader.chunkBytes
  lens : ∀ (i : Nat) child, reader.children[i]? = some child →
    child.len.toNat = min (reader.len - i * reader.chunkBytes) reader.chunkBytes
  reach : reader.len ≤ reader.children.length * reader.chunkBytes
  first : CachedAs reader.children reader.cached.1
  second : CachedAs reader.children reader.cached.2

theorem ReadsAs.length {object : ObjectRef} {bytes : Bytes} (h : ReadsAs A log object bytes) :
    bytes.length = object.len.toNat := (verifyObject_ok.1 h.verified).2.1

/-- **A reader that is opened has a sound geometry**, whatever was stored. -/
theorem openBytes_shape {root : ObjectRef} :
    Ends A (log.openBytes view root) (Yields ReaderShape) := by
  unfold Log.openBytes
  by_cases hkind : root.kind = .blob
  · rw [if_pos hkind]
    refine Ends.feedLift fun _ _ => Ends.feedLift fun _ _ => ?_
    dsimp only
    split
    · exact Ends.throw trivial
    rename_i hfits
    refine readObject_answered.feed fun bytes hbytes => Ends.pure ?_
    refine ⟨fun hlen => by dsimp only at hlen ⊢; omega, fun i child hchild => ?_, ?_, ?_, nofun⟩
    · obtain ⟨hi, rfl⟩ := List.getElem?_eq_some_iff.1 hchild
      simp only [List.length_singleton, Nat.lt_one_iff] at hi
      subst hi
      simp only [List.getElem_cons_zero]
      omega
    · simp only [List.length_singleton]
      omega
    · intro i data hcached
      obtain ⟨rfl, rfl⟩ := Prod.mk.inj (Option.some.inj hcached)
      exact ⟨root, rfl, hbytes.2.length⟩
  · rw [if_neg hkind]
    refine readNode_answered.feed fun node _ => Ends.feedLift fun geometry hgeometry => ?_
    obtain ⟨len, chunkBytes⟩ := geometry
    obtain ⟨hzero, hcount, hlens⟩ := byteStream_geometry hgeometry
    have hpos := Nat.pos_of_ne_zero hzero
    refine Ends.pure ⟨fun _ => hpos, fun i child hchild => (hlens i child hchild).2, ?_, nofun, nofun⟩
    dsimp only
    rw [hcount]
    exact length_le_count_mul hpos

variable {reader : ByteReader} {offset maxLen : Nat}

omit [Blake3] in
/-- The chunk at an offset is listed, and the offset is inside it. -/
theorem ReaderShape.chunk (h : ReaderShape reader) (offset : Nat) (hlt : offset < reader.len) :
    0 < reader.chunkBytes ∧ offset / reader.chunkBytes < reader.children.length ∧
    ∀ child, reader.children[offset / reader.chunkBytes]? = some child →
      offset % reader.chunkBytes < child.len.toNat := by
  have hpos := h.pos (by omega)
  have hsplit := Nat.div_add_mod' offset reader.chunkBytes
  have hmod := Nat.mod_lt offset hpos
  refine ⟨hpos, ?_, fun child hchild => ?_⟩
  · rw [Nat.div_lt_iff_lt_mul hpos]
    exact lt_of_lt_of_le hlt h.reach
  · rw [h.lens _ child hchild]
    omega

omit [Blake3] in
/-- A chunk that is found in a cache is that of its reference. -/
theorem ReaderShape.lookup {reader' : ByteReader} {index : Nat} {bytes : Bytes}
    (h : ReaderShape reader) (hl : reader.lookup index = some (reader', bytes)) :
    ReaderShape reader' ∧ reader'.len = reader.len ∧
      ∃ child, reader.children[index]? = some child ∧ bytes.length = child.len.toNat := by
  unfold ByteReader.lookup at hl
  split at hl
  · rename_i i data hfirst
    obtain ⟨rfl, rfl⟩ := Prod.mk.inj (Option.some.inj hl)
    obtain ⟨hcached, hi⟩ := Option.filter_eq_some_iff.1 hfirst
    obtain rfl : i = index := by simpa using hi
    exact ⟨h, rfl, h.first _ _ hcached⟩
  · rename_i i data _ hsecond
    obtain ⟨rfl, rfl⟩ := Prod.mk.inj (Option.some.inj hl)
    obtain ⟨hcached, hi⟩ := Option.filter_eq_some_iff.1 hsecond
    obtain rfl : i = index := by simpa using hi
    exact ⟨{ h with first := h.second, second := h.first }, rfl, h.second _ _ hcached⟩
  · cases hl

omit [Blake3] in
/-- The range that `read_at` returns has its bounds, and is not empty. -/
theorem scanSlice_eq {bytes : Bytes} {start : Nat} (h : start < bytes.length)
    (hlt : bytes.length < 2 ^ 64) :
    scanSlice bytes start maxLen = .ok (byteSlice bytes start maxLen) := by
  unfold scanSlice
  rw [scanSubtract_ok h.le]
  change (Scan.add start _ >>= _) = _
  rw [scanAdd_ok (by omega)]
  change Scan.slice bytes start _ = _
  rw [scanSlice_ok (by omega) (by omega), Nat.add_sub_cancel_left]
  have htake : (bytes.drop start).take (min maxLen (bytes.length - start)) =
      (bytes.drop start).take maxLen := by
    rw [List.take_eq_take_iff, List.length_drop]
    omega
  rw [htake]
  rfl

omit [Blake3] in
theorem byteSlice_ne_nil {bytes : Bytes} {start : Nat} (h : start < bytes.length)
    (hmax : maxLen ≠ 0) : byteSlice bytes start maxLen ≠ [] := by
  unfold byteSlice
  intro hnil
  have hlen := congrArg List.length hnil
  rw [List.length_take, List.length_drop, List.length_nil] at hlen
  omega

/-- **`read_at` has no fault.** -/
theorem scanAt_eq (h : ReaderShape reader) (offset maxLen : Nat) :
    reader.scanAt offset maxLen = (do
      let (reader, r) ← reader.readAt offset maxLen
      return (reader, r.mapError Fault.error)) := by
  unfold ByteReader.scanAt ByteReader.readAt
  split
  · rfl
  rename_i hin
  obtain ⟨hpos, hidx, hinside⟩ := h.chunk offset (by omega)
  unfold Scan.divide
  rw [if_neg (by omega)]
  dsimp only
  cases hl : reader.lookup (offset / reader.chunkBytes) with
  | some found =>
      obtain ⟨reader', bytes⟩ := found
      obtain ⟨-, -, child, hchild, hbytes⟩ := h.lookup hl
      have hstart := hinside child hchild
      have hlt : child.len.toNat < 2 ^ 64 := UInt64.toNat_lt _
      dsimp only
      rw [scanSlice_eq (by omega) (by omega)]
      rfl
  | none =>
      have hget := List.getElem?_eq_getElem hidx
      generalize reader.children[offset / reader.chunkBytes] = child at hget
      have hstart := hinside child hget
      have hlt : child.len.toNat < 2 ^ 64 := UInt64.toNat_lt _
      dsimp only
      unfold Scan.index
      rw [hget]
      dsimp only
      rw [bind_assoc]
      refine Ends.attempt_congr readObject_answered fun r hr => ?_
      cases r with
      | error e => rfl
      | ok bytes =>
          have hbytes := hr.2.length
          dsimp only
          rw [scanSlice_eq (by omega) (by omega)]
          rfl

/-- How a `read_at` inside the stream ends: with some bytes, or with the error of the read of
the chunk. -/
def ReadsSome (A : Answers Effect Reply) (reader : ByteReader) (offset : Nat) :
    Except Error Bytes → Prop
  | .ok bytes => bytes ≠ []
  | .error e => ∃ child, reader.children[offset / reader.chunkBytes]? = some child ∧
      (reader.log.readObject reader.view child).Reaches A (.done (.error e))

/-- **`read_at` keeps the geometry**, and inside the stream it makes progress. -/
theorem readAtPolled_shape (h : ReaderShape reader) (offset maxLen : Nat) :
    (reader.readAtPolled offset maxLen).Keeps A ReaderShape fun reader' r =>
      ReaderShape reader' ∧ (maxLen ≠ 0 → offset < reader.len → ReadsSome A reader offset r) := by
  unfold ByteReader.readAtPolled
  split
  · exact ⟨h, fun hmax hlt => by omega⟩
  rename_i hin
  obtain ⟨hpos, hidx, hinside⟩ := h.chunk offset (by omega)
  have hreleased : ReaderShape { reader with cached := (reader.cached.1, none) } :=
    { h with second := nofun }
  dsimp only
  split
  · rename_i reader' bytes hl
    obtain ⟨hshape, -, child, hchild, hbytes⟩ := h.lookup hl
    have hstart := hinside child hchild
    exact ⟨hshape, fun hmax _ => byteSlice_ne_nil (by omega) hmax⟩
  · split
    · rename_i hnone
      rw [List.getElem?_eq_none_iff] at hnone
      omega
    · rename_i child hchild
      have hstart := hinside child hchild
      refine ⟨hreleased, (readObject_answered.and Ends.reachable).mono ?_⟩
      rintro r ⟨hr, hreach⟩
      cases r with
      | error e => exact ⟨hreleased, fun _ _ => ⟨child, hchild, hreach⟩⟩
      | ok bytes =>
          have hbytes := hr.2.length
          refine ⟨{ h with first := ?_, second := h.first }, fun hmax _ => ?_⟩
          · intro i data hcached
            obtain ⟨rfl, rfl⟩ := Prod.mk.inj (Option.some.inj hcached)
            exact ⟨child, hchild, hbytes⟩
          · exact byteSlice_ne_nil (by omega) hmax

end ObjectLog
