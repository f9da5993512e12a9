import ObjectLog.Location
import ObjectLog.Proof.RoundTrip

/-!
# Physical keys and listed paths

A key is stored at one path and a listed path names at most one key, so that what a listing
selects is what is deleted. Different logs under one root share no path.
-/

namespace ObjectLog

/-! ## Texts -/

theorem hexValue_hexDigit : ∀ n < 16, hexValue (hexDigit n) = some n := by decide

theorem hexDecode_hexEncode (bytes : Bytes) : hexDecode (hexEncode bytes) = some bytes := by
  induction bytes with
  | nil => rfl
  | cons b rest ih =>
      have hlt := b.toNat_lt
      show (do
        let h ← hexValue (hexDigit (b.toNat / 16))
        let l ← hexValue (hexDigit (b.toNat % 16))
        return UInt8.ofNat (16 * h + l) :: (← hexDecode (hexEncode rest))) = _
      rw [hexValue_hexDigit _ (by omega), hexValue_hexDigit _ (by omega), ih]
      show some (UInt8.ofNat (16 * (b.toNat / 16) + b.toNat % 16) :: rest) = _
      rw [Nat.div_add_mod, UInt8.ofNat_toNat]

theorem Uuid.ofBigEndian_toBytes (u : Uuid) :
    (Fin.ofNat _ (Cbor.ofBigEndian (Uuid.toBytes u)) : Uuid) = u := by
  have h := uuidOf_toBytes u ""
  rw [uuidOf, if_pos (Uuid.toBytes_length u)] at h
  exact Except.ok.inj h

theorem Digest.ofBigEndian_toBytes (d : Digest) :
    (⟨Fin.ofNat _ (Cbor.ofBigEndian d.toBytes)⟩ : Digest) = d := by
  have h := digestOf_toBytes d
  rw [digestOf, if_pos (Digest.toBytes_length d)] at h
  exact Except.ok.inj h

theorem parseSimpleUuid_iff {value : Bytes} {u : Uuid} :
    parseSimpleUuid value = some u ↔ value = Uuid.simple u := by
  constructor
  · intro h
    simp only [parseSimpleUuid, Option.bind_eq_bind, Option.bind_eq_some_iff, pure,
      Option.ite_none_right_eq_some, Option.some.injEq] at h
    obtain ⟨v, -, heq, rfl⟩ := h
    exact heq.symm
  · intro h
    rw [h]
    have hlen : (Uuid.simple u).length = 32 := by
      rw [Uuid.simple, hexEncode_length, Uuid.toBytes_length]
    have hdigits : Uuid.parseDigits (Uuid.simple u) = some u := by
      simp only [Uuid.parseDigits, Uuid.simple, hexDecode_hexEncode, Option.bind_eq_bind,
        Option.bind_some, Uuid.toBytes_length, if_true, Uuid.ofBigEndian_toBytes, pure]
    have hparse : Uuid.parseStr (Uuid.simple u) = some u := by
      simp only [Uuid.parseStr, hlen, hdigits]
    simp only [parseSimpleUuid, hparse, Option.bind_eq_bind, Option.bind_some, if_true, pure]

theorem Digest.fromStr_toText (d : Digest) : Digest.fromStr d.toText = .ok d := by
  simp only [Digest.fromStr, Digest.toText, hexDecode_hexEncode, okOr, bind, Except.bind,
    Digest.toBytes_length, if_true, Digest.ofBigEndian_toBytes, pure, Except.pure]

theorem ImmutableKind.fromSegment_iff {value : Bytes} {k : ImmutableKind} :
    ImmutableKind.fromSegment value = some k ↔ value = textBytes k.segment := by
  constructor
  · intro h
    unfold ImmutableKind.fromSegment at h
    split_ifs at h with h1 h2 h3 h4 h5
    all_goals
      obtain rfl := Option.some.inj h
      assumption
  · rintro rfl
    cases k <;> decide

/-! ## Keys -/

theorem data_segment : textBytes "data" ≠ [] ∧ pathDelimiter ∉ textBytes "data" := by
  decide

/-- The segments of a key behind the scope. -/
def keySegments (key : ImmutableKey) : List Segment :=
  [textSegment "data" data_segment, Uuid.toSegment key.incarnation, key.kind.toSegment,
    Uuid.toSegment key.storageId.uuid, key.digest.toSegment]

theorem immutableLocation_segments (scope : Location) (key : ImmutableKey) :
    (immutableLocation scope key).segments = scope.segments ++ keySegments key := by
  simp only [immutableLocation, Paths.Path.join, keySegments, List.append_assoc, List.cons_append,
    List.nil_append]

theorem keySegments_texts (key : ImmutableKey) : (keySegments key).map Paths.Segment.text =
    [textBytes "data", Uuid.simple key.incarnation, textBytes key.kind.segment,
      Uuid.simple key.storageId.uuid, key.digest.toText] := by
  simp only [keySegments, List.map_cons, List.map_nil, textSegment, Uuid.toSegment,
    ImmutableKind.toSegment, Digest.toSegment]

theorem nextPart_eq_some {parts rest : List Bytes} {part : Bytes} :
    nextPart parts = some (part, rest) ↔ parts = part :: rest := by
  cases parts <;> simp [nextPart]

theorem guard_eq_some {p : Prop} [Decidable p] {u : Unit} :
    (guard p : Option Unit) = some u ↔ p := by
  unfold guard
  split <;> simp [*]

/-- The parts of a path name the key whose texts they are. -/
theorem classifyParts_iff {parts : List Bytes} {key : ImmutableKey} :
    classifyParts parts = some key ↔ parts = (keySegments key).map Paths.Segment.text := by
  unfold classifyParts
  simp only [Option.bind_eq_bind, Option.bind_eq_some_iff, Prod.exists, nextPart_eq_some,
    guard_eq_some, parseSimpleUuid_iff, ImmutableKind.fromSegment_iff, exists_const, pure,
    Option.some.injEq]
  constructor
  · intro h
    obtain ⟨data, p₁, h₁, hdata, inc, p₂, h₂, incarnation, hinc, kind, p₃, h₃, k, hk, sid, p₄, h₄,
      storageId, hsid, text, p₅, h₅, hnil, digest, -, htext, hkey⟩ := h
    rw [h₁, h₂, h₃, h₄, h₅, hnil, hdata, hinc, hk, hsid, ← htext, ← hkey, keySegments_texts]
  · intro h
    rw [h]
    have hdigest : (Digest.fromStr key.digest.toText).toOption = some key.digest := by
      rw [Digest.fromStr_toText]
      rfl
    rw [keySegments_texts]
    exact ⟨_, _, rfl, rfl, _, _, rfl, _, rfl, _, _, rfl, _, rfl, _, _, rfl, _, rfl, _, _, rfl, rfl, _,
      hdigest, rfl, rfl⟩

/-- **A path is classified as a key exactly when it is the path of that key.** -/
theorem classifyImmutable_iff {scope listed : Location} {key : ImmutableKey} :
    classifyImmutable scope listed = some key ↔ listed = immutableLocation scope key := by
  constructor
  · intro h
    obtain ⟨parts, hmatch, hparts⟩ := Option.bind_eq_some_iff.1 h
    obtain ⟨rest, hsegments, rfl⟩ := Paths.Path.prefixMatch_eq_some.1 hmatch
    have hrest := classifyParts_iff.1 hparts
    have hsame := List.map_injective_iff.2 Paths.Segment.text_injective hrest
    refine Paths.Path.ext ?_
    rw [hsegments, hsame, immutableLocation_segments]
  · rintro rfl
    refine Option.bind_eq_some_iff.2 ⟨_, ?_, classifyParts_iff.2 rfl⟩
    exact Paths.Path.prefixMatch_append (immutableLocation_segments scope key)

/-! ## Logs -/

theorem logScope_segments (root : Location) (logId : LogId) : (logScope root logId).segments =
    root.segments ++ [textSegment "v1" (by decide), textSegment "logs" (by decide),
      logId.toSegment] := by
  simp only [logScope, Paths.Path.join, List.append_assoc, List.cons_append, List.nil_append]

/-- Every object of a log is behind its scope. -/
theorem location_segments (scope : Location) (key : StoreKey) :
    ∃ rest, (location scope key).segments = scope.segments ++ rest := by
  cases key with
  | head => exact ⟨_, rfl⟩
  | immutable key => exact ⟨_, immutableLocation_segments scope key⟩

/-- Two logs with a path in common are one. -/
theorem logScope_disjoint {root : Location} {l l' : LogId} {rest rest' : List Segment}
    (h : (logScope root l).segments ++ rest = (logScope root l').segments ++ rest') : l = l' := by
  rw [logScope_segments, logScope_segments, List.append_assoc, List.append_assoc,
    List.append_cancel_left_eq] at h
  simp only [List.cons_append, List.nil_append, List.cons.injEq, true_and] at h
  have htext : l.value = l'.value := congrArg Paths.Segment.text h.1
  cases l
  cases l'
  cases htext
  rfl

/-- **Keys and paths correspond one to one, and logs are disjoint.** -/
theorem locations_one_to_one (root : Location) (logId : LogId) :
    (∀ key, classifyImmutable (logScope root logId)
      (immutableLocation (logScope root logId) key) = some key) ∧
    (∀ listed key, classifyImmutable (logScope root logId) listed = some key →
      immutableLocation (logScope root logId) key = listed) ∧
    classifyImmutable (logScope root logId) (location (logScope root logId) .head) = none ∧
    ∀ other, other ≠ logId → ∀ key : StoreKey,
      classifyImmutable (logScope root logId) (location (logScope root other) key) = none ∧
      ∀ key', location (logScope root other) key ≠ location (logScope root logId) key' := by
  refine ⟨fun key => classifyImmutable_iff.2 rfl, fun listed key h => ?_, ?_, ?_⟩
  · exact (classifyImmutable_iff.1 h).symm
  · -- the head is no directory
    rw [Option.eq_none_iff_forall_ne_some]
    intro key h
    have hsegments := congrArg Paths.Path.segments (classifyImmutable_iff.1 h)
    rw [immutableLocation_segments] at hsegments
    have hlen := congrArg List.length hsegments
    simp [location, Paths.Path.join, keySegments] at hlen
  · intro other hne key
    have hdistinct : ∀ key', location (logScope root other) key ≠
        location (logScope root logId) key' := by
      intro key' h
      obtain ⟨rest, hrest⟩ := location_segments (logScope root other) key
      obtain ⟨rest', hrest'⟩ := location_segments (logScope root logId) key'
      rw [h, hrest'] at hrest
      exact hne (logScope_disjoint hrest.symm)
    refine ⟨?_, hdistinct⟩
    rw [Option.eq_none_iff_forall_ne_some]
    intro key' h
    exact hdistinct (.immutable key') (classifyImmutable_iff.1 h)

end ObjectLog
