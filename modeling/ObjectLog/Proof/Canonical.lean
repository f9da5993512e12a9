import ObjectLog.Handles
import ObjectLog.Proof.RoundTripPlan

/-!
# One encoding for one value

The other half of the codecs: what a decoder accepts is what the encoder would write for
the value it returns. A hand-written decoder is taken apart read by read. Every exact read
says which bytes were in front of the input, and the pieces add up to the encoding. A
derived decoder is followed by a comparison with the re-encoded wire record, so there the
work is in the conversions: a wire record that converts to a value is the record of it.
-/

namespace ObjectLog

open Cbor

/-! ## Identities -/

theorem uuidOf_ok {value : Bytes} {name : String} {u : Uuid} (h : uuidOf value name = .ok u) :
    Uuid.toBytes u = value := by
  unfold uuidOf at h
  split at h
  case isTrue hlen =>
    obtain rfl := Except.ok.inj h
    have hlt := ofBigEndian_lt value
    rw [hlen] at hlt
    have hval : (Fin.ofNat (2 ^ 128) (ofBigEndian value)).val = ofBigEndian value :=
      Nat.mod_eq_of_lt (hlt.trans_eq (by decide))
    rw [Uuid.toBytes, hval, ← hlen, bigEndian_ofBigEndian]
  case isFalse => cases h

theorem digestOf_ok {value : Bytes} {d : Digest} (h : digestOf value = .ok d) :
    d.toBytes = value := by
  unfold digestOf at h
  split at h
  case isTrue hlen =>
    obtain rfl := Except.ok.inj h
    have hlt := ofBigEndian_lt value
    rw [hlen] at hlt
    have hval : (Fin.ofNat (2 ^ 256) (ofBigEndian value)).val = ofBigEndian value :=
      Nat.mod_eq_of_lt (hlt.trans_eq (by decide))
    rw [Digest.toBytes, hval, ← hlen, bigEndian_ofBigEndian]
  case isFalse => cases h

theorem transactionIdOf_ok {value : Bytes} {t : TransactionId}
    (h : transactionIdOf value = .ok t) : Uuid.toBytes t.uuid = value := by
  obtain ⟨u, hu, ht⟩ := bind_ok.1 h
  obtain rfl := Except.ok.inj ht
  exact uuidOf_ok hu

theorem storageIdOf_ok {value : Bytes} {i : StorageId} (h : storageIdOf value = .ok i) :
    Uuid.toBytes i.uuid = value := by
  obtain ⟨u, hu, hi⟩ := bind_ok.1 h
  obtain rfl := Except.ok.inj hi
  exact uuidOf_ok hu

theorem LogId.new_ok {value : Bytes} {l : LogId} (h : LogId.new value = .ok l) :
    l.value = value := by
  unfold LogId.new at h
  split at h
  · obtain rfl := Except.ok.inj h
    rfl
  · cases h

/-! ## Lists and options of records -/

theorem mapM_ofWire {α β : Type} {f : α → β} {g : β → Except Error α}
    (hg : ∀ w a, g w = .ok a → f a = w) {ws : List β} {xs : List α} (h : ws.mapM g = .ok xs) :
    xs.map f = ws := by
  induction ws generalizing xs with
  | nil =>
      obtain rfl := Except.ok.inj h
      rfl
  | cons w ws ih =>
      rw [List.mapM_cons] at h
      obtain ⟨a, ha, h⟩ := bind_ok.1 h
      obtain ⟨rest, hrest, h⟩ := bind_ok.1 h
      obtain rfl := Except.ok.inj h
      rw [List.map_cons, hg w a ha, ih hrest]

theorem option_mapM_ofWire {α β : Type} {f : α → β} {g : β → Except Error α}
    (hg : ∀ w a, g w = .ok a → f a = w) {w : Option β} {x : Option α} (h : w.mapM g = .ok x) :
    x.map f = w := by
  cases w with
  | none =>
      obtain rfl := Except.ok.inj h
      rfl
  | some w =>
      rw [Option.mapM_some] at h
      obtain ⟨a, ha, h⟩ := bind_ok.1 h
      obtain rfl := Except.ok.inj h
      rw [Option.map_some, hg w a ha]

/-- Every item of a converted list comes from one of the list. -/
theorem mapM_mem {α β : Type} {g : β → Except Error α} {ws : List β} {xs : List α}
    (h : ws.mapM g = .ok xs) : ∀ x ∈ xs, ∃ w ∈ ws, g w = .ok x := by
  induction ws generalizing xs with
  | nil =>
      obtain rfl := Except.ok.inj h
      nofun
  | cons w ws ih =>
      rw [List.mapM_cons] at h
      obtain ⟨a, ha, h⟩ := bind_ok.1 h
      obtain ⟨rest, hrest, h⟩ := bind_ok.1 h
      obtain rfl := Except.ok.inj h
      intro x hx
      rcases List.mem_cons.1 hx with rfl | hx
      · exact ⟨w, by simp, ha⟩
      · obtain ⟨w', hw', hx'⟩ := ih hrest x hx
        exact ⟨w', by simp [hw'], hx'⟩

/-! ## References -/

theorem CommitRef.ofWire_ok {w : CommitRefWire} {c : CommitRef} (h : CommitRef.ofWire w = .ok c) :
    c.toWire = w := by
  obtain ⟨t, ht, h⟩ := bind_ok.1 h
  obtain ⟨i, hi, h⟩ := bind_ok.1 h
  obtain ⟨d, hd, h⟩ := bind_ok.1 h
  obtain rfl := Except.ok.inj h
  rw [CommitRef.toWire, transactionIdOf_ok ht, storageIdOf_ok hi, digestOf_ok hd]

theorem ObjectRef.ofWire_ok {w : ObjectRefWire} {r : ObjectRef} (h : ObjectRef.ofWire w = .ok r) :
    r.toWire = w ∧ r.Counted := by
  -- the part after the kind is the same for every kind
  have rest : ∀ kind : ObjectKind, kind.wire = w.kind → (do
      let storageId ← storageIdOf w.storageId
      let digest ← digestOf w.digest
      let object : ObjectRef :=
        { kind, storageId, digest, len := w.len, subtreeObjects := w.subtreeObjects }
      object.validateCount
      return object : Except Error ObjectRef) = .ok r → r.toWire = w ∧ r.Counted := by
    intro kind hkind h
    obtain ⟨i, hi, h⟩ := bind_ok.1 h
    obtain ⟨d, hd, h⟩ := bind_ok.1 h
    obtain ⟨⟨⟩, hc, h⟩ := bind_ok.1 h
    obtain rfl := Except.ok.inj h
    refine ⟨?_, hc⟩
    rw [ObjectRef.toWire, hkind, storageIdOf_ok hi, digestOf_ok hd]
  unfold ObjectRef.ofWire at h
  split at h
  case h_1 hk => exact rest .blob hk.symm h
  case h_2 hk => exact rest .checkpoint hk.symm h
  case h_3 hk => exact rest .node hk.symm h
  case h_4 => cases h

theorem CheckpointRef.ofWire_ok {w : CheckpointRefWire} {c : CheckpointRef}
    (h : CheckpointRef.ofWire w = .ok c) : c.toWire = w ∧ c.object.Counted := by
  obtain ⟨o, ho, h⟩ := bind_ok.1 h
  obtain ⟨r, hr, h⟩ := bind_ok.1 h
  obtain ⟨⟨⟩, -, h⟩ := bind_ok.1 h
  obtain ⟨d, hd, h⟩ := bind_ok.1 h
  obtain rfl := Except.ok.inj h
  obtain ⟨hwire, hc⟩ := ObjectRef.ofWire_ok hr
  refine ⟨?_, hc⟩
  rw [CheckpointRef.toWire, digestOf_ok hd, hwire, ← okOr_ok.1 ho]

theorem objectRefs_ofWire_ok {ws : List ObjectRefWire} {refs : List ObjectRef}
    (h : ws.mapM ObjectRef.ofWire = .ok refs) :
    refs.map ObjectRef.toWire = ws ∧ ∀ r ∈ refs, r.Counted := by
  refine ⟨mapM_ofWire (fun w r hr => (ObjectRef.ofWire_ok hr).1) h, fun r hr => ?_⟩
  obtain ⟨w, -, hw⟩ := mapM_mem h r hr
  exact (ObjectRef.ofWire_ok hw).2

/-! ## Taking a decoder apart -/

namespace Dec

variable {α β : Type} {input rest : Bytes}

theorem bind_ok {d : Dec α} {f : α → Dec β} {b : β} :
    (d >>= f) input = .ok (b, rest) ↔
      ∃ a mid, d input = .ok (a, mid) ∧ f a mid = .ok (b, rest) := by
  change (d input >>= fun p => f p.1 p.2) = _ ↔ _
  rw [ObjectLog.bind_ok]
  constructor
  · rintro ⟨⟨a, mid⟩, hd, hf⟩
    exact ⟨a, mid, hd, hf⟩
  · rintro ⟨a, mid, hd, hf⟩
    exact ⟨(a, mid), hd, hf⟩

theorem pure_ok {a b : α} : (pure a : Dec α) input = .ok (b, rest) ↔ b = a ∧ rest = input := by
  change Except.ok (a, input) = _ ↔ _
  rw [Except.ok.injEq, Prod.mk.injEq]
  exact ⟨fun h => ⟨h.1.symm, h.2.symm⟩, fun h => ⟨h.1.symm, h.2.symm⟩⟩

theorem lift_ok {x : Except Error α} {a : α} :
    (liftM x : Dec α) input = .ok (a, rest) ↔ x = .ok a ∧ rest = input := by
  cases x with
  | error e => exact ⟨nofun, fun h => nomatch h.1⟩
  | ok b =>
      change Except.ok (b, input) = _ ↔ _
      simp only [Except.ok.injEq, Prod.mk.injEq]
      exact ⟨fun h => ⟨h.1, h.2.symm⟩, fun h => ⟨h.1, h.2.symm⟩⟩

theorem get_ok {state : Bytes} :
    (get : Dec Bytes) input = .ok (state, rest) ↔ state = input ∧ rest = input := by
  change Except.ok (input, input) = _ ↔ _
  rw [Except.ok.injEq, Prod.mk.injEq]
  exact ⟨fun h => ⟨h.1.symm, h.2.symm⟩, fun h => ⟨h.1.symm, h.2.symm⟩⟩

theorem valid_ok {p : Prop} [Decidable p] {u : Unit} :
    Dec.valid p input = .ok (u, rest) ↔ p ∧ rest = input := by
  unfold Dec.valid
  simp only [ObjectLog.bind_ok, ensure_ok, pure, Except.pure, Except.ok.injEq, Prod.mk.injEq,
    exists_const, true_and]
  exact ⟨fun h => ⟨h.1, h.2.symm⟩, fun h => ⟨h.1, h.2.symm⟩⟩

/-- An exact read took the encoding of its value from the front. -/
theorem exact_ok {r : Reader α} {encode : α → Bytes} {a : α}
    (h : Dec.exact r encode input = .ok (a, rest)) :
    r input = some (a, rest) ∧ input = encode a ++ rest := by
  unfold Dec.exact at h
  simp only [ObjectLog.bind_ok, okOr_ok, ensure_ok, pure, Except.pure, Except.ok.injEq,
    exists_const] at h
  obtain ⟨⟨a', rest'⟩, hr, heq, hres⟩ := h
  obtain ⟨rfl, rfl⟩ := Prod.mk.inj hres
  exact ⟨hr, heq⟩

theorem exactLen_ok {r : Reader (Option Nat)} {major n : Nat}
    (h : Dec.exactLen r major input = .ok (n, rest)) : input = head major n ++ rest := by
  unfold Dec.exactLen at h
  simp only [ObjectLog.bind_ok, okOr_ok, ensure_ok, pure, Except.pure, Except.ok.injEq,
    exists_const] at h
  obtain ⟨⟨n', rest'⟩, -, m, -, heq, hres⟩ := h
  obtain ⟨rfl, rfl⟩ := Prod.mk.inj hres
  exact heq

theorem field_ok {k : Nat} {u : Unit} (h : Dec.field k input = .ok (u, rest)) :
    input = uint k ++ rest := by
  obtain ⟨n, mid, hn, hv⟩ := Dec.bind_ok.1 h
  obtain ⟨rfl, rfl⟩ := Dec.valid_ok.1 hv
  exact (exact_ok hn).2

theorem finished_ok {u : Unit} (h : Dec.finished input = .ok (u, rest)) :
    input = [] ∧ rest = [] := by
  obtain ⟨state, mid, hs, hv⟩ := Dec.bind_ok.1 h
  obtain ⟨rfl, rfl⟩ := Dec.get_ok.1 hs
  obtain ⟨hnil, rfl⟩ := Dec.valid_ok.1 hv
  exact ⟨hnil, hnil⟩

theorem run_ok {d : Dec α} {a : α} (h : Dec.run d input = .ok a) :
    ∃ rest, d input = .ok (a, rest) := by
  obtain ⟨⟨a', rest⟩, hd, ha⟩ := ObjectLog.bind_ok.1 h
  obtain rfl := Except.ok.inj ha
  exact ⟨rest, hd⟩

/-- A counted run of reads took the encodings of its items from the front. -/
theorem times_ok {d : Dec α} {encode : α → Bytes} {P : α → Prop}
    (hd : ∀ {input rest a}, d input = .ok (a, rest) → input = encode a ++ rest ∧ P a) {n : Nat}
    {items : List α} (h : decTimes d n input = .ok (items, rest)) :
    items.length = n ∧ input = (items.map encode).flatten ++ rest ∧ ∀ a ∈ items, P a := by
  induction n generalizing input items with
  | zero =>
      obtain ⟨rfl, rfl⟩ := Dec.pure_ok.1 h
      exact ⟨rfl, rfl, nofun⟩
  | succ n ih =>
      obtain ⟨a, mid, ha, h⟩ := Dec.bind_ok.1 h
      obtain ⟨as, mid', has, h⟩ := Dec.bind_ok.1 h
      obtain ⟨rfl, rfl⟩ := Dec.pure_ok.1 h
      obtain ⟨hlen, hrest, hall⟩ := ih has
      obtain ⟨hfirst, hpa⟩ := hd ha
      refine ⟨by rw [List.length_cons, hlen], ?_, ?_⟩
      · rw [hfirst, hrest, List.map_cons, List.flatten_cons, List.append_assoc]
      · intro x hx
        rcases List.mem_cons.1 hx with rfl | hx
        · exact hpa
        · exact hall x hx

end Dec

/-! ## Envelopes -/

section

variable [Blake3]

/-- **An envelope has one encoding.** -/
theorem decodeBorrowedEnvelope_ok {input payload : Bytes}
    (h : decodeBorrowedEnvelope input = .ok payload) : input = encodeEnvelope payload := by
  obtain ⟨rest, h⟩ := Dec.run_ok h
  simp only [Dec.bind_ok, Dec.valid_ok, Dec.lift_ok, Dec.pure_ok, ensure_ok] at h
  obtain ⟨n, i₁, hn, _, i₂, ⟨rfl, rfl⟩, _, i₃, h1, body, i₄, hp, _, i₅, h2, digest, i₆, hd, _, i₇,
    hfin, d, i₈, ⟨hdig, -⟩, _, i₉, ⟨rfl, -⟩, rfl, -⟩ := h
  obtain ⟨rfl, -⟩ := Dec.finished_ok hfin
  rw [Dec.exactLen_ok hn, Dec.field_ok h1, (Dec.exact_ok hp).2, Dec.field_ok h2,
    (Dec.exact_ok hd).2, ← digestOf_ok hdig]
  simp [encodeEnvelope, record]

end

theorem decodeExact_ok {α : Type} {r : Reader α} {input : Bytes} {a : α}
    (h : decodeExact r input = .ok a) : r input = some (a, []) := by
  obtain ⟨⟨a', rest⟩, hr, h⟩ := bind_ok.1 h
  obtain ⟨⟨⟩, hrest, h⟩ := bind_ok.1 h
  obtain rfl := Except.ok.inj h
  rw [okOr_ok.1 hr, ensure_ok.1 hrest]

/-! ## Commits and checkpoints -/

theorem Commit.ofWire_ok {w : CommitWire} {c : Commit} (h : Commit.ofWire w = .ok c)
    (hv : w.formatVersion = formatVersion) : c.toWire = w ∧ ∀ r ∈ c.objects, r.Counted := by
  obtain ⟨logId, hl, h⟩ := bind_ok.1 h
  obtain ⟨inc, hi, h⟩ := bind_ok.1 h
  obtain ⟨tid, ht, h⟩ := bind_ok.1 h
  obtain ⟨tip, htip, h⟩ := bind_ok.1 h
  obtain ⟨objects, ho, h⟩ := bind_ok.1 h
  obtain rfl := Except.ok.inj h
  obtain ⟨hrefs, hcounted⟩ := objectRefs_ofWire_ok ho
  refine ⟨?_, hcounted⟩
  rw [Commit.toWire, LogId.new_ok hl, transactionIdOf_ok ht,
    option_mapM_ofWire (fun _ _ => digestOf_ok) htip, hrefs, uuidOf_ok hi, ← hv]

theorem Checkpoint.ofWire_ok {w : CheckpointWire} {c : Checkpoint}
    (h : Checkpoint.ofWire w = .ok c) (hv : w.formatVersion = formatVersion) :
    c.toWire = w ∧ ∀ r ∈ c.objects, r.Counted := by
  obtain ⟨logId, hl, h⟩ := bind_ok.1 h
  obtain ⟨inc, hi, h⟩ := bind_ok.1 h
  obtain ⟨through, ht, h⟩ := bind_ok.1 h
  obtain ⟨objects, ho, h⟩ := bind_ok.1 h
  obtain rfl := Except.ok.inj h
  obtain ⟨hrefs, hcounted⟩ := objectRefs_ofWire_ok ho
  refine ⟨?_, hcounted⟩
  rw [Checkpoint.toWire, LogId.new_ok hl, digestOf_ok ht, hrefs, uuidOf_ok hi, ← hv]

section

variable [Blake3]

/-- **A head has one encoding.** -/
theorem decodeHead_ok {bytes : Bytes} {h : Head} (hd : decodeHead bytes = .ok h) :
    encodeHead h = .ok bytes ∧ h.Valid := by
  simp only [decodeHead, bind_ok, requireCanonical, ensure_ok, exists_const, pure, Except.pure,
    Except.ok.injEq] at hd
  obtain ⟨_, _, _, _, _, _, _, _, _, _, ⟨⟩, hv, _, hc, rfl, rfl⟩ := hd
  exact ⟨hc, validate_ok.1 hv⟩

/-- The checkpoint of a decoded head was converted with its count checked. -/
theorem decodeHead_counted {bytes : Bytes} {h : Head} (hd : decodeHead bytes = .ok h) :
    h.Counted := by
  simp only [decodeHead, Head.ofWire, bind_ok, pure, Except.pure, Except.ok.injEq] at hd
  obtain ⟨_, -, _, -, wire, -, _, -, _, ⟨_, -, _, -, checkpoint, hck, _, -, _, -, _, -, _, -, rfl⟩, _,
    -, _, -, _, -, rfl⟩ := hd
  intro c hc
  obtain rfl : checkpoint = some c := hc
  cases hopt : wire.checkpoint with
  | none =>
      rw [hopt] at hck
      cases hck
  | some w =>
      rw [hopt, Option.mapM_some] at hck
      obtain ⟨c', hc', hck⟩ := bind_ok.1 hck
      obtain rfl := Option.some.inj (Except.ok.inj hck)
      exact (CheckpointRef.ofWire_ok hc').2

end

/-! ## Nodes -/

theorem decodeChild_ok {options : Options} {input rest : Bytes} {r : ObjectRef}
    (h : decodeChild options input = .ok (r, rest)) :
    input = r.toWire.encode ++ rest ∧ r.ChildOk options := by
  unfold decodeChild at h
  simp only [Dec.bind_ok, Dec.valid_ok] at h
  obtain ⟨n, i₁, hn, _, i₂, ⟨rfl, rfl⟩, _, i₃, h1, k, i₄, hk, h⟩ := h
  -- the part after the kind is the same for both kinds
  have body : ∀ kind : ObjectKind, kind.wire = k → kind ≠ .checkpoint → (do
      Dec.field 2
      let digestBytes ← Dec.exactBytes
      Dec.field 3
      let len ← Dec.exactU64
      ensure (len ≤ options.maxObjectBytes) (.limitExceeded "object bytes")
      Dec.field 4
      let storageIdBytes ← Dec.exactBytes
      Dec.field 5
      let subtreeObjects ← Dec.exactU64
      let storageId ← storageIdOf storageIdBytes
      let digest ← digestOf digestBytes
      let child : ObjectRef := { kind, storageId, digest, len, subtreeObjects }
      child.validateCount
      return child : Dec ObjectRef) i₄ = .ok (r, rest) →
      input = r.toWire.encode ++ rest ∧ r.ChildOk options := by
    intro kind hkind hne h
    simp only [Dec.bind_ok, Dec.lift_ok, Dec.pure_ok, ensure_ok] at h
    obtain ⟨_, j₁, h2, dbytes, j₂, hd, _, j₃, h3, len, j₄, hl, _, _, ⟨hlen, rfl⟩, _, j₅, h4, ibytes,
      j₆, hi, _, j₇, h5, count, j₈, hc, id, _, ⟨hid, rfl⟩, dig, _, ⟨hdig, rfl⟩, _, _, ⟨hcount, rfl⟩,
      rfl, rfl⟩ := h
    refine ⟨?_, hne, hcount, hlen⟩
    rw [Dec.exactLen_ok hn, Dec.field_ok h1, (Dec.exact_ok hk).2, Dec.field_ok h2,
      (Dec.exact_ok hd).2, Dec.field_ok h3, (Dec.exact_ok hl).2, Dec.field_ok h4,
      (Dec.exact_ok hi).2, Dec.field_ok h5, (Dec.exact_ok hc).2]
    simp [ObjectRefWire.encode, ObjectRef.toWire, record, storageIdOf_ok hid, digestOf_ok hdig,
      hkind]
  split at h
  case h_1 => exact body .blob rfl (by decide) h
  case h_2 => exact body .node rfl (by decide) h
  case h_3 => cases h

theorem nodePayload_eq (node : Node) :
    nodePayload node node.children.length = record [(1, uint formatVersion),
      (2, bytes node.payload), (3, array (node.children.map fun child => child.toWire.encode))] := by
  simp [nodePayload, record, array]

/-- **The map of a node has one encoding.** -/
theorem decodeNodePayload_ok {options : Options} {input rest : Bytes} {node : Node}
    (h : decodeNodePayload options input = .ok (node, rest)) :
    input = nodePayload node node.children.length ∧
      node.children.length ≤ options.maxObjectRefs.toNat ∧
      ∀ r ∈ node.children, r.ChildOk options := by
  unfold decodeNodePayload at h
  simp only [Dec.bind_ok, Dec.valid_ok, Dec.lift_ok, Dec.pure_ok, Dec.get_ok, ensure_ok,
    requireVersion] at h
  obtain ⟨n, i₁, hn, _, i₂, ⟨rfl, rfl⟩, _, i₃, h1, v, i₄, hv, _, i₅, ⟨rfl, rfl⟩, _, i₆, h2, payload,
    i₇, hp, _, i₈, h3, count, i₉, hc, _, i₁₀, ⟨hrefs, rfl⟩, _, i₁₁, ⟨rfl, rfl⟩, _, i₁₂, ⟨-, rfl⟩,
    children, i₁₃, ht, _, i₁₄, hfin, rfl, rfl⟩ := h
  obtain ⟨rfl, hflat, hall⟩ := Dec.times_ok (fun h => decodeChild_ok h) ht
  obtain ⟨rfl, -⟩ := Dec.finished_ok hfin
  refine ⟨?_, hrefs, hall⟩
  rw [Dec.exactLen_ok hn, Dec.field_ok h1, (Dec.exact_ok hv).2, Dec.field_ok h2,
    (Dec.exact_ok hp).2, Dec.field_ok h3, Dec.exactLen_ok hc, hflat]
  simp [nodePayload]

section

variable [Blake3]

/-- **A node has one encoding.** -/
theorem decodeNode_ok {input : Bytes} {options : Options} {node : Node}
    (hlen : input.length ≤ options.maxObjectBytes.toNat)
    (h : decodeNode input options = .ok node) :
    encodeNode node options = .ok input ∧ ∀ r ∈ node.children, r.ChildOk options := by
  obtain ⟨payload, henv, h⟩ := bind_ok.1 h
  obtain ⟨rest, h⟩ := Dec.run_ok h
  obtain ⟨rfl, hrefs, hall⟩ := decodeNodePayload_ok h
  obtain rfl := decodeBorrowedEnvelope_ok henv
  rw [envelope_length, nodePayload_length] at hlen
  exact ⟨encodeNode_ok.2 ⟨hrefs, hlen, rfl⟩, hall⟩

end

/-! ## Collection plans -/

theorem decodeCandidate_ok {input rest : Bytes} {c : CollectionCandidate}
    (h : decodeCandidate input = .ok (c, rest)) : input = c.encode ++ rest := by
  unfold decodeCandidate at h
  simp only [Dec.bind_ok, Dec.valid_ok, Dec.lift_ok] at h
  obtain ⟨n, i₁, hn, _, i₂, ⟨rfl, rfl⟩, _, i₃, h1, ibytes, i₄, hi, inc, i₅, ⟨hinc, rfl⟩, _, i₆, h2,
    k, i₇, hk, h⟩ := h
  have body : ∀ kind : ImmutableKind, kind.wire = k → (do
      Dec.field 3
      let storageId ← storageIdOf (← Dec.exactBytes)
      Dec.field 4
      let digest ← digestOf (← Dec.exactBytes)
      Dec.field 5
      let bytes ← Dec.exactU64
      return { key := { incarnation := inc, kind, storageId, digest }, bytes } :
        Dec CollectionCandidate) i₇ = .ok (c, rest) → input = c.encode ++ rest := by
    intro kind hkind h
    simp only [Dec.bind_ok, Dec.lift_ok, Dec.pure_ok] at h
    obtain ⟨_, j₁, h3, sbytes, j₂, hs, id, _, ⟨hid, rfl⟩, _, j₃, h4, dbytes, j₄, hd, dig, _,
      ⟨hdig, rfl⟩, _, j₅, h5, len, j₆, hl, rfl, rfl⟩ := h
    rw [Dec.exactLen_ok hn, Dec.field_ok h1, (Dec.exact_ok hi).2, Dec.field_ok h2,
      (Dec.exact_ok hk).2, Dec.field_ok h3, (Dec.exact_ok hs).2, Dec.field_ok h4,
      (Dec.exact_ok hd).2, Dec.field_ok h5, (Dec.exact_ok hl).2]
    simp [CollectionCandidate.encode, record, uuidOf_ok hinc, storageIdOf_ok hid, digestOf_ok hdig,
      hkind]
  split at h
  case h_1 => exact body .commit rfl h
  case h_2 => exact body .blob rfl h
  case h_3 => exact body .node rfl h
  case h_4 => exact body .checkpoint rfl h
  case h_5 => exact body .collectionPlan rfl h
  case h_6 => cases h

theorem decodeCollectionPayload_ok {options : Options} {input rest : Bytes}
    {plan : CollectionPlan} (h : decodeCollectionPayload options input = .ok (plan, rest)) :
    input = plan.wire ∧ plan.validate options = .ok () := by
  unfold decodeCollectionPayload at h
  simp only [Dec.bind_ok, Dec.valid_ok, Dec.lift_ok, Dec.pure_ok, Dec.get_ok, ensure_ok,
    requireVersion] at h
  obtain ⟨n, i₁, hn, _, i₂, ⟨rfl, rfl⟩, _, i₃, h1, v, i₄, hv, _, i₅, ⟨rfl, rfl⟩, _, i₆, h2, id, i₇,
    hid, _, i₈, ⟨-, rfl⟩, logId, i₉, ⟨hlog, rfl⟩, _, i₁₀, h3, epoch, i₁₁, he, _, i₁₂, h4, count, i₁₃,
    hc, _, i₁₄, ⟨-, rfl⟩, _, i₁₅, ⟨rfl, rfl⟩, _, i₁₆, ⟨-, rfl⟩, candidates, i₁₇, ht, _, i₁₈, hfin, _,
    i₁₉, ⟨hval, rfl⟩, rfl, rfl⟩ := h
  obtain ⟨rfl, hflat, -⟩ := Dec.times_ok (P := fun _ => True)
    (fun h => ⟨decodeCandidate_ok h, trivial⟩) ht
  obtain ⟨rfl, -⟩ := Dec.finished_ok hfin
  refine ⟨?_, hval⟩
  rw [Dec.exactLen_ok hn, Dec.field_ok h1, (Dec.exact_ok hv).2, Dec.field_ok h2,
    (Dec.exact_ok hid).2, Dec.field_ok h3, (Dec.exact_ok he).2, Dec.field_ok h4,
    Dec.exactLen_ok hc, hflat]
  simp [CollectionPlan.wire, record, array, LogId.new_ok hlog]

section

variable [Blake3]

/-- **A collection plan has one encoding.** -/
theorem decodeCollectionPlan_ok {input : Bytes} {options : Options} {plan : CollectionPlan}
    (h : decodeCollectionPlan input options = .ok plan) :
    plan.validate options = .ok () ∧ encodeCollectionPlan plan options = .ok input := by
  obtain ⟨⟨⟩, hlen, h⟩ := bind_ok.1 h
  obtain ⟨payload, henv, h⟩ := bind_ok.1 h
  obtain ⟨rest, h⟩ := Dec.run_ok h
  obtain ⟨rfl, hval⟩ := decodeCollectionPayload_ok h
  obtain rfl := decodeBorrowedEnvelope_ok henv
  exact ⟨hval, bind_ok.2 ⟨(), hval, bind_ok.2 ⟨(), hlen, rfl⟩⟩⟩

end

/-- What `CollectionPlan::validate` has checked. -/
theorem CollectionPlan.validate_ok {plan : CollectionPlan} {options : Options}
    (h : plan.validate options = .ok ()) :
    plan.collectionEpoch ≠ 0 ∧ plan.candidates ≠ [] ∧
      plan.candidates.length ≤ options.maxCollectionObjects.toNat ∧
      strictlySorted plan.candidates ∧ ∃ total, plan.candidateBytes = .ok total := by
  simp only [CollectionPlan.validate, bind_ok, ensure_ok, exists_const] at h
  obtain ⟨hepoch, hne, hlen, hsorted, total, htotal, -⟩ := h
  exact ⟨hepoch, hne, hlen, hsorted, total, htotal⟩

/-- **The search of a plan answers for exactly the keys it lists.** -/
theorem isCollectionCandidate_iff {candidates : List CollectionCandidate} {key : ImmutableKey}
    (hs : strictlySorted candidates) :
    isCollectionCandidate candidates key = true ↔ ∃ c ∈ candidates, c.key = key := by
  have hpair : candidates.Pairwise fun c d => c.key < d.key :=
    List.pairwise_map.1 (List.isChain_iff_pairwise.1 hs)
  exact Search.isSome_binarySearchByKey hpair

end ObjectLog
