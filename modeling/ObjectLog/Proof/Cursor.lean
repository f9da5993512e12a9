import ObjectLog.Format.Cursor
import ObjectLog.Proof.Canonical

/-!
# The cursors of a decoder stay together

A decoder with cursors does what the decoder over the remaining input does, and nothing
else: the position of the decoder and the slice of the matching writer always name the same
place, so no index leaves the input, no difference is below zero, and what is reserved fits
the input that is left. The one thing to see is that the writer, which only compares with
the front of its slice, cannot fall behind the decoder: a canonical encoding in front of the
input is all that the decoder reads.
-/

namespace ObjectLog

open Cbor

/-! ## What a library read returns can be written -/

/-- The encoding of every value that `r` returns is read back by `r`. -/
def Rewrites {α : Type} (r : Reader α) (encode : α → Bytes) : Prop :=
  ∀ input a rest, r input = some (a, rest) → Reads r (encode a) a

theorem reader_bind {α β : Type} {r : Reader α} {f : α → Reader β} {input rest : Bytes} {b : β}
    (h : (r >>= f) input = some (b, rest)) :
    ∃ a mid, r input = some (a, mid) ∧ f a mid = some (b, rest) := by
  change (r input).bind (fun p => f p.1 p.2) = _ at h
  obtain ⟨⟨a, mid⟩, hr, hf⟩ := Option.bind_eq_some_iff.1 h
  exact ⟨a, mid, hr, hf⟩

theorem take_some {n : Nat} {input value rest : Bytes}
    (h : Reader.take n input = some (value, rest)) : value.length = n := by
  unfold Reader.take at h
  split at h
  case isTrue hle =>
    obtain ⟨rfl, -⟩ := Prod.mk.inj (Option.some.inj h)
    rw [List.length_take]
    omega
  case isFalse => cases h

/-- An argument has at most eight bytes. -/
theorem header_some {input rest : Bytes} {major n : Nat}
    (h : Reader.header input = some ((major, some n), rest)) : n < 2 ^ 64 := by
  obtain ⟨b, mid, -, h⟩ := reader_bind h
  have hinfo : b.toNat % 32 < 32 := Nat.mod_lt _ (by omega)
  simp only at h
  split at h
  case isTrue hlt =>
    obtain ⟨hv, -⟩ := Prod.mk.inj (Option.some.inj h)
    obtain ⟨-, hn⟩ := Prod.mk.inj hv
    obtain rfl := Option.some.inj hn
    omega
  case isFalse =>
    split at h
    case isTrue hwide =>
      obtain ⟨value, mid', hval, h⟩ := reader_bind h
      obtain ⟨hv, -⟩ := Prod.mk.inj (Option.some.inj h)
      obtain ⟨-, hn⟩ := Prod.mk.inj hv
      obtain rfl := Option.some.inj hn
      refine lt_of_lt_of_le (ofBigEndian_lt value) ?_
      rw [take_some hval]
      calc 256 ^ 2 ^ (b.toNat % 32 - 24) ≤ 256 ^ 2 ^ 3 :=
            Nat.pow_le_pow_right (by omega) (Nat.pow_le_pow_right (by omega) (by omega))
        _ ≤ 2 ^ 64 := by decide
    case isFalse =>
      split at h
      · obtain ⟨hv, -⟩ := Prod.mk.inj (Option.some.inj h)
        obtain ⟨-, hn⟩ := Prod.mk.inj hv
        cases hn
      · cases h

theorem argument_some {input rest : Bytes} {major n : Nat}
    (h : Reader.argument major input = some (some n, rest)) : n < 2 ^ 64 := by
  obtain ⟨⟨m, arg⟩, mid, hh, h⟩ := reader_bind h
  simp only at h
  split at h
  · obtain ⟨rfl, -⟩ := Prod.mk.inj (Option.some.inj h)
    exact header_some hh
  · cases h

theorem rewrites_uint {bits : Nat} (hb : bits ≤ 64) : Rewrites (Reader.uint bits) uint := by
  intro input n rest h
  obtain ⟨arg, mid, -, h⟩ := reader_bind h
  cases arg with
  | none => cases h
  | some m =>
      simp only at h
      split at h
      case isTrue hlt =>
        obtain ⟨rfl, -⟩ := Prod.mk.inj (Option.some.inj h)
        exact reads_uint hlt hb
      case isFalse => cases h

theorem rewrites_u64 : Rewrites readU64 u64 := fun _ x _ _ => reads_u64 x

theorem rewrites_bytes : Rewrites Reader.bytes bytes := by
  intro input value rest h
  obtain ⟨arg, mid, harg, h⟩ := reader_bind h
  cases arg with
  | none => cases h
  | some n =>
      have hlen := take_some h
      exact reads_bytes (hlen ▸ argument_some harg)

theorem rewrites_text : Rewrites Reader.text text := by
  intro input value rest h
  obtain ⟨arg, mid, harg, h⟩ := reader_bind h
  cases arg with
  | none => cases h
  | some n =>
      obtain ⟨value', mid', htake, h⟩ := reader_bind h
      split at h
      case isTrue hutf =>
        obtain ⟨rfl, -⟩ := Prod.mk.inj (Option.some.inj h)
        exact reads_text (take_some htake ▸ argument_some harg) hutf
      case isFalse => cases h

/-! ## Two decoders, one input -/

/-- From every place of the input, the decoder with cursors `s` ends where the decoder `d`
over the rest of the input ends, with a result related by `R`, or with the same error. -/
def Tracks {α β : Type} (input : Bytes) (R : α → β → Prop) (s : Scan α) (d : Dec β) : Prop :=
  ∀ front rest, input = front ++ rest →
    match d rest with
    | .error e => s ⟨front.length, rest⟩ = .error (.error e)
    | .ok (b, rest') => ∃ a front', input = front' ++ rest' ∧ R a b ∧
        s ⟨front.length, rest⟩ = .ok (a, ⟨front'.length, rest'⟩)

section

variable {α β γ δ : Type} {input : Bytes} {R : α → β → Prop} {R' : γ → δ → Prop}

theorem Tracks.bind {s : Scan α} {d : Dec β} {f : α → Scan γ} {g : β → Dec δ}
    (h : Tracks input R s d) (hf : ∀ a b, R a b → Tracks input R' (f a) (g b)) :
    Tracks input R' (s >>= f) (d >>= g) := by
  intro front rest heq
  have h₁ := h front rest heq
  change match (d rest >>= fun p => g p.1 p.2) with
    | .error e => (s ⟨front.length, rest⟩ >>= fun p => f p.1 p.2) = .error (.error e)
    | .ok (b, rest') => ∃ a front', input = front' ++ rest' ∧ R' a b ∧
        (s ⟨front.length, rest⟩ >>= fun p => f p.1 p.2) = .ok (a, ⟨front'.length, rest'⟩)
  cases hd : d rest with
  | error e =>
      rw [hd] at h₁
      rw [h₁]
      rfl
  | ok p =>
      rw [hd] at h₁
      obtain ⟨a, front', heq', hR, hs⟩ := h₁
      rw [hs]
      exact hf a p.1 hR front' p.2 heq'

theorem Tracks.pure {a : α} {b : β} (h : R a b) :
    Tracks input R (Pure.pure a) (Pure.pure b) :=
  fun front _ heq => ⟨a, front, heq, h, rfl⟩

/-- A step that does not look at the input. -/
theorem Tracks.check (x : Except Error α) :
    Tracks input (· = ·) (Scan.check x) (liftM x) := by
  intro front rest heq
  cases x with
  | error e => rfl
  | ok a => exact ⟨a, front, heq, rfl, rfl⟩

theorem Tracks.valid {p q : Prop} [Decidable p] [Decidable q] (h : p ↔ q) :
    Tracks input (fun _ _ => True) (Scan.valid p) (Dec.valid q) := by
  intro front rest heq
  by_cases hq : q
  · have hd : Dec.valid q rest = .ok ((), rest) := Dec.valid_ok.2 ⟨hq, rfl⟩
    rw [hd]
    refine ⟨(), front, heq, trivial, ?_⟩
    simp [Scan.valid, Scan.check, ensure, h.2 hq]
  · have hd : Dec.valid q rest = .error invalidCanonicalObject := by
      simp [Dec.valid, ensure, hq, Bind.bind, Except.bind]
    rw [hd]
    simp [Scan.valid, Scan.check, ensure, mt h.1 hq]

theorem writeAll_prefix {v rest : Bytes} {position : Nat} :
    Scan.writeAll v ⟨position, v ++ rest⟩ = .ok ((), ⟨position, rest⟩) := by
  simp [Scan.writeAll, Scan.slice, Bind.bind, Except.bind, Pure.pure, Except.pure]

/-- The writer matches exactly when the value was read from its own encoding. -/
theorem writeAll_of_read {r : Reader α} {v : Bytes} {a : α} (hr : Reads r v a)
    {rest rest' : Bytes} {position : Nat} (h : r rest = some (a, rest')) :
    Scan.writeAll v ⟨position, rest⟩ =
      if rest = v ++ rest' then .ok ((), ⟨position, rest'⟩)
      else .error (.error invalidCanonicalObject) := by
  by_cases hpre : v.isPrefixOf rest = true
  · -- what follows a canonical encoding is what the decoder has left
    obtain ⟨tail, rfl⟩ := List.isPrefixOf_iff_prefix.1 hpre
    have htail := hr tail
    rw [h] at htail
    obtain ⟨-, rfl⟩ := Prod.mk.inj (Option.some.inj htail)
    rw [if_pos rfl, writeAll_prefix]
  · rw [if_neg, Scan.writeAll, if_neg hpre]
    rintro rfl
    exact hpre (List.isPrefixOf_iff_prefix.2 (List.prefix_append _ _))

theorem length_sub_right (front rest : Bytes) :
    (front ++ rest).length - rest.length = front.length := by
  rw [List.length_append]
  omega

theorem Tracks.exactValue {r : Reader α} {encode : α → Bytes} (hr : Rewrites r encode) :
    Tracks input (· = ·) (Scan.exactValue input r encode) (Dec.exact r encode) := by
  rintro front rest rfl
  have hdrop : (front ++ rest).drop front.length = rest := List.drop_left
  cases hread : r rest with
  | none =>
      simp [Dec.exact, Scan.exactValue, Scan.read, hdrop, hread, okOr, Bind.bind, Except.bind,
        StateT.bind]
  | some p =>
      obtain ⟨a, rest'⟩ := p
      simp only [Dec.exact, Scan.exactValue, Scan.read, hdrop, hread, okOr, Bind.bind, Except.bind,
        StateT.bind, writeAll_of_read (hr _ _ _ hread) hread]
      by_cases heq : rest = encode a ++ rest'
      · simp only [ensure, if_pos heq]
        refine ⟨a, front ++ encode a, by rw [heq, List.append_assoc], rfl, ?_⟩
        rw [heq, ← List.append_assoc, length_sub_right]
        rfl
      · simp only [ensure, if_neg heq]

theorem Tracks.exactLen {r : Reader (Option Nat)} {major : Nat}
    (hr : ∀ input n rest, r input = some (some n, rest) → Reads r (head major n) (some n)) :
    Tracks input (· = ·) (Scan.exactLen input r major) (Dec.exactLen r major) := by
  rintro front rest rfl
  have hdrop : (front ++ rest).drop front.length = rest := List.drop_left
  cases hread : r rest with
  | none =>
      simp [Dec.exactLen, Scan.exactLen, Scan.read, hdrop, hread, okOr, Bind.bind, Except.bind,
        StateT.bind]
  | some p =>
      obtain ⟨n, rest'⟩ := p
      cases n with
      | none =>
          simp [Dec.exactLen, Scan.exactLen, Scan.read, Scan.check, hdrop, hread, okOr, Bind.bind,
            Except.bind, StateT.bind]
      | some n =>
          simp only [Dec.exactLen, Scan.exactLen, Scan.read, Scan.check, hdrop, hread, okOr,
            Bind.bind, Except.bind, StateT.bind, writeAll_of_read (hr _ _ _ hread) hread]
          by_cases heq : rest = head major n ++ rest'
          · simp only [ensure, if_pos heq]
            refine ⟨n, front ++ head major n, by rw [heq, List.append_assoc], rfl, ?_⟩
            rw [heq, ← List.append_assoc, length_sub_right]
            rfl
          · simp only [ensure, if_neg heq]

theorem Tracks.map : Tracks input (· = ·) (Scan.map input) Dec.exactMap :=
  Tracks.exactLen fun _ _ _ h => reads_argument (by omega) (argument_some h)

theorem Tracks.array : Tracks input (· = ·) (Scan.array input) Dec.exactArray :=
  Tracks.exactLen fun _ _ _ h => reads_argument (by omega) (argument_some h)

theorem Tracks.uint {bits : Nat} (hb : bits ≤ 64) :
    Tracks input (· = ·) (Scan.uint input bits) (Dec.exactUint bits) :=
  Tracks.exactValue (rewrites_uint hb)

theorem Tracks.u64 : Tracks input (· = ·) (Scan.u64 input) Dec.exactU64 :=
  Tracks.exactValue rewrites_u64

theorem Tracks.bytes : Tracks input (· = ·) (Scan.bytes input) Dec.exactBytes :=
  Tracks.exactValue rewrites_bytes

theorem Tracks.field (k : Nat) :
    Tracks input (fun _ _ => True) (Scan.field input k) (Dec.field k) := by
  refine (Tracks.uint (by omega)).bind ?_
  rintro n _ rfl
  exact Tracks.valid Iff.rfl

theorem subtract_append (front rest : Bytes) :
    Scan.subtract (front ++ rest).length rest.length = .ok front.length := by
  rw [Scan.subtract, if_pos (by rw [List.length_append]; omega), length_sub_right]

theorem slice_middle (front value rest : Bytes) :
    Scan.slice (front ++ value ++ rest) front.length (front ++ value).length = .ok value := by
  rw [Scan.slice, if_pos (by simp only [List.length_append]; omega), List.append_assoc,
    List.drop_left, List.length_append, Nat.add_sub_cancel_left, List.take_left]

/-- The range of a byte string is where the byte string is. -/
theorem Tracks.range :
    Tracks input (fun a b => a.1 = b ∧ Scan.slice input a.2.1 a.2.2 = .ok b) (Scan.range input)
      Dec.exactBytes := by
  intro front rest heq
  have h := Tracks.bytes front rest heq
  cases hd : Dec.exactBytes rest with
  | error e =>
      rw [hd] at h
      change (Scan.bytes input ⟨front.length, rest⟩ >>= _) = _
      rw [h]
      rfl
  | ok p =>
      obtain ⟨value, rest'⟩ := p
      rw [hd] at h
      obtain ⟨value', front', heq', hval, hs⟩ := h
      subst hval
      -- the value is the end of what has been read
      have hrest := (Dec.exact_ok hd).2
      have hfront : front' = (front ++ head 2 value'.length) ++ value' := by
        refine List.append_cancel_right (heq'.symm.trans (heq.trans ?_))
        rw [hrest, Cbor.bytes]
        simp
      subst hfront
      refine ⟨(value', (front ++ head 2 value'.length).length,
        ((front ++ head 2 value'.length) ++ value').length), _, heq', ⟨rfl, ?_⟩, ?_⟩
      · rw [heq']
        exact slice_middle _ _ _
      · change (Scan.bytes input ⟨front.length, rest⟩ >>= _) = _
        rw [hs]
        change ((Scan.subtract _ _ >>= fun start => Except.ok (start, _)) >>= _) = _
        rw [subtract_append]
        rfl

theorem Tracks.finished :
    Tracks input (fun _ _ => True) (Scan.finished input) Dec.finished := by
  rintro front rest rfl
  refine Tracks.valid ?_ front rest rfl
  change front.length = (front ++ rest).length ↔ rest = []
  rw [List.length_append, ← List.length_eq_zero_iff]
  omega

/-- Room is reserved only for items that the rest of the input can hold. -/
theorem Tracks.room {s : Scan α} {d : Dec β} (h : Tracks input R s d) (count least : Nat)
    (hl : 0 < least) :
    Tracks input R
      (do Scan.valid (count ≤ (← Scan.remaining input) / least)
          Scan.reserve input count least
          s)
      (do Dec.valid (count ≤ (← get).length / least)
          d) := by
  rintro front rest rfl
  have hrem : Scan.remaining (front ++ rest) ⟨front.length, rest⟩ =
      .ok (rest.length, ⟨front.length, rest⟩) := by
    change ((Scan.subtract _ _ >>= fun n => Except.ok (n, _))) = _
    rw [Scan.subtract, if_pos (by simp), List.length_append, Nat.add_sub_cancel_left]
    rfl
  have hreserve : count ≤ rest.length / least →
      Scan.reserve (front ++ rest) count least ⟨front.length, rest⟩ =
        .ok ((), ⟨front.length, rest⟩) := by
    intro hroom
    have hfit : ¬ rest.length < count * least :=
      Nat.not_lt.2 ((Nat.le_div_iff_mul_le hl).1 hroom)
    change (Scan.remaining _ _ >>= _) = _
    rw [hrem]
    change (if rest.length < count * least then _ else _ : Scan Unit) _ = _
    rw [if_neg hfit]
    rfl
  -- after the check, the reservation does nothing
  have hscan : (do
        Scan.valid (count ≤ (← Scan.remaining (front ++ rest)) / least)
        Scan.reserve (front ++ rest) count least
        s : Scan α) ⟨front.length, rest⟩ =
      (Scan.valid (count ≤ rest.length / least) >>= fun _ => s) ⟨front.length, rest⟩ := by
    change (Scan.remaining _ _ >>= _) = _
    rw [hrem]
    by_cases hroom : count ≤ rest.length / least
    · have hvalid : Scan.valid (count ≤ rest.length / least) ⟨front.length, rest⟩ =
          .ok ((), ⟨front.length, rest⟩) := by
        simp [Scan.valid, Scan.check, ensure, hroom]
      change (Scan.valid _ _ >>= _) = (Scan.valid _ _ >>= _)
      rw [hvalid]
      change (Scan.reserve _ _ _ _ >>= _) = _
      rw [hreserve hroom]
    · have hvalid : Scan.valid (count ≤ rest.length / least) ⟨front.length, rest⟩ =
          .error (.error invalidCanonicalObject) := by
        simp [Scan.valid, Scan.check, ensure, hroom]
      change (Scan.valid _ _ >>= _) = (Scan.valid _ _ >>= _)
      rw [hvalid]
      rfl
  rw [hscan]
  exact (Tracks.valid Iff.rfl).bind (fun _ _ _ => h) front rest rfl

theorem Tracks.times {s : Scan α} {d : Dec β} (h : Tracks input R s d) :
    ∀ n, Tracks input (List.Forall₂ R) (Scan.times s n) (decTimes d n)
  | 0 => Tracks.pure .nil
  | n + 1 => by
      refine h.bind fun a b hab => ?_
      refine (Tracks.times h n).bind fun as bs has => ?_
      exact Tracks.pure (.cons hab has)

/-- Two decoders end with related results, or with the same error and no fault. -/
def Agrees (R : α → β → Prop) (scanned : Except Fault α) (decoded : Except Error β) : Prop :=
  match decoded with
  | .error e => scanned = .error (.error e)
  | .ok b => ∃ a, R a b ∧ scanned = .ok a

theorem Tracks.run {s : Scan α} {d : Dec β} (h : Tracks input R s d) :
    Agrees R (Scan.run input s) (Dec.run d input) := by
  have h₀ : match d input with
    | .error e => s ⟨0, input⟩ = .error (.error e)
    | .ok (b, rest') => ∃ a front', input = front' ++ rest' ∧ R a b ∧
        s ⟨0, input⟩ = .ok (a, ⟨front'.length, rest'⟩) := h [] input rfl
  unfold Dec.run Scan.run
  cases hd : d input with
  | error e =>
      rw [hd] at h₀
      rw [h₀]
      rfl
  | ok p =>
      rw [hd] at h₀
      obtain ⟨a, front', -, hR, hs⟩ := h₀
      rw [hs]
      exact ⟨a, hR, rfl⟩

end

/-! ## Nodes -/

variable {input : Bytes} {options : Options}

/-- The range of the envelope is where its payload is. -/
theorem scanEnvelope_run [Blake3] (input : Bytes) :
    Agrees (fun range payload => Scan.slice input range.1 range.2 = .ok payload)
      (Scan.run input (scanEnvelope input)) (decodeBorrowedEnvelope input) := by
  refine Tracks.run ?_
  refine Tracks.map.bind ?_
  rintro n _ rfl
  refine (Tracks.valid Iff.rfl).bind fun _ _ _ => ?_
  refine (Tracks.field 1).bind fun _ _ _ => ?_
  refine Tracks.range.bind ?_
  rintro ⟨payload, range⟩ _ ⟨rfl, hslice⟩
  refine (Tracks.field 2).bind fun _ _ _ => ?_
  refine Tracks.bytes.bind ?_
  rintro encoded _ rfl
  refine Tracks.finished.bind fun _ _ _ => ?_
  refine (Tracks.check _).bind ?_
  rintro digest _ rfl
  refine (Tracks.check _).bind fun _ _ _ => ?_
  exact Tracks.pure hslice

theorem scanChild_tracks :
    Tracks input (· = ·) (scanChild input options) (decodeChild options) := by
  refine Tracks.map.bind ?_
  rintro n _ rfl
  refine (Tracks.valid Iff.rfl).bind fun _ _ _ => ?_
  refine (Tracks.field 1).bind fun _ _ _ => ?_
  refine (Tracks.uint (by omega)).bind ?_
  rintro k _ rfl
  -- the part after the kind is the same for both kinds
  have body : ∀ kind : ObjectKind, Tracks input (· = ·)
      (do
        Scan.field input 2
        let digestBytes ← Scan.bytes input
        Scan.field input 3
        let len ← Scan.u64 input
        Scan.check (ensure (len ≤ options.maxObjectBytes) (.limitExceeded "object bytes"))
        Scan.field input 4
        let storageIdBytes ← Scan.bytes input
        Scan.field input 5
        let subtreeObjects ← Scan.u64 input
        let storageId ← Scan.check (storageIdOf storageIdBytes)
        let digest ← Scan.check (digestOf digestBytes)
        let child : ObjectRef := { kind, storageId, digest, len, subtreeObjects }
        Scan.check child.validateCount
        return child)
      (do
        Dec.field 2
        let digestBytes ← Dec.exactBytes
        Dec.field 3
        let len ← Dec.exactU64
        ensure (len ≤ options.maxObjectBytes) (.limitExceeded "object bytes")
        Dec.field 4
        let storageIdBytes ← Dec.exactBytes
        Dec.field 5
        let subtreeObjects ← Dec.exactU64
        let storageId ← storageIdOf storageIdBytes
        let digest ← digestOf digestBytes
        let child : ObjectRef := { kind, storageId, digest, len, subtreeObjects }
        child.validateCount
        return child) := by
    intro kind
    refine (Tracks.field 2).bind fun _ _ _ => ?_
    refine Tracks.bytes.bind ?_
    rintro digestBytes _ rfl
    refine (Tracks.field 3).bind fun _ _ _ => ?_
    refine Tracks.u64.bind ?_
    rintro len _ rfl
    refine (Tracks.check _).bind fun _ _ _ => ?_
    refine (Tracks.field 4).bind fun _ _ _ => ?_
    refine Tracks.bytes.bind ?_
    rintro storageIdBytes _ rfl
    refine (Tracks.field 5).bind fun _ _ _ => ?_
    refine Tracks.u64.bind ?_
    rintro subtreeObjects _ rfl
    refine (Tracks.check _).bind ?_
    rintro storageId _ rfl
    refine (Tracks.check _).bind ?_
    rintro digest _ rfl
    refine (Tracks.check _).bind fun _ _ _ => ?_
    exact Tracks.pure rfl
  match k with
  | 1 => exact body .blob
  | 3 => exact body .node
  | 0 => exact fun front rest _ => rfl
  | 2 => exact fun front rest _ => rfl
  | _ + 4 => exact fun front rest _ => rfl

theorem scanNode_tracks :
    Tracks input (fun a node => Scan.slice input a.1.1 a.1.2 = .ok node.payload ∧
      a.2 = node.children) (scanNode input options) (decodeNodePayload options) := by
  refine Tracks.map.bind ?_
  rintro n _ rfl
  refine (Tracks.valid Iff.rfl).bind fun _ _ _ => ?_
  refine (Tracks.field 1).bind fun _ _ _ => ?_
  refine (Tracks.uint (by omega)).bind ?_
  rintro version _ rfl
  refine (Tracks.check _).bind fun _ _ _ => ?_
  refine (Tracks.field 2).bind fun _ _ _ => ?_
  refine Tracks.range.bind ?_
  rintro ⟨payload, range⟩ _ ⟨rfl, hslice⟩
  refine (Tracks.field 3).bind fun _ _ _ => ?_
  refine Tracks.array.bind ?_
  rintro count _ rfl
  refine (Tracks.check _).bind fun _ _ _ => ?_
  refine Tracks.room ?_ count 60 (by omega)
  refine (Tracks.times scanChild_tracks count).bind ?_
  intro children children' hall
  obtain rfl := List.forall₂_eq_eq_eq ▸ hall
  refine Tracks.finished.bind fun _ _ _ => ?_
  exact Tracks.pure ⟨hslice, rfl⟩

theorem slice_ok {bytes value : Bytes} {start stop : Nat}
    (h : Scan.slice bytes start stop = .ok value) :
    start ≤ stop ∧ stop ≤ bytes.length ∧ value = (bytes.drop start).take (stop - start) := by
  unfold Scan.slice at h
  split at h
  case isTrue hin =>
    obtain rfl := Except.ok.inj h
    exact ⟨hin.1, hin.2, rfl⟩
  case isFalse => cases h

/-- A slice of a slice is a slice of the whole. -/
theorem slice_slice {bytes inner value : Bytes} {start stop s e : Nat}
    (h : Scan.slice bytes start stop = .ok inner) (h' : Scan.slice inner s e = .ok value) :
    start + e ≤ bytes.length ∧ Scan.slice bytes (start + s) (start + e) = .ok value := by
  obtain ⟨hle, hlen, rfl⟩ := slice_ok h
  obtain ⟨hle', hlen', rfl⟩ := slice_ok h'
  rw [List.length_take, List.length_drop] at hlen'
  have hend : start + e ≤ bytes.length := by omega
  refine ⟨hend, ?_⟩
  rw [Scan.slice, if_pos ⟨by omega, hend⟩, Nat.add_sub_add_left, List.drop_take, List.drop_drop,
    List.take_take, Nat.min_eq_left (by omega)]

theorem add_ok {a b : Nat} (h : a + b < 2 ^ 64) : Scan.add a b = .ok (a + b) := if_pos h

/-- **The decoder of nodes stays inside its input.** It returns what `decodeNode` returns and
has no fault of its own. -/
theorem scanDecodeNode_eq [Blake3] (hlen : input.length < 2 ^ 64) :
    scanDecodeNode input options = (decodeNode input options).mapError Fault.error := by
  have henv := scanEnvelope_run input
  unfold scanDecodeNode decodeNode
  cases hd : decodeBorrowedEnvelope input with
  | error e =>
      rw [hd] at henv
      rw [henv]
      rfl
  | ok payload =>
      rw [hd] at henv
      obtain ⟨⟨start, stop⟩, hslice, hrun⟩ := henv
      have hnode := Tracks.run (scanNode_tracks : Tracks payload _ _ (decodeNodePayload options))
      change (Scan.run input (scanEnvelope input) >>= _) = _
      rw [hrun]
      change (Scan.slice input start stop >>= _) = Except.mapError _
        (Dec.run (decodeNodePayload options) payload)
      rw [hslice]
      change (Scan.run payload (scanNode payload options) >>= _) = _
      cases hn : Dec.run (decodeNodePayload options) payload with
      | error e =>
          rw [hn] at hnode
          rw [hnode]
          rfl
      | ok node =>
          rw [hn] at hnode
          obtain ⟨⟨⟨s, e⟩, children⟩, ⟨hpay, rfl⟩, hrun'⟩ := hnode
          dsimp only at hpay
          obtain ⟨hend, hsub⟩ := slice_slice hslice hpay
          obtain ⟨hse, -, -⟩ := slice_ok hpay
          have hs : Scan.add start s = .ok (start + s) := add_ok (by omega)
          have he : Scan.add start e = .ok (start + e) := add_ok (by omega)
          rw [hrun']
          change (Scan.add start s >>= _) = _
          rw [hs]
          change (Scan.add start e >>= _) = _
          rw [he]
          change (Scan.slice input (start + s) (start + e) >>= _) = _
          rw [hsub]
          rfl

end ObjectLog
