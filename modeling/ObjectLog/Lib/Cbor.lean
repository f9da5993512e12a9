import Mathlib

/-!
# CBOR

The encoding of the items a record format needs (unsigned integers, byte strings,
text, arrays, maps), with shortest heads and definite lengths, and a decoder that
reads such items one after the other. The decoder also reads what this encoder
never writes, longer heads and indefinite lengths, because a format that wants one
encoding for one value has to refuse them itself.

What is proved about a decoder has one shape, `Reads r bytes a`: in front of any
further input, `r` consumes exactly `bytes` and returns `a`. It composes along
`bind`, so a record is proved field by field.
-/

namespace Cbor

/-! ## Big-endian numbers -/

/-- The low `width` bytes of a number, most significant first. -/
def bigEndian : Nat → Nat → List UInt8
  | 0, _ => []
  | width + 1, n => bigEndian width (n / 256) ++ [UInt8.ofNat (n % 256)]

/-- The number that big-endian bytes spell. -/
def ofBigEndian (bytes : List UInt8) : Nat :=
  bytes.foldl (fun n byte => n * 256 + byte.toNat) 0

@[simp] theorem bigEndian_length (width n : Nat) : (bigEndian width n).length = width := by
  induction width generalizing n with
  | zero => rfl
  | succ width ih => simp [bigEndian, ih]

theorem ofBigEndian_bigEndian {width n : Nat} (h : n < 256 ^ width) :
    ofBigEndian (bigEndian width n) = n := by
  induction width generalizing n with
  | zero => simp only [Nat.pow_zero] at h; simp [bigEndian, ofBigEndian]; omega
  | succ width ih =>
      have hq : n / 256 < 256 ^ width := by
        rw [Nat.pow_succ] at h
        exact Nat.div_lt_of_lt_mul (by rwa [Nat.mul_comm])
      have := ih hq
      unfold ofBigEndian at this ⊢
      rw [bigEndian, List.foldl_append, this]
      simp only [List.foldl_cons, List.foldl_nil, UInt8.toNat_ofNat']
      omega

theorem ofBigEndian_append (bytes : List UInt8) (b : UInt8) :
    ofBigEndian (bytes ++ [b]) = ofBigEndian bytes * 256 + b.toNat := by
  simp [ofBigEndian]

theorem ofBigEndian_lt (bytes : List UInt8) : ofBigEndian bytes < 256 ^ bytes.length := by
  induction bytes using List.reverseRecOn with
  | nil => simp [ofBigEndian]
  | append_singleton bytes b ih =>
      have hb := b.toNat_lt
      rw [ofBigEndian_append, List.length_append, List.length_singleton, Nat.pow_succ]
      omega

/-- The bytes of a number of the same width are the bytes it was spelled with. -/
theorem bigEndian_ofBigEndian (bytes : List UInt8) :
    bigEndian bytes.length (ofBigEndian bytes) = bytes := by
  induction bytes using List.reverseRecOn with
  | nil => rfl
  | append_singleton bytes b ih =>
      have hb := b.toNat_lt
      rw [ofBigEndian_append, List.length_append, List.length_singleton, bigEndian,
        show (ofBigEndian bytes * 256 + b.toNat) / 256 = ofBigEndian bytes by omega,
        show (ofBigEndian bytes * 256 + b.toNat) % 256 = b.toNat by omega, ih]
      simp

/-! ## Encoding -/

/-- The head of an item: its major type and its argument, in the shortest form. -/
def head (major n : Nat) : List UInt8 :=
  if n < 24 then [UInt8.ofNat (32 * major + n)]
  else if n < 2 ^ 8 then UInt8.ofNat (32 * major + 24) :: bigEndian 1 n
  else if n < 2 ^ 16 then UInt8.ofNat (32 * major + 25) :: bigEndian 2 n
  else if n < 2 ^ 32 then UInt8.ofNat (32 * major + 26) :: bigEndian 4 n
  else UInt8.ofNat (32 * major + 27) :: bigEndian 8 n

def uint (n : Nat) : List UInt8 := head 0 n

def bytes (value : List UInt8) : List UInt8 := head 2 value.length ++ value

def text (value : List UInt8) : List UInt8 := head 3 value.length ++ value

def array (items : List (List UInt8)) : List UInt8 := head 4 items.length ++ items.flatten

/-- A record: its present fields in order, each under its number. -/
def record (fields : List (Nat × List UInt8)) : List UInt8 :=
  head 5 fields.length ++ fields.flatMap fun field => uint field.1 ++ field.2

/-- An optional field of a record is left out when it is absent. -/
def optional (number : Nat) (value : Option (List UInt8)) : List (Nat × List UInt8) :=
  match value with
  | some value => [(number, value)]
  | none => []

theorem head_length_pos (major n : Nat) : 0 < (head major n).length := by
  unfold head
  split_ifs <;> simp

theorem head_length_mono (major : Nat) {n m : Nat} (h : n ≤ m) :
    (head major n).length ≤ (head major m).length := by
  unfold head
  split_ifs <;> simp only [List.length_cons, List.length_nil, bigEndian_length] <;> omega

/-! Every part of an encoding is as long as the whole or shorter. -/

theorem length_le_bytes (value : List UInt8) : value.length ≤ (bytes value).length := by
  simp [bytes]

theorem length_le_text (value : List UInt8) : value.length ≤ (text value).length := by
  simp [text]

theorem length_le_record {fields : List (Nat × List UInt8)} {k : Nat} {v : List UInt8}
    (h : (k, v) ∈ fields) : v.length ≤ (record fields).length := by
  obtain ⟨s, t, rfl⟩ := List.append_of_mem h
  simp only [record, List.flatMap_append, List.flatMap_cons, List.length_append]
  omega

theorem length_le_flatten {items : List (List UInt8)} (h : ∀ v ∈ items, 0 < v.length) :
    items.length ≤ items.flatten.length := by
  induction items with
  | nil => simp
  | cons v items ih =>
      have h1 := h v (by simp)
      have h2 := ih fun w hw => h w (by simp [hw])
      simp only [List.length_cons, List.flatten_cons, List.length_append]
      omega

theorem length_le_array {items : List (List UInt8)} (h : ∀ v ∈ items, 0 < v.length) :
    items.length ≤ (array items).length := by
  have := length_le_flatten h
  simp only [array, List.length_append]
  omega

theorem record_length_pos (fields : List (Nat × List UInt8)) : 0 < (record fields).length := by
  have := head_length_pos 5 fields.length
  simp only [record, List.length_append]
  omega

/-! ## Decoding -/

/-- A decoder reads from the front of the input. -/
abbrev Reader := StateT (List UInt8) Option

namespace Reader

def byte : Reader UInt8 := fun input =>
  match input with
  | b :: rest => some (b, rest)
  | [] => none

/-- The next byte, left in the input. -/
def peek : Reader UInt8 := fun input => input.head?.map fun b => (b, input)

def take (n : Nat) : Reader (List UInt8) := fun input =>
  if n ≤ input.length then some (input.take n, input.drop n) else none

/-- The major type and the argument of the next head; no argument when the length
is indefinite. Any of the five widths is read, whatever the value. -/
def header : Reader (Nat × Option Nat) := do
  let b ← byte
  let major := b.toNat / 32
  let info := b.toNat % 32
  if info < 24 then return (major, some info)
  else if info < 28 then return (major, some (ofBigEndian (← take (2 ^ (info - 24)))))
  else if info = 31 then return (major, none)
  else failure

/-- The argument of a head of the wanted major type. -/
def argument (major : Nat) : Reader (Option Nat) := do
  let (m, arg) ← header
  if m = major then return arg else failure

/-- An unsigned integer that fits `bits` bits. -/
def uint (bits : Nat) : Reader Nat := do
  match ← argument 0 with
  | some n => if n < 2 ^ bits then return n else failure
  | none => failure

/-- A byte string of definite length. -/
def bytes : Reader (List UInt8) := do
  match ← argument 2 with
  | some n => take n
  | none => failure

/-- A text of definite length that is UTF-8. -/
def text : Reader (List UInt8) := do
  match ← argument 3 with
  | some n =>
      let value ← take n
      if (ByteArray.mk value.toArray).validateUTF8 then return value else failure
  | none => failure

/-- The length of an array, `none` when it is indefinite. -/
def array : Reader (Option Nat) := argument 4

/-- The number of entries of a map, `none` when it is indefinite. -/
def map : Reader (Option Nat) := argument 5

/-- A field number. Negative ones are read, as no field has them. -/
def number : Reader Int := do
  match ← header with
  | (0, some n) => if n < 2 ^ 63 then return n else failure
  | (1, some n) => if n < 2 ^ 63 then return -1 - n else failure
  | _ => failure

def break? : Reader Bool := return (← peek) = 255

/-- Runs a reader `n` times. -/
def times {α : Type} (n : Nat) (r : Reader α) : Reader (List α) :=
  match n with
  | 0 => return []
  | n + 1 => return (← r) :: (← times n r)

/-- Runs a reader up to the break of an indefinite item; every run consumes input,
so the length of the input is fuel enough. -/
def untilBreak {α : Type} (fuel : Nat) (r : Reader α) : Reader (List α) :=
  match fuel with
  | 0 => failure
  | fuel + 1 => do
      if ← break? then
        let _ ← byte
        return []
      else return (← r) :: (← untilBreak fuel r)

/-- Skips one item of any kind, as far as `fuel` lets it nest. -/
def skip (fuel : Nat) : Reader Unit :=
  match fuel with
  | 0 => failure
  | fuel + 1 => do
      match ← header with
      | (0, some _) | (1, some _) | (7, some _) => return ()
      | (2, some n) | (3, some n) => let _ ← take n
      | (4, some n) => let _ ← times n (skip fuel)
      | (5, some n) => let _ ← times (2 * n) (skip fuel)
      | (6, some _) => skip fuel
      | (2, none) | (3, none) | (4, none) | (5, none) => let _ ← untilBreak fuel (skip fuel)
      | _ => failure

/-- An array read item by item. -/
def list {α : Type} (r : Reader α) : Reader (List α) := do
  match ← array with
  | some n => times n r
  | none => untilBreak ((← get).length + 1) r

/-- An optional item: null stands for its absence. -/
def nullable {α : Type} (r : Reader α) : Reader (Option α) := do
  if (← peek) = 246 then
    let _ ← byte
    return none
  else return some (← r)

/-- The fields of a record, in whatever order they come: `step` reads the value of a
known field into what was read before and returns nothing for an unknown number. -/
def fields {σ : Type} (step : Nat → σ → Option (Reader σ)) : Nat → σ → Reader σ
  | 0, s => return s
  | n + 1, s => do
      match ← number with
      | .ofNat k =>
          match step k s with
          | some r => fields step n (← r)
          | none => skip ((← get).length + 1); fields step n s
      | .negSucc _ => skip ((← get).length + 1); fields step n s

/-- The same up to the break of an indefinite map. -/
def fieldsUntilBreak {σ : Type} (step : Nat → σ → Option (Reader σ)) : Nat → σ → Reader σ
  | 0, _ => failure
  | fuel + 1, s => do
      if ← break? then
        let _ ← byte
        return s
      else
        match ← number with
        | .ofNat k =>
            match step k s with
            | some r => fieldsUntilBreak step fuel (← r)
            | none => skip ((← get).length + 1); fieldsUntilBreak step fuel s
        | .negSucc _ => skip ((← get).length + 1); fieldsUntilBreak step fuel s

/-- A record read into an accumulator of its fields. -/
def record {σ : Type} (step : Nat → σ → Option (Reader σ)) (init : σ) : Reader σ := do
  match ← map with
  | some n => fields step n init
  | none => fieldsUntilBreak step ((← get).length + 1) init

/-- A record with required fields, read into a value of its own type. The fields that
were seen are counted, so that a missing one is an error. -/
def struct {σ : Type} (required : List Nat) (step : Nat → σ → Option (Reader σ)) (init : σ) :
    Reader σ := do
  let (s, seen) ← record
    (fun k acc => (step k acc.1).map fun r => return (← r, k :: acc.2)) (init, [])
  if ∀ k ∈ required, k ∈ seen then return s else failure

end Reader

/-! ## What a decoder reads -/

/-- In front of any further input, `r` consumes exactly `input` and returns `a`. The
decoder may have errors of its own. -/
def Reads {m : Type → Type} [Monad m] {α : Type} (r : StateT (List UInt8) m α)
    (input : List UInt8) (a : α) : Prop :=
  ∀ rest, r (input ++ rest) = pure (a, rest)

section

variable {m : Type → Type} [Monad m] [LawfulMonad m] {α β σ : Type}

omit [LawfulMonad m] in
theorem Reads.pure (a : α) : Reads (Pure.pure a : StateT (List UInt8) m α) [] a := fun _ => rfl

/-- **Decoders compose.** -/
theorem Reads.bind {r : StateT (List UInt8) m α} {f : α → StateT (List UInt8) m β}
    {i j : List UInt8} {a : α} {b : β} (hr : Reads r i a) (hf : Reads (f a) j b) :
    Reads (r >>= f) (i ++ j) b := by
  intro rest
  rw [List.append_assoc]
  change (r (i ++ (j ++ rest)) >>= fun p => f p.1 p.2) = _
  rw [hr (j ++ rest), pure_bind]
  exact hf rest

theorem Reads.bind_pure {r : StateT (List UInt8) m α} {f : α → StateT (List UInt8) m β}
    {i : List UInt8} {a : α} {b : β} (hr : Reads r i a) (hf : Reads (f a) [] b) :
    Reads (r >>= f) i b := by
  simpa using hr.bind hf

/-- A step that reads nothing. -/
theorem Reads.nil_bind {r : StateT (List UInt8) m α} {f : α → StateT (List UInt8) m β}
    {j : List UInt8} {a : α} {b : β} (hr : Reads r [] a) (hf : Reads (f a) j b) :
    Reads (r >>= f) j b := by
  simpa using hr.bind hf

/-- A value that is read and put in its place. -/
theorem Reads.set {r : StateT (List UInt8) m α} {i : List UInt8} {a : α} (hr : Reads r i a)
    (f : α → β) : Reads (do return f (← r)) i (f a) :=
  hr.bind_pure (Reads.pure _)

/-- `r` consumes the whole input and returns `a`. -/
def ReadsAll (r : StateT (List UInt8) m α) (input : List UInt8) (a : α) : Prop :=
  r input = Pure.pure (a, [])

omit [LawfulMonad m] in
theorem Reads.all {r : StateT (List UInt8) m α} {i : List UInt8} {a : α} (hr : Reads r i a) :
    ReadsAll r i a := by
  have h := hr []
  rwa [List.append_nil] at h

theorem Reads.bind_all {r : StateT (List UInt8) m α} {f : α → StateT (List UInt8) m β}
    {i j : List UInt8} {a : α} {b : β} (hr : Reads r i a) (hf : ReadsAll (f a) j b) :
    ReadsAll (r >>= f) (i ++ j) b := by
  change (r (i ++ j) >>= fun p => f p.1 p.2) = _
  rw [hr j, pure_bind]
  exact hf

theorem Reads.nil_bind_all {r : StateT (List UInt8) m α} {f : α → StateT (List UInt8) m β}
    {j : List UInt8} {a : α} {b : β} (hr : Reads r [] a) (hf : ReadsAll (f a) j b) :
    ReadsAll (r >>= f) j b := hr.bind_all hf

theorem ReadsAll.bind {r : StateT (List UInt8) m α} {f : α → StateT (List UInt8) m β}
    {i : List UInt8} {a : α} {b : β} (hr : ReadsAll r i a) (hf : ReadsAll (f a) [] b) :
    ReadsAll (r >>= f) i b := by
  change (r i >>= fun p => f p.1 p.2) = _
  rw [hr, pure_bind]
  exact hf

theorem reads_byte (b : UInt8) : Reads Reader.byte [b] b := fun _ => rfl

theorem reads_take {n : Nat} {value : List UInt8} (h : value.length = n) :
    Reads (Reader.take n) value value := by
  intro rest
  subst h
  simp [Reader.take]

/-- Every shortest head is read back. -/
theorem reads_header {major n : Nat} (hm : major < 8) (hn : n < 2 ^ 64) :
    Reads Reader.header (head major n) (major, some n) := by
  -- a head with its argument in `2 ^ k` bytes after the initial byte
  have wide : ∀ k, k < 4 → n < 256 ^ 2 ^ k →
      Reads Reader.header (UInt8.ofNat (32 * major + (24 + k)) :: bigEndian (2 ^ k) n)
        (major, some n) := by
    intro k hk hlt
    have hb : (UInt8.ofNat (32 * major + (24 + k))).toNat = 32 * major + (24 + k) :=
      UInt8.toNat_ofNat_of_lt' (show _ < 2 ^ 8 by omega)
    rw [← List.singleton_append]
    refine (reads_byte _).bind ?_
    simp only [hb]
    rw [if_neg (by omega), if_pos (by omega), show (32 * major + (24 + k)) / 32 = major by omega,
      show (32 * major + (24 + k)) % 32 - 24 = k by omega]
    refine (reads_take (bigEndian_length _ _)).bind_pure ?_
    rw [ofBigEndian_bigEndian hlt]
    exact Reads.pure _
  unfold head
  split_ifs with h1 h2 h3 h4
  · have hb : (UInt8.ofNat (32 * major + n)).toNat = 32 * major + n :=
      UInt8.toNat_ofNat_of_lt' (show _ < 2 ^ 8 by omega)
    refine (reads_byte _).bind_pure ?_
    simp only [hb]
    rw [if_pos (by omega), show (32 * major + n) / 32 = major by omega,
      show (32 * major + n) % 32 = n by omega]
    exact Reads.pure _
  · exact wide 0 (by omega) (by simpa using h2)
  · exact wide 1 (by omega) (by simpa using h3)
  · exact wide 2 (by omega) (by simpa using h4)
  · exact wide 3 (by omega) (by simpa using hn)

theorem reads_argument {major n : Nat} (hm : major < 8) (hn : n < 2 ^ 64) :
    Reads (Reader.argument major) (head major n) (some n) := by
  refine (reads_header hm hn).bind_pure ?_
  simp only [if_true]
  exact Reads.pure _

theorem reads_uint {bits n : Nat} (hn : n < 2 ^ bits) (hb : bits ≤ 64) :
    Reads (Reader.uint bits) (uint n) n := by
  have h64 : n < 2 ^ 64 := Nat.lt_of_lt_of_le hn (Nat.pow_le_pow_right (by omega) hb)
  refine (reads_argument (by omega) h64).bind_pure ?_
  simp only [hn, if_true]
  exact Reads.pure _

theorem reads_bytes {value : List UInt8} (h : value.length < 2 ^ 64) :
    Reads Reader.bytes (bytes value) value :=
  (reads_argument (by omega) h).bind (reads_take rfl)

theorem reads_text {value : List UInt8} (h : value.length < 2 ^ 64)
    (hu : (ByteArray.mk value.toArray).validateUTF8 = true) :
    Reads Reader.text (text value) value := by
  refine (reads_argument (by omega) h).bind ((reads_take rfl).bind_pure ?_)
  simp only [hu, if_true]
  exact Reads.pure _

/-- ASCII is UTF-8: every byte is the encoding of the character it is. -/
theorem validateUTF8_ascii {value : List UInt8} (h : ∀ b ∈ value, b.toNat < 128) :
    (ByteArray.mk value.toArray).validateUTF8 = true := by
  have key : ∀ b : UInt8, b.toNat < 128 → String.utf8EncodeChar (Char.ofUInt8 b) = [b] := by
    intro b hb
    have hv : (Char.ofUInt8 b).val.toNat = b.toNat := by simp [Char.ofUInt8]
    unfold String.utf8EncodeChar
    simp only [hv]
    rw [if_pos (by omega)]
    simp
  rw [ByteArray.validateUTF8_eq_true_iff,
    show ByteArray.mk value.toArray = value.toByteArray from ByteArray.ext (by simp)]
  refine ⟨value.map Char.ofUInt8, ?_⟩
  rw [List.utf8Encode]
  congr 1
  induction value with
  | nil => rfl
  | cons b rest ih =>
      rw [List.map_cons, List.flatMap_cons, key b (h b (by simp)), List.singleton_append,
        ← ih fun c hc => h c (by simp [hc])]

theorem reads_number {n : Nat} (h : n < 2 ^ 63) :
    Reads Reader.number (uint n) (n : Int) := by
  refine (reads_header (by omega) (by omega)).bind_pure ?_
  simp only [h, if_true]
  exact Reads.pure _

/-- A counted run reads back its items when each item is read back. -/
theorem reads_times {r : Reader α} {enc : α → List UInt8} {items : List α}
    (h : ∀ a ∈ items, Reads r (enc a) a) :
    Reads (Reader.times items.length r) (items.map enc).flatten items := by
  induction items with
  | nil => exact Reads.pure _
  | cons a items ih =>
      simp only [List.map_cons, List.flatten_cons, List.length_cons, Reader.times]
      refine (h a (by simp)).bind ?_
      exact (ih fun b hb => h b (by simp [hb])).bind_pure (Reads.pure _)

theorem reads_list {r : Reader α} {enc : α → List UInt8} {items : List α}
    (hlen : items.length < 2 ^ 64) (h : ∀ a ∈ items, Reads r (enc a) a) :
    Reads (Reader.list r) (array (items.map enc)) items := by
  rw [array, List.length_map]
  exact (reads_argument (by omega) hlen).bind (reads_times h)

/-- No item that this encoder writes starts like null. -/
theorem head_ne_null {major : Nat} (hm : major < 7) (n : Nat) (rest : List UInt8) :
    ∃ b t, head major n ++ rest = b :: t ∧ b ≠ 246 := by
  have key : ∀ k, k < 28 → UInt8.ofNat (32 * major + k) ≠ 246 := by
    intro k hk h
    have := congrArg UInt8.toNat h
    rw [UInt8.toNat_ofNat_of_lt' (show _ < 2 ^ 8 by omega)] at this
    change 32 * major + k = 246 at this
    omega
  unfold head
  split_ifs with h
  · exact ⟨_, _, rfl, key n (by omega)⟩
  · exact ⟨_, _, rfl, key 24 (by omega)⟩
  · exact ⟨_, _, rfl, key 25 (by omega)⟩
  · exact ⟨_, _, rfl, key 26 (by omega)⟩
  · exact ⟨_, _, rfl, key 27 (by omega)⟩

theorem reads_nullable {r : Reader α} {v : List UInt8} {a : α} (hr : Reads r v a)
    (hv : ∃ b t, v = b :: t ∧ b ≠ 246) : Reads (Reader.nullable r) v (some a) := by
  intro rest
  obtain ⟨b, t, rfl, hb⟩ := hv
  have h := hr rest
  change (if b = 246 then (do let _ ← Reader.byte; return none : Reader (Option α))
    else (do return some (← r))) (b :: t ++ rest) = _
  rw [if_neg hb]
  change (r (b :: t ++ rest)).bind (fun p => some (some p.1, p.2)) = _
  rw [h]
  rfl

/-! ### Records -/

/-- The fields, read in order, turn `s` into `s'`. -/
def Fills (step : Nat → σ → Option (Reader σ)) : σ → List (Nat × List UInt8) → σ → Prop
  | s, [], s' => s' = s
  | s, (k, v) :: rest, s' =>
      k < 2 ^ 63 ∧ ∃ r s₁, step k s = some r ∧ Reads r v s₁ ∧ Fills step s₁ rest s'

theorem Fills.cons {step : Nat → σ → Option (Reader σ)} {s s₁ s' : σ} {k : Nat} {r : Reader σ}
    {v : List UInt8} {rest : List (Nat × List UInt8)} (hk : k < 2 ^ 63) (hs : step k s = some r)
    (hr : Reads r v s₁) (h : Fills step s₁ rest s') : Fills step s ((k, v) :: rest) s' :=
  ⟨hk, r, s₁, hs, hr, h⟩

theorem Fills.nil {step : Nat → σ → Option (Reader σ)} (s : σ) : Fills step s [] s := rfl

/-- An optional field fills its place or leaves the value as it was. -/
theorem Fills.optional {τ : Type} {step : Nat → σ → Option (Reader σ)} {s s' : σ} {k : Nat}
    (place : Option τ → σ) {x : Option τ} {encode : τ → List UInt8}
    {rest : List (Nat × List UInt8)} (hk : k < 2 ^ 63) (hnone : place none = s)
    (hsome : ∀ a, x = some a → ∃ r, step k s = some r ∧ Reads r (encode a) (place (some a)))
    (h : Fills step (place x) rest s') :
    Fills step s (optional k (x.map encode) ++ rest) s' := by
  cases x with
  | none => exact hnone ▸ h
  | some a =>
      obtain ⟨r, hs, hr⟩ := hsome a rfl
      exact Fills.cons hk hs hr h

theorem optional_length_le (k : Nat) (v : Option (List UInt8)) :
    (optional k v).length ≤ 1 := by
  cases v <;> simp [Cbor.optional]

theorem reads_fields {step : Nat → σ → Option (Reader σ)} {fs : List (Nat × List UInt8)}
    {s s' : σ} (seen : List Nat) (h : Fills step s fs s') :
    Reads (Reader.fields (fun k (acc : σ × List Nat) =>
        (step k acc.1).map fun r => do return (← r, k :: acc.2)) fs.length (s, seen))
      (fs.flatMap fun field => uint field.1 ++ field.2)
      (s', (fs.map Prod.fst).reverse ++ seen) := by
  induction fs generalizing s seen with
  | nil =>
      obtain rfl := h
      exact Reads.pure _
  | cons field rest ih =>
      obtain ⟨k, v⟩ := field
      obtain ⟨hk, r, s₁, hs, hr, h⟩ := h
      simp only [List.flatMap_cons, List.append_assoc, Reader.fields, List.length_cons]
      refine (reads_number hk).bind ?_
      simp only [hs, Option.map_some]
      have hr' : Reads (do return (← r, k :: seen) : Reader (σ × List Nat)) v (s₁, k :: seen) :=
        hr.bind_pure (Reads.pure _)
      simpa using hr'.bind (ih (k :: seen) h)

/-- **A record is read back** when its fields fill the value and none is missing. -/
theorem reads_struct {required : List Nat} {step : Nat → σ → Option (Reader σ)} {init s : σ}
    {fs : List (Nat × List UInt8)} (hlen : fs.length < 2 ^ 64) (h : Fills step init fs s)
    (hreq : ∀ k ∈ required, k ∈ fs.map Prod.fst) :
    Reads (Reader.struct required step init) (record fs) s := by
  have hall : Reads (Reader.record (fun k (acc : σ × List Nat) =>
      (step k acc.1).map fun r => do return (← r, k :: acc.2)) (init, [])) (record fs)
      (s, (fs.map Prod.fst).reverse ++ []) :=
    (reads_argument (by omega) hlen).bind (reads_fields [] h)
  refine hall.bind_pure ?_
  have hseen : ∀ k ∈ required, k ∈ (fs.map Prod.fst).reverse ++ [] := by simpa using hreq
  simp only [if_pos hseen]
  exact Reads.pure _

end

end Cbor
