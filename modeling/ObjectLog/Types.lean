import Mathlib

/-!
# The values of the log

Identities, references, limits and errors, under the source's names. Every `u64` of
the source is a `UInt64` here, and so is every `usize`: the log is modelled on a
64-bit target. Sums that the source checks are checked here (`checkedAdd`).
-/

namespace ObjectLog

abbrev Bytes := List UInt8

/-! ## Checked machine integers -/

/-- `u64::checked_add`. -/
def checkedAdd (a b : UInt64) : Option UInt64 :=
  if a.toNat + b.toNat < 2 ^ 64 then some (a + b) else none

/-- `u64::try_from` of a length. -/
def toU64 (n : Nat) : Option UInt64 :=
  if n < 2 ^ 64 then some (UInt64.ofNat n) else none

theorem checkedAdd_toNat {a b c : UInt64} (h : checkedAdd a b = some c) :
    c.toNat = a.toNat + b.toNat := by
  unfold checkedAdd at h
  split at h
  · rename_i hlt
    obtain rfl := Option.some.inj h
    rw [UInt64.toNat_add, Nat.mod_eq_of_lt hlt]
  · exact absurd h (by simp)

theorem checkedAdd_eq_some {a b : UInt64} (h : a.toNat + b.toNat < 2 ^ 64) :
    checkedAdd a b = some (a + b) := if_pos h

theorem checkedAdd_eq_none {a b : UInt64} (h : checkedAdd a b = none) :
    2 ^ 64 ≤ a.toNat + b.toNat := by
  unfold checkedAdd at h
  split at h
  · exact absurd h (by simp)
  · omega

theorem toU64_toNat {n : Nat} {x : UInt64} (h : toU64 n = some x) : x.toNat = n := by
  unfold toU64 at h
  split at h
  · rename_i hlt
    obtain rfl := Option.some.inj h
    exact UInt64.toNat_ofNat_of_lt' hlt
  · exact absurd h (by simp)

theorem toU64_eq_some {n : Nat} (h : n < 2 ^ 64) : toU64 n = some (UInt64.ofNat n) := if_pos h

/-! ## Errors -/

/-- The object store's own failures. Only the generic one is retried by a read. -/
inductive StoreError
  | generic
  | other
  deriving DecidableEq, Repr

inductive Error
  | logNotFound
  | invalidLogId
  | invalidDigest
  | invalidFormat (message : String)
  | corruptObject
  | viewExpired
  | invalidStagedObject
  | collectionFence
  | unsupportedBackend (name : String)
  | limitExceeded (what : String)
  | configurationMismatch (what : String)
  | requestDenied
  | store (error : StoreError)
  deriving DecidableEq, Repr

/-- `invalid` of the source: a protocol value violates the contract. -/
def invalid (message : String) : Error := .invalidFormat message

/-- `Option::ok_or`. -/
def okOr {α : Type} (o : Option α) (e : Error) : Except Error α :=
  match o with
  | some a => .ok a
  | none => .error e

/-- A check that stops a computation. -/
def ensure (p : Prop) [Decidable p] (e : Error) : Except Error Unit :=
  if p then .ok () else .error e

@[simp] theorem ensure_ok {p : Prop} [Decidable p] {e : Error} {u : Unit} :
    ensure p e = .ok u ↔ p := by
  unfold ensure; split <;> simp [*]

@[simp] theorem okOr_ok {α : Type} {o : Option α} {e : Error} {a : α} :
    okOr o e = .ok a ↔ o = some a := by
  cases o <;> simp [okOr]

/-- A computation that ends well is made of steps that do. -/
theorem bind_ok {ε α β : Type} {x : Except ε α} {f : α → Except ε β} {b : β} :
    (x >>= f) = .ok b ↔ ∃ a, x = .ok a ∧ f a = .ok b := by
  cases x <;> simp [bind, Except.bind]

/-- The error of a computation is the error of its first step that fails. -/
theorem bind_error {ε α β : Type} {x : Except ε α} {f : α → Except ε β} {e : ε} :
    (x >>= f) = .error e ↔ x = .error e ∨ ∃ a, x = .ok a ∧ f a = .error e := by
  cases x <;> simp [bind, Except.bind]

theorem ensure_error {p : Prop} [Decidable p] {e e' : Error} (h : ensure p e = .error e') :
    e' = e := by
  unfold ensure at h
  split at h
  · cases h
  · exact (Except.error.inj h).symm

theorem okOr_error {α : Type} {o : Option α} {e e' : Error} (h : okOr o e = .error e') :
    e' = e := by
  cases o with
  | some a => cases h
  | none => exact (Except.error.inj h).symm

/-! ## Identities -/

abbrev Uuid := Fin (2 ^ 128)

instance Uuid.neZero : NeZero (2 ^ 128 : Nat) := ⟨by decide⟩

/-- A BLAKE3 digest. -/
structure Digest where
  val : Fin (2 ^ 256)
  deriving DecidableEq

instance Digest.neZero : NeZero (2 ^ 256 : Nat) := ⟨by decide⟩

/-- The hash the format rests on. It is code outside the repository. -/
class Blake3 where
  hash : Bytes → Digest

/-- `Digest::of`. -/
def Digest.of [Blake3] (bytes : Bytes) : Digest := Blake3.hash bytes

structure TransactionId where
  uuid : Uuid
  deriving DecidableEq

structure RetentionId where
  uuid : Uuid
  deriving DecidableEq

structure StorageId where
  uuid : Uuid
  deriving DecidableEq

instance : LinearOrder Digest :=
  LinearOrder.lift' Digest.val fun a b h => by cases a; cases b; simpa using h

instance : LinearOrder RetentionId :=
  LinearOrder.lift' RetentionId.uuid fun a b h => by cases a; cases b; simpa using h

instance : LinearOrder StorageId :=
  LinearOrder.lift' StorageId.uuid fun a b h => by cases a; cases b; simpa using h

/-- The members of a set in increasing order, as a `BTreeSet` iterates over them. -/
def ascending (ids : Finset RetentionId) : List RetentionId :=
  Quot.liftOn ids.val (List.insertionSort (· ≤ ·)) fun a b h =>
    ((List.perm_insertionSort _ a).trans (h.trans (List.perm_insertionSort _ b).symm)).eq_of_pairwise'
      (r := (· ≤ ·)) (List.pairwise_insertionSort _ a) (List.pairwise_insertionSort _ b)

theorem ascending_eq_sort (ids : Finset RetentionId) : ascending ids = ids.sort (· ≤ ·) := by
  obtain ⟨m, hm⟩ := ids
  induction m using Quot.inductionOn with
  | h l => exact (List.mergeSort_eq_insertionSort (· ≤ ·) l).symm

/-- The bytes a log identifier may have. -/
def logIdByte (b : UInt8) : Bool :=
  (48 ≤ b && b ≤ 57) || (65 ≤ b && b ≤ 90) || (97 ≤ b && b ≤ 122) ||
    b == 45 || b == 95 || b == 46

def maxLogIdLen : Nat := 128

/-- What `LogId::new` accepts: safe bytes, not empty, not too long, not a dot path. -/
def logIdValid (value : Bytes) : Bool :=
  !value.isEmpty && decide (value.length ≤ maxLogIdLen) && value.all logIdByte &&
    value != [46] && value != [46, 46]

/-- A validated log identifier. All its bytes are ASCII, so the text is its bytes. -/
structure LogId where
  value : Bytes
  valid : logIdValid value = true
  deriving DecidableEq

/-- `LogId::new`. -/
def LogId.new (value : Bytes) : Except Error LogId :=
  if h : logIdValid value = true then .ok ⟨value, h⟩ else .error .invalidLogId

/-! ## References -/

inductive ObjectKind
  | blob
  | node
  | checkpoint
  deriving DecidableEq, Repr

/-- A content-addressed immutable object reference. -/
structure ObjectRef where
  kind : ObjectKind
  storageId : StorageId
  digest : Digest
  len : UInt64
  subtreeObjects : UInt64
  deriving DecidableEq

/-- `ObjectRef::validate_count`. -/
def ObjectRef.validateCount (r : ObjectRef) : Except Error Unit :=
  ensure (¬ (r.subtreeObjects = 0 ∨ (r.kind = .blob ∧ r.subtreeObjects ≠ 1))) .corruptObject

/-- An ordered reference to one committed WAL entry. -/
structure CommitRef where
  sequence : UInt64
  transactionId : TransactionId
  storageId : StorageId
  digest : Digest
  len : UInt64
  deriving DecidableEq

/-- A reference to a snapshot and its exact covered commit. -/
structure CheckpointRef where
  throughSequence : UInt64
  throughCommit : Digest
  object : ObjectRef
  deriving DecidableEq

structure CollectionPlanRef where
  storageId : StorageId
  digest : Digest
  len : UInt64
  deriving DecidableEq

/-! ## Physical keys -/

/-- The role of one immutable physical object, in the order the source compares. -/
inductive ImmutableKind
  | commit
  | blob
  | node
  | checkpoint
  | collectionPlan
  deriving DecidableEq, Repr

def ImmutableKind.rank : ImmutableKind → Nat
  | .commit => 0
  | .blob => 1
  | .node => 2
  | .checkpoint => 3
  | .collectionPlan => 4

theorem ImmutableKind.rank_injective : Function.Injective ImmutableKind.rank := by
  intro a b h
  cases a <;> cases b <;> simp_all [ImmutableKind.rank]

instance : LinearOrder ImmutableKind :=
  LinearOrder.lift' ImmutableKind.rank ImmutableKind.rank_injective

/-- One immutable physical key that cannot address the mutable head. -/
structure ImmutableKey where
  incarnation : Uuid
  kind : ImmutableKind
  storageId : StorageId
  digest : Digest
  deriving DecidableEq

/-- The key as a tuple, compared field by field. -/
def ImmutableKey.tuple (k : ImmutableKey) :
    Uuid ×ₗ (ImmutableKind ×ₗ (StorageId ×ₗ Digest)) :=
  toLex (k.incarnation, toLex (k.kind, toLex (k.storageId, k.digest)))

theorem ImmutableKey.tuple_injective : Function.Injective ImmutableKey.tuple := by
  intro a b h
  cases a; cases b
  simp only [ImmutableKey.tuple, EmbeddingLike.apply_eq_iff_eq, Prod.mk.injEq] at h
  obtain ⟨h1, h2, h3, h4⟩ := h
  simp [h1, h2, h3, h4]

instance : LinearOrder ImmutableKey :=
  LinearOrder.lift' ImmutableKey.tuple ImmutableKey.tuple_injective

/-! ## Limits -/

/-- Durable limits for one logical log namespace. -/
structure Options where
  maxTailEntries : UInt64
  resolutionWindow : UInt64
  maxInlineOperationBytes : UInt64
  maxInlineResultBytes : UInt64
  maxObjectRefs : UInt64
  maxObjectBytes : UInt64
  maxCommitBytes : UInt64
  maxHeadBytes : UInt64
  maxCheckpointBytes : UInt64
  maxRetentionIds : UInt64
  maxCollectionObjects : UInt64
  maxCollectionPlanBytes : UInt64
  deriving DecidableEq

/-- `Options::default`. -/
def Options.default : Options where
  maxTailEntries := 1024
  resolutionWindow := 1024
  maxInlineOperationBytes := 64 * 1024
  maxInlineResultBytes := 4 * 1024
  maxObjectRefs := 1024
  maxObjectBytes := 64 * 1024 * 1024
  maxCommitBytes := 1024 * 1024
  maxHeadBytes := 256 * 1024
  maxCheckpointBytes := 16 * 1024 * 1024
  maxRetentionIds := 1024
  maxCollectionObjects := 100000
  maxCollectionPlanBytes := 16 * 1024 * 1024

instance : Inhabited Options := ⟨Options.default⟩

/-! ## Storage versions -/

/-- The opaque token of one stored state of the head. -/
structure UpdateVersion where
  eTag : Option String
  version : Option String
  deriving DecidableEq

end ObjectLog
