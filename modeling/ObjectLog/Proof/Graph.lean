import ObjectLog.Proof.Canonical

/-!
# The object graph

What is under a reference is decided by the bytes its keys were created with. Those
never change, so a graph that is complete once stays the same graph: `Stored` says that
it is complete and matches its references, `Under` enumerates its keys, and `Reaches`
enumerates the keys of a whole head.

The count in a reference is one more than the sum of its children's counts. It makes the
graph well founded, which is why `Stored` can be an inductive predicate although the
walk that establishes it has a visited set.
-/

namespace ObjectLog

variable [Blake3]

/-- The bytes behind the keys. -/
abbrev Bodies := ImmutableKey → Option Bytes

/-- More keys, the same bytes. -/
def Bodies.Le (a b : Bodies) : Prop := ∀ k bytes, a k = some bytes → b k = some bytes

/-- The bytes a reference asks for. -/
structure Matches (body : Bodies) (inc : Uuid) (opts : Options) (r : ObjectRef) (bytes : Bytes) :
    Prop where
  stored : body (objectKey inc r) = some bytes
  digest : Digest.of bytes = r.digest
  len : bytes.length = r.len.toNat
  counted : r.Counted
  fits : r.len ≤ opts.maxObjectBytes

/-- The complete graph under a reference is there and matches its references. -/
inductive Stored (body : Bodies) (inc : Uuid) (opts : Options) : ObjectRef → Prop
  | blob {r : ObjectRef} {bytes : Bytes} (kind : r.kind = .blob)
      (m : Matches body inc opts r bytes) : Stored body inc opts r
  | node {r : ObjectRef} {bytes : Bytes} {n : Node} (kind : r.kind = .node)
      (m : Matches body inc opts r bytes) (hd : decodeNode bytes opts = .ok n)
      (hs : subtreeObjects n.children = .ok r.subtreeObjects)
      (hc : ∀ c ∈ n.children, Stored body inc opts c) : Stored body inc opts r

/-- The keys of the graph under a reference. -/
inductive Under (body : Bodies) (inc : Uuid) (opts : Options) : ObjectRef → ImmutableKey → Prop
  | self (r : ObjectRef) : Under body inc opts r (objectKey inc r)
  | child {r c : ObjectRef} {bytes : Bytes} {n : Node} {k : ImmutableKey} (kind : r.kind = .node)
      (hb : body (objectKey inc r) = some bytes) (hd : decodeNode bytes opts = .ok n)
      (hc : c ∈ n.children) (hu : Under body inc opts c k) : Under body inc opts r k

variable {body body' : Bodies} {inc : Uuid} {opts : Options} {r : ObjectRef} {k : ImmutableKey}

theorem Matches.mono {bytes : Bytes} (hle : body.Le body') (h : Matches body inc opts r bytes) :
    Matches body' inc opts r bytes :=
  ⟨hle _ _ h.stored, h.digest, h.len, h.counted, h.fits⟩

theorem Stored.mono (hle : body.Le body') (h : Stored body inc opts r) :
    Stored body' inc opts r := by
  induction h with
  | blob kind m => exact .blob kind (m.mono hle)
  | node kind m hd hs _ ih => exact .node kind (m.mono hle) hd hs ih

theorem Under.mono (hle : body.Le body') (h : Under body inc opts r k) :
    Under body' inc opts r k := by
  induction h with
  | self r => exact .self r
  | child kind hb hd hc _ ih => exact .child kind (hle _ _ hb) hd hc ih

theorem Stored.matches (h : Stored body inc opts r) :
    ∃ bytes, Matches body inc opts r bytes := by
  cases h with
  | blob _ m => exact ⟨_, m⟩
  | node _ m _ _ _ => exact ⟨_, m⟩

theorem Stored.kind_ne (h : Stored body inc opts r) : r.kind ≠ .checkpoint := by
  cases h with
  | blob kind _ => simp [kind]
  | node kind _ _ _ _ => simp [kind]

theorem Stored.childOk (h : Stored body inc opts r) : r.ChildOk opts := by
  obtain ⟨_, m⟩ := h.matches
  exact ⟨h.kind_ne, m.counted, m.fits⟩

/-- **A complete graph has no further keys later.** -/
theorem Under.back (hle : body.Le body') (hs : Stored body inc opts r)
    (h : Under body' inc opts r k) : Under body inc opts r k := by
  induction h with
  | self r => exact .self r
  | child kind hb hd hc _ ih =>
      cases hs with
      | blob kind' _ => rw [kind] at kind'; cases kind'
      | node _ m hd' _ hstored =>
          have he := (hle _ _ m.stored).symm.trans hb
          obtain rfl := Option.some.inj he
          obtain rfl := Except.ok.inj (hd'.symm.trans hd)
          exact .child kind m.stored hd hc (ih (hstored _ hc))

/-- Every key of a complete graph has its bytes. -/
theorem Under.body_isSome (hs : Stored body inc opts r) (h : Under body inc opts r k) :
    (body k).isSome := by
  induction h with
  | self r =>
      obtain ⟨_, m⟩ := hs.matches
      rw [m.stored]; rfl
  | child kind hb hd hc _ ih =>
      cases hs with
      | blob kind' _ => rw [kind] at kind'; cases kind'
      | node _ m hd' _ hstored =>
          obtain rfl := Option.some.inj (m.stored.symm.trans hb)
          obtain rfl := Except.ok.inj (hd'.symm.trans hd)
          exact ih (hstored _ hc)

theorem Under.kind_ne (hs : Stored body inc opts r) (h : Under body inc opts r k) :
    k.kind = .blob ∨ k.kind = .node := by
  induction h with
  | self r =>
      have := hs.kind_ne
      cases hk : r.kind <;> simp_all [objectKey, ObjectKind.immutable]
  | child kind hb hd hc _ ih =>
      cases hs with
      | blob kind' _ => rw [kind] at kind'; cases kind'
      | node _ m hd' _ hstored =>
          obtain rfl := Option.some.inj (m.stored.symm.trans hb)
          obtain rfl := Except.ok.inj (hd'.symm.trans hd)
          exact ih (hstored _ hc)

theorem Under.incarnation (h : Under body inc opts r k) : k.incarnation = inc := by
  induction h with
  | self r => rfl
  | child _ _ _ _ _ ih => exact ih

/-! ## Commits and checkpoints -/

/-- The checks a handle makes on the dependencies of a record. They depend on the limits
alone. -/
def Options.AllowDependencies (opts : Options) (objects : List ObjectRef) : Prop :=
  ∀ log : Log, log.options = opts → log.validateDependencies objects = .ok ()

/-- The body behind a commit reference. -/
structure CommitBody (body : Bodies) (h : Head) (c : CommitRef) (commit : Commit) : Prop where
  stored : body (commitKey h.incarnation c) = some (encodeCommit commit)
  digest : Digest.of (encodeCommit commit) = c.digest
  len : (encodeCommit commit).length = c.len.toNat
  fits : c.len ≤ h.options.maxCommitBytes
  logId : commit.logId = h.logId
  incarnation : commit.incarnation = h.incarnation
  transactionId : commit.transactionId = c.transactionId
  operation : commit.operation.length ≤ h.options.maxInlineOperationBytes.toNat
  result : commit.result.length ≤ h.options.maxInlineResultBytes.toNat
  dependencies : h.options.AllowDependencies commit.objects
  objects : ∀ o ∈ commit.objects, Stored body h.incarnation h.options o

/-- The body behind a checkpoint reference. -/
structure CheckpointBody (body : Bodies) (h : Head) (c : CheckpointRef) (checkpoint : Checkpoint) :
    Prop where
  stored : body (objectKey h.incarnation c.object) = some (encodeCheckpoint checkpoint)
  digest : Digest.of (encodeCheckpoint checkpoint) = c.object.digest
  len : (encodeCheckpoint checkpoint).length = c.object.len.toNat
  fits : c.object.len ≤ h.options.maxCheckpointBytes ∧ c.object.len ≤ h.options.maxObjectBytes
  counted : c.object.Counted
  subtree : subtreeObjects checkpoint.objects = .ok c.object.subtreeObjects
  logId : checkpoint.logId = h.logId
  incarnation : checkpoint.incarnation = h.incarnation
  throughSequence : checkpoint.throughSequence = c.throughSequence
  throughCommit : checkpoint.throughCommit = c.throughCommit
  dependencies : h.options.AllowDependencies checkpoint.objects
  objects : ∀ o ∈ checkpoint.objects, Stored body h.incarnation h.options o

variable {h : Head}

theorem CommitBody.mono {c : CommitRef} {commit : Commit} (hle : body.Le body')
    (b : CommitBody body h c commit) : CommitBody body' h c commit :=
  { b with stored := hle _ _ b.stored, objects := fun o ho => (b.objects o ho).mono hle }

theorem CheckpointBody.mono {c : CheckpointRef} {ck : Checkpoint} (hle : body.Le body')
    (b : CheckpointBody body h c ck) : CheckpointBody body' h c ck :=
  { b with stored := hle _ _ b.stored, objects := fun o ho => (b.objects o ho).mono hle }

theorem CommitBody.congr {h' : Head} {c : CommitRef} {commit : Commit} (hl : h'.logId = h.logId)
    (hi : h'.incarnation = h.incarnation) (ho : h'.options = h.options)
    (b : CommitBody body h c commit) : CommitBody body h' c commit where
  stored := hi ▸ b.stored
  digest := b.digest
  len := b.len
  fits := ho ▸ b.fits
  logId := b.logId.trans hl.symm
  incarnation := b.incarnation.trans hi.symm
  transactionId := b.transactionId
  operation := ho ▸ b.operation
  result := ho ▸ b.result
  dependencies := ho ▸ b.dependencies
  objects := by rw [hi, ho]; exact b.objects

theorem CheckpointBody.congr {h' : Head} {c : CheckpointRef} {ck : Checkpoint}
    (hl : h'.logId = h.logId) (hi : h'.incarnation = h.incarnation)
    (ho : h'.options = h.options) (b : CheckpointBody body h c ck) :
    CheckpointBody body h' c ck where
  stored := hi ▸ b.stored
  digest := b.digest
  len := b.len
  fits := ho ▸ b.fits
  counted := b.counted
  subtree := b.subtree
  logId := b.logId.trans hl.symm
  incarnation := b.incarnation.trans hi.symm
  throughSequence := b.throughSequence
  throughCommit := b.throughCommit
  dependencies := ho ▸ b.dependencies
  objects := by rw [hi, ho]; exact b.objects

theorem CommitBody.decode {c : CommitRef} {commit : Commit} (b : CommitBody body h c commit) :
    decodeCommit (encodeCommit commit) = .ok commit := by
  refine decodeCommit_encodeCommit (fun r hr => (b.objects r hr).childOk.counted) ?_
  rw [b.len]
  exact UInt64.toNat_lt _

theorem CheckpointBody.decode {c : CheckpointRef} {ck : Checkpoint}
    (b : CheckpointBody body h c ck) : decodeCheckpoint (encodeCheckpoint ck) = .ok ck := by
  refine decodeCheckpoint_encodeCheckpoint (fun r hr => (b.objects r hr).childOk.counted) ?_
  rw [b.len]
  exact UInt64.toNat_lt _

/-- The keys of a head: the bodies of its tail, its checkpoint, and all that is under
them. The active plan is not among them. -/
inductive Reaches (body : Bodies) (h : Head) : ImmutableKey → Prop
  | commit {c : CommitRef} (hc : c ∈ h.tail) : Reaches body h (commitKey h.incarnation c)
  | commitObject {c : CommitRef} {bytes : Bytes} {commit : Commit} {o : ObjectRef}
      {k : ImmutableKey} (hc : c ∈ h.tail) (hb : body (commitKey h.incarnation c) = some bytes)
      (hd : decodeCommit bytes = .ok commit) (ho : o ∈ commit.objects)
      (hu : Under body h.incarnation h.options o k) : Reaches body h k
  | checkpoint {c : CheckpointRef} (hc : h.checkpoint = some c) :
      Reaches body h (objectKey h.incarnation c.object)
  | checkpointObject {c : CheckpointRef} {bytes : Bytes} {ck : Checkpoint} {o : ObjectRef}
      {k : ImmutableKey} (hc : h.checkpoint = some c)
      (hb : body (objectKey h.incarnation c.object) = some bytes)
      (hd : decodeCheckpoint bytes = .ok ck) (ho : o ∈ ck.objects)
      (hu : Under body h.incarnation h.options o k) : Reaches body h k

/-- The graph of a head is complete. -/
structure HeadStored (body : Bodies) (h : Head) : Prop where
  commits : ∀ c ∈ h.tail, ∃ commit, CommitBody body h c commit
  checkpoint : ∀ c, h.checkpoint = some c → ∃ ck, CheckpointBody body h c ck

theorem HeadStored.mono (hle : body.Le body') (hs : HeadStored body h) : HeadStored body' h := by
  refine ⟨fun c hc => ?_, fun c hc => ?_⟩
  · obtain ⟨commit, b⟩ := hs.commits c hc
    exact ⟨commit, b.mono hle⟩
  · obtain ⟨ck, b⟩ := hs.checkpoint c hc
    exact ⟨ck, b.mono hle⟩

theorem Reaches.mono (hle : body.Le body') (hr : Reaches body h k) : Reaches body' h k := by
  cases hr with
  | commit hc => exact .commit hc
  | commitObject hc hb hd ho hu => exact .commitObject hc (hle _ _ hb) hd ho (hu.mono hle)
  | checkpoint hc => exact .checkpoint hc
  | checkpointObject hc hb hd ho hu =>
      exact .checkpointObject hc (hle _ _ hb) hd ho (hu.mono hle)

/-- **A complete head reaches no further keys later.** -/
theorem Reaches.back (hle : body.Le body') (hs : HeadStored body h) (hr : Reaches body' h k) :
    Reaches body h k := by
  cases hr with
  | commit hc => exact .commit hc
  | commitObject hc hb hd ho hu =>
      obtain ⟨commit, b⟩ := hs.commits _ hc
      obtain rfl := Option.some.inj ((hle _ _ b.stored).symm.trans hb)
      obtain rfl := Except.ok.inj (b.decode.symm.trans hd)
      exact .commitObject hc b.stored hd ho (hu.back hle (b.objects _ ho))
  | checkpoint hc => exact .checkpoint hc
  | checkpointObject hc hb hd ho hu =>
      obtain ⟨ck, b⟩ := hs.checkpoint _ hc
      obtain rfl := Option.some.inj ((hle _ _ b.stored).symm.trans hb)
      obtain rfl := Except.ok.inj (b.decode.symm.trans hd)
      exact .checkpointObject hc b.stored hd ho (hu.back hle (b.objects _ ho))

theorem Reaches.body_isSome (hs : HeadStored body h) (hr : Reaches body h k) :
    (body k).isSome := by
  cases hr with
  | commit hc =>
      obtain ⟨_, b⟩ := hs.commits _ hc
      rw [b.stored]; rfl
  | commitObject hc hb hd ho hu =>
      obtain ⟨commit, b⟩ := hs.commits _ hc
      obtain rfl := Option.some.inj (b.stored.symm.trans hb)
      obtain rfl := Except.ok.inj (b.decode.symm.trans hd)
      exact hu.body_isSome (b.objects _ ho)
  | checkpoint hc =>
      obtain ⟨_, b⟩ := hs.checkpoint _ hc
      rw [b.stored]; rfl
  | checkpointObject hc hb hd ho hu =>
      obtain ⟨ck, b⟩ := hs.checkpoint _ hc
      obtain rfl := Option.some.inj (b.stored.symm.trans hb)
      obtain rfl := Except.ok.inj (b.decode.symm.trans hd)
      exact hu.body_isSome (b.objects _ ho)

/-- A head whose tail and checkpoint are those of another reaches the same keys. -/
theorem Reaches.congr {h' : Head} (ht : h'.tail = h.tail) (hc : h'.checkpoint = h.checkpoint)
    (hi : h'.incarnation = h.incarnation) (ho : h'.options = h.options)
    (hr : Reaches body h' k) : Reaches body h k := by
  cases hr with
  | commit hm => rw [hi]; exact .commit (ht ▸ hm)
  | commitObject hm hb hd hx hu =>
      rw [hi] at hb hu
      rw [ho] at hu
      exact .commitObject (ht ▸ hm) hb hd hx hu
  | checkpoint hm => rw [hi]; exact .checkpoint (hc ▸ hm)
  | checkpointObject hm hb hd hx hu =>
      rw [hi] at hb hu
      rw [ho] at hu
      exact .checkpointObject (hc ▸ hm) hb hd hx hu

/-! ## References -/

/-- The references of the graph under a reference. -/
inductive UnderRef (body : Bodies) (inc : Uuid) (opts : Options) : ObjectRef → ObjectRef → Prop
  | self (r : ObjectRef) : UnderRef body inc opts r r
  | child {r c x : ObjectRef} {bytes : Bytes} {n : Node} (kind : r.kind = .node)
      (hb : body (objectKey inc r) = some bytes) (hd : decodeNode bytes opts = .ok n)
      (hc : c ∈ n.children) (hu : UnderRef body inc opts c x) : UnderRef body inc opts r x

/-- The references to blobs and nodes in the graph of a head. -/
inductive Inside (body : Bodies) (h : Head) : ObjectRef → Prop
  | commitObject {c : CommitRef} {bytes : Bytes} {commit : Commit} {o r : ObjectRef}
      (hc : c ∈ h.tail) (hb : body (commitKey h.incarnation c) = some bytes)
      (hd : decodeCommit bytes = .ok commit) (ho : o ∈ commit.objects)
      (hu : UnderRef body h.incarnation h.options o r) : Inside body h r
  | checkpointObject {c : CheckpointRef} {bytes : Bytes} {ck : Checkpoint} {o r : ObjectRef}
      (hc : h.checkpoint = some c) (hb : body (objectKey h.incarnation c.object) = some bytes)
      (hd : decodeCheckpoint bytes = .ok ck) (ho : o ∈ ck.objects)
      (hu : UnderRef body h.incarnation h.options o r) : Inside body h r

theorem UnderRef.under {o : ObjectRef} (h : UnderRef body inc opts o r) :
    Under body inc opts o (objectKey inc r) := by
  induction h with
  | self r => exact .self r
  | child kind hb hd hc _ ih => exact .child kind hb hd hc ih

theorem UnderRef.stored {o : ObjectRef} (hs : Stored body inc opts o)
    (h : UnderRef body inc opts o r) : Stored body inc opts r := by
  induction h with
  | self r => exact hs
  | child kind hb hd hc _ ih =>
      cases hs with
      | blob kind' _ => rw [kind] at kind'; cases kind'
      | node _ m hd' _ hstored =>
          obtain rfl := Option.some.inj (m.stored.symm.trans hb)
          obtain rfl := Except.ok.inj (hd'.symm.trans hd)
          exact ih (hstored _ hc)

theorem UnderRef.back {o : ObjectRef} (hle : body.Le body') (hs : Stored body inc opts o)
    (h : UnderRef body' inc opts o r) : UnderRef body inc opts o r := by
  induction h with
  | self r => exact .self r
  | child kind hb hd hc _ ih =>
      cases hs with
      | blob kind' _ => rw [kind] at kind'; cases kind'
      | node _ m hd' _ hstored =>
          have he := (hle _ _ m.stored).symm.trans hb
          obtain rfl := Option.some.inj he
          obtain rfl := Except.ok.inj (hd'.symm.trans hd)
          exact .child kind m.stored hd hc (ih (hstored _ hc))

theorem Inside.reaches (hi : Inside body h r) : Reaches body h (objectKey h.incarnation r) := by
  cases hi with
  | commitObject hc hb hd ho hu => exact .commitObject hc hb hd ho hu.under
  | checkpointObject hc hb hd ho hu => exact .checkpointObject hc hb hd ho hu.under

theorem Inside.stored (hs : HeadStored body h) (hi : Inside body h r) :
    Stored body h.incarnation h.options r := by
  cases hi with
  | commitObject hc hb hd ho hu =>
      obtain ⟨commit, b⟩ := hs.commits _ hc
      obtain rfl := Option.some.inj (b.stored.symm.trans hb)
      obtain rfl := Except.ok.inj (b.decode.symm.trans hd)
      exact hu.stored (b.objects _ ho)
  | checkpointObject hc hb hd ho hu =>
      obtain ⟨ck, b⟩ := hs.checkpoint _ hc
      obtain rfl := Option.some.inj (b.stored.symm.trans hb)
      obtain rfl := Except.ok.inj (b.decode.symm.trans hd)
      exact hu.stored (b.objects _ ho)

/-- A complete head has no further references later. -/
theorem Inside.back (hle : body.Le body') (hs : HeadStored body h) (hi : Inside body' h r) :
    Inside body h r := by
  cases hi with
  | commitObject hc hb hd ho hu =>
      obtain ⟨commit, b⟩ := hs.commits _ hc
      obtain rfl := Option.some.inj ((hle _ _ b.stored).symm.trans hb)
      obtain rfl := Except.ok.inj (b.decode.symm.trans hd)
      exact .commitObject hc b.stored hd ho (hu.back hle (b.objects _ ho))
  | checkpointObject hc hb hd ho hu =>
      obtain ⟨ck, b⟩ := hs.checkpoint _ hc
      obtain rfl := Option.some.inj ((hle _ _ b.stored).symm.trans hb)
      obtain rfl := Except.ok.inj (b.decode.symm.trans hd)
      exact .checkpointObject hc b.stored hd ho (hu.back hle (b.objects _ ho))

/-- The children of a node in the graph are in it. -/
theorem UnderRef.trans {o x : ObjectRef} (a : UnderRef body inc opts o r)
    (b : UnderRef body inc opts r x) : UnderRef body inc opts o x := by
  induction a with
  | self r => exact b
  | child kind hb hd hc _ ih => exact .child kind hb hd hc (ih b)

theorem Inside.child {x : ObjectRef} {bytes : Bytes} {n : Node} (hi : Inside body h r)
    (kind : r.kind = .node) (hb : body (objectKey h.incarnation r) = some bytes)
    (hd : decodeNode bytes h.options = .ok n) (hx : x ∈ n.children) : Inside body h x := by
  have hu : UnderRef body h.incarnation h.options r x := .child kind hb hd hx (.self x)
  cases hi with
  | commitObject hc hb hd ho h₁ => exact .commitObject hc hb hd ho (h₁.trans hu)
  | checkpointObject hc hb hd ho h₁ => exact .checkpointObject hc hb hd ho (h₁.trans hu)

end ObjectLog
