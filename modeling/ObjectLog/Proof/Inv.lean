import ObjectLog.Proof.Order
import ObjectLog.Proof.HeadChange

/-!
# The invariant of the system

One clause carries the rest. Every durable head after the first was put by a request that
replaces the head before it by one of the seven changes, and the change was *justified*:
what it makes reachable is stored and in no plan so far, what it plans to delete is not
reachable, what it declares deleted was answered as deleted. Justifications only mention
facts that stay true, so they are stated when the request is submitted and still hold when
it lands.

Around it stand the facts about single requests (`FlightOK`), about the keys (`CreatedOK`,
`lost`), about identities (each is drawn once and creates one object), and about what the
callers hold (`ItemOK`).
-/

set_option linter.unusedSectionVars false

namespace ObjectLog

variable [Blake3]

/-! ## Candidates -/

/-- Only the generation and the retentions differ. -/
def SameBase (h h' : Head) : Prop := h.hasSamePublicationBase h' = true

/-- The reference a publication call is about, as its program computes it. -/
def Call.target : Call → Option CommitRef
  | .commit log p => (log.encodePrepared p).toOption.map Prod.fst
  | .resolve log pending =>
      match pending.prepared with
      | some _ => some pending.commitRef
      | none => do
          let token ← pending.recoveryToken.toOption
          let recovered ← (decodeRecoveryToken token).toOption
          (log.recoveredCommitRef recovered).toOption
  | .resume log token => do
      let recovered ← (decodeRecoveryToken token).toOption
      (log.recoveredCommitRef recovered).toOption
  | _ => none

/-- Call `q` prepared `p`: it passed the checks of `prepare` and drew the identity. -/
structure State.Prepared (s : State) (q : Nat) (log : Log) (p : PreparedCommit) : Prop where
  call : ∃ b objects, s.calls[q]? = some b ∧
    b.call = .prepare log p.view p.transactionId p.operation p.result objects ∧
    p.objects = objects.map StagedObject.object
  id : (p.storageId, q) ∈ s.ids

/-- What `prepare` has checked before it draws an identity. -/
def State.DrawOK (s : State) (t : Nat) : Prop :=
  ∃ b, s.calls[t]? = some b ∧ ∀ log view transactionId operation result objects,
    b.call = .prepare log view transactionId operation result objects →
    log.validateStagedObjects view objects = .ok () ∧
    (∃ n, log.publicationObjects (objects.map StagedObject.object) = .ok n) ∧
    log.validatePreparedSizes operation result = .ok () ∧
    log.validateCommitPosition view transactionId = .ok ()

/-! ## Justified changes -/

/-- A checkpoint body whose graph is proven up to epoch `e`. -/
structure State.CheckpointProven (s : State) (h : Head) (e : Nat) (c : CheckpointRef) : Prop where
  kind : c.object.kind = .checkpoint
  avoids : s.Avoids e (objectKey h.incarnation c.object)
  body : ∃ ck, CheckpointBody s.body h c ck ∧ ∀ o ∈ ck.objects, s.Proven h e o

/-- The call that created the checkpoint `c`, on a view `source`. -/
def State.CheckpointOf (s : State) (c : CheckpointRef) (through : CommitRef) (source : View) :
    Prop :=
  ∃ q b log snapshot objects, s.calls[q]? = some b ∧
    b.call = .publishCheckpoint log source through snapshot objects ∧
    (c.object.storageId, q) ∈ s.ids ∧ c.throughSequence = through.sequence ∧
    c.throughCommit = through.digest

/-- Call `t` publishes the checkpoint `c`: it created it, or it resolves it. -/
def State.Publishes (s : State) (t : Nat) (c : CheckpointRef) : Prop :=
  (c.object.storageId, t) ∈ s.ids ∨ ∃ b log pending, s.calls[t]? = some b ∧
    b.call = .resolveCheckpoint log pending ∧ pending.checkpoint = c

/-- Call `t` may put the checkpoint `c` on the head `h`. -/
def State.CheckpointAttempt (s : State) (t i : Nat) (h : Head) (through : CommitRef)
    (c : CheckpointRef) : Prop :=
  s.Publishes t c ∧ ∃ source i₀, s.CheckpointOf c through source ∧
    s.HeadAt i₀ source.head source.version ∧ i₀ ≤ i ∧
    source.head.hasCheckpointAppendBase h = true

/-- The stored plan behind a reference. -/
structure State.PlanBody (s : State) (h : Head) (p : CollectionPlanRef) (plan : CollectionPlan)
    (n : Nat) : Prop where
  at' : s.PlanAt h p plan
  created : ∃ bytes, s.created (collectionPlanKey h.incarnation p) = some (bytes, n) ∧
    bytes.length = p.len.toNat ∧ Digest.of bytes = p.digest
  logId : plan.logId = h.logId

/-- A delete of `k` that call `t` sent after moment `i` and was told by moment `L` has
happened. -/
def State.Deleted (s : State) (t i L : Nat) (k : ImmutableKey) : Prop :=
  ∃ (j sent n : Nat) (landed : Option (Nat × Answer (.delete k))),
    s.flights[j]? = some ⟨t, .delete k, sent, landed, some (n, .ok ())⟩ ∧ i < sent ∧ n ≤ L

/-- Why call `t` may replace `h`, the head of moment `i`, by the result of a change. `L`
is a moment not before the landing of anything the change relies on. -/
def State.Justified (s : State) (t L i : Nat) (h : Head) : Change → Prop
  | .append ref =>
      (∃ b, s.calls[t]? = some b ∧ b.call.target = some ref) ∧
      s.Avoids h.collectionEpoch.toNat (commitKey h.incarnation ref) ∧
      ∃ q log p, s.Prepared q log p ∧
        log.encodePrepared p = .ok (ref, encodeCommit (log.preparedCommit p)) ∧
        SameBase p.view.head h ∧ CommitBody s.body h ref (log.preparedCommit p) ∧
        ∀ o ∈ p.objects, s.Proven h h.collectionEpoch.toNat o
  | .checkpoint through object =>
      s.CheckpointAttempt t i h through
        { throughSequence := through.sequence, throughCommit := through.digest, object } ∧
      s.CheckpointProven h h.collectionEpoch.toNat
        { throughSequence := through.sequence, throughCommit := through.digest, object }
  | .retention _ => True
  | .install p =>
      (p.storageId, t) ∈ s.ids ∧ HeadStored s.body h ∧
      ∃ plan n, s.PlanBody h p plan n ∧ i < n ∧
        plan.collectionEpoch.toNat = h.collectionEpoch.toNat + 1 ∧
        ∀ c ∈ plan.candidates, (∃ bytes m, s.created c.key = some (bytes, m) ∧ m ≤ L) ∧
          ¬ Reaches s.body h c.key ∧ c.key ≠ collectionPlanKey h.incarnation p
  | .clear =>
      ∃ b log view p plan, s.calls[t]? = some b ∧ b.call = .resumeCollection log view ∧
        view.head.activePlan = some p ∧ h.activePlan = some p ∧ s.PlanAt h p plan ∧
        ∃ i₀ h₀ v₀, s.HeadAt i₀ h₀ v₀ ∧ h₀.activePlan = some p ∧
          ∀ c ∈ plan.candidates, s.Deleted t i₀ L c.key

/-- Call `t` replaces `h`, the head of moment `i`, by `h'`. -/
structure State.Replaces (s : State) (t L i : Nat) (h h' : Head) (c : Change) : Prop where
  result : c.Result h h'
  guard : c.Guard h
  justified : s.Justified t L i h c

/-- What call `t` may ask the store to replace. -/
def State.UpdateOK (s : State) (t : Nat) (bytes : Bytes) (expected : UpdateVersion) : Prop :=
  ∃ i h c h', s.HeadAt i h expected ∧ decodeHead bytes = .ok h' ∧
    bytes.length ≤ h.options.maxHeadBytes.toNat ∧ s.Replaces t s.now i h h' c

/-- How the head of moment `i + 1` came about. -/
def State.Link (s : State) (i : Nat) (h : Head) (v : UpdateVersion) (h' : Head)
    (v' : UpdateVersion) : Prop :=
  ∃ (j : Nat) (f : Flight) (bytes : Bytes) (c : Change), s.flights[j]? = some f ∧
    f.req = .updateHead bytes v ∧ s.headLog[i + 1]? = some ⟨bytes, v'⟩ ∧
    s.Replaces f.tid (i + 1) i h h' c

/-! ## Requests -/

/-- Request `j` installs the plan with key `k` over the head of moment `i`. -/
def State.InstallFlight (s : State) (j i : Nat) (k : ImmutableKey) : Prop :=
  ∃ (f : Flight) (bytes : Bytes) (expected : UpdateVersion) (h h' : Head)
    (p : CollectionPlanRef), s.flights[j]? = some f ∧ f.req = .updateHead bytes expected ∧
    s.HeadAt i h expected ∧ h.activePlan = none ∧ decodeHead bytes = .ok h' ∧
    h'.activePlan = some p ∧ collectionPlanKey h'.incarnation p = k

/-- The key of a plan whose only installation can no longer land, and which a later head
does not name. -/
def State.Retired (s : State) (k : ImmutableKey) : Prop :=
  k.kind = .collectionPlan ∧ ∃ j i m h v, s.InstallFlight j i k ∧ i < m ∧ s.HeadAt m h v ∧
    h.activePlan.map (collectionPlanKey h.incarnation) ≠ some k

/-- What call `t` owes the others for a request it sends at moment `sent`. -/
def State.ReqOK (s : State) (t sent : Nat) : Req → Prop
  | .getHead => True
  | .getHeadIfChanged _ => True
  | .get _ => True
  | .createHead bytes => ∃ inc opts, encodeHead (Head.empty s.scope inc opts) = .ok bytes ∧
      bytes.length ≤ opts.maxHeadBytes.toNat
  | .updateHead bytes expected => s.UpdateOK t bytes expected
  | .create key bytes => Digest.of bytes = key.digest ∧
      (key.kind ≠ .commit → (key.storageId, t) ∈ s.ids) ∧
      (key.kind = .commit → ∃ q log p ref, s.Prepared q log p ∧
        log.encodePrepared p = .ok (ref, bytes) ∧ key = commitKey log.incarnation ref)
  | .delete key => (s.created key).isSome ∧
      ((∃ i h v b log view, i < sent ∧ s.HeadAt i h v ∧ s.Listed h key ∧
        s.calls[t]? = some b ∧ b.call = .resumeCollection log view ∧
        view.head.activePlan = h.activePlan) ∨ s.Retired key)

/-- A key that was there after moment `L` is in no plan up to the epoch of a head before
`L`, unless that head lists it. -/
def State.Seen (s : State) (L : Nat) (k : ImmutableKey) : Prop :=
  k.kind ≠ .commit → ∀ i h v, i < L → s.HeadAt i h v → ¬ s.Listed h k →
    s.Avoids h.collectionEpoch.toNat k

/-- What a key that was missing after moment `L` tells. If a head before `L` reaches it,
it is in a plan of a later epoch; if it is the key of a plan, a head not before `L` does
not name that plan. -/
structure State.Missed (s : State) (L : Nat) (k : ImmutableKey) : Prop where
  reached : ∀ i h v, i < L → s.HeadAt i h v → Reaches s.body h k →
    ∃ e, h.collectionEpoch.toNat < e ∧ s.Planned e k
  unnamed : 0 < L → ∃ i h v, L ≤ i + 1 ∧ s.HeadAt i h v ∧
    h.activePlan.map (collectionPlanKey h.incarnation) ≠ some k

/-- A stored state that was the durable head at a moment not before `L`. -/
def State.ReadAt (s : State) (L : Nat) (stored : StoredObject) : Prop :=
  ∃ i : Nat, L ≤ i + 1 ∧ s.headLog[i]? = some stored

/-- What the answer of a request that landed at moment `n` says. -/
def State.AnswerOK (s : State) (sent n : Nat) : (req : Req) → Answer req → Prop
  | .getHead, a => match (a : Option StoredObject) with
      | some stored => s.ReadAt sent stored
      | none => n = 0
  | .getHeadIfChanged eTag, a => match (a : ConditionalRead) with
      | .notModified => ∃ stored, s.ReadAt sent stored ∧ stored.version.eTag = some eTag
      | .modified stored => s.ReadAt sent stored
      | .missing => n = 0
  | .createHead bytes, a => (a : Bool) = true → ∃ v, s.headLog[0]? = some ⟨bytes, v⟩
  | .updateHead bytes expected, a => ∀ v, (a : Option UpdateVersion) = some v →
      ∃ (i : Nat) (stored : StoredObject), s.headLog[i]? = some stored ∧
        stored.version = expected ∧ s.headLog[i + 1]? = some ⟨bytes, v⟩
  | .get key, a => match (a : Option Bytes) with
      | some bytes => s.body key = some bytes ∧ s.Seen sent key
      | none => s.Missed sent key
  | .create key bytes, a => (a : Bool) = true → s.body key = some bytes
  | .delete key, _ => key.kind ≠ .commit → s.objects key = none

/-- What is true of a request. -/
structure State.FlightOK (s : State) (f : Flight) : Prop where
  sent : f.sent ≤ s.now
  req : s.ReqOK f.tid f.sent f.req
  landed : ∀ n a, f.landed = some (n, a) → f.sent ≤ n ∧ n ≤ s.now ∧ s.AnswerOK f.sent n f.req a
  told : ∀ n r, f.told = some (n, r) → n ≤ s.now ∧ ∀ a, r = .ok a →
    (∃ m, m ≤ n ∧ f.landed = some (m, a)) ∨ Refusal f.req a

/-! ## Keys -/

/-- What is true of a created key. -/
structure State.CreatedOK (s : State) (k : ImmutableKey) (bytes : Bytes) (n : Nat) : Prop where
  moment : n ≤ s.now
  digest : Digest.of bytes = k.digest
  owner : ∃ q b, (k.storageId, q) ∈ s.ids ∧ s.calls[q]? = some b ∧ b.heads ≤ n
  commit : k.kind = .commit → ∃ q log p ref, s.Prepared q log p ∧
    log.encodePrepared p = .ok (ref, bytes) ∧ k = commitKey log.incarnation ref
  request : ∃ (j : Nat) (f : Flight), s.flights[j]? = some f ∧ f.req = .create k bytes

/-! ## What callers hold -/

def State.LogOK (s : State) (log : Log) : Prop :=
  log.logId = s.scope ∧ log.stagingDomain < s.domains ∧
    ∃ h v, s.HeadAt 0 h v ∧ h.incarnation = log.incarnation ∧ h.options = log.options

/-- A view of a head before moment `L`. -/
def State.ViewOK (s : State) (L : Nat) (view : View) : Prop :=
  (∃ i, i < L ∧ s.HeadAt i view.head view.version) ∧
    ∃ o, s.views[view.id]? = some o ∧ o.head = view.head ∧ o.version = view.version

def State.StagedOK (s : State) (staged : StagedObject) : Prop :=
  ∃ h v, s.HeadAt 0 h v ∧ s.Proven h staged.collectionEpoch.toNat staged.object

/-- A candidate, on the view it was prepared on or on a later one with the same base. -/
def State.PreparedOK (s : State) (L : Nat) (p : PreparedCommit) : Prop :=
  s.ViewOK L p.view ∧ ∃ q log p₀, s.Prepared q log p₀ ∧ p.transactionId = p₀.transactionId ∧
    p.storageId = p₀.storageId ∧ p.operation = p₀.operation ∧ p.result = p₀.result ∧
    p.objects = p₀.objects ∧ SameBase p₀.view.head p.view.head

def State.TokenOK (s : State) (L : Nat) (token : Bytes) : Prop :=
  ∃ p, s.PreparedOK L p ∧ encodeRecoveryToken p = .ok token ∧ token.length < 2 ^ 64

/-- The body of a candidate has been created. -/
def State.Ensured (s : State) (ref : CommitRef) (p : PreparedCommit) : Prop :=
  ∃ q log p₀ bytes, s.Prepared q log p₀ ∧ p₀.storageId = p.storageId ∧
    log.encodePrepared p₀ = .ok (ref, bytes) ∧ s.body (commitKey log.incarnation ref) = some bytes

def State.PendingCommitOK (s : State) (L : Nat) (p : PendingCommit) : Prop :=
  match p.prepared with
  | some prepared => s.PreparedOK L prepared ∧ s.Ensured p.commitRef prepared
  | none => ∃ token, p.token = some token ∧ s.TokenOK L token

def State.PendingCheckpointOK (s : State) (L : Nat) (p : PendingCheckpoint) : Prop :=
  s.ViewOK L p.view ∧ s.CheckpointOf p.checkpoint p.through p.view ∧
    p.through ∈ p.view.head.tail ∧
    s.CheckpointProven p.view.head p.view.head.collectionEpoch.toNat p.checkpoint

/-- A record of the commit `c` of a head. -/
def State.RecordOK (s : State) (h : Head) (c : CommitRef) (record : CommitRecord) : Prop :=
  ∃ commit, CommitBody s.body h c commit ∧
    record = { reference := c, expectedTip := commit.expectedTip, operation := commit.operation,
               result := commit.result, objects := commit.objects }

/-- Errors of the store and of the request guard. -/
def Error.Unavailable (e : Error) : Prop := e = .requestDenied ∨ ∃ x, e = .store x

/-- The result of reading ahead the commit at `index` of the tail of a view. -/
def State.ReadyOK (s : State) (view : View) (index : Nat) :
    Except Error (Option CommitRecord) → Prop
  | .ok (some record) => ∃ c, view.head.tail[index]? = some c ∧ s.RecordOK view.head c record
  | .ok none => ∃ i h v, s.HeadAt i h v ∧
      view.head.collectionEpoch.toNat < h.collectionEpoch.toNat
  | .error e => e.Unavailable

structure State.CursorOK (s : State) (L : Nat) (c : HistoryCursor) : Prop where
  log : s.LogOK c.log
  view : s.ViewOK L c.view
  checked : c.log.validateView c.view = .ok ()
  ready : ∀ (j : Nat) r, c.ready[j]? = some r → s.ReadyOK c.view (c.nextCommit + j) r

def State.ItemOK (s : State) (L : Nat) : Item → Prop
  | .log log => s.LogOK log
  | .view view => s.ViewOK L view
  | .staged staged => s.StagedOK staged
  | .prepared p => s.PreparedOK L p
  | .pendingCommit p => s.PendingCommitOK L p
  | .pendingCheckpoint p => s.PendingCheckpointOK L p
  | .token token => s.TokenOK L token
  | .cursor c => s.CursorOK L c
  | .reader r => s.LogOK r.log ∧ s.ViewOK L r.view ∧ ∀ c ∈ r.children, c.kind = .blob

structure State.BegunOK (s : State) (b : Begun) : Prop where
  heads : b.heads ≤ s.now
  flights : b.flights ≤ s.flights.length
  args : ∀ item ∈ b.call.args, s.ItemOK b.heads item

/-! ## The invariant -/

structure Inv (s : State) : Prop where
  heads : ∀ st ∈ s.headLog, ∃ h, decodeHead st.bytes = .ok h ∧
    st.bytes.length ≤ h.options.maxHeadBytes.toNat
  first : ∀ h v, s.HeadAt 0 h v → ∃ inc opts, h = Head.empty s.scope inc opts
  links : ∀ i h v h' v', s.HeadAt i h v → s.HeadAt (i + 1) h' v' → s.Link i h v h' v'
  versions : ∀ a ∈ s.headLog, ∀ b ∈ s.headLog, (a.version = b.version ∨
    (b.version.eTag.isSome ∧ a.version.eTag = b.version.eTag)) → a.bytes = b.bytes
  created : ∀ k bytes n, s.created k = some (bytes, n) → s.CreatedOK k bytes n
  objects : ∀ k bytes, s.objects k = some bytes → s.body k = some bytes
  lost : ∀ k, (s.created k).isSome → s.objects k = none →
    (∃ e, s.Planned e k) ∨ s.Retired k
  owner : ∀ x t t', (x, t) ∈ s.ids → (x, t') ∈ s.ids → t = t'
  ids : ∀ x t, (x, t) ∈ s.ids → s.DrawOK t
  flights : ∀ (j : Nat) f, s.flights[j]? = some f → s.FlightOK f
  creates : ∀ (j j' : Nat) (f f' : Flight) k b b', k.kind ≠ .commit → s.flights[j]? = some f →
    s.flights[j']? = some f' → f.req = .create k b → f'.req = .create k b' → j = j'
  uncreated : ∀ (j : Nat) (f : Flight) k b, k.kind ≠ .commit → s.flights[j]? = some f →
    f.req = .create k b → f.landed = none → s.created k = none
  installs : ∀ j j' i i' k, s.InstallFlight j i k → s.InstallFlight j' i' k → j = j'
  views : ∀ (id : Nat) o, s.views[id]? = some o → (∃ i, s.HeadAt i o.head o.version) ∧
    ∀ cs, o.collectionCandidates = some cs →
      ∃ p plan, o.head.activePlan = some p ∧ s.PlanAt o.head p plan ∧ plan.candidates = cs
  calls : ∀ (t : Nat) b, s.calls[t]? = some b → s.BegunOK b

end ObjectLog
