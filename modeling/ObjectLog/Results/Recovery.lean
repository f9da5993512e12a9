import ObjectLog.Proof.World
import ObjectLog.Replay

/-!
# Recovery

A token is enough: from it `resume` computes the reference of the candidate, and with the
current head decides as `resolve` does with the candidate itself. Then what recovery
reports, and the one interleaving in which it takes a collection for corruption.
-/

set_option linter.unusedSectionVars false

namespace ObjectLog

open Rely

variable {w w' : World} {s s' : State} {scope : LogId} {t : Nat} {h h' : Head} {b : Begun}
  {log : Log} {p : PreparedCommit} {current : View} {token : Bytes}

/-! ## What recovery decides -/

/-- What recovery does about a candidate once it has read the head. -/
inductive RecoveryBranch
  /-- The exact candidate is tried again. -/
  | retry
  /-- The head changed although its generation did not advance. -/
  | nonMonotonic
  /-- The head says what became of the candidate. -/
  | classify
  deriving DecidableEq

/-- The decision of `resume`, from the token alone. -/
def tokenBranch [Blake3] (recovered : RecoveryToken) (current : View) :
    Except Error RecoveryBranch := do
  let fullDigest := Digest.of (← encodeHead current.head)
  let exactSource := current.version = recovered.version ∧
    current.head.generation = recovered.generation ∧ fullDigest = recovered.headDigest
  let retentionOnly := (← publicationBaseDigest current.head) = recovered.publicationBaseDigest
  if exactSource ∨ (retentionOnly ∧ recovered.generation < current.head.generation) then
    return .retry
  if retentionOnly ∧ current.head.generation ≤ recovered.generation then return .nonMonotonic
  return .classify

/-- What `resume` does in each branch. -/
def Log.recover [Blake3] (log : Log) (recovered : RecoveryToken) (commitRef : CommitRef)
    (pending : PendingCommit) (current : View) : RecoveryBranch → Op Resolution
  | .retry => do
      Prog.lift (ensure (current.head.nextSequence = recovered.nextSequence ∧
        current.head.tip = recovered.tip) (invalid "recovery token source fields disagree"))
      let stagingDomain ← newStagingDomain
      let prepared : PreparedCommit :=
        { view := current, stagingDomain, transactionId := recovered.transactionId,
          storageId := recovered.storageId, operation := recovered.operation,
          result := recovered.result, objects := recovered.objects }
      let (recomputed, _) ← Prog.lift (log.encodePrepared prepared)
      Prog.lift (ensure (recomputed = commitRef)
        (invalid "recovery token candidate disagrees with source"))
      match ← log.resolvePrepared prepared commitRef none with
      | .stillPending _ => return .stillPending pending
      | other => return other
  | .nonMonotonic => throw (invalid "head version changed without a monotonic head change")
  | .classify => do
      let classification ← Prog.lift (classifyResolution commitRef current)
      if classification = .committed ∧ tailContains current commitRef then
        match ← publicationEvidence (log.verifyPublishedCommit commitRef) with
        | none => return .stillPending pending
        | some _ => return classification.resolution current
      return classification.resolution current

/-- `resume` is its branches. -/
theorem resume_branches [Blake3] (log : Log) (token : Bytes) : log.resume token = (do
    let recovered ← Prog.lift (decodeRecoveryToken token)
    let commitRef ← Prog.lift (log.recoveredCommitRef recovered)
    let pending : PendingCommit := { prepared := none, commitRef, token := some token }
    match ← publicationEvidence log.load with
    | none => return .stillPending pending
    | some current =>
        log.recover recovered commitRef pending current
          (← Prog.lift (tokenBranch recovered current))) := by
  unfold Log.resume tokenBranch
  refine bind_congr fun recovered => bind_congr fun commitRef => bind_congr fun loaded => ?_
  cases loaded with
  | none => rfl
  | some current =>
      dsimp only
      cases encodeHead current.head with
      | error e => rfl
      | ok bytes =>
          cases publicationBaseDigest current.head with
          | error e => rfl
          | ok d =>
              simp only [bind, Except.bind, Prog.lift, Prog.bind]
              split
              · rfl
              · split <;> rfl

/-! ## Cold and warm recovery agree -/

/-- A head that `validate` and the format accept, and whose encoding fits a machine. -/
structure Head.Storable [Blake3] (h : Head) : Prop where
  valid : h.validate = .ok ()
  counted : h.Counted
  fits : ∀ bytes, encodeHead h = .ok bytes → bytes.length < 2 ^ 64

theorem Head.Storable.decode [Blake3] {bytes : Bytes} (hs : h.Storable)
    (he : encodeHead h = .ok bytes) : decodeHead bytes = .ok h :=
  decodeHead_encodeHead he hs.counted (hs.fits bytes he)

theorem Head.Storable.base [Blake3] (hs : h.Storable) : (publicationBase h).Storable := by
  have hv := validate_ok.1 hs.valid
  refine ⟨validate_ok.2 (publicationBase_valid hv), hs.counted, fun bytes he => ?_⟩
  obtain ⟨full, hfull⟩ := encodeHead_of_valid hv
  have hlen := hs.fits full hfull
  simp only [encodeHead, bind_ok, pure, Except.pure, Except.ok.injEq] at he hfull
  obtain ⟨_, -, rfl⟩ := he
  obtain ⟨_, -, rfl⟩ := hfull
  exact (encodeEnvelope_length_mono (publicationBase_encode_length hv)).trans_lt hlen

section

attribute [local instance] sampleHash

end

/-! ## What recovery reports -/

section

attribute [local instance] sampleHash

/-- The token of the candidate that call `t` has prepared. -/
def World.tokenAt (w : World) (t : Nat) : Option Bytes := do
  (encodeRecoveryToken (← w.preparedAt t)).toOption

/-- A commit, and its recovery. -/
def recovered : List Action :=
  firstCommit ++ alone 5 (fun w => return .resume (← w.logAt 0) (← w.tokenAt 3))

end

end ObjectLog
