import ObjectLog.Proof.Accounting
import ObjectLog.Proof.UpdateErrors
import ObjectLog.Proof.World
import ObjectLog.Replay

/-!
# Limits

What the limits of a log leave room for: whether a log that has taken its commits can always
be compacted, and whether a compacted log can always be collected.
-/

set_option linter.unusedSectionVars false

namespace ObjectLog

open Rely

variable {w : World} {scope : LogId} {t : Nat} {h h' : Head}

/-! ## The size of the head -/

section

attribute [local instance] sampleHash

end

/-! ## The sizes of records -/

/-- What `prepare` accepts is within the limits on its parts. -/
theorem prepare_answered [Blake3] {log : Log} {view : View} {transactionId : TransactionId}
    {operation result : Bytes} {objects : List StagedObject} :
    Ends anything (log.prepare view transactionId operation result objects) (Yields fun p =>
      log.validatePreparedSizes p.operation p.result = .ok () ∧
        p.objects.length ≤ log.options.maxObjectRefs.toNat) := by
  refine Ends.feedLift fun _ hstaged => Ends.feedLift fun _ _ => Ends.feedLift fun _ hsizes =>
    Ends.feedLift fun _ _ => fun storageId _ => ?_
  obtain ⟨-, hrefs, -⟩ := validateStagedObjects_ok.1 hstaged
  exact ⟨hsizes, by simpa using hrefs⟩

theorem preparedCommit_length_le [Blake3] {log : Log} {p : PreparedCommit}
    (hsizes : log.validatePreparedSizes p.operation p.result = .ok ())
    (hrefs : p.objects.length ≤ log.options.maxObjectRefs.toNat) :
    (encodeCommit (log.preparedCommit p)).length ≤ log.options.maxInlineOperationBytes.toNat +
      log.options.maxInlineResultBytes.toNat + 76 * log.options.maxObjectRefs.toNat + 1024 := by
  obtain ⟨hop, hres⟩ := validatePreparedSizes_ok.1 hsizes
  refine (encodeCommit_length_le (log.preparedCommit p)).trans ?_
  simp only [Log.preparedCommit, commitOverhead]
  omega

theorem plan_length_le [Blake3] {plan : CollectionPlan} {options : Options}
    (h : plan.validate options = .ok ()) : (encodeEnvelope plan.wire).length ≤
      84 * options.maxCollectionObjects.toNat + 1024 := by
  have hlen := planWire_length_le plan
  obtain ⟨-, -, hcount, -⟩ := CollectionPlan.validate_ok h
  unfold planOverhead at hlen
  omega

/-- A candidate that a caller holds is encoded, if the limit on commits leaves the room. -/
theorem encodePrepared_fits [Blake3] {log : Log} {p : PreparedCommit}
    (hsizes : log.validatePreparedSizes p.operation p.result = .ok ())
    (hrefs : p.objects.length ≤ log.options.maxObjectRefs.toNat)
    (hroom : log.options.maxInlineOperationBytes.toNat + log.options.maxInlineResultBytes.toNat +
      76 * log.options.maxObjectRefs.toNat + 1024 ≤ log.options.maxCommitBytes.toNat) :
    ∃ r, log.encodePrepared p = .ok r := by
  have hfits := (preparedCommit_length_le hsizes hrefs).trans hroom
  have hlt : log.options.maxCommitBytes.toNat < 2 ^ 64 := UInt64.toNat_lt _
  have hlen : toU64 (encodeCommit (log.preparedCommit p)).length =
      some (.ofNat (encodeCommit (log.preparedCommit p)).length) := if_pos (by omega)
  obtain ⟨reference, href⟩ : ∃ reference, commitReference p.view.head.nextSequence p.transactionId
      p.storageId (encodeCommit (log.preparedCommit p)) = .ok reference :=
    ⟨_, bind_ok.2 ⟨_, okOr_ok.2 hlen, rfl⟩⟩
  exact ⟨_, bind_ok.2 ⟨(), ensure_ok.2 hfits, bind_ok.2 ⟨reference, href, rfl⟩⟩⟩

/-- A call that publishes a commit, a checkpoint or a change of retentions. -/
def Call.Publishes (call : Call) (log : Log) : Prop :=
  (∃ prepared, call = .commit log prepared) ∨
  (∃ view through snapshot objects,
    call = .publishCheckpoint log view through snapshot objects) ∨
  ∃ view change, call = .changeRetention log view change

theorem Call.Publishes.unsized [Blake3] {call : Call} {log : Log} (name : LogId)
    (h : call.Publishes log)
    (hfit : maxEncodedHead log.options ≤ log.options.maxHeadBytes.toNat) :
    Op.Unsized (call.run name) := by
  rcases h with ⟨prepared, rfl⟩ | ⟨view, through, snapshot, objects, rfl⟩ | ⟨view, change, rfl⟩
  · exact (commit_unsized prepared hfit).andThen fun _ => Ends.pure trivial
  · exact (publishCheckpoint_unsized through snapshot objects hfit).andThen fun _ =>
      Ends.pure trivial
  · exact (changeRetention_unsized change hfit).andThen fun _ => Ends.pure trivial

/-- **Limits on counts bound the bytes**, with room to spare under the default options: no
head, commit or plan whose counts pass is refused for its size, and no call that publishes
one returns such a refusal. -/
theorem count_limits_bound_bytes [Blake3] :
    (∀ (h : Head) (b : Bytes), h.validate = .ok () → encodeHead h = .ok b → b.length ≤
      92 * (h.options.maxTailEntries.toNat + h.options.resolutionWindow.toNat) +
        17 * h.options.maxRetentionIds.toNat + 1024) ∧
    (∀ (log : Log) (view : View) (transactionId : TransactionId) (operation result : Bytes)
      (objects : List StagedObject) (p : PreparedCommit),
      (log.prepare view transactionId operation result objects).Reaches anything (.done (.ok p)) →
      (encodeCommit (log.preparedCommit p)).length ≤ log.options.maxInlineOperationBytes.toNat +
        log.options.maxInlineResultBytes.toNat + 76 * log.options.maxObjectRefs.toNat + 1024) ∧
    (∀ (plan : CollectionPlan) (options : Options), plan.validate options = .ok () →
      (encodeEnvelope plan.wire).length ≤ 84 * options.maxCollectionObjects.toNat + 1024) ∧
    ∀ (scope : LogId) (w : World) (log : Log), Reachable scope w → w.state.NoCollision →
      Known w (.log log) → log.options = .default →
      (∀ h : Head, h.validate = .ok () → h.options = log.options →
        ∃ b, encodeHead h = .ok b ∧ validateHeadSize log.options b = .ok ()) ∧
      (∀ p, Known w (.prepared p) → ∃ r, log.encodePrepared p = .ok r) ∧
      (∀ plan : CollectionPlan, plan.validate log.options = .ok () →
        ∃ b, encodeCollectionPlan plan log.options = .ok b) ∧
      ∀ (t : Nat) (b : Begun) (log' : Log), w.state.calls[t]? = some b → b.call.Publishes log' →
        w.threads[t]? ≠ some (.done (.error (.limitExceeded "encoded head bytes"))) := by
  have hdefault : maxEncodedHead .default ≤ Options.default.maxHeadBytes.toNat := by decide
  refine ⟨?_, ?_, fun plan options h => plan_length_le h, ?_⟩
  · intro h b _ he
    have hlen := encodeHead_le_maxEncodedHead he
    unfold maxEncodedHead headOverhead at hlen
    omega
  · intro log view transactionId operation result objects p hp
    obtain ⟨hsizes, hrefs⟩ := prepare_answered.reached hp
    exact preparedCommit_length_le hsizes hrefs
  intro scope w log hr nc hlog hopts
  have ok := hr.ok nc
  have inv := ok.good.inv
  have hl : w.state.LogOK log := hlog.ok ok
  refine ⟨?_, ?_, ?_, ?_⟩
  · intro h hval hh
    obtain ⟨b, hb⟩ := encodeHead_of_valid (validate_ok.1 hval)
    have hlen := encodeHead_le_maxEncodedHead hb
    rw [hh, hopts] at hlen
    refine ⟨b, hb, ensure_ok.2 ?_⟩
    rw [hopts]
    exact hlen.trans hdefault
  · intro p hp
    have hok : w.state.PreparedOK w.state.now p := hp.ok ok
    obtain ⟨-, q, log₀, p₀, hp₀, -, -, hop, hres, hobj, -⟩ := hok
    have d := hp₀.preparedBy inv
    -- all handles of a namespace have the same options
    have hsame : log₀.options = log.options := by
      obtain ⟨-, -, h₀, v₀, hh₀, -, ho⟩ := d.handle
      exact ho.symm.trans (hl.head inv hh₀).2.2
    refine encodePrepared_fits ?_ ?_ ?_
    · rw [hop, hres, validatePreparedSizes_ok, ← hsame]
      exact validatePreparedSizes_ok.1 d.sizes
    · rw [hobj, ← hsame]
      exact (validateDependencies_ok.1 d.dependencies).1
    · rw [hopts]
      decide
  · intro plan hval
    refine ⟨_, bind_ok.2 ⟨(), hval, bind_ok.2 ⟨(), ensure_ok.2 ?_, rfl⟩⟩⟩
    have hroom : 84 * Options.default.maxCollectionObjects.toNat + 1024 ≤
        Options.default.maxCollectionPlanBytes.toNat := by decide
    rw [hopts] at hval ⊢
    exact (plan_length_le hval).trans hroom
  · intro t b log' hb hpub ht
    obtain ⟨name, hreach⟩ := hr.reaches hb ht
    have hargs := (inv.calls t b hb).args (.log log') (by
      rcases hpub with ⟨_, h⟩ | ⟨_, _, _, _, h⟩ | ⟨_, _, h⟩ <;> rw [h] <;> simp [Call.args])
    have hl' : w.state.LogOK log' := hargs
    have hsame : log'.options = .default := by
      obtain ⟨-, -, h₀, v₀, hh₀, -, ho⟩ := hl'
      exact ho.symm.trans ((hl.head inv hh₀).2.2.trans hopts)
    have hends := hpub.unsized name (by rw [hsame]; exact hdefault)
    exact hends.reached hreach rfl

/-! ## The number of objects -/

/-- **The counts of the references bound the collector.** Under everything that was staged, a
reference counts itself and what its children count, so there are at most as many keys as
that. A checkpoint is admitted by its count, and marking the live set of a log that has a
checkpoint and no tail stays within the limit, among whatever other calls it runs. What
`prepare` admits for a commit is admitted by the same count for a checkpoint. -/
theorem counts_bound_collection [Blake3] (hr : Reachable scope w) (nc : w.state.NoCollision)
    {log : Log} (hlog : Known w (.log log)) :
    (∀ staged r, Known w (.staged staged) →
      UnderRef w.state.body log.incarnation log.options staged.object r →
      (r.kind = .blob ∧ r.subtreeObjects = 1) ∨
      (r.kind = .node ∧ ∃ bytes node, w.state.body (objectKey log.incarnation r) = some bytes ∧
        decodeNode bytes log.options = .ok node ∧
        r.subtreeObjects.toNat = 1 + countOf node.children)) ∧
    (∀ (rs : List ObjectRef) (ks : List ImmutableKey),
      (∀ r ∈ rs, ∃ staged, Known w (.staged staged) ∧
        UnderRef w.state.body log.incarnation log.options staged.object r) →
      ks.Nodup → (∀ k ∈ ks, ∃ r ∈ rs, Under w.state.body log.incarnation log.options r k) →
      ks.length ≤ countOf rs) ∧
    (∀ view t, Known w (.view view) → view.head.tail = [] →
      Runs t Reads (log.markLive view) (fun r _ => ∀ what, r ≠ .error (.limitExceeded what))
        w.state) ∧
    ∀ p, Known w (.prepared p) → ∃ n, log.publicationObjects p.objects = .ok n := by
  have ok := hr.ok nc
  have inv := ok.good.inv
  have hl : w.state.LogOK log := hlog.ok ok
  have stored : ∀ staged r, Known w (.staged staged) →
      UnderRef w.state.body log.incarnation log.options staged.object r →
      Stored w.state.body log.incarnation log.options r := by
    intro staged r hs hu
    have hst : w.state.StagedOK staged := hs.ok ok
    obtain ⟨h₀, v₀, hh₀, hp⟩ := hst
    obtain ⟨-, e2, e3⟩ := hl.head inv hh₀
    have hroot := hp.stored
    rw [e2, e3] at hroot
    exact hu.stored hroot
  refine ⟨?_, ?_, ?_, ?_⟩
  · intro staged r hs hu
    exact (stored staged r hs hu).count
  · intro rs ks hrs hnodup hks
    refine distinct_keys_le (fun r hmem => ?_) hnodup hks
    obtain ⟨staged, hs, hu⟩ := hrs r hmem
    exact stored staged r hs hu
  · intro view t hview htail
    exact markLive_within le_rfl ok.good ⟨hl, hview.ok ok⟩ htail
  · intro p hp
    have hok : w.state.PreparedOK w.state.now p := hp.ok ok
    obtain ⟨-, q, log₀, p₀, hp₀, -, -, -, -, hobjects, -⟩ := hok
    have made := hp₀.preparedBy inv
    obtain ⟨h₀, v₀, hh₀⟩ := inv.headAt hl.pos
    have hopts : log.options = log₀.options :=
      (hl.head inv hh₀).2.2.symm.trans (made.handle.head inv hh₀).2.2
    have hdeps := made.dependencies
    rw [← validateDependencies_congr hopts, ← hobjects] at hdeps
    obtain ⟨-, -, n, hn⟩ := validateDependencies_ok.1 hdeps
    exact ⟨n, hn⟩

section

attribute [local instance] sampleHash

/-- A node that names one blob twice is committed, and is the root of a checkpoint. -/
def sharedCheckpoint : List Action :=
  alone 0 (fun _ => some (.open .default)) ++
  alone 1 (fun w => return .load (← w.logAt 0)) ++
  alone 2 (fun w => return .putObject (← w.logAt 0) (← w.viewAt 1) [1, 2, 3]) ++
  alone 3 (fun w => do
    let blob ← w.stagedAt 2
    return .putNode (← w.logAt 0) (← w.viewAt 1) [4] [blob, blob]) ++
  alone 4 (fun w => return .prepare (← w.logAt 0) (← w.viewAt 1) ⟨1⟩ [5] [] [← w.stagedAt 3]) ++
  alone 5 (fun w => return .commit (← w.logAt 0) (← w.preparedAt 4)) ++
  alone 6 (fun w => do
    let view ← w.viewAt 5
    return .publishCheckpoint (← w.logAt 0) view (← view.head.tail.head?) [] [← w.stagedAt 3])

/-- The node counts three objects, and the log is compacted. -/
def sharedFacts (w : World) : Bool :=
  match w.logAt 0, w.stagedAt 3, w.viewAt 6 with
  | some _, some node, some view => node.object.kind == .node &&
      node.object.subtreeObjects == 3 && view.head.tail.isEmpty && view.head.checkpoint.isSome
  | _, _, _ => false

theorem sharedCheckpoint_ends : ends sharedCheckpoint sharedFacts = true := by
  decide +kernel

theorem counts_bound_collection_sharedCheckpoint : ∃ (w : World) (log : Log)
    (node : StagedObject) (view : View), Reachable sampleLog w ∧ Known w (.staged node) ∧
    node.object.subtreeObjects = 3 ∧ view.head.checkpoint.isSome ∧
    (∀ ks : List ImmutableKey, ks.Nodup →
      (∀ k ∈ ks, Under w.state.body log.incarnation log.options node.object k) → ks.length ≤ 3) ∧
    Runs 7 Reads (log.markLive view) (fun r _ => ∀ what, r ≠ .error (.limitExceeded what))
      w.state := by
  obtain ⟨hr, nc, hf⟩ := ends_ok sharedCheckpoint_ends
  generalize sample sharedCheckpoint = w at hr nc hf
  unfold sharedFacts at hf
  split at hf
  · rename_i log node view hlog hnode hview
    simp only [Bool.and_eq_true, beq_iff_eq, List.isEmpty_iff] at hf
    obtain ⟨⟨⟨-, hcount⟩, htail⟩, hcheckpoint⟩ := hf
    have hk := World.stagedAt_known hnode
    have facts := counts_bound_collection hr nc (World.logAt_known hlog)
    refine ⟨w, log, node, view, hr, hk, hcount, hcheckpoint, ?_, ?_⟩
    · intro ks hnodup hks
      have hle := facts.2.1 [node.object] ks (by simpa using ⟨node, hk, .self _⟩) hnodup
        (by simpa using hks)
      simpa [countOf, hcount] using hle
    · exact facts.2.2.1 view 7 (World.viewAt_known hview) htail
  · cases hf

end

end ObjectLog
