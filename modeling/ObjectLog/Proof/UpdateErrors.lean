import ObjectLog.Log.Collect
import ObjectLog.Proof.HeadErrors

/-!
# Updates that are never too large

A log whose limit on the head leaves room for its lists refuses no commit, no checkpoint and
no change of retentions for the size of the head, whatever the store answers.
-/

set_option linter.unusedSectionVars false

namespace ObjectLog

open Rely Cbor

variable [Blake3] {α : Type} {log : Log} {view : View}

/-! ## Updates of the head -/

/-- The largest head that the limits on its lists allow. -/
def maxEncodedHead (options : Options) : Nat :=
  headOverhead + 92 * (options.maxTailEntries.toNat + options.resolutionWindow.toNat) +
    17 * options.maxRetentionIds.toNat

theorem encodeHead_le_maxEncodedHead {h : Head} {encoded : Bytes}
    (he : encodeHead h = .ok encoded) : encoded.length ≤ maxEncodedHead h.options := by
  have hlen := encodeHead_length_le he
  obtain ⟨_, hv, -⟩ := bind_ok.1 he
  have v := validate_ok.1 hv
  have htail := v.tailLen
  have houtcomes := v.outcomesLen
  have hretentions := v.retentions
  unfold maxEncodedHead
  omega

theorem updateHead_unsized {candidate : Head} (hopts : candidate.options = log.options)
    (hfit : maxEncodedHead log.options ≤ log.options.maxHeadBytes.toNat) :
    Op.Unsized (log.updateHead view candidate) := by
  refine Ends.liftThen (encodeHead_unsized candidate) fun bytes he => ?_
  have hlen := encodeHead_le_maxEncodedHead he
  rw [hopts] at hlen
  have hsize : Fails Error.Unsized (validateHeadSize log.options bytes) := by
    rw [validateHeadSize, ensure, if_pos (hlen.trans hfit)]
    trivial
  refine (lift_unsized hsize).andThen fun _ =>
    Ends.andThen ((admitRequest_unsized _).andThen fun _ => request_unsized _) fun version => ?_
  cases version with
  | none => exact Ends.pure trivial
  | some version =>
      exact Ends.andThen ((ask_unsized _).andThen fun _ => Ends.pure trivial) fun _ =>
        Ends.pure trivial

theorem validateView_options {v : Unit} (h : log.validateView view = .ok v) :
    view.head.options = log.options := by
  simp only [Log.validateView, bind_ok, ensure_ok, exists_const] at h
  exact h.2.2

/-- What a publication submits: a head with the options of the head it is built from. -/
structure Submits (candidate : View → Except Error Head) : Prop where
  unsized : ∀ v, Fails Error.Unsized (candidate v)
  options : ∀ v h, candidate v = .ok h → h.options = v.head.options

theorem advanceGeneration_unsized (h : Head) : Fails Error.Unsized h.advanceGeneration :=
  Fails.bind (fails_okOr (unsized_limit (by decide))) fun _ _ => trivial

theorem checkpointHead_submits (through : CommitRef) (object : ObjectRef) :
    Submits fun v => checkpointHead v.head through object where
  unsized := fun _ => Fails.bind (fails_okOr nofun) fun _ _ => advanceGeneration_unsized _
  options := by
    intro v h hh
    obtain ⟨i, -, hadv⟩ := bind_ok.1 hh
    obtain ⟨g, -, rfl⟩ := advanceGeneration_ok hadv
    rfl

theorem candidateHead_submits (ref : CommitRef) : Submits fun v => candidateHead v.head ref where
  unsized := fun _ => Fails.bind (advanceGeneration_unsized _) fun _ _ =>
    Fails.bind (fails_okOr (unsized_limit (by decide))) fun _ _ => trivial
  options := by
    intro v h hh
    obtain ⟨h₁, hadv, hh⟩ := bind_ok.1 hh
    obtain ⟨g, -, rfl⟩ := advanceGeneration_ok hadv
    obtain ⟨n, -, hh⟩ := bind_ok.1 hh
    obtain rfl := Except.ok.inj hh
    rfl

theorem retentionHead_submits (change : RetentionChange) :
    Submits fun v => retentionHead v.head change where
  unsized := fun _ => advanceGeneration_unsized _
  options := by
    intro v h hh
    obtain ⟨g, -, rfl⟩ := advanceGeneration_ok hh
    cases change <;> rfl

/-- What a look at the head after a refused update brings. -/
theorem loadEvidence_unsized (log : Log) :
    Ends anything (publicationEvidence log.load) fun r => match r with
      | .ok (some current) => current.head.options = log.options
      | .ok none => True
      | .error e => e.Unsized := by
  refine (load_unsized log).attemptBind fun r hr => ?_
  split
  · exact Ends.pure hr
  · exact Ends.pure trivial
  · exact Ends.pure trivial
  · exact Ends.throw hr

theorem publishAttempt_unsized {source : View} {candidate : View → Except Error Head}
    {compatible : Head → Head → Bool} {again : View → Op HeadPublication}
    (hc : Submits candidate) (hfit : maxEncodedHead log.options ≤ log.options.maxHeadBytes.toNat)
    (ha : ∀ view, view.head.options = log.options → Op.Unsized (again view))
    (hv : view.head.options = log.options) :
    Op.Unsized (log.publishAttempt source candidate compatible again view) := by
  refine Ends.liftThen (hc.unsized view) fun head hh => ?_
  have hopts : head.options = log.options := (hc.options view head hh).trans hv
  refine Ends.attemptBind (updateHead_unsized hopts hfit) fun r hr => ?_
  split
  · exact Ends.pure trivial
  · -- the head has changed
    refine (loadEvidence_unsized log).bind (fun found hfound => ?_) fun _ h => h
    cases found with
    | none => exact Ends.pure trivial
    | some current =>
        dsimp only
        split
        · exact Ends.pure trivial
        split
        · exact Ends.pure trivial
        split
        · exact Ends.throw (unsized_invalid _)
        · exact ha current hfound
  · exact Ends.pure trivial
  · exact Ends.throw hr

theorem publishAttempts_unsized {source : View} {candidate : View → Except Error Head}
    {compatible : Head → Head → Bool} (hc : Submits candidate)
    (hfit : maxEncodedHead log.options ≤ log.options.maxHeadBytes.toNat) (further : Nat)
    (hv : view.head.options = log.options) :
    Op.Unsized (log.publishAttempts source candidate compatible further view) := by
  induction further generalizing view with
  | zero => exact publishAttempt_unsized hc hfit (fun _ _ => Ends.pure trivial) hv
  | succ further ih => exact publishAttempt_unsized hc hfit (fun _ hv => ih hv) hv

/-! ## Checkpoints -/

theorem createFresh_unsized (kind : ObjectKind) (bytes : Bytes) (len subtree : UInt64)
    (blocked : Option (List CollectionCandidate)) (attempts : Nat) :
    Op.Unsized (log.createFresh kind bytes len subtree blocked attempts) := by
  induction attempts with
  | zero => exact Ends.throw (unsized_limit (by decide))
  | succ attempts ih =>
      refine (ask_unsized _).andThen fun storageId => ?_
      dsimp only
      split
      · exact ih
      · refine (create_unsized _ _).andThen fun created => ?_
        split
        · exact Ends.pure trivial
        · exact ih

theorem createFreshObject_unsized (kind : ObjectKind) (bytes : Bytes) (subtree : UInt64)
    (blocked : Option (List CollectionCandidate)) :
    Op.Unsized (log.createFreshObject kind bytes subtree blocked) :=
  (lift_unsized (fails_okOr (unsized_limit (by decide)))).andThen fun _ =>
    createFresh_unsized _ _ _ _ _ _

theorem classifyCheckpoint_unsized (pending : PendingCheckpoint) (current : View)
    (attempted : UInt64) : Fails Error.Unsized (classifyCheckpoint pending current attempted) := by
  unfold classifyCheckpoint
  split
  · trivial
  refine Fails.bind (fails_okOr (unsized_limit (by decide))) fun next _ => ?_
  dsimp only
  split
  · exact unsized_invalid _
  split
  · trivial
  · trivial

/-- **A log whose head limit leaves room for its lists** does not refuse a checkpoint for
the size of the head, whatever the store answers and whatever the other writers did. -/
theorem publishCheckpoint_unsized (through : CommitRef) (snapshot : Bytes)
    (objects : List StagedObject)
    (hfit : maxEncodedHead log.options ≤ log.options.maxHeadBytes.toNat) :
    Op.Unsized (log.publishCheckpoint view through snapshot objects) := by
  have hstaged : Fails Error.Unsized (log.validateStagedObjects view objects) := by
    refine Fails.bind (validateView_unsized log view) fun _ _ =>
      Fails.bind (fails_ensure (unsized_limit (by decide))) fun _ _ => ?_
    exact Fails.forM fun _ _ => fails_ensure nofun
  refine Ends.liftThen hstaged fun _ hst => ?_
  have hv : view.head.options = log.options := by
    obtain ⟨_, hview, -⟩ := bind_ok.1 hst
    exact validateView_options hview
  refine (lift_unsized (publicationObjects_unsized _ _)).andThen fun subtree =>
    (verifyTail_unsized log view).andThen fun _ => ?_
  have hbytes : ∀ n, Fails Error.Unsized (log.validateCheckpointBytes n) := fun n =>
    Fails.bind (fails_ensure (unsized_limit (by decide))) fun _ _ =>
      fails_ensure (unsized_limit (by decide))
  refine (lift_unsized (hbytes _)).andThen fun _ =>
    (activeCollectionCandidates_unsized log view).andThen fun blocked => ?_
  refine (createFreshObject_unsized _ _ _ _).andThen fun object =>
    (publishAttempts_unsized (checkpointHead_submits through object) hfit _ hv).andThen
      fun outcome => ?_
  cases outcome with
  | updated next =>
      dsimp only
      split
      · exact (ask_unsized _).andThen fun _ => Ends.pure trivial
      · exact Ends.pure trivial
  | changed current attempted =>
      refine (lift_unsized (classifyCheckpoint_unsized _ _ _)).andThen fun evidence => ?_
      cases evidence <;> exact Ends.pure trivial
  | contended current => exact Ends.pure trivial
  | pending => exact Ends.pure trivial

/-! ## Graphs -/

theorem decodeChild_unsized (options : Options) : (decodeChild options).Fails Error.Unsized := by
  have rest : ∀ kind : ObjectKind, Dec.Fails Error.Unsized (do
      Dec.field 2
      let digestBytes ← Dec.exactBytes
      Dec.field 3
      let len ← Dec.exactU64
      ensure (len ≤ options.maxObjectBytes) (.limitExceeded "object bytes")
      Dec.field 4
      let storageIdBytes ← Dec.exactBytes
      Dec.field 5
      let subtreeObjects ← Dec.exactU64
      let storageId ← storageIdOf storageIdBytes
      let digest ← digestOf digestBytes
      let child : ObjectRef := { kind, storageId, digest, len, subtreeObjects }
      child.validateCount
      return child : Dec ObjectRef) := fun kind =>
    (field_unsized 2).bind fun _ => exact_unsized.bind fun _ => (field_unsized 3).bind fun _ =>
      exact_unsized.bind fun _ =>
      (Dec.Fails.lift (fails_ensure (unsized_limit (by decide)))).bind fun _ =>
      (field_unsized 4).bind fun _ => exact_unsized.bind fun _ => (field_unsized 5).bind fun _ =>
      exact_unsized.bind fun _ => (Dec.Fails.lift (storageIdOf_unsized _)).bind fun _ =>
      (Dec.Fails.lift (digestOf_unsized _)).bind fun _ =>
      (Dec.Fails.lift (validateCount_unsized _)).bind fun _ => Dec.Fails.pure _
  refine exactLen_unsized.bind fun _ => valid_unsized.bind fun _ => (field_unsized 1).bind fun _ =>
    exact_unsized.bind fun kind => ?_
  rcases kind with _ | _ | _ | _ | kind
  · exact fun _ => nofun
  · exact rest .blob
  · exact fun _ => nofun
  · exact rest .node
  · exact fun _ => nofun

theorem decodeNode_unsized (input : Bytes) (options : Options) :
    Fails Error.Unsized (decodeNode input options) := by
  refine Fails.bind (decodeBorrowedEnvelope_unsized _) fun _ _ => Dec.Fails.run ?_
  exact exactLen_unsized.bind fun _ => valid_unsized.bind fun _ => (field_unsized 1).bind fun _ =>
    exact_unsized.bind fun _ => (Dec.Fails.lift (requireVersion_unsized _)).bind fun _ =>
    (field_unsized 2).bind fun _ => exact_unsized.bind fun _ => (field_unsized 3).bind fun _ =>
    exactLen_unsized.bind fun _ =>
    (Dec.Fails.lift (fails_ensure (unsized_limit (by decide)))).bind fun _ =>
    Dec.Fails.get.bind fun _ => valid_unsized.bind fun _ =>
    (times_unsized (decodeChild_unsized options) _).bind fun _ =>
    finished_unsized.bind fun _ => Dec.Fails.pure _

theorem subtreeObjects_unsized (children : List ObjectRef) :
    Fails Error.Unsized (subtreeObjects children) :=
  Fails.foldlM (fun _ _ _ => Fails.bind (validateCount_unsized _) fun _ _ =>
    fails_okOr (unsized_limit (by decide))) _

theorem collectChildren_unsized (object : ObjectRef) (found : Option Bytes) :
    Fails Error.Unsized (log.collectChildren object found) := by
  cases found with
  | none => exact unsized_invalid _
  | some bytes =>
      refine Fails.bind (collectObject_unsized _ _) fun bytes _ => ?_
      cases object.kind with
      | blob =>
          exact Fails.bind (fails_okOr (unsized_limit (by decide))) fun _ _ =>
            Fails.bind (fails_ensure nofun) fun _ _ => trivial
      | node =>
          have hverify : Fails Error.Unsized (verifyObject object bytes) :=
            Fails.bind (validateCount_unsized _) fun _ _ =>
              Fails.bind (fails_okOr (unsized_limit (by decide))) fun _ _ => fails_ensure nofun
          have hnode : Fails Error.Unsized (log.decodeNodeReference object bytes) :=
            Fails.bind (decodeNode_unsized _ _) fun _ _ =>
              Fails.bind (subtreeObjects_unsized _) fun _ _ =>
              Fails.bind (fails_ensure nofun) fun _ _ => trivial
          exact Fails.bind hverify fun _ _ => Fails.bind hnode fun _ _ => trivial
      | checkpoint => exact unsized_invalid _

theorem enqueueObject_unsized (blocked : Option (List CollectionCandidate)) (walk : Walk)
    (object : ObjectRef) : Fails Error.Unsized (log.enqueueObject blocked walk object) := by
  refine Fails.bind (fails_ensure nofun) fun _ _ => Fails.bind (validateCount_unsized _) fun _ _ =>
    Fails.bind (fails_ensure nofun) fun _ _ => ?_
  split
  · exact Fails.bind (fails_ensure nofun) fun _ _ => trivial
  · exact Fails.bind (fails_ensure (unsized_limit (by decide))) fun _ _ =>
      Fails.bind (fails_ensure (unsized_limit (by decide))) fun _ _ => trivial

theorem startChildren_unsized (object : ObjectRef) :
    Ends anything (log.startChildren object) Started := by
  unfold Log.startChildren
  split
  · exact Ends.pure (unsized_invalid _)
  split
  · exact Ends.pure (unsized_limit (by decide))
  · exact startRead_unsized _ _

theorem finishChildren_unsized {object : ObjectRef} {started : Except Error FlightId}
    (hs : Fails Error.Unsized started) : Op.Unsized (log.finishChildren object started) := by
  refine finishRead_unsized (fun a => ?_) _ hs
  exact collectChildren_unsized object a

/-- The reads of a walk, none of them such a refusal. -/
def Active : Except Error (List ObjectRef × List GraphRead × Nat) → Prop
  | .ok next => ∀ x ∈ next.2.1, Fails Error.Unsized x.2.2
  | .error e => e.Unsized

theorem startReads_unsized (mode : GraphWalk) :
    ∀ (pending : List ObjectRef) (reads : List GraphRead) (bytes : Nat),
      (∀ x ∈ reads, Fails Error.Unsized x.2.2) →
      Ends anything (log.startReads mode pending reads bytes) Active
  | [], _, _, h => Ends.pure h
  | object :: pending, reads, bytes, h => by
      unfold Log.startReads
      split
      · exact Ends.pure h
      split
      · exact startReads_unsized mode pending reads bytes h
      dsimp only
      split
      · exact Ends.pure h
      split
      · exact Ends.throw (unsized_limit (by decide))
      refine (startChildren_unsized object).bind (fun started hs => ?_) fun _ h => h
      refine startReads_unsized mode pending _ _ fun x hx => ?_
      rcases List.mem_append.1 hx with hx | hx
      · exact h x hx
      · rw [List.mem_singleton.1 hx]
        exact hs

theorem walkGraph_unsized (blocked : Option (List CollectionCandidate)) (mode : GraphWalk) :
    ∀ (fuel : Nat) (walk : Walk) (reads : List GraphRead) (bytes : Nat),
      (∀ x ∈ reads, Fails Error.Unsized x.2.2) →
      Op.Unsized (log.walkGraph blocked mode fuel walk reads bytes)
  | 0, _, _, _, _ => Ends.pure trivial
  | fuel + 1, walk, reads, bytes, h => by
      unfold Log.walkGraph
      refine (startReads_unsized mode walk.pending reads bytes h).bind (fun next hn => ?_)
        fun _ h => h
      obtain ⟨pending, reads', bytes'⟩ := next
      dsimp only
      split
      · exact Ends.pure trivial
      · rename_i read rest
        refine (ask_unsized _).andThen fun i => ?_
        have hread := hn _ (List.get_mem (read :: rest) i)
        refine (finishChildren_unsized hread).andThen fun children => ?_
        refine (lift_unsized (Fails.foldlM (fun walk object _ =>
          enqueueObject_unsized blocked walk object) _)).andThen fun walk' => ?_
        exact walkGraph_unsized blocked mode fuel walk' _ _ fun x hx =>
          hn x (List.mem_of_mem_eraseIdx hx)

theorem markObjectGraph_unsized (roots : List ObjectRef) (visited : Visited)
    (blocked : Option (List CollectionCandidate)) (mode : GraphWalk) :
    Op.Unsized (log.markObjectGraph roots visited blocked mode) :=
  (lift_unsized (Fails.foldlM (fun walk object _ => enqueueObject_unsized blocked walk object)
    _)).andThen fun walk => walkGraph_unsized blocked mode _ walk [] 0 nofun

theorem verifyPublication_unsized (newKey : ImmutableKey) (objects : List ObjectRef)
    (staging : Domain) : Op.Unsized (log.verifyPublication view newKey objects staging) := by
  have finish : ∀ blocked : Option (List CollectionCandidate),
      Op.Unsized (if blocked.any (isCollectionCandidate · newKey) then throw .collectionFence
        else pure () : Op Unit) := by
    intro blocked
    split
    · exact Ends.throw nofun
    · exact Ends.pure trivial
  unfold Log.verifyPublication
  split
  · exact (activeCollectionCandidates_unsized log view).andThen finish
  · refine Ends.andThen ?_ finish
    exact (activeCollectionCandidates_unsized log view).andThen fun blocked =>
      (markObjectGraph_unsized _ _ _ _).andThen fun _ => Ends.pure trivial

/-! ## Commits -/

theorem ensureImmutable_unsized (key : ImmutableKey) (bytes : Bytes) :
    Op.Unsized (ensureImmutable key bytes) := by
  have check : ∀ (createError : Option Error) (compare : Option Bytes → Op Unit),
      (∀ e, createError = some e → e.Unsized) →
      (∀ stored, compare (some stored) =
        if stored = bytes then return () else throw .corruptObject) →
      compare none = throw (createError.getD (invalid "an immutable object is missing")) →
      Op.Unsized (readKey key bytes.length >>= compare) := by
    intro createError compare hce hsome hnone
    refine (readKey_unsized key _).andThen fun found => ?_
    cases found with
    | some stored =>
        rw [hsome]
        split
        · exact Ends.pure trivial
        · exact Ends.throw nofun
    | none =>
        rw [hnone]
        cases createError with
        | none => exact Ends.throw (unsized_invalid _)
        | some e => exact Ends.throw (hce e rfl)
  refine Ends.attemptBind (create_unsized key bytes) fun r hr => ?_
  cases r with
  | error e => exact check (some e) _ (fun e' he => Option.some.inj he ▸ hr) (fun _ => rfl) rfl
  | ok created =>
      cases created with
      | true => exact Ends.pure trivial
      | false => exact check none _ (by simp) (fun _ => rfl) rfl

theorem classifyResolution_unsized (target : CommitRef) (current : View) :
    Fails Error.Unsized (classifyResolution target current) := by
  unfold classifyResolution
  split
  · trivial
  split
  · split <;> trivial
  split
  · exact unsized_invalid _
  · trivial

/-- **No commit is refused for the size of the head.** -/
theorem commit_unsized (prepared : PreparedCommit)
    (hfit : maxEncodedHead log.options ≤ log.options.maxHeadBytes.toNat) :
    Op.Unsized (log.commit prepared) := by
  have hprepared : Fails Error.Unsized (log.validatePrepared prepared) :=
    Fails.bind (validateView_unsized _ _) fun _ _ => Fails.bind (validatePreparedSizes_unsized _ _ _)
      fun _ _ => Fails.bind (validateDependencies_unsized _ _) fun _ _ =>
      Fails.bind (fails_ensure (unsized_limit (by decide))) fun _ _ => fails_ensure nofun
  refine Ends.liftThen hprepared fun _ hval => ?_
  have hv : prepared.view.head.options = log.options := by
    obtain ⟨_, hview, -⟩ := bind_ok.1 hval
    exact validateView_options hview
  have hencoded : Fails Error.Unsized (log.encodePrepared prepared) :=
    Fails.bind (fails_ensure (unsized_limit (by decide))) fun _ _ =>
      Fails.bind (Fails.bind (fails_okOr (unsized_limit (by decide))) fun _ _ => trivial)
      fun _ _ => trivial
  refine (lift_unsized hencoded).andThen fun encoded => ?_
  refine (verifyPublication_unsized _ _ _).andThen fun _ =>
    (ensureImmutable_unsized _ _).andThen fun _ => ?_
  refine (publishAttempts_unsized (candidateHead_submits _) hfit _ hv).andThen fun outcome => ?_
  cases outcome with
  | updated next =>
      refine Ends.andThen ((ask_unsized _).andThen fun _ => Ends.pure trivial) fun verified => ?_
      split
      · exact (ask_unsized _).andThen fun _ => Ends.pure trivial
      · exact Ends.pure trivial
  | changed current attempted =>
      refine (lift_unsized (classifyResolution_unsized _ _)).andThen fun evidence => ?_
      cases evidence <;> exact Ends.pure trivial
  | contended current => exact Ends.pure trivial
  | pending => exact Ends.pure trivial

/-! ## Retentions -/

theorem refresh_unsized (log : Log) (view : View) : Op.Unsized (log.refresh view) := by
  refine (lift_unsized (validateView_unsized log view)).andThen fun _ =>
    (readIfChanged_unsized _ _).andThen fun read => ?_
  cases read with
  | notModified => exact Ends.pure trivial
  | modified stored =>
      exact Ends.andThen ((viewFromStored_unsized log stored).mono fun _ h => h.fails) fun _ =>
        Ends.pure trivial
  | missing => exact Ends.throw (unsized_invalid _)

theorem retentionAttempt_unsized {change : RetentionChange} {current : View}
    {again : Option (View → Op RetentionStatus)}
    (hfit : maxEncodedHead log.options ≤ log.options.maxHeadBytes.toNat)
    (ha : ∀ next f, again = some f → next.head.options = log.options → Op.Unsized (f next))
    (hv : current.head.options = log.options) :
    Op.Unsized (log.retentionAttempt view change again current) := by
  unfold Log.retentionAttempt
  split
  · exact Ends.throw (unsized_limit (by decide))
  have hsub := retentionHead_submits change
  refine Ends.liftThen (hsub.unsized current) fun head hh => ?_
  have hopts : head.options = log.options := (hsub.options current head hh).trans hv
  refine Ends.attemptBind (updateHead_unsized hopts hfit) fun r hr => ?_
  split
  · exact Ends.pure trivial
  · refine (loadEvidence_unsized log).bind (fun found hfound => ?_) fun _ h => h
    cases found with
    | none => exact Ends.pure trivial
    | some next =>
        dsimp only
        split
        · exact Ends.pure trivial
        split
        · exact Ends.pure trivial
        split
        · split
          · exact Ends.throw (unsized_invalid _)
          · exact ha next _ rfl hfound
        · exact Ends.pure trivial
  · exact Ends.pure trivial
  · exact Ends.throw hr

theorem retentionAttempts_unsized {change : RetentionChange} {current : View}
    (hfit : maxEncodedHead log.options ≤ log.options.maxHeadBytes.toNat) (further : Nat)
    (hv : current.head.options = log.options) :
    Op.Unsized (log.retentionAttempts view change further current) := by
  induction further generalizing current with
  | zero => exact retentionAttempt_unsized hfit nofun hv
  | succ further ih =>
      refine retentionAttempt_unsized hfit (fun next f hf hnext => ?_) hv
      obtain rfl := Option.some.inj hf
      exact ih hnext

/-- **No change of retentions is refused for the size of the head.** -/
theorem changeRetention_unsized (change : RetentionChange)
    (hfit : maxEncodedHead log.options ≤ log.options.maxHeadBytes.toNat) :
    Op.Unsized (log.changeRetention view change) := by
  refine Ends.liftThen (validateView_unsized log view) fun _ hval => ?_
  dsimp only
  split
  · exact retentionAttempts_unsized hfit _ (validateView_options hval)
  refine (refresh_unsized log view).andThen fun found => ?_
  cases found with
  | none => exact Ends.pure trivial
  | some current =>
      dsimp only
      split
      · exact Ends.pure trivial
      · exact Ends.pure trivial

end ObjectLog
