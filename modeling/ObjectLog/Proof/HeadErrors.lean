import ObjectLog.Lib.Answers
import ObjectLog.Log.Publish
import ObjectLog.Proof.HeadSize

/-!
# Where a head is refused for its size

Only `update_head` refuses a head for its size. Every other step of a publication, whatever
the store answers, ends with a value or with some other error.
-/

set_option linter.unusedSectionVars false

namespace ObjectLog

open Rely Cbor

/-- Not the refusal of a head that is too large. -/
def Error.Unsized (e : Error) : Prop := e ≠ .limitExceeded "encoded head bytes"

theorem unsized_invalid (message : String) : (invalid message).Unsized := nofun

theorem unsized_store (e : StoreError) : (Error.store e).Unsized := nofun

/-! ## Decoders -/

section

variable {α β : Type} {S : Error → Prop}

/-- A decoder that fails as `S` says, on every input. -/
def Dec.Fails (S : Error → Prop) (d : Dec α) : Prop := ∀ input, Rely.Fails S (d input)

namespace Dec.Fails

theorem pure (a : α) : Dec.Fails S (pure a : Dec α) := fun _ => trivial

theorem bind {d : Dec α} {f : α → Dec β} (h : d.Fails S) (hf : ∀ a, (f a).Fails S) :
    (d >>= f).Fails S :=
  fun input => Rely.Fails.bind (h input) fun p _ => hf p.1 p.2

theorem lift {x : Except Error α} (h : Rely.Fails S x) : Dec.Fails S (liftM x : Dec α) := by
  intro input
  cases x with
  | ok a => trivial
  | error e => exact h

theorem get : Dec.Fails S (get : Dec Bytes) := fun _ => trivial

theorem run {d : Dec α} {input : Bytes} (h : d.Fails S) : Rely.Fails S (Dec.run d input) :=
  Rely.Fails.bind (h input) fun _ _ => trivial

end Dec.Fails

end

section

variable {α : Type}

theorem cbor_unsized {r : Reader α} : (Dec.cbor r).Fails Error.Unsized :=
  fun _ => fails_okOr nofun

theorem valid_unsized {p : Prop} [Decidable p] : (Dec.valid p).Fails Error.Unsized :=
  fun _ => Fails.bind (fails_ensure nofun) fun _ _ => trivial

theorem exact_unsized {r : Reader α} {encode : α → Bytes} :
    (Dec.exact r encode).Fails Error.Unsized :=
  fun _ => Fails.bind (fails_okOr nofun) fun _ _ =>
    Fails.bind (fails_ensure nofun) fun _ _ => trivial

theorem exactLen_unsized {r : Reader (Option Nat)} {major : Nat} :
    (Dec.exactLen r major).Fails Error.Unsized :=
  fun _ => Fails.bind (fails_okOr nofun) fun _ _ => Fails.bind (fails_okOr nofun) fun _ _ =>
    Fails.bind (fails_ensure nofun) fun _ _ => trivial

theorem field_unsized (k : Nat) : (Dec.field k).Fails Error.Unsized :=
  exact_unsized.bind fun _ => valid_unsized

theorem finished_unsized : Dec.finished.Fails Error.Unsized :=
  Dec.Fails.get.bind fun _ => valid_unsized

theorem times_unsized {d : Dec α} (h : d.Fails Error.Unsized) (n : Nat) :
    (decTimes d n).Fails Error.Unsized := by
  induction n with
  | zero => exact Dec.Fails.pure _
  | succ n ih => exact h.bind fun _ => ih.bind fun _ => Dec.Fails.pure _

theorem uuidOf_unsized (value : Bytes) (name : String) :
    Fails Error.Unsized (uuidOf value name) := by
  unfold uuidOf
  split
  · trivial
  · exact unsized_invalid _

theorem digestOf_unsized (value : Bytes) : Fails Error.Unsized (digestOf value) := by
  unfold digestOf
  split
  · trivial
  · exact unsized_invalid _

theorem transactionIdOf_unsized (value : Bytes) : Fails Error.Unsized (transactionIdOf value) :=
  Fails.bind (uuidOf_unsized _ _) fun _ _ => trivial

theorem storageIdOf_unsized (value : Bytes) : Fails Error.Unsized (storageIdOf value) :=
  Fails.bind (uuidOf_unsized _ _) fun _ _ => trivial

theorem logId_unsized (value : Bytes) : Fails Error.Unsized (LogId.new value) := by
  unfold LogId.new
  split
  · trivial
  · intro h
    cases h

theorem validateCount_unsized (r : ObjectRef) : Fails Error.Unsized r.validateCount :=
  fails_ensure nofun

theorem commitRef_unsized (w : CommitRefWire) : Fails Error.Unsized (CommitRef.ofWire w) :=
  Fails.bind (transactionIdOf_unsized _) fun _ _ => Fails.bind (storageIdOf_unsized _) fun _ _ =>
    Fails.bind (digestOf_unsized _) fun _ _ => trivial

theorem objectRef_unsized (w : ObjectRefWire) : Fails Error.Unsized (ObjectRef.ofWire w) := by
  have rest : ∀ kind : ObjectKind, Fails Error.Unsized (do
      let storageId ← storageIdOf w.storageId
      let digest ← digestOf w.digest
      let object : ObjectRef :=
        { kind, storageId, digest, len := w.len, subtreeObjects := w.subtreeObjects }
      object.validateCount
      return object : Except Error ObjectRef) := fun kind =>
    Fails.bind (storageIdOf_unsized _) fun _ _ => Fails.bind (digestOf_unsized _) fun _ _ =>
      Fails.bind (validateCount_unsized _) fun _ _ => trivial
  unfold ObjectRef.ofWire
  split
  · exact rest .blob
  · exact rest .checkpoint
  · exact rest .node
  · exact unsized_invalid _

theorem checkpointRef_unsized (w : CheckpointRefWire) :
    Fails Error.Unsized (CheckpointRef.ofWire w) :=
  Fails.bind (fails_okOr nofun) fun _ _ => Fails.bind (objectRef_unsized _) fun _ _ =>
    Fails.bind (fails_ensure nofun) fun _ _ => Fails.bind (digestOf_unsized _) fun _ _ => trivial

theorem planRef_unsized (w : CollectionPlanRefWire) :
    Fails Error.Unsized (CollectionPlanRef.ofWire w) :=
  Fails.bind (storageIdOf_unsized _) fun _ _ => Fails.bind (digestOf_unsized _) fun _ _ => trivial

theorem decodeExact_unsized {r : Reader α} {input : Bytes} :
    Fails Error.Unsized (decodeExact r input) :=
  Fails.bind (fails_okOr nofun) fun _ _ => Fails.bind (fails_ensure nofun) fun _ _ => trivial

theorem requireVersion_unsized (version : Nat) : Fails Error.Unsized (requireVersion version) :=
  fails_ensure (unsized_invalid _)

theorem decodeBorrowedEnvelope_unsized [Blake3] (input : Bytes) :
    Fails Error.Unsized (decodeBorrowedEnvelope input) := by
  refine Dec.Fails.run ?_
  refine exactLen_unsized.bind fun n => valid_unsized.bind fun _ => (field_unsized 1).bind fun _ =>
    exact_unsized.bind fun payload => (field_unsized 2).bind fun _ => exact_unsized.bind fun d =>
    finished_unsized.bind fun _ => (Dec.Fails.lift (digestOf_unsized d)).bind fun digest =>
    (Dec.Fails.lift (fails_ensure nofun)).bind fun _ => Dec.Fails.pure _

/-! ### Heads -/

theorem headShapeFields_unsized {field : Nat → Dec Unit}
    (h : ∀ k, (field k).Fails Error.Unsized) (n previous : Nat) (seen : List Nat) :
    (headShapeFields field n previous seen).Fails Error.Unsized := by
  induction n generalizing previous seen with
  | zero => exact Dec.Fails.pure _
  | succ n ih =>
      exact cbor_unsized.bind fun key => valid_unsized.bind fun _ => (h key).bind fun _ =>
        valid_unsized.bind fun _ => ih _ _

theorem headShapeMap_unsized {required : List Nat} {field : Nat → Dec Unit}
    (h : ∀ k, (field k).Fails Error.Unsized) : (headShapeMap required field).Fails Error.Unsized :=
  cbor_unsized.bind fun _ => (Dec.Fails.lift (fails_okOr nofun)).bind fun _ =>
    (headShapeFields_unsized h _ _ _).bind fun _ => valid_unsized

theorem shapeTimes_unsized {d : Dec Unit} (h : d.Fails Error.Unsized) (n : Nat) :
    (shapeTimes d n).Fails Error.Unsized := by
  induction n with
  | zero => exact Dec.Fails.pure _
  | succ n ih => exact h.bind fun _ => ih

theorem shapeArray_unsized {d : Dec Unit} (h : d.Fails Error.Unsized) :
    (shapeArray d).Fails Error.Unsized :=
  cbor_unsized.bind fun _ => (Dec.Fails.lift (fails_okOr nofun)).bind fun _ =>
    shapeTimes_unsized h _

theorem shapeUint_unsized : shapeUint.Fails Error.Unsized :=
  cbor_unsized.bind fun _ => Dec.Fails.pure _

theorem shapeBytes_unsized (len : Nat) : (shapeBytes len).Fails Error.Unsized :=
  cbor_unsized.bind fun _ => valid_unsized

theorem shapeUnknown_unsized : shapeUnknown.Fails Error.Unsized := fun _ => nofun

theorem shapeObjectRef_unsized : shapeObjectRef.Fails Error.Unsized := by
  refine headShapeMap_unsized fun k => ?_
  split
  all_goals first
    | exact shapeUint_unsized
    | exact shapeBytes_unsized _
    | exact shapeUnknown_unsized

theorem shapeCheckpointRef_unsized : shapeCheckpointRef.Fails Error.Unsized := by
  refine headShapeMap_unsized fun k => ?_
  split
  · exact shapeUint_unsized
  · exact shapeBytes_unsized _
  · exact shapeObjectRef_unsized
  · exact shapeUnknown_unsized

theorem shapeCommitRef_unsized : shapeCommitRef.Fails Error.Unsized := by
  refine headShapeMap_unsized fun k => ?_
  split
  all_goals first
    | exact shapeUint_unsized
    | exact shapeBytes_unsized _
    | exact shapeUnknown_unsized

theorem shapeHead_unsized : shapeHead.Fails Error.Unsized := by
  have hoptions : shapeOptions.Fails Error.Unsized :=
    headShapeMap_unsized fun k => valid_unsized.bind fun _ => shapeUint_unsized
  have hplan : shapePlanRef.Fails Error.Unsized := by
    refine headShapeMap_unsized fun k => ?_
    split
    · exact shapeBytes_unsized _
    · exact shapeBytes_unsized _
    · exact shapeUint_unsized
    · exact shapeUnknown_unsized
  have hid : shapeLogId.Fails Error.Unsized :=
    cbor_unsized.bind fun _ => Dec.Fails.lift (fails_ensure nofun)
  refine headShapeMap_unsized fun k => ?_
  split
  all_goals first
    | exact shapeUint_unsized
    | exact shapeBytes_unsized _
    | exact shapeUnknown_unsized
    | exact hid
    | exact shapeCheckpointRef_unsized
    | exact shapeArray_unsized shapeCommitRef_unsized
    | exact hoptions
    | exact hplan
    | exact shapeArray_unsized (shapeBytes_unsized _)

theorem retentionIdsOf_unsized (values : List Bytes) (previous : Option RetentionId)
    (ids : Finset RetentionId) : Fails Error.Unsized (retentionIdsOf values previous ids) := by
  induction values generalizing previous ids with
  | nil => trivial
  | cons value rest ih =>
      exact Fails.bind (uuidOf_unsized _ _) fun _ _ => Fails.bind (fails_ensure nofun) fun _ _ =>
        ih _ _

theorem headOfWire_unsized (w : HeadWire) : Fails Error.Unsized (Head.ofWire w) :=
  Fails.bind (logId_unsized _) fun _ _ => Fails.bind (uuidOf_unsized _ _) fun _ _ =>
    Fails.bind (Fails.optionMapM fun _ _ => checkpointRef_unsized _) fun _ _ =>
    Fails.bind (Fails.mapM fun _ _ => commitRef_unsized _) fun _ _ =>
    Fails.bind (Fails.mapM fun _ _ => commitRef_unsized _) fun _ _ =>
    Fails.bind (Fails.optionMapM fun _ _ => planRef_unsized _) fun _ _ =>
    Fails.bind (retentionIdsOf_unsized _ _ _) fun _ _ => trivial

theorem validateCommitSequence_unsized (start : UInt64) (commits : List CommitRef) (offset : Nat)
    (seen : List TransactionId) :
    Fails Error.Unsized (validateCommitSequence start commits offset seen) := by
  induction commits generalizing offset seen with
  | nil => trivial
  | cons c rest ih =>
      exact Fails.bind (fails_okOr nofun) fun _ _ => Fails.bind (fails_okOr nofun) fun _ _ =>
        Fails.bind (fails_ensure nofun) fun _ _ => Fails.bind (fails_ensure nofun) fun _ _ => ih _ _

theorem validate_unsized (h : Head) : Fails Error.Unsized h.validate := by
  have hcollection : Fails Error.Unsized h.validateCollectionState := by
    refine Fails.bind (fails_ensure nofun) fun _ _ => Fails.bind (fails_ensure nofun) fun _ _ =>
      Fails.bind (fails_ensure nofun) fun _ _ => ?_
    split
    · exact Fails.bind (fails_ensure nofun) fun _ _ => fails_ensure nofun
    · trivial
  have hstart : Fails Error.Unsized h.expectedStart := by
    unfold Head.expectedStart
    split
    · exact Fails.bind (fails_ensure nofun) fun _ _ => fails_okOr nofun
    · trivial
  have houtcomes : ∀ available, Fails Error.Unsized (h.expectedOutcomeStart available) := by
    intro available
    unfold Head.expectedOutcomeStart
    split
    · exact Fails.bind (fails_ensure nofun) fun _ _ => trivial
    · exact Fails.bind (fails_okOr nofun) fun _ _ => Fails.bind (fails_ensure nofun) fun _ _ =>
        Fails.bind (fails_ensure nofun) fun _ _ => trivial
  exact Fails.bind (fails_ensure nofun) fun _ _ => Fails.bind (fails_ensure nofun) fun _ _ =>
    Fails.bind (fails_ensure nofun) fun _ _ => Fails.bind hcollection fun _ _ =>
    Fails.bind hstart fun _ _ => Fails.bind (validateCommitSequence_unsized _ _ _ _) fun _ _ =>
    Fails.bind (fails_okOr nofun) fun _ _ => Fails.bind (fails_okOr nofun) fun _ _ =>
    Fails.bind (fails_ensure nofun) fun _ _ => Fails.bind (houtcomes _) fun _ _ =>
    Fails.bind (validateCommitSequence_unsized _ _ _ _) fun _ _ => trivial

theorem encodeHead_unsized [Blake3] (h : Head) : Fails Error.Unsized (encodeHead h) :=
  Fails.bind (validate_unsized h) fun _ _ => trivial

theorem decodeHead_unsized [Blake3] (input : Bytes) : Fails Error.Unsized (decodeHead input) :=
  Fails.bind (decodeBorrowedEnvelope_unsized _) fun _ _ =>
    Fails.bind (Dec.Fails.run (shapeHead_unsized.bind fun _ => finished_unsized)) fun _ _ =>
    Fails.bind decodeExact_unsized fun _ _ => Fails.bind (requireVersion_unsized _) fun _ _ =>
    Fails.bind (headOfWire_unsized _) fun _ _ => Fails.bind (validate_unsized _) fun _ _ =>
    Fails.bind (encodeHead_unsized _) fun _ _ => Fails.bind (fails_ensure nofun) fun _ _ => trivial

/-! ### Commits and collection plans -/

theorem decodeCommit_unsized [Blake3] (input : Bytes) :
    Fails Error.Unsized (decodeCommit input) := by
  have hwire : ∀ w, Fails Error.Unsized (Commit.ofWire w) := fun w =>
    Fails.bind (logId_unsized _) fun _ _ => Fails.bind (uuidOf_unsized _ _) fun _ _ =>
      Fails.bind (transactionIdOf_unsized _) fun _ _ =>
      Fails.bind (Fails.optionMapM fun _ _ => digestOf_unsized _) fun _ _ =>
      Fails.bind (Fails.mapM fun _ _ => objectRef_unsized _) fun _ _ => trivial
  exact Fails.bind (decodeBorrowedEnvelope_unsized _) fun _ _ =>
    Fails.bind decodeExact_unsized fun _ _ => Fails.bind (requireVersion_unsized _) fun _ _ =>
    Fails.bind (hwire _) fun _ _ => Fails.bind (fails_ensure nofun) fun _ _ => trivial

/-- The limits of a plan are not those of a head. -/
theorem unsized_limit {what : String} (h : what ≠ "encoded head bytes") :
    (Error.limitExceeded what).Unsized := fun he => h (Error.limitExceeded.inj he)

theorem validatePlan_unsized (plan : CollectionPlan) (options : Options) :
    Fails Error.Unsized (plan.validate options) :=
  Fails.bind (fails_ensure nofun) fun _ _ => Fails.bind (fails_ensure nofun) fun _ _ =>
    Fails.bind (fails_ensure (unsized_limit (by decide))) fun _ _ =>
    Fails.bind (fails_ensure nofun) fun _ _ =>
    Fails.bind (Fails.foldlM (fun _ _ _ => fails_okOr (unsized_limit (by decide))) _) fun _ _ =>
    trivial

theorem decodeCandidate_unsized : decodeCandidate.Fails Error.Unsized := by
  have rest : ∀ (incarnation : Uuid) (kind : ImmutableKind), Dec.Fails Error.Unsized (do
      Dec.field 3
      let storageId ← storageIdOf (← Dec.exactBytes)
      Dec.field 4
      let digest ← digestOf (← Dec.exactBytes)
      Dec.field 5
      let bytes ← Dec.exactU64
      return { key := { incarnation, kind, storageId, digest }, bytes } :
        Dec CollectionCandidate) := fun incarnation kind =>
    (field_unsized 3).bind fun _ => exact_unsized.bind fun _ =>
      (Dec.Fails.lift (storageIdOf_unsized _)).bind fun _ => (field_unsized 4).bind fun _ =>
      exact_unsized.bind fun _ => (Dec.Fails.lift (digestOf_unsized _)).bind fun _ =>
      (field_unsized 5).bind fun _ => exact_unsized.bind fun _ => Dec.Fails.pure _
  refine exactLen_unsized.bind fun _ => valid_unsized.bind fun _ => (field_unsized 1).bind fun _ =>
    exact_unsized.bind fun _ => (Dec.Fails.lift (uuidOf_unsized _ _)).bind fun incarnation =>
    (field_unsized 2).bind fun _ => exact_unsized.bind fun kind => ?_
  split
  · exact rest _ .commit
  · exact rest _ .blob
  · exact rest _ .node
  · exact rest _ .checkpoint
  · exact rest _ .collectionPlan
  · exact fun _ => nofun

theorem decodeCollectionPlan_unsized [Blake3] (input : Bytes) (options : Options) :
    Fails Error.Unsized (decodeCollectionPlan input options) := by
  refine Fails.bind (fails_ensure (unsized_limit (by decide))) fun _ _ =>
    Fails.bind (decodeBorrowedEnvelope_unsized _) fun _ _ => Dec.Fails.run ?_
  exact exactLen_unsized.bind fun _ => valid_unsized.bind fun _ => (field_unsized 1).bind fun _ =>
    exact_unsized.bind fun _ => (Dec.Fails.lift (requireVersion_unsized _)).bind fun _ =>
    (field_unsized 2).bind fun _ => exact_unsized.bind fun _ =>
    (Dec.Fails.lift (fails_ensure nofun)).bind fun _ =>
    (Dec.Fails.lift (logId_unsized _)).bind fun _ => (field_unsized 3).bind fun _ =>
    exact_unsized.bind fun _ => (field_unsized 4).bind fun _ => exactLen_unsized.bind fun _ =>
    (Dec.Fails.lift (fails_ensure (unsized_limit (by decide)))).bind fun _ =>
    Dec.Fails.get.bind fun _ => valid_unsized.bind fun _ =>
    (times_unsized decodeCandidate_unsized _).bind fun _ => finished_unsized.bind fun _ =>
    (Dec.Fails.lift (validatePlan_unsized _ _)).bind fun _ => Dec.Fails.pure _

end

/-! ## Requests -/

section

variable [Blake3] {α σ : Type} {log : Log} {view : View}

/-- However the store answers, the operation does not refuse a head for its size. -/
abbrev Op.Unsized (op : Op α) : Prop := Ends anything op (Fails Error.Unsized)

theorem ask_unsized (e : Effect) : Op.Unsized (Prog.ask e) := fun _ _ => trivial

theorem lift_unsized {r : Except Error α} (h : Fails Error.Unsized r) :
    Op.Unsized (Prog.lift r) := h

theorem admitRequest_unsized (r : Request) : Op.Unsized (admitRequest r) := by
  refine (ask_unsized _).andThen fun admitted => ?_
  split
  · exact Ends.pure trivial
  · exact Ends.throw nofun

theorem request_unsized (req : Req) : Op.Unsized (request req) := by
  refine (ask_unsized _).andThen fun flight => (ask_unsized _).andThen fun answer => ?_
  split
  · exact Ends.pure trivial
  · exact Ends.throw (unsized_store _)

/-- What a started read carries is not such a refusal either. -/
def Started : Except Error (Except Error FlightId) → Prop
  | .ok started => Fails Error.Unsized started
  | .error e => e.Unsized

theorem startRead_unsized (maxBytes : Nat) (req : Req) :
    Ends anything (startRead maxBytes req) Started :=
  Ends.attempt (((admitRequest_unsized _).andThen fun _ => ask_unsized _).mono fun _ h => h)

theorem readAttempt_unsized {req : Req} {collect : Answer req → Except Error α}
    {started : Except Error FlightId} {retry : Op α} (hs : Fails Error.Unsized started)
    (hc : ∀ a, Fails Error.Unsized (collect a)) (hr : Op.Unsized retry) :
    Op.Unsized (readAttempt req collect started retry) := by
  refine (lift_unsized hs).andThen fun flight => (ask_unsized _).andThen fun answer => ?_
  split
  · exact lift_unsized (hc _)
  · exact hr
  · exact Ends.throw (unsized_store _)

theorem finishRead_unsized {maxBytes : Nat} {req : Req} {collect : Answer req → Except Error α}
    (hc : ∀ a, Fails Error.Unsized (collect a)) (further : Nat) {started : Except Error FlightId}
    (hs : Fails Error.Unsized started) :
    Op.Unsized (finishRead maxBytes req collect further started) := by
  induction further generalizing started with
  | zero => exact readAttempt_unsized hs hc (Ends.throw (unsized_store _))
  | succ further ih =>
      exact readAttempt_unsized hs hc
        ((startRead_unsized _ _).bind (fun _ h => ih h) fun _ h => h)

theorem retrySafeRead_unsized {maxBytes : Nat} {req : Req} {collect : Answer req → Except Error α}
    (hc : ∀ a, Fails Error.Unsized (collect a)) :
    Op.Unsized (retrySafeRead maxBytes req collect) :=
  (startRead_unsized _ _).bind (fun _ h => finishRead_unsized hc _ h) fun _ h => h

theorem collectObject_unsized (maxBytes : Nat) (bytes : Bytes) :
    Fails Error.Unsized (collectObject maxBytes bytes) :=
  Fails.bind (fails_ensure (unsized_limit (by decide))) fun _ _ => trivial

theorem readHead_unsized (maxBytes : Nat) : Op.Unsized (readHead maxBytes) := by
  refine retrySafeRead_unsized fun a => ?_
  cases a with
  | none => trivial
  | some stored => exact Fails.bind (collectObject_unsized _ _) fun _ _ => trivial

theorem readKey_unsized (key : ImmutableKey) (maxBytes : Nat) :
    Op.Unsized (readKey key maxBytes) := by
  refine retrySafeRead_unsized fun a => ?_
  cases a with
  | none => trivial
  | some bytes => exact Fails.bind (collectObject_unsized _ _) fun _ _ => trivial

theorem create_unsized (key : ImmutableKey) (bytes : Bytes) : Op.Unsized (create key bytes) :=
  (admitRequest_unsized _).andThen fun _ => request_unsized _

/-! ## Reading the log -/

/-- A view of this log, with its options. -/
def Loads (log : Log) : Except Error View → Prop
  | .ok view => view.head.options = log.options
  | .error e => e.Unsized

theorem Loads.fails {r : Except Error View} (h : Loads log r) : Fails Error.Unsized r := by
  cases r with
  | ok view => trivial
  | error e => exact h

theorem headFromStored_unsized (log : Log) (stored : StoredObject) :
    Fails Error.Unsized (log.headFromStored stored) :=
  Fails.bind (decodeHead_unsized _) fun _ _ => Fails.bind (fails_ensure nofun) fun _ _ =>
    Fails.bind (fails_ensure nofun) fun _ _ => Fails.bind (fails_ensure nofun) fun _ _ => trivial

theorem headFromStored_options {stored : StoredObject} {h : Head}
    (hh : log.headFromStored stored = .ok h) : h.options = log.options := by
  simp only [Log.headFromStored, bind_ok, ensure_ok, exists_const, pure, Except.pure,
    Except.ok.injEq] at hh
  obtain ⟨_, -, -, -, hopts, rfl⟩ := hh
  exact hopts

theorem viewFromStored_unsized (log : Log) (stored : StoredObject) :
    Ends anything (log.viewFromStored stored) (Loads log) := by
  have hfails := headFromStored_unsized log stored
  unfold Log.viewFromStored
  cases hh : log.headFromStored stored with
  | error e =>
      rw [hh] at hfails
      exact Ends.throw hfails
  | ok head => exact fun _ _ => headFromStored_options hh

theorem load_unsized (log : Log) : Ends anything log.load (Loads log) := by
  refine (readHead_unsized _).bind (fun stored _ => ?_) fun _ h => h
  cases stored with
  | none => exact Ends.throw (unsized_invalid _)
  | some stored => exact viewFromStored_unsized log stored

theorem readIfChanged_unsized (observed : UpdateVersion) (maxBytes : Nat) :
    Op.Unsized (readIfChanged observed maxBytes) := by
  unfold readIfChanged
  split
  · exact Ends.throw nofun
  · refine retrySafeRead_unsized fun a => ?_
    cases a with
    | notModified => trivial
    | modified stored => exact Fails.bind (collectObject_unsized _ _) fun _ _ => trivial
    | missing => trivial

theorem missingReadError_unsized (log : Log) (view : View) :
    Op.Unsized (log.missingReadError view : Op α) := by
  refine (load_unsized log).bind (fun current _ => ?_) fun _ h => h
  split
  · exact Ends.throw nofun
  · exact Ends.throw nofun
  · exact Ends.throw (unsized_invalid _)

theorem publicationObjects_unsized (log : Log) (objects : List ObjectRef) :
    Fails Error.Unsized (log.publicationObjects objects) :=
  Fails.bind (Fails.foldlM (fun _ _ _ => Fails.bind (validateCount_unsized _) fun _ _ =>
      fails_okOr (unsized_limit (by decide))) _) fun _ _ =>
    Fails.bind (fails_ensure (unsized_limit (by decide))) fun _ _ => trivial

theorem validatePreparedSizes_unsized (log : Log) (operation result : Bytes) :
    Fails Error.Unsized (log.validatePreparedSizes operation result) :=
  Fails.bind (fails_ensure (unsized_limit (by decide))) fun _ _ =>
    fails_ensure (unsized_limit (by decide))

theorem validateDependencies_unsized (log : Log) (objects : List ObjectRef) :
    Fails Error.Unsized (log.validateDependencies objects) :=
  Fails.bind (fails_ensure (unsized_limit (by decide))) fun _ _ =>
    Fails.bind (fails_ensure nofun) fun _ _ =>
    Fails.bind (publicationObjects_unsized _ _) fun _ _ => trivial

theorem commitRecord_unsized (log : Log) (reference : CommitRef) (bytes : Bytes) :
    Fails Error.Unsized (log.commitRecord reference bytes) :=
  Fails.bind (fails_okOr (unsized_limit (by decide))) fun _ _ =>
    Fails.bind (fails_ensure nofun) fun _ _ => Fails.bind (decodeCommit_unsized _) fun _ _ =>
    Fails.bind (validatePreparedSizes_unsized _ _ _) fun _ _ =>
    Fails.bind (validateDependencies_unsized _ _) fun _ _ =>
    Fails.bind (fails_ensure nofun) fun _ _ => trivial

theorem startCommit_unsized (log : Log) (reference : CommitRef) :
    Ends anything (log.startCommit reference) Started := by
  unfold Log.startCommit
  split
  · exact Ends.pure (unsized_limit (by decide))
  · exact startRead_unsized _ _

theorem finishCommit_unsized (log : Log) (reference : CommitRef) {started : Except Error FlightId}
    (hs : Fails Error.Unsized started) : Op.Unsized (log.finishCommit reference started) := by
  refine finishRead_unsized (fun a => ?_) _ hs
  cases a with
  | none => trivial
  | some bytes =>
      exact Fails.bind (fails_ensure nofun) fun _ _ =>
        Fails.bind (commitRecord_unsized _ _ _) fun _ _ => trivial

/-- The reads that are ahead, and none of them such a refusal. -/
def Ahead : Except Error (List (Except Error FlightId)) → Prop
  | .ok ahead => ∀ started ∈ ahead, Fails Error.Unsized started
  | .error e => e.Unsized

theorem startCommits_unsized (log : Log) (references : List CommitRef) :
    Ends anything (references.mapM log.startCommit) Ahead := by
  induction references with
  | nil => exact fun started hs => absurd hs List.not_mem_nil
  | cons reference rest ih =>
      rw [List.mapM_cons]
      refine (startCommit_unsized log reference).bind (fun started hs => ?_) fun _ h => h
      refine ih.bind (fun ahead ha => Ends.pure ?_) fun _ h => h
      intro x hx
      rcases List.mem_cons.1 hx with rfl | hx
      · exact hs
      · exact ha x hx

theorem consumeTail_unsized {consume : σ → CommitRecord → Except Error σ}
    (hc : ∀ state record, Fails Error.Unsized (consume state record)) (window : Nat) :
    ∀ (references : List CommitRef) (ahead : List (Except Error FlightId)) (tip : Option Digest)
      (state : σ), (∀ started ∈ ahead, Fails Error.Unsized started) →
      Op.Unsized (log.consumeTail view window consume references ahead tip state)
  | [], _, _, _, _ => Ends.pure trivial
  | reference :: references, ahead, tip, state, ha => by
      -- the read in front, with those behind it
      have hnext : Ends anything (log.nextRead reference ahead) fun r => match r with
          | .ok (next, rest) => Fails Error.Unsized next ∧
              ∀ started ∈ rest, Fails Error.Unsized started
          | .error e => e.Unsized := by
        cases ahead with
        | nil =>
            refine (startCommit_unsized log reference).bind (fun started hs => ?_) fun _ h => h
            exact Ends.pure ⟨hs, fun x hx => absurd hx List.not_mem_nil⟩
        | cons next rest =>
            exact Ends.pure ⟨ha next (by simp), fun x hx => ha x (by simp [hx])⟩
      refine hnext.bind (fun next hn => ?_) fun _ h => h
      obtain ⟨next, rest⟩ := next
      have hahead : Ends anything (log.readAhead (window - 1) references rest) Ahead := by
        refine (startCommits_unsized log _).bind (fun more hm => Ends.pure ?_) fun _ h => h
        intro x hx
        rcases List.mem_append.1 hx with hx | hx
        · exact hn.2 x hx
        · exact hm x hx
      refine hahead.bind (fun ahead ha => ?_) fun _ h => h
      refine (finishCommit_unsized log reference hn.1).andThen fun found => ?_
      cases found with
      | none => exact missingReadError_unsized log view
      | some record =>
          have hparent : Fails Error.Unsized (checkParent tip record) := fails_ensure nofun
          exact (lift_unsized hparent).andThen fun _ =>
            (lift_unsized (hc state record)).andThen fun state =>
            consumeTail_unsized hc window references ahead _ state ha

theorem validateView_unsized (log : Log) (view : View) :
    Fails Error.Unsized (log.validateView view) :=
  Fails.bind (fails_ensure nofun) fun _ _ => Fails.bind (fails_ensure nofun) fun _ _ =>
    fails_ensure nofun

theorem verifyTail_unsized (log : Log) (view : View) : Op.Unsized (log.verifyTail view) := by
  refine (lift_unsized (validateView_unsized log view)).andThen fun _ => ?_
  refine Ends.andThen ((ask_unsized _).andThen fun _ => Ends.pure trivial) fun verified => ?_
  split
  · exact Ends.pure trivial
  · have hconsume : ∀ (u : Unit) (r : CommitRecord), Fails Error.Unsized
        ((fun _ _ => .ok () : Unit → CommitRecord → Except Error Unit) u r) := fun _ _ => trivial
    refine Ends.andThen ?_ fun _ => ask_unsized _
    exact (lift_unsized (validateView_unsized log view)).andThen fun _ =>
      consumeTail_unsized hconsume _ _ _ _ _ fun x hx => absurd hx List.not_mem_nil

theorem readCollectionPlan_unsized (log : Log) (head : Head) (reference : CollectionPlanRef) :
    Op.Unsized (log.readCollectionPlan head reference) := by
  unfold Log.readCollectionPlan
  split
  · exact Ends.throw (unsized_limit (by decide))
  · refine (readKey_unsized _ _).andThen fun found => ?_
    cases found with
    | none =>
        refine (load_unsized log).bind (fun current _ => ?_) fun _ h => h
        split
        · exact Ends.throw nofun
        · exact Ends.throw (unsized_invalid _)
    | some bytes =>
        exact lift_unsized (Fails.bind (fails_ensure nofun) fun _ _ =>
          Fails.bind (decodeCollectionPlan_unsized _ _) fun _ _ =>
          Fails.bind (fails_ensure nofun) fun _ _ => trivial)

theorem activeCollectionCandidates_unsized (log : Log) (view : View) :
    Op.Unsized (log.activeCollectionCandidates view) := by
  unfold Log.activeCollectionCandidates
  split
  · exact Ends.pure trivial
  · refine (ask_unsized _).andThen fun cached => ?_
    split
    · exact Ends.pure trivial
    · exact (readCollectionPlan_unsized _ _ _).andThen fun plan =>
        (ask_unsized _).andThen fun _ => Ends.pure trivial

end

end ObjectLog
