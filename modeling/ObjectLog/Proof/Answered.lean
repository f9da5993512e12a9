import ObjectLog.Lib.Answers
import ObjectLog.Log.Session

/-!
# What a read returns when nobody vouches for the store

A read returns a value only if some GET was answered with bytes that pass the checks of the
read. Nothing is assumed here about where those bytes come from.
-/

namespace ObjectLog

open Rely

variable {α : Type} {A : Answers Effect Reply} {log : Log} {view : View}
  {object : ObjectRef} {reference : CommitRef}

/-- A GET of the key may find this. -/
def Finds (A : Answers Effect Reply) (key : ImmutableKey) (found : Option Bytes) : Prop :=
  ∃ flight, A (.await (.get key) flight) (.ok found)

/-! ## The store -/

theorem startRead_answered (maxBytes : Nat) (req : Req) :
    Ends A (startRead maxBytes req) fun r => ∃ started, r = .ok started :=
  Ends.attempt (Ends.all fun r => ⟨r, rfl⟩)

/-- The value of a read was collected from an answer. -/
theorem readAttempt_answered {req : Req} {collect : Answer req → Except Error α}
    {started : Except Error FlightId} {retry : Op α} {V : α → Prop}
    (hV : ∀ flight answer x, A (.await req flight) (.ok answer) → collect answer = .ok x → V x)
    (hretry : Ends A retry (Yields V)) :
    Ends A (readAttempt req collect started retry) (Yields V) := by
  refine Ends.feedLift fun flight _ => ?_
  refine Ends.feed (V := A (.await req flight)) (Ends.ask fun a ha => ha) fun a ha => ?_
  cases a with
  | ok answer =>
      refine Ends.lift ?_
      cases hc : collect answer with
      | ok x => exact hV flight answer x ha hc
      | error e => trivial
  | error e =>
      cases e with
      | generic => exact hretry
      | _ => trivial

theorem finishRead_answered {maxBytes : Nat} {req : Req} {collect : Answer req → Except Error α}
    {V : α → Prop}
    (hV : ∀ flight answer x, A (.await req flight) (.ok answer) → collect answer = .ok x → V x)
    (further : Nat) (started : Except Error FlightId) :
    Ends A (finishRead maxBytes req collect further started) (Yields V) := by
  induction further generalizing started with
  | zero => exact readAttempt_answered hV (Ends.throw trivial)
  | succ further ih =>
      exact readAttempt_answered hV
        ((startRead_answered _ _).bind (fun started _ => ih started) fun _ _ => trivial)

theorem retrySafeRead_answered {maxBytes : Nat} {req : Req} {collect : Answer req → Except Error α}
    {V : α → Prop}
    (hV : ∀ flight answer x, A (.await req flight) (.ok answer) → collect answer = .ok x → V x) :
    Ends A (retrySafeRead maxBytes req collect) (Yields V) :=
  (startRead_answered _ _).bind (fun started _ => finishRead_answered hV _ started)
    fun _ _ => trivial

theorem readKey_answered (key : ImmutableKey) (maxBytes : Nat) :
    Ends A (readKey key maxBytes) (Yields (Finds A key)) := by
  refine retrySafeRead_answered fun flight answer x ha hc => ?_
  cases answer with
  | none =>
      obtain rfl := Except.ok.inj hc
      exact ⟨flight, ha⟩
  | some bytes =>
      simp only [collectImmutable, collectObject, bind_ok, ensure_ok, pure, Except.pure,
        Except.ok.injEq] at hc
      obtain ⟨bytes', ⟨⟨⟩, -, rfl⟩, rfl⟩ := hc
      exact ⟨flight, ha⟩

/-! ## Immutable objects -/

variable [Blake3]

/-- Bytes that a GET of the object found and that match the reference. -/
structure ReadsAs (A : Answers Effect Reply) (log : Log) (object : ObjectRef) (bytes : Bytes) :
    Prop where
  found : Finds A (objectKey log.incarnation object) (some bytes)
  verified : verifyObject object bytes = .ok ()
  fits : object.len ≤ log.options.maxObjectBytes

theorem readImmutableOptional_answered :
    Ends A (log.readImmutableOptional object) (Yields fun
      | some bytes => ReadsAs A log object bytes
      | none => Finds A (objectKey log.incarnation object) none) := by
  refine Ends.feedLift fun declaredLen hlen => ?_
  refine (readKey_answered _ _).feed fun found hfound => ?_
  cases found with
  | none => exact Ends.pure hfound
  | some bytes =>
      refine Ends.feedLift fun _ hverify => Ends.pure ⟨hfound, hverify, ?_⟩
      simp only [Log.readableLen, bind_ok, ensure_ok] at hlen
      obtain ⟨-, hfits, -⟩ := hlen
      exact hfits

/-- A missing object is an error, whatever the head says. -/
theorem missingReadError_answered {V : α → Prop} :
    Ends A (log.missingReadError view : Op α) (Yields V) := by
  refine (Ends.all (Q := Yields fun _ => True) ?_).feed fun current _ => ?_
  · rintro (_ | _) <;> trivial
  · split <;> exact Ends.throw trivial

theorem readImmutableForView_answered :
    Ends A (log.readImmutableForView view object) (Yields (ReadsAs A log object)) := by
  refine readImmutableOptional_answered.feed fun found hfound => ?_
  cases found with
  | none => exact missingReadError_answered
  | some bytes => exact Ends.pure hfound

theorem readImmutable_answered :
    Ends A (log.readImmutable object) (Yields (ReadsAs A log object)) := by
  refine readImmutableOptional_answered.feed fun found hfound => ?_
  cases found with
  | none => exact Ends.throw trivial
  | some bytes => exact Ends.pure hfound

theorem readObject_answered :
    Ends A (log.readObject view object)
      (Yields fun bytes => object.kind = .blob ∧ ReadsAs A log object bytes) := by
  refine Ends.feedLift fun _ _ => ?_
  by_cases hkind : object.kind = .blob
  · have hread : Ends A (log.readImmutableForView view object)
        (Yields fun bytes => object.kind = .blob ∧ ReadsAs A log object bytes) :=
      readImmutableForView_answered.mono fun r hr => by
        cases r with
        | ok bytes => exact ⟨hkind, hr⟩
        | error e => trivial
    simpa [hkind] using hread
  · simp only [ne_eq, hkind, not_false_eq_true, if_true]
    exact trivial

theorem readNode_answered :
    Ends A (log.readNode view object) (Yields fun node => object.kind = .node ∧
      ∃ bytes, ReadsAs A log object bytes ∧ log.decodeNodeReference object bytes = .ok node) := by
  refine Ends.feedLift fun _ _ => ?_
  by_cases hkind : object.kind = .node
  · have hread : Ends A (do
        let bytes ← log.readImmutableForView view object
        Prog.lift (log.decodeNodeReference object bytes)) (Yields fun node => object.kind = .node ∧
          ∃ bytes, ReadsAs A log object bytes ∧
            log.decodeNodeReference object bytes = .ok node) := by
      refine readImmutableForView_answered.feed fun bytes hbytes => Ends.lift ?_
      cases hd : log.decodeNodeReference object bytes with
      | ok node => exact ⟨hkind, bytes, hbytes, hd⟩
      | error e => trivial
    simpa [hkind] using hread
  · simp only [ne_eq, hkind, not_false_eq_true, if_true]
    exact trivial

/-! ## Checkpoints and commits -/

/-- The checkpoint that a GET of its object found. -/
def CheckpointReads (A : Answers Effect Reply) (log : Log) (reference : CheckpointRef)
    (checkpoint : Checkpoint) : Prop :=
  ∃ bytes, ReadsAs A log reference.object bytes ∧
    log.decodeCheckpointReference reference bytes = .ok checkpoint

/-- What `read_checkpoint` returns: there is no checkpoint, or its record was found. -/
def CheckpointFound (A : Answers Effect Reply) (log : Log) (view : View) :
    Option CheckpointRecord → Prop
  | none => view.head.checkpoint = none
  | some record => ∃ reference checkpoint, view.head.checkpoint = some reference ∧
      CheckpointReads A log reference checkpoint ∧
      record = { snapshot := checkpoint.snapshot, objects := checkpoint.objects }

theorem readCheckpoint_answered :
    Ends A (log.readCheckpoint view) (Yields (CheckpointFound A log view)) := by
  refine Ends.feedLift fun _ _ => ?_
  cases hc : view.head.checkpoint with
  | none => exact Ends.pure hc
  | some reference =>
      refine Ends.feedLift fun _ _ => ?_
      refine Ends.feed (V := CheckpointReads A log reference) ?_ fun checkpoint hck =>
        Ends.pure ⟨reference, checkpoint, hc, hck, rfl⟩
      refine readImmutableForView_answered.feed fun bytes hbytes => Ends.lift ?_
      cases hd : log.decodeCheckpointReference reference bytes with
      | ok checkpoint => exact ⟨bytes, hbytes, hd⟩
      | error e => trivial

/-- The record of the commit that a GET of its object found. -/
def CommitReads (A : Answers Effect Reply) (log : Log) (reference : CommitRef)
    (record : CommitRecord) : Prop :=
  ∃ bytes, Finds A (commitKey log.incarnation reference) (some bytes) ∧
    log.commitRecord reference bytes = .ok record

theorem commitRecord_reference {bytes : Bytes} {record : CommitRecord}
    (h : log.commitRecord reference bytes = .ok record) : record.reference = reference := by
  simp only [Log.commitRecord, bind_ok, pure, Except.pure, Except.ok.injEq] at h
  obtain ⟨-, -, -, -, commit, -, -, -, -, -, -, -, rfl⟩ := h
  rfl

omit [Blake3] in
theorem startCommit_answered :
    Ends A (log.startCommit reference) fun r => ∃ started, r = .ok started := by
  unfold Log.startCommit
  split
  · exact Ends.pure ⟨_, rfl⟩
  · exact startRead_answered _ _

theorem finishCommit_answered (started : Except Error FlightId) :
    Ends A (log.finishCommit reference started) (Yields fun
      | some record => CommitReads A log reference record
      | none => Finds A (commitKey log.incarnation reference) none) := by
  refine finishRead_answered (fun flight answer x ha hc => ?_) _ started
  cases answer with
  | none =>
      obtain rfl := Except.ok.inj hc
      exact ⟨flight, ha⟩
  | some bytes =>
      simp only [Log.collectCommit, bind_ok, ensure_ok, pure, Except.pure, Except.ok.injEq] at hc
      obtain ⟨⟨⟩, -, record, hrecord, rfl⟩ := hc
      exact ⟨bytes, ⟨flight, ha⟩, hrecord⟩

/-- A record of the tail of a view, with the parent that the view asks for. -/
def TailReads (A : Answers Effect Reply) (log : Log) (view : View) (index : Nat)
    (record : CommitRecord) : Prop :=
  ∃ reference, view.head.tail[index]? = some reference ∧ CommitReads A log reference record ∧
    record.expectedTip = view.expectedTipAt index

theorem finishTailRecord_answered {index : Nat} (hindex : view.head.tail[index]? = some reference)
    (started : Except Error FlightId) :
    Ends A (log.finishTailRecord view index reference started) (Yields fun
      | some record => TailReads A log view index record
      | none => Finds A (commitKey log.incarnation reference) none) := by
  refine (finishCommit_answered started).feed fun found hfound => ?_
  cases found with
  | none => exact Ends.pure hfound
  | some record =>
      refine Ends.feedLift fun _ hparent => ?_
      exact Ends.pure ⟨reference, hindex, hfound, ensure_ok.1 hparent⟩

end ObjectLog
