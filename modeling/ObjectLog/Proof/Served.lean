import ObjectLog.Proof.Answered
import ObjectLog.Proof.ReadOps

/-!
# Programs over fixed contents

Answers that come from one assignment of bytes to keys: what a store holds that nobody
changes. `Serving` lets every request fail; under `Faultless` none does, and then a read has
one outcome, which is computed here.
-/

namespace ObjectLog

open Rely

/-- Answers under which every object that was created is in the contents. -/
def Creating (σ : Bodies) : Answers Effect Reply
  | .await (.create key bytes) _, reply =>
      reply = (.ok true : Except StoreError Bool) → σ key = some bytes
  | _, _ => True

/-- Answers under which a GET finds the contents, if it is answered. -/
def Serving (σ : Bodies) : Answers Effect Reply
  | .await (.get key) _, reply =>
      ∀ found, reply = (.ok found : Except StoreError (Option Bytes)) → found = σ key
  | _, _ => True

/-- Answers under which every request is admitted and every GET finds the contents. -/
def Faultless (σ : Bodies) : Answers Effect Reply
  | .admission _, admitted => admitted = true
  | .await (.get key) _, reply => reply = (.ok (σ key) : Except StoreError (Option Bytes))
  | _, _ => True

variable {α : Type} {σ : Bodies} {log : Log} {view : View} {object : ObjectRef}
  {key : ImmutableKey}

theorem Finds.served {found : Option Bytes} (h : Finds (Serving σ) key found) : found = σ key := by
  obtain ⟨flight, h⟩ := h
  exact h found rfl

/-! ## Reads without faults -/

theorem startRead_faultless (maxBytes : Nat) (req : Req) :
    Ends (Faultless σ) (startRead maxBytes req) fun r => ∃ flight, r = .ok (.ok flight) := by
  have hadm : Ends (Faultless σ) (admitRequest (.read maxBytes)) fun r => r = .ok () :=
    Ends.after (a := true) (Ends.ask fun a ha => congrArg Except.ok ha) (Ends.pure rfl)
  exact Ends.attempt (hadm.after (Ends.ask fun flight _ => ⟨flight, rfl⟩))

/-- A read ends with what it collects from the contents. -/
theorem finishRead_faultless {maxBytes : Nat} (collect : Option Bytes → Except Error α)
    (further : Nat) (flight : FlightId) :
    Ends (Faultless σ) (finishRead maxBytes (.get key) collect further (.ok flight))
      fun r => r = collect (σ key) := by
  have hreply : Ends (Faultless σ) (await (.get key) flight) fun r =>
      r = .ok (.ok (σ key) : Except StoreError (Option Bytes)) :=
    Ends.ask fun a ha => congrArg Except.ok ha
  have hattempt : ∀ retry : Op α, Ends (Faultless σ)
      (readAttempt (.get key) collect (.ok flight) retry) fun r => r = collect (σ key) :=
    fun retry => Ends.after (a := flight) (Ends.lift rfl) (hreply.after (Ends.lift rfl))
  cases further with
  | zero => exact hattempt _
  | succ further => exact hattempt _

theorem readKey_faultless (key : ImmutableKey) (maxBytes : Nat) :
    Ends (Faultless σ) (readKey key maxBytes) fun r => r = collectImmutable maxBytes (σ key) := by
  refine (startRead_faultless maxBytes (.get key)).bind ?_ nofun
  rintro started ⟨flight, hstarted⟩
  rw [Except.ok.inj hstarted]
  exact finishRead_faultless _ _ _

theorem Faultless.serving (e : Effect) (a : Reply e) (h : Faultless σ e a) : Serving σ e a := by
  cases e with
  | await req flight =>
      cases req with
      | get key =>
          intro found hfound
          exact Except.ok.inj (hfound.symm.trans h)
      | _ => trivial
  | _ => trivial

/-- One way to answer from the contents: nothing fails but the head, and an object can be
created if it is there. -/
def answersFrom (σ : Bodies) : (e : Effect) → Reply e
  | .admission _ => true
  | .submit _ => (0 : Nat)
  | .await .getHead _ => .error .generic
  | .await (.getHeadIfChanged _) _ => .error .generic
  | .await (.createHead _) _ => .error .generic
  | .await (.updateHead _ _) _ => .error .generic
  | .await (.get key) _ => .ok (σ key)
  | .await (.create key bytes) _ => .ok (decide (σ key = some bytes))
  | .await (.delete _) _ => .error .generic
  | .listNext => .error .generic
  | .storageId => (⟨0⟩ : StorageId)
  | .uuid => (0 : Uuid)
  | .stagingDomain => (0 : Nat)
  | .observe _ _ => (0 : Nat)
  | .verifiedTail _ => none
  | .setVerifiedTail _ _ => ()
  | .collectionCandidates _ => none
  | .initCollectionCandidates _ candidates => candidates
  | .choose n => (⟨0, Nat.succ_pos n⟩ : Fin (n + 1))

theorem answersFrom_creating (e : Effect) : Creating σ e (answersFrom σ e) := by
  cases e with
  | await req flight =>
      cases req with
      | create key bytes =>
          intro h
          exact of_decide_eq_true (Except.ok.inj h)
      | _ => trivial
  | _ => trivial

theorem answersFrom_faultless (e : Effect) : Faultless σ e (answersFrom σ e) := by
  cases e with
  | admission request => rfl
  | await req flight => cases req <;> trivial
  | _ => trivial

variable [Blake3]

/-- The contents have the object that the reference names. -/
structure Served (σ : Bodies) (log : Log) (object : ObjectRef) (bytes : Bytes) : Prop where
  held : σ (objectKey log.incarnation object) = some bytes
  verified : verifyObject object bytes = .ok ()
  fits : object.len ≤ log.options.maxObjectBytes

/-- What a read returns that was answered from the contents. -/
theorem ReadsAs.served {bytes : Bytes} (h : ReadsAs (Serving σ) log object bytes) :
    Served σ log object bytes := ⟨h.found.served.symm, h.verified, h.fits⟩

/-- An object that the contents have is read. -/
theorem readImmutableForView_served {bytes : Bytes} (h : Served σ log object bytes) :
    Ends (Faultless σ) (log.readImmutableForView view object) fun r => r = .ok bytes := by
  have hlen : log.readableLen object = .ok object.len.toNat := by
    simp [Log.readableLen, ensure, h.fits]
  have hcollect : collectImmutable object.len.toNat (some bytes) = .ok (some bytes) := by
    have hlen := (verifyObject_ok.1 h.verified).2.1
    simp [collectImmutable, collectObject, ensure, hlen]
  have hread : Ends (Faultless σ) (readKey (objectKey log.incarnation object) object.len.toNat)
      fun r => r = .ok (some bytes) := by
    refine (readKey_faultless _ _).mono fun r hr => ?_
    rw [hr, h.held, hcollect]
  have hoptional : Ends (Faultless σ) (log.readImmutableOptional object) fun r =>
      r = .ok (some bytes) :=
    Ends.after (Ends.lift hlen) (hread.after (Ends.after (Ends.lift h.verified) (Ends.pure rfl)))
  exact hoptional.after (Ends.pure rfl)

end ObjectLog
