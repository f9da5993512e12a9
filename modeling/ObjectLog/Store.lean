import ObjectLog.Lib.Prog
import ObjectLog.Handles

/-!
# The store, as the log uses it

An operation of the log is a program over the effects below. A request to the object
store takes two of them. `submit` puts the request into the air, where it can land
before, after or instead of being answered, and `await` takes the answer. Everything
else is local: the request guard, the identities the process draws, and the caches
behind a view.
-/

namespace ObjectLog

open Rely

/-- What a request guard is shown before the request (`Request`). -/
inductive Request
  | read (maxBytes : Nat)
  | write (bytes : Nat)
  | list
  | delete (objects : Nat)
  deriving DecidableEq

/-- One stored state of the head. -/
structure StoredObject where
  bytes : Bytes
  version : UpdateVersion
  deriving DecidableEq

inductive ConditionalRead
  | notModified
  | modified (stored : StoredObject)
  | missing
  deriving DecidableEq

structure ListedObject where
  immutableKey : Option ImmutableKey
  size : UInt64
  deriving DecidableEq

/-- The requests of the log. Only the head is ever read or written under a version, so
the version of an immutable object is left out. -/
inductive Req
  | getHead
  | getHeadIfChanged (eTag : String)
  | createHead (bytes : Bytes)
  | updateHead (bytes : Bytes) (expected : UpdateVersion)
  | get (key : ImmutableKey)
  | create (key : ImmutableKey) (bytes : Bytes)
  | delete (key : ImmutableKey)
  deriving DecidableEq

/-- What a request is answered with when the store does not fail. A create that found
the key taken is `false`, an update whose version did not match is `none`, and a delete
says the same whether the key was there or not. -/
def Answer : Req → Type
  | .getHead => Option StoredObject
  | .getHeadIfChanged _ => ConditionalRead
  | .createHead _ => Bool
  | .updateHead _ _ => Option UpdateVersion
  | .get _ => Option Bytes
  | .create _ _ => Bool
  | .delete _ => Unit

/-- The number of a request in the air. -/
abbrev FlightId := Nat

inductive Effect
  | admission (request : Request)
  | submit (req : Req)
  | await (req : Req) (flight : FlightId)
  /-- The next item of a listing of the scope. -/
  | listNext
  /-- `StorageId::new`. -/
  | storageId
  /-- `Uuid::new_v4`. -/
  | uuid
  /-- `Arc::new(StagingDomain)`. -/
  | stagingDomain
  /-- `Log::view`: a new observed state with empty caches. -/
  | observe (head : Head) (version : UpdateVersion)
  | verifiedTail (view : ViewId)
  | setVerifiedTail (view : ViewId) (domain : Domain)
  | collectionCandidates (view : ViewId)
  | initCollectionCandidates (view : ViewId) (candidates : List CollectionCandidate)
  /-- Which of `n + 1` reads in progress is taken next. -/
  | choose (n : Nat)

def Reply : Effect → Type
  | .admission _ => Bool
  | .submit _ => FlightId
  | .await req _ => Except StoreError (Answer req)
  | .listNext => Except StoreError (Option ListedObject)
  | .storageId => StorageId
  | .uuid => Uuid
  | .stagingDomain => Domain
  | .observe _ _ => ViewId
  | .verifiedTail _ => Option Domain
  | .setVerifiedTail _ _ => Unit
  | .collectionCandidates _ => Option (List CollectionCandidate)
  | .initCollectionCandidates _ _ => List CollectionCandidate
  | .choose n => Fin (n + 1)

/-- An operation of the log. -/
abbrev Op := Prog Effect Reply Error

/-! ## The effects as operations -/

def guardAdmits (request : Request) : Op Bool := Prog.ask (Effect.admission request)
def submit (req : Req) : Op FlightId := Prog.ask (Effect.submit req)
def await (req : Req) (flight : FlightId) : Op (Except StoreError (Answer req)) :=
  Prog.ask (Effect.await req flight)
def listNext : Op (Except StoreError (Option ListedObject)) := Prog.ask Effect.listNext
def newStorageId : Op StorageId := Prog.ask Effect.storageId
def newUuid : Op Uuid := Prog.ask Effect.uuid
def newStagingDomain : Op Domain := Prog.ask Effect.stagingDomain
def choose (n : Nat) : Op (Fin (n + 1)) := Prog.ask (Effect.choose n)

/-! ## `ScopedStore` -/

def maxDeleteBatch : Nat := 1000

/-- `ScopedStore::admit`. -/
def admitRequest (request : Request) : Op Unit := do
  if ← guardAdmits request then return () else throw .requestDenied

/-- A request and its answer. -/
def request (req : Req) : Op (Answer req) := do
  let flight ← submit req
  match ← await req flight with
  | .ok answer => return answer
  | .error error => throw (.store error)

/-- The first half of a read: it is admitted and submitted. A refusal is kept until the
read is taken. -/
def startRead (maxBytes : Nat) (req : Req) : Op (Except Error FlightId) :=
  Prog.attempt do
    admitRequest (.read maxBytes)
    submit req

/-- One attempt of a read, from its answer on. `retry` follows a generic failure. -/
def readAttempt {α : Type} (req : Req) (collect : Answer req → Except Error α)
    (started : Except Error FlightId) (retry : Op α) : Op α := do
  let flight ← Prog.lift started
  match ← await req flight with
  | .ok answer => Prog.lift (collect answer)
  | .error .generic => retry
  | .error error => throw (.store error)

/-- The second half of a read. A generic failure is retried `further` times, the GET and
the collection of its body together. -/
def finishRead {α : Type} (maxBytes : Nat) (req : Req) (collect : Answer req → Except Error α) :
    Nat → Except Error FlightId → Op α
  | 0, started => readAttempt req collect started (throw (.store .generic))
  | further + 1, started => readAttempt req collect started do
      finishRead maxBytes req collect further (← startRead maxBytes req)

/-- The attempts of a read after the first (`SAFE_READ_ATTEMPTS` is three). -/
def furtherReads : Nat := 2

/-- `ScopedStore::retry_safe_read`. -/
def retrySafeRead {α : Type} (maxBytes : Nat) (req : Req)
    (collect : Answer req → Except Error α) : Op α := do
  finishRead maxBytes req collect furtherReads (← startRead maxBytes req)

/-- The size check of `collect_object` and `collect_integrity`. -/
def collectObject (maxBytes : Nat) (bytes : Bytes) : Except Error Bytes := do
  ensure (bytes.length ≤ maxBytes) (.limitExceeded "read bytes")
  return bytes

/-- What `read_with` makes of the answer to a GET of the head. -/
def collectHead (maxBytes : Nat) : Option StoredObject → Except Error (Option StoredObject)
  | none => .ok none
  | some stored => do
      let bytes ← collectObject maxBytes stored.bytes
      return some { stored with bytes }

/-- What `read_with` makes of the answer to a GET of an immutable object. -/
def collectImmutable (maxBytes : Nat) : Option Bytes → Except Error (Option Bytes)
  | none => .ok none
  | some bytes => do return some (← collectObject maxBytes bytes)

/-- `ScopedStore::read` of the head. -/
def readHead (maxBytes : Nat) : Op (Option StoredObject) :=
  retrySafeRead maxBytes .getHead (collectHead maxBytes)

/-- `ScopedStore::read` of an immutable object. -/
def readKey (key : ImmutableKey) (maxBytes : Nat) : Op (Option Bytes) :=
  retrySafeRead maxBytes (.get key) (collectImmutable maxBytes)

/-- `ScopedStore::read_if_changed`. -/
def readIfChanged (observed : UpdateVersion) (maxBytes : Nat) : Op ConditionalRead := do
  match observed.eTag with
  | none => throw (.unsupportedBackend "conditional read")
  | some eTag =>
      retrySafeRead maxBytes (.getHeadIfChanged eTag) fun
        | .modified stored => do
            let bytes ← collectObject maxBytes stored.bytes
            return .modified { stored with bytes }
        | other => .ok other

/-- `ScopedStore::create` of an immutable object. -/
def create (key : ImmutableKey) (bytes : Bytes) : Op Bool := do
  admitRequest (.write bytes.length)
  request (.create key bytes)

/-- `ScopedStore::create` of the head. -/
def createHead (bytes : Bytes) : Op Bool := do
  admitRequest (.write bytes.length)
  request (.createHead bytes)

/-- `ScopedStore::update` of the head. -/
def update (bytes : Bytes) (observed : UpdateVersion) : Op (Option UpdateVersion) := do
  admitRequest (.write bytes.length)
  request (.updateHead bytes observed)

/-- The requests of one batch. `delete_stream` may have any of them in the air. -/
def submitDeletes : List ImmutableKey → Op (List (ImmutableKey × FlightId))
  | [] => return []
  | key :: keys => do
      let flight ← submit (.delete key)
      return (key, flight) :: (← submitDeletes keys)

/-- The answers of one batch, all of them taken, and the first failure among them. -/
def awaitDeletes : List (ImmutableKey × FlightId) → Option StoreError → Op (Option StoreError)
  | [], firstError => return firstError
  | (key, flight) :: rest, firstError => do
      match ← await (.delete key) flight with
      | .ok _ => awaitDeletes rest firstError
      | .error error => awaitDeletes rest (firstError.or (some error))

/-- `ScopedStore::delete_immutable_batch`. -/
def deleteImmutableBatch (keys : List ImmutableKey) : Op Unit := do
  if maxDeleteBatch < keys.length then throw (.limitExceeded "immutable delete batch")
  if keys = [] then return ()
  admitRequest (.delete keys.length)
  let flights ← submitDeletes keys
  match ← awaitDeletes flights none with
  | some error => throw (.store error)
  | none => return ()

end ObjectLog
