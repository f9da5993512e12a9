import ObjectLog.Log.Session

/-!
# The system

Any number of calls of any number of handles over one log namespace, and the store
between them. The store is adversarial: a request lands at any moment after it was
submitted, or never; its answer can be lost; an update or a create can be answered as
refused although it landed or will land; a guard can deny anything. What the store does
promise is that a landing is atomic, that an update lands only on the version it names,
and that it gives different versions to different bytes.

Three parts of the state are history, kept for the proofs and read by no program: every
stored state of the head, the first bytes of every immutable key, and every request
with the moments it was sent, landed and answered. A moment is counted in stored states
of the head.
-/

namespace ObjectLog

open Rely

variable [Blake3]

/-! ## Calls -/

/-- The public operations. -/
inductive Call
  | «open» (options : Options)
  | openExistingWithView (options : Options)
  | load (log : Log)
  | refresh (log : Log) (view : View)
  | changeRetention (log : Log) (view : View) (change : RetentionChange)
  | startCollectionWithLimit (log : Log) (view : View) (maxCandidates : UInt64)
  | resumeCollection (log : Log) (view : View)
  | putObject (log : Log) (view : View) (bytes : Bytes)
  | putNode (log : Log) (view : View) (payload : Bytes) (children : List StagedObject)
  | stageObjects (log : Log) (view : View) (objects : List ObjectRef)
  | readObject (log : Log) (view : View) (object : ObjectRef)
  | readNode (log : Log) (view : View) (object : ObjectRef)
  | readStagedNode (log : Log) (view : View) (node : StagedObject)
  | prepare (log : Log) (view : View) (transactionId : TransactionId) (operation result : Bytes)
      (objects : List StagedObject)
  | commit (log : Log) (prepared : PreparedCommit)
  | resolve (log : Log) (pending : PendingCommit)
  | resume (log : Log) (token : Bytes)
  | readTail (log : Log) (view : View)
  | tailRecord (log : Log) (view : View) (index : Nat)
  | historyNext (cursor : HistoryCursor)
  | readCheckpoint (log : Log) (view : View)
  | publishCheckpoint (log : Log) (view : View) (through : CommitRef) (snapshot : Bytes)
      (objects : List StagedObject)
  | resolveCheckpoint (log : Log) (pending : PendingCheckpoint)
  | openBytes (log : Log) (view : View) (root : ObjectRef)
  | readAt (reader : ByteReader) (offset maxLen : Nat)

/-- What a call returns. -/
inductive Value
  | log (log : Log)
  | opened (log : Log) (view : View)
  | view (view : View)
  | refreshed (view : Option View)
  | retention (status : RetentionStatus)
  | collectionStart (start : CollectionStart)
  | collectionFinish (finish : CollectionFinish)
  | staged (objects : List StagedObject)
  | bytes (bytes : Bytes)
  | node (node : Node)
  | prepared (prepared : PreparedCommit)
  | commit (status : CommitStatus)
  | resolution (resolution : Resolution)
  | tail (records : List CommitRecord)
  | tailRecord (record : Authenticated CommitRecord)
  | history (cursor : HistoryCursor) (result : Except Error (Option HistoryItem))
  | checkpointRecord (record : Option CheckpointRecord)
  | checkpoint (status : CheckpointStatus)
  | checkpointResolution (resolution : CheckpointResolution)
  | reader (reader : ByteReader)
  | readAt (reader : ByteReader) (result : Except Error Bytes)

/-- The program of a call in the namespace of one log. -/
def Call.run (scope : LogId) : Call → Op Value
  | .«open» options => do return .log (← Log.open scope options)
  | .openExistingWithView options => do
      let (log, view) ← Log.openExistingWithView scope options
      return .opened log view
  | .load log => do return .view (← log.load)
  | .refresh log view => do return .refreshed (← log.refresh view)
  | .changeRetention log view change => do return .retention (← log.changeRetention view change)
  | .startCollectionWithLimit log view maxCandidates => do
      return .collectionStart (← log.startCollectionWithLimit view maxCandidates)
  | .resumeCollection log view => do return .collectionFinish (← log.resumeCollection view)
  | .putObject log view bytes => do return .staged [← log.putObject view bytes]
  | .putNode log view payload children => do
      return .staged [← log.putNode view payload children]
  | .stageObjects log view objects => do return .staged (← log.stageObjects view objects)
  | .readObject log view object => do return .bytes (← log.readObject view object)
  | .readNode log view object => do return .node (← log.readNode view object)
  | .readStagedNode log view node => do return .staged (← log.readStagedNode view node).2
  | .prepare log view transactionId operation result objects => do
      return .prepared (← log.prepare view transactionId operation result objects)
  | .commit log prepared => do return .commit (← log.commit prepared)
  | .resolve log pending => do return .resolution (← log.resolve pending)
  | .resume log token => do return .resolution (← log.resume token)
  | .readTail log view => do return .tail (← log.readTail view)
  | .tailRecord log view index => do return .tailRecord (← log.tailRecord view index)
  | .historyNext cursor => do
      let (cursor, result) ← cursor.next
      return .history cursor result
  | .readCheckpoint log view => do return .checkpointRecord (← log.readCheckpoint view)
  | .publishCheckpoint log view through snapshot objects => do
      return .checkpoint (← log.publishCheckpoint view through snapshot objects)
  | .resolveCheckpoint log pending => do
      return .checkpointResolution (← log.resolveCheckpoint pending)
  | .openBytes log view root => do return .reader (← log.openBytes view root)
  | .readAt reader offset maxLen => do
      let (reader, result) ← reader.readAt offset maxLen
      return .readAt reader result

/-! ## What a caller can come by -/

/-- The values that only the log hands out. -/
inductive Item
  | log (log : Log)
  | view (view : View)
  | staged (object : StagedObject)
  | prepared (prepared : PreparedCommit)
  | pendingCommit (pending : PendingCommit)
  | pendingCheckpoint (pending : PendingCheckpoint)
  | token (token : Bytes)
  | cursor (cursor : HistoryCursor)
  | reader (reader : ByteReader)

/-- The items of a call. Bytes, limits, identities and bare references are anyone's. -/
def Call.args : Call → List Item
  | .«open» _ => []
  | .openExistingWithView _ => []
  | .load log => [.log log]
  | .refresh log view => [.log log, .view view]
  | .changeRetention log view _ => [.log log, .view view]
  | .startCollectionWithLimit log view _ => [.log log, .view view]
  | .resumeCollection log view => [.log log, .view view]
  | .putObject log view _ => [.log log, .view view]
  | .putNode log view _ children => .log log :: .view view :: children.map .staged
  | .stageObjects log view _ => [.log log, .view view]
  | .readObject log view _ => [.log log, .view view]
  | .readNode log view _ => [.log log, .view view]
  | .readStagedNode log view node => [.log log, .view view, .staged node]
  | .prepare log view _ _ _ objects => .log log :: .view view :: objects.map .staged
  | .commit log prepared => [.log log, .prepared prepared]
  | .resolve log pending => [.log log, .pendingCommit pending]
  | .resume log token => [.log log, .token token]
  | .readTail log view => [.log log, .view view]
  | .tailRecord log view _ => [.log log, .view view]
  | .historyNext cursor => [.cursor cursor]
  | .readCheckpoint log view => [.log log, .view view]
  | .publishCheckpoint log view _ _ objects => .log log :: .view view :: objects.map .staged
  | .resolveCheckpoint log pending => [.log log, .pendingCheckpoint pending]
  | .openBytes log view _ => [.log log, .view view]
  | .readAt reader _ _ => [.reader reader]

/-- The items of a result. -/
def Value.items : Value → List Item
  | .log l => [.log l]
  | .opened l v => [.log l, .view v]
  | .view v => [.view v]
  | .refreshed v => v.toList.map .view
  | .retention (.applied v) => [.view v]
  | .retention (.activeCollection v) => [.view v]
  | .retention (.conflict v) => [.view v]
  | .retention .pending => []
  | .collectionStart (.installed v _) => [.view v]
  | .collectionStart (.active v) => [.view v]
  | .collectionStart (.retained v) => [.view v]
  | .collectionStart (.conflict v) => [.view v]
  | .collectionStart _ => []
  | .collectionFinish (.complete v _) => [.view v]
  | .collectionFinish (.conflict v _) => [.view v]
  | .collectionFinish (.pending _) => []
  | .staged objects => objects.map .staged
  | .bytes _ => []
  | .node _ => []
  | .prepared p => [.prepared p]
  | .commit (.committed v) => [.view v]
  | .commit (.conflict v) => [.view v]
  | .commit (.pending pending) => [.pendingCommit pending]
  | .resolution (.committed v) => [.view v]
  | .resolution (.notCommitted v) => [.view v]
  | .resolution (.stillPending pending) => [.pendingCommit pending]
  | .resolution (.expired v) => [.view v]
  | .tail _ => []
  | .tailRecord record => record.proofs.map .staged
  | .history cursor (.ok (some (.checkpoint item))) => .cursor cursor :: item.proofs.map .staged
  | .history cursor (.ok (some (.commit item))) => .cursor cursor :: item.proofs.map .staged
  | .history cursor _ => [.cursor cursor]
  | .checkpointRecord _ => []
  | .checkpoint (.published v) => [.view v]
  | .checkpoint (.conflict v) => [.view v]
  | .checkpoint (.pending pending) => [.pendingCheckpoint pending]
  | .checkpointResolution (.published v) => [.view v]
  | .checkpointResolution (.notPublished v) => [.view v]
  | .checkpointResolution (.stillPending pending) => [.pendingCheckpoint pending]
  | .checkpointResolution (.expired v) => [.view v]
  | .reader r => [.reader r]
  | .readAt r _ => [.reader r]

/-! ## The state -/

/-- One request in the air, and what became of it. -/
structure Flight where
  /-- The call that submitted it. -/
  tid : Nat
  req : Req
  sent : Nat
  landed : Option (Nat × Answer req)
  told : Option (Nat × Except StoreError (Answer req))

/-- What a view observed, and its caches (`ObservedState`). -/
structure ObservedState where
  head : Head
  version : UpdateVersion
  verifiedTail : Option Domain
  collectionCandidates : Option (List CollectionCandidate)

/-- A call, and how many requests and states of the head there were when it began. -/
structure Begun where
  call : Call
  flights : Nat
  heads : Nat

structure State where
  scope : LogId
  /-- Every stored state of the head. The last one is the durable head. -/
  headLog : List StoredObject
  objects : ImmutableKey → Option Bytes
  /-- The first bytes of a key, and the moment they landed. -/
  created : ImmutableKey → Option (Bytes × Nat)
  flights : List Flight
  /-- The storage identities drawn so far, and by which call. -/
  ids : List (StorageId × Nat)
  domains : Nat
  views : List ObservedState
  calls : List Begun

/-- A namespace nobody has used. -/
def State.init (scope : LogId) : State where
  scope := scope
  headLog := []
  objects := fun _ => none
  created := fun _ => none
  flights := []
  ids := []
  domains := 0
  views := []
  calls := []

/-- The number of stored states of the head. -/
def State.now (s : State) : Nat := s.headLog.length

/-- `h` was the `i`-th durable head, stored under version `v`. -/
def State.HeadAt (s : State) (i : Nat) (h : Head) (v : UpdateVersion) : Prop :=
  ∃ bytes, s.headLog[i]? = some ⟨bytes, v⟩ ∧ decodeHead bytes = .ok h

/-! ## Landing -/

/-- The store gives a version it gave before only to the bytes that had it. -/
def NewVersion (s : State) (bytes : Bytes) (version : UpdateVersion) : Prop :=
  ∀ stored ∈ s.headLog, (stored.version = version ∨
    (version.eTag.isSome ∧ stored.version.eTag = version.eTag)) → stored.bytes = bytes

def putHead (s : State) (bytes : Bytes) (version : UpdateVersion) : State :=
  { s with headLog := s.headLog ++ [⟨bytes, version⟩] }

def putKey (s : State) (key : ImmutableKey) (bytes : Bytes) : State :=
  { s with
    objects := Function.update s.objects key (some bytes)
    created := Function.update s.created key (some ((s.created key).getD (bytes, s.now))) }

def dropKey (s : State) (key : ImmutableKey) : State :=
  { s with objects := Function.update s.objects key none }

/-- What a request does to the store at the moment it lands, and its answer. -/
def Lands (s : State) : (req : Req) → Answer req → State → Prop
  | .getHead, a, s' => a = s.headLog.getLast? ∧ s' = s
  | .getHeadIfChanged eTag, a, s' => s' = s ∧
      match s.headLog.getLast? with
      | none => a = .missing
      | some stored =>
          a = if stored.version.eTag = some eTag then .notModified else .modified stored
  | .createHead bytes, a, s' =>
      (s.headLog = [] ∧ a = true ∧ ∃ version, s' = putHead s bytes version) ∨
      (s.headLog ≠ [] ∧ a = false ∧ s' = s)
  | .updateHead bytes expected, a, s' =>
      (∃ stored version, s.headLog.getLast? = some stored ∧ stored.version = expected ∧
        NewVersion s bytes version ∧ a = some version ∧ s' = putHead s bytes version) ∨
      ((∀ stored, s.headLog.getLast? = some stored → stored.version ≠ expected) ∧
        a = none ∧ s' = s)
  | .get key, a, s' => a = s.objects key ∧ s' = s
  | .create key bytes, a, s' =>
      (s.objects key = none ∧ a = true ∧ s' = putKey s key bytes) ∨
      (s.objects key ≠ none ∧ a = false ∧ s' = s)
  | .delete key, _, s' => s' = dropKey s key

/-- An answer that need not be true: the store may refuse what it did or will do. -/
def Refusal : (req : Req) → Answer req → Prop
  | .createHead _, a => a = false
  | .updateHead _ _, a => a = none
  | .create _ _, a => a = false
  | _, _ => False

/-- The answers that a request can get. -/
def Told (f : Flight) : Except StoreError (Answer f.req) → Prop
  | .error _ => True
  | .ok a => (∃ n, f.landed = some (n, a)) ∨ Refusal f.req a

def setFlight (s : State) (i : Nat) (f : Flight) : State :=
  { s with flights := s.flights.set i f }

def modifyView (s : State) (id : ViewId) (f : ObservedState → ObservedState) : State :=
  { s with views := s.views.modify id f }

def drawId (s : State) (t : Nat) (id : StorageId) : State :=
  { s with ids := s.ids ++ [(id, t)] }

/-- The effect `e` of call `t`, its answer and the state after it. -/
def Exec (t : Nat) (s : State) : (e : Effect) → Reply e → State → Prop
  | .admission _, _, s' => s' = s
  | .submit req, i, s' => i = s.flights.length ∧
      s' = { s with flights := s.flights ++ [⟨t, req, s.now, none, none⟩] }
  | .await req i, r, s' => ∃ sent landed,
      s.flights[i]? = some ⟨t, req, sent, landed, none⟩ ∧
      Told ⟨t, req, sent, landed, none⟩ r ∧
      s' = setFlight s i ⟨t, req, sent, landed, some (s.now, r)⟩
  | .listNext, r, s' => s' = s ∧ ∀ item key, r = .ok (some item) →
      item.immutableKey = some key →
      ∃ bytes n, s.created key = some (bytes, n) ∧ item.size.toNat = bytes.length
  | .storageId, x, s' => (∀ t', (x, t') ∉ s.ids) ∧ s' = drawId s t x
  | .uuid, _, s' => s' = s
  | .stagingDomain, d, s' => d = s.domains ∧ s' = { s with domains := s.domains + 1 }
  | .observe head version, id, s' => id = s.views.length ∧
      s' = { s with views := s.views ++ [⟨head, version, none, none⟩] }
  | .verifiedTail id, r, s' => s' = s ∧ r = (s.views[id]?).bind ObservedState.verifiedTail
  | .setVerifiedTail id domain, _, s' =>
      s' = modifyView s id fun o => { o with verifiedTail := o.verifiedTail.or (some domain) }
  | .collectionCandidates id, r, s' =>
      s' = s ∧ r = (s.views[id]?).bind ObservedState.collectionCandidates
  | .initCollectionCandidates id candidates, r, s' =>
      r = ((s.views[id]?).bind ObservedState.collectionCandidates).getD candidates ∧
      s' = modifyView s id fun o =>
        { o with collectionCandidates := o.collectionCandidates.or (some candidates) }
  | .choose _, _, s' => s' = s

/-! ## Runs -/

/-- The state and the calls. A finished call is a finished program; a call that is never
scheduled again is one whose caller dropped it. -/
structure World where
  state : State
  threads : List (Op Value)

def World.init (scope : LogId) : World := ⟨State.init scope, []⟩

/-- What the callers have come by. -/
inductive Known (w : World) : Item → Prop
  | returned {t : Nat} {v : Value} {item : Item}
      (h : w.threads[t]? = some (.done (.ok v))) (hi : item ∈ v.items) : Known w item
  | viewOfPrepared {p : PreparedCommit} (h : Known w (.prepared p)) : Known w (.view p.view)
  | tokenOfPrepared {p : PreparedCommit} {token : Bytes} (h : Known w (.prepared p))
      (ht : encodeRecoveryToken p = .ok token) (hl : token.length < 2 ^ 64) :
      Known w (.token token)
  | tokenOfPending {p : PendingCommit} {token : Bytes} (h : Known w (.pendingCommit p))
      (ht : p.recoveryToken = .ok token) (hl : token.length < 2 ^ 64) : Known w (.token token)
  | history {log : Log} {view : View} {cursor : HistoryCursor} (hl : Known w (.log log))
      (hv : Known w (.view view)) (hc : log.history view = .ok cursor) :
      Known w (.cursor cursor)
  | clone {cursor : HistoryCursor} (h : Known w (.cursor cursor)) : Known w (.cursor cursor.clone)
  | viewOfCursor {cursor : HistoryCursor} (h : Known w (.cursor cursor)) :
      Known w (.view cursor.view)

/-- The world after a call has begun. -/
def World.begin (w : World) (call : Call) : World where
  state := { w.state with
    calls := w.state.calls ++ [⟨call, w.state.flights.length, w.state.now⟩] }
  threads := w.threads ++ [call.run w.state.scope]

/-- One step of the system: a call begins, a call performs its next effect, or a request
lands. -/
inductive Step : World → World → Prop
  | begin {w : World} (call : Call) (h : ∀ item ∈ call.args, Known w item) : Step w (w.begin call)
  | act {w : World} {t : Nat} {e : Effect} {k : Reply e → Op Value} {a : Reply e} {s' : State}
      (ht : w.threads[t]? = some (.perform e k)) (hx : Exec t w.state e a s') :
      Step w ⟨s', w.threads.set t (k a)⟩
  | land {w : World} {i : Nat} {f : Flight} {a : Answer f.req} {s' : State}
      (hf : w.state.flights[i]? = some f) (hn : f.landed = none)
      (hl : Lands w.state f.req a s') :
      Step w ⟨setFlight s' i { f with landed := some (w.state.now, a) }, w.threads⟩

/-- The worlds of the runs over one namespace. -/
inductive Reachable (scope : LogId) : World → Prop
  | init : Reachable scope (World.init scope)
  | step {w w' : World} (h : Reachable scope w) (hs : Step w w') : Reachable scope w'

end ObjectLog
