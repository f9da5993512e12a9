import ObjectLog.Proof.World

/-!
# Replaying a run

An executable scheduler for the system: a script says which call begins, which call takes
its next step and when a request lands, and the replay computes the world that the run
ends in or refuses the script. Every replayed world is reachable, so a script is a proof
that a run exists.
-/

set_option linter.unusedSectionVars false

namespace ObjectLog

open Rely

deriving instance DecidableEq for HistoryCursor
deriving instance DecidableEq for ByteReader
deriving instance DecidableEq for Item

section

variable [Blake3] {w w' : World} {s s' : State} {t : Nat} {scope : LogId}

/-! ## Answers -/

/-- How an effect is answered where the system leaves a choice. -/
inductive Choice
  | usual
  | denied
  | lost
  | refused
  | listed (item : ListedObject)

def refusal : (req : Req) → Option (Answer req)
  | .createHead _ => some false
  | .updateHead _ _ => some none
  | .create _ _ => some false
  | _ => none

/-- The answer to a request in the air. -/
def told (req : Req) (landed : Option (Nat × Answer req)) : Choice →
    Option (Except StoreError (Answer req))
  | .lost => some (.error .other)
  | .refused => (refusal req).map .ok
  | _ => landed.map fun x => .ok x.2

/-- What a listing can say: the size of a key that was created. -/
def listable (s : State) (item : ListedObject) : Bool :=
  match item.immutableKey with
  | none => true
  | some key => match s.created key with
      | some (bytes, _) => item.size.toNat == bytes.length
      | none => false

/-- The next effect of call `t`. -/
def perform (t : Nat) (s : State) (choice : Choice) : (e : Effect) → Option (Reply e × State)
  | .admission _ => match choice with
      | .denied => some (false, s)
      | _ => some (true, s)
  | .submit req =>
      some (s.flights.length, { s with flights := s.flights ++ [⟨t, req, s.now, none, none⟩] })
  | .await req i => do
      let f ← s.flights[i]?
      if h : f.req = req then
        let landed := h ▸ f.landed
        let answer ← told req landed choice
        if f.tid = t ∧ f.told.isNone then
          return (answer, setFlight s i ⟨t, req, f.sent, landed, some (s.now, answer)⟩)
        else none
      else none
  | .listNext => match choice with
      | .lost => some (.error .other, s)
      | .listed item => if listable s item then some (.ok (some item), s) else none
      | _ => some (.ok none, s)
  | .storageId =>
      let x : StorageId := ⟨Fin.ofNat _ (s.ids.length + 1)⟩
      if s.ids.all fun p => p.1 ≠ x then some (x, drawId s t x) else none
  | .uuid => some (Fin.ofNat _ (s.domains + 1), s)
  | .stagingDomain => some (s.domains, { s with domains := s.domains + 1 })
  | .observe head version =>
      some (s.views.length, { s with views := s.views ++ [⟨head, version, none, none⟩] })
  | .verifiedTail id => some ((s.views[id]?).bind ObservedState.verifiedTail, s)
  | .setVerifiedTail id domain =>
      some ((), modifyView s id fun o => { o with verifiedTail := o.verifiedTail.or (some domain) })
  | .collectionCandidates id => some ((s.views[id]?).bind ObservedState.collectionCandidates, s)
  | .initCollectionCandidates id candidates =>
      some (((s.views[id]?).bind ObservedState.collectionCandidates).getD candidates,
        modifyView s id fun o =>
          { o with collectionCandidates := o.collectionCandidates.or (some candidates) })
  | .choose n => some ((⟨0, Nat.succ_pos n⟩ : Fin (n + 1)), s)

instance (s : State) (bytes : Bytes) (version : UpdateVersion) :
    Decidable (NewVersion s bytes version) :=
  inferInstanceAs (Decidable (∀ stored ∈ s.headLog, _))

/-- A request lands. -/
def landing (s : State) (version : UpdateVersion) : (req : Req) → Option (Answer req × State)
  | .getHead => some (s.headLog.getLast?, s)
  | .getHeadIfChanged eTag => match s.headLog.getLast? with
      | none => some (.missing, s)
      | some stored =>
          some (if stored.version.eTag = some eTag then .notModified else .modified stored, s)
  | .createHead bytes =>
      if s.headLog = [] then some (true, putHead s bytes version) else some (false, s)
  | .updateHead bytes expected => match s.headLog.getLast? with
      | none => some (none, s)
      | some stored =>
          if stored.version = expected then
            if NewVersion s bytes version then some (some version, putHead s bytes version)
            else none
          else some (none, s)
  | .get key => some (s.objects key, s)
  | .create key bytes =>
      if s.objects key = none then some (true, putKey s key bytes) else some (false, s)
  | .delete key => some ((), dropKey s key)

/-! ## Steps -/

/-- The version the store gives to the next state of the head. -/
def nextVersion (s : State) : UpdateVersion :=
  ⟨some (String.ofList (List.replicate s.now 'v')), none⟩

def World.act (w : World) (t : Nat) (choice : Choice) : Option World :=
  match w.threads[t]? with
  | some (.perform e k) => do
      let (a, s) ← perform t w.state choice e
      return ⟨s, w.threads.set t (k a)⟩
  | _ => none

def World.land (w : World) (i : Nat) : Option World := do
  let f ← w.state.flights[i]?
  if f.landed.isNone then
    let (a, s) ← landing w.state (nextVersion w.state) f.req
    return ⟨setFlight s i { f with landed := some (w.state.now, a) }, w.threads⟩
  else none

/-- The values that the calls have returned. -/
def World.values (w : World) : List Value :=
  w.threads.filterMap fun
    | .done (.ok v) => some v
    | _ => none

def World.known (w : World) (item : Item) : Bool :=
  let items := w.values.flatMap Value.items
  decide (item ∈ items) || items.any fun
    | .prepared p => item == .view p.view || match item with
        | .token token => decide (encodeRecoveryToken p = .ok token) && token.length < 2 ^ 64
        | _ => false
    | .pendingCommit p => match item with
        | .token token => decide (p.recoveryToken = .ok token) && token.length < 2 ^ 64
        | _ => false
    | _ => false

/-! ## Scripts -/

/-- The first item of a returned value that is of the wanted kind. -/
def World.itemAt {α : Type} (w : World) (t : Nat) (pick : Item → Option α) : Option α :=
  match w.threads[t]? with
  | some (.done (.ok v)) => v.items.findSome? pick
  | _ => none

def World.logAt (w : World) (t : Nat) : Option Log :=
  w.itemAt t fun | .log log => some log | _ => none

def World.viewAt (w : World) (t : Nat) : Option View :=
  w.itemAt t fun | .view view => some view | _ => none

def World.stagedAt (w : World) (t : Nat) : Option StagedObject :=
  w.itemAt t fun | .staged object => some object | _ => none

def World.preparedAt (w : World) (t : Nat) : Option PreparedCommit :=
  w.itemAt t fun | .prepared p => some p | _ => none

def World.pendingAt (w : World) (t : Nat) : Option PendingCommit :=
  w.itemAt t fun | .pendingCommit p => some p | _ => none

def World.pendingCheckpointAt (w : World) (t : Nat) : Option PendingCheckpoint :=
  w.itemAt t fun | .pendingCheckpoint p => some p | _ => none

/-- A call that has returned, and what it returned. -/
def World.outcomeAt (w : World) (t : Nat) : Option (Begun × Except Error Value) :=
  match w.state.calls[t]?, w.threads[t]? with
  | some b, some (.done r) => some (b, r)
  | _, _ => none

/-- One line of a script. -/
inductive Action
  /-- A call begins, as the callers make it from what they have come by. -/
  | call (make : World → Option Call)
  | act (t : Nat) (choice : Choice)
  | land (i : Nat)
  /-- The call takes up to `n` steps, each answered as usual. A request lands when its
  answer is waited for, and a listing goes through `listing`. -/
  | run (t n : Nat) (listing : World → List ListedObject)

def World.tick (w : World) (t : Nat) (choice : Choice) : Option World :=
  match w.threads[t]? with
  | some (.perform (.await _ i) _) => match w.state.flights[i]? with
      | some f => if f.landed.isNone then (w.land i).bind fun w => w.act t choice else w.act t choice
      | none => none
  | _ => w.act t choice

def World.run (t : Nat) : Nat → List ListedObject → World → Option World
  | 0, _, w => some w
  | n + 1, listing, w => match w.threads[t]? with
      | some (.perform .listNext _) => match listing with
          | [] => (w.tick t .usual).bind fun w => w.run t n []
          | item :: rest => (w.tick t (.listed item)).bind fun w => w.run t n rest
      | some (.perform _ _) => (w.tick t .usual).bind fun w => w.run t n listing
      | _ => some w

def Action.apply (w : World) : Action → Option World
  | .call make => do
      let call ← make w
      if call.args.all w.known then return w.begin call else none
  | .act t choice => w.act t choice
  | .land i => w.land i
  | .run t n listing => w.run t n (listing w)

/-- The world that a script ends in. -/
def replay (w : World) : List Action → Option World
  | [] => some w
  | action :: rest => (action.apply w).bind fun w => replay w rest

/-! ## A replay is a run -/

theorem refusal_ok {req : Req} {a : Answer req} (h : refusal req = some a) : Refusal req a := by
  cases req with
  | createHead _ => exact (Option.some.inj h).symm
  | updateHead _ _ => exact (Option.some.inj h).symm
  | create _ _ => exact (Option.some.inj h).symm
  | _ => cases h

theorem told_ok {req : Req} {tid sent : Nat} {landed : Option (Nat × Answer req)} {choice : Choice}
    {r : Except StoreError (Answer req)} (h : told req landed choice = some r) :
    Told ⟨tid, req, sent, landed, none⟩ r := by
  -- every choice but two reports what landed
  have usual : landed.map (fun x => .ok x.2) = some r → Told ⟨tid, req, sent, landed, none⟩ r := by
    intro h
    obtain ⟨⟨n, a⟩, hl, rfl⟩ := Option.map_eq_some_iff.1 h
    exact .inl ⟨n, hl⟩
  cases choice with
  | lost =>
      obtain rfl := Option.some.inj h
      trivial
  | refused =>
      obtain ⟨a, ha, rfl⟩ := Option.map_eq_some_iff.1 h
      exact .inr (refusal_ok ha)
  | usual => exact usual h
  | denied => exact usual h
  | listed item => exact usual h

theorem await_ok {i : Nat} {req : Req} {choice : Choice} {a : Except StoreError (Answer req)}
    (h : perform t s choice (.await req i) = some (a, s')) : Exec t s (.await req i) a s' := by
  obtain ⟨f, hf, h⟩ := Option.bind_eq_some_iff.1 h
  split at h
  · rename_i hreq
    obtain ⟨tid, req', sent, landed, answered⟩ := f
    cases hreq
    obtain ⟨answer, ha, h⟩ := Option.bind_eq_some_iff.1 h
    split at h
    · rename_i hown
      obtain ⟨rfl, hnone⟩ := hown
      obtain rfl : answered = none := Option.isNone_iff_eq_none.1 hnone
      obtain ⟨rfl, rfl⟩ := Prod.mk.inj (Option.some.inj h)
      exact ⟨sent, landed, hf, told_ok ha, rfl⟩
    · cases h
  · cases h

theorem listable_ok {item : ListedObject} {key : ImmutableKey} (h : listable s item = true)
    (hk : item.immutableKey = some key) :
    ∃ bytes n, s.created key = some (bytes, n) ∧ item.size.toNat = bytes.length := by
  unfold listable at h
  rw [hk] at h
  simp only at h
  split at h
  · exact ⟨_, _, ‹_›, beq_iff_eq.1 h⟩
  · cases h

theorem perform_ok {e : Effect} {choice : Choice} {a : Reply e}
    (h : perform t s choice e = some (a, s')) : Exec t s e a s' := by
  cases e with
  | await req i => exact await_ok h
  | admission r =>
      cases choice <;> exact (Prod.mk.inj (Option.some.inj h)).2.symm
  | submit req =>
      obtain ⟨rfl, rfl⟩ := Prod.mk.inj (Option.some.inj h)
      exact ⟨rfl, rfl⟩
  | listNext =>
      cases choice with
      | listed item =>
          simp only [perform] at h
          split at h
          · obtain ⟨rfl, rfl⟩ := Prod.mk.inj (Option.some.inj h)
            refine ⟨rfl, fun item' key hitem hk => ?_⟩
            obtain rfl := Option.some.inj (Except.ok.inj hitem)
            exact listable_ok ‹_› hk
          · cases h
      | _ =>
          obtain ⟨rfl, rfl⟩ := Prod.mk.inj (Option.some.inj h)
          exact ⟨rfl, fun item key hitem => by cases hitem⟩
  | storageId =>
      simp only [perform] at h
      split at h
      · rename_i hall
        obtain ⟨rfl, rfl⟩ := Prod.mk.inj (Option.some.inj h)
        refine ⟨fun t' hmem => ?_, rfl⟩
        have := List.all_eq_true.1 hall _ hmem
        simp at this
      · cases h
  | choose n =>
      obtain ⟨-, rfl⟩ := Prod.mk.inj (Option.some.inj h)
      rfl
  | uuid =>
      obtain ⟨-, rfl⟩ := Prod.mk.inj (Option.some.inj h)
      rfl
  | setVerifiedTail id domain =>
      obtain ⟨-, rfl⟩ := Prod.mk.inj (Option.some.inj h)
      rfl
  | _ =>
      obtain ⟨rfl, rfl⟩ := Prod.mk.inj (Option.some.inj h)
      exact ⟨rfl, rfl⟩

theorem landing_ok {version : UpdateVersion} {req : Req} {a : Answer req}
    (h : landing s version req = some (a, s')) : Lands s req a s' := by
  cases req with
  | getHead =>
      obtain ⟨rfl, rfl⟩ := Prod.mk.inj (Option.some.inj h)
      exact ⟨rfl, rfl⟩
  | getHeadIfChanged eTag =>
      simp only [landing] at h
      split at h
      · rename_i hlast
        obtain ⟨rfl, rfl⟩ := Prod.mk.inj (Option.some.inj h)
        refine ⟨rfl, ?_⟩
        rw [hlast]
      · rename_i stored hlast
        obtain ⟨rfl, rfl⟩ := Prod.mk.inj (Option.some.inj h)
        refine ⟨rfl, ?_⟩
        rw [hlast]
  | createHead bytes =>
      simp only [landing] at h
      split at h
      · obtain ⟨rfl, rfl⟩ := Prod.mk.inj (Option.some.inj h)
        exact .inl ⟨‹_›, rfl, version, rfl⟩
      · obtain ⟨rfl, rfl⟩ := Prod.mk.inj (Option.some.inj h)
        exact .inr ⟨‹_›, rfl, rfl⟩
  | updateHead bytes expected =>
      simp only [landing] at h
      split at h
      · rename_i hnone
        obtain ⟨rfl, rfl⟩ := Prod.mk.inj (Option.some.inj h)
        refine .inr ⟨fun stored hs => ?_, rfl, rfl⟩
        rw [hnone] at hs
        cases hs
      · rename_i stored hlast
        split at h
        · split at h
          · obtain ⟨rfl, rfl⟩ := Prod.mk.inj (Option.some.inj h)
            exact .inl ⟨stored, version, hlast, ‹_›, ‹_›, rfl, rfl⟩
          · cases h
        · rename_i hne
          obtain ⟨rfl, rfl⟩ := Prod.mk.inj (Option.some.inj h)
          refine .inr ⟨fun stored' hs => ?_, rfl, rfl⟩
          rw [hlast] at hs
          obtain rfl := Option.some.inj hs
          exact hne
  | get key =>
      obtain ⟨rfl, rfl⟩ := Prod.mk.inj (Option.some.inj h)
      exact ⟨rfl, rfl⟩
  | create key bytes =>
      simp only [landing] at h
      split at h
      · obtain ⟨rfl, rfl⟩ := Prod.mk.inj (Option.some.inj h)
        exact .inl ⟨‹_›, rfl, rfl⟩
      · obtain ⟨rfl, rfl⟩ := Prod.mk.inj (Option.some.inj h)
        exact .inr ⟨‹_›, rfl, rfl⟩
  | delete key => exact (Prod.mk.inj (Option.some.inj h)).2.symm

theorem World.act_step {choice : Choice} (h : w.act t choice = some w') : Step w w' := by
  unfold World.act at h
  split at h
  · rename_i e k ht
    obtain ⟨⟨a, s⟩, ha, h⟩ := Option.bind_eq_some_iff.1 h
    obtain rfl := Option.some.inj h
    exact .act ht (perform_ok ha)
  · cases h

theorem World.land_step {i : Nat} (h : w.land i = some w') : Step w w' := by
  obtain ⟨f, hf, h⟩ := Option.bind_eq_some_iff.1 h
  split at h
  · rename_i hn
    obtain ⟨⟨a, s⟩, ha, h⟩ := Option.bind_eq_some_iff.1 h
    obtain rfl := Option.some.inj h
    exact .land hf (Option.isNone_iff_eq_none.1 hn) (landing_ok ha)
  · cases h

theorem World.mem_values {v : Value} (h : v ∈ w.values) :
    ∃ t : Nat, w.threads[t]? = some (.done (.ok v)) := by
  obtain ⟨p, hp, hv⟩ := List.mem_filterMap.1 h
  split at hv
  · obtain rfl := Option.some.inj hv
    exact List.getElem?_of_mem hp
  · cases hv

/-- A picked item is one that the callers have. -/
theorem World.itemAt_known {α : Type} {pick : Item → Option α} {x : α}
    (h : w.itemAt t pick = some x) : ∃ item, pick item = some x ∧ Known w item := by
  unfold World.itemAt at h
  split at h
  · rename_i v ht
    obtain ⟨item, hi, hx⟩ := List.exists_of_findSome?_eq_some h
    exact ⟨item, hx, .returned ht hi⟩
  · cases h

theorem World.logAt_known {log : Log} (h : w.logAt t = some log) : Known w (.log log) := by
  obtain ⟨item, hx, hk⟩ := World.itemAt_known h
  cases item <;> cases hx
  exact hk

theorem World.viewAt_known {view : View} (h : w.viewAt t = some view) : Known w (.view view) := by
  obtain ⟨item, hx, hk⟩ := World.itemAt_known h
  cases item <;> cases hx
  exact hk

theorem World.stagedAt_known {object : StagedObject} (h : w.stagedAt t = some object) :
    Known w (.staged object) := by
  obtain ⟨item, hx, hk⟩ := World.itemAt_known h
  cases item <;> cases hx
  exact hk

theorem World.preparedAt_known {p : PreparedCommit} (h : w.preparedAt t = some p) :
    Known w (.prepared p) := by
  obtain ⟨item, hx, hk⟩ := World.itemAt_known h
  cases item <;> cases hx
  exact hk

theorem World.outcomeAt_ok {b : Begun} {r : Except Error Value} (h : w.outcomeAt t = some (b, r)) :
    w.state.calls[t]? = some b ∧ w.threads[t]? = some (.done r) := by
  unfold World.outcomeAt at h
  split at h
  · obtain ⟨rfl, rfl⟩ := Prod.mk.inj (Option.some.inj h)
    exact ⟨‹_›, ‹_›⟩
  · cases h

theorem World.known_ok {item : Item} (h : w.known item = true) : Known w item := by
  have returned : ∀ item ∈ w.values.flatMap Value.items, Known w item := by
    intro item hi
    obtain ⟨v, hv, hi⟩ := List.mem_flatMap.1 hi
    obtain ⟨t, ht⟩ := World.mem_values hv
    exact .returned ht hi
  simp only [World.known, Bool.or_eq_true, decide_eq_true_eq] at h
  rcases h with h | h
  · exact returned item h
  obtain ⟨source, hmem, h⟩ := List.any_eq_true.1 h
  have hsource := returned source hmem
  split at h
  · rename_i p
    rw [Bool.or_eq_true] at h
    rcases h with h | h
    · rw [beq_iff_eq.1 h]
      exact .viewOfPrepared hsource
    · split at h
      · simp only [Bool.and_eq_true, decide_eq_true_eq] at h
        exact .tokenOfPrepared hsource h.1 h.2
      · cases h
  · split at h
    · simp only [Bool.and_eq_true, decide_eq_true_eq] at h
      exact .tokenOfPending hsource h.1 h.2
    · cases h
  · cases h

theorem World.tick_steps {choice : Choice} (h : w.tick t choice = some w') : Steps w w' := by
  unfold World.tick at h
  split at h
  · split at h
    · split at h
      · obtain ⟨w₁, h₁, h⟩ := Option.bind_eq_some_iff.1 h
        exact (Steps.single (World.land_step h₁)).trans (.single (World.act_step h))
      · exact .single (World.act_step h)
    · cases h
  · exact .single (World.act_step h)

theorem World.run_steps : ∀ (n : Nat) (listing : List ListedObject) (w : World),
    w.run t n listing = some w' → Steps w w'
  | 0, _, w, h => by
      obtain rfl := Option.some.inj h
      exact .refl w
  | n + 1, listing, w, h => by
      unfold World.run at h
      have next : ∀ {choice : Choice} {rest : List ListedObject},
          ((w.tick t choice).bind fun w => w.run t n rest) = some w' → Steps w w' := by
        intro choice rest h
        obtain ⟨w₁, h₁, h⟩ := Option.bind_eq_some_iff.1 h
        exact (World.tick_steps h₁).trans (World.run_steps n rest w₁ h)
      split at h
      · split at h
        · exact next h
        · exact next h
      · exact next h
      · obtain rfl := Option.some.inj h
        exact .refl w

theorem Action.apply_steps {action : Action} (h : action.apply w = some w') : Steps w w' := by
  cases action with
  | call make =>
      obtain ⟨call, -, h⟩ := Option.bind_eq_some_iff.1 h
      split at h
      · rename_i hall
        obtain rfl := Option.some.inj h
        exact .single (.begin call fun item hi => World.known_ok (List.all_eq_true.1 hall item hi))
      · cases h
  | act t choice => exact .single (World.act_step h)
  | land i => exact .single (World.land_step h)
  | run t n listing => exact World.run_steps n (listing w) w h

/-- **What a script replays is a run.** -/
theorem replay_steps : ∀ {script : List Action} {w : World}, replay w script = some w' → Steps w w'
  | [], w, h => by
      obtain rfl := Option.some.inj h
      exact .refl w
  | action :: rest, w, h => by
      obtain ⟨w₁, h₁, h⟩ := Option.bind_eq_some_iff.1 h
      exact (Action.apply_steps h₁).trans (replay_steps h)

theorem replay_reachable {script : List Action} (h : replay (World.init scope) script = some w) :
    Reachable scope w := Reachable.init.steps (replay_steps h)

/-! ## Collisions -/

/-- The encoded publication bases of the stored heads. -/
def State.bases (s : State) : List Bytes :=
  s.headLog.filterMap fun stored =>
    ((decodeHead stored.bytes).bind fun h => encodeHead (publicationBase h)).toOption

def State.collisionFree (s : State) : Bool :=
  let bases := s.bases.map fun base => (Digest.of base, base)
  bases.all fun a => bases.all fun b => a.1 != b.1 || a.2 == b.2

theorem State.collisionFree_ok (h : s.collisionFree = true) : s.NoCollision := by
  intro i j a b v v' x y ⟨bytes, ha, hda⟩ ⟨bytes', hb, hdb⟩ hx hy hdigest
  have mem : ∀ {bytes : Bytes} {v : UpdateVersion} {h : Head} {x : Bytes} {i : Nat},
      s.headLog[i]? = some ⟨bytes, v⟩ → decodeHead bytes = .ok h →
      encodeHead (publicationBase h) = .ok x → x ∈ s.bases := by
    intro bytes v h x i hi hd hx
    refine List.mem_filterMap.2 ⟨_, List.mem_of_getElem? hi, ?_⟩
    simp [hd, hx, Except.bind, Except.toOption]
  have all := List.all_eq_true.1 (List.all_eq_true.1 h _ (List.mem_map_of_mem (mem ha hda hx)))
    _ (List.mem_map_of_mem (mem hb hdb hy))
  rw [Bool.or_eq_true, bne_iff_ne, beq_iff_eq] at all
  exact all.resolve_left fun hne => hne hdigest

end

/-! ## A sample namespace -/

/-- A hash that can be evaluated. -/
@[reducible] def sampleHash : Blake3 where
  hash bytes := ⟨Fin.ofNat _ (bytes.foldl (fun a b => a * 257 + b.toNat + 1) 0)⟩

def sampleLog : LogId := ⟨[97], rfl⟩

section

attribute [local instance] sampleHash

/-- The world a script ends in, in the sample namespace. -/
def sample (script : List Action) : World :=
  (replay (World.init sampleLog) script).getD (World.init sampleLog)

/-- The script can be replayed, without a collision, and ends as stated. -/
def ends (script : List Action) (p : World → Bool) : Bool :=
  match replay (World.init sampleLog) script with
  | some w => w.state.collisionFree && p w
  | none => false

theorem ends_ok {script : List Action} {p : World → Bool} (h : ends script p = true) :
    Reachable sampleLog (sample script) ∧ (sample script).state.NoCollision ∧
      p (sample script) = true := by
  unfold ends at h
  split at h
  · rename_i w hw
    rw [Bool.and_eq_true] at h
    have hs : sample script = w := by rw [sample, hw, Option.getD_some]
    rw [hs]
    exact ⟨replay_reachable hw, State.collisionFree_ok h.1, h.2⟩
  · cases h

/-- A call that runs alone to its end. -/
def alone (t : Nat) (make : World → Option Call) : List Action :=
  [.call make, .run t 400 fun _ => []]

/-- A collector that runs alone to its end and is shown the given keys. -/
def scanning (t : Nat) (make : World → Option Call) (keys : World → List ImmutableKey) :
    List Action :=
  [.call make, .run t 400 fun w => (keys w).filterMap fun key =>
    (w.state.created key).map fun x => ⟨some key, .ofNat x.1.length⟩]

/-- A new log, and a commit with one object. -/
def firstCommit : List Action :=
  alone 0 (fun _ => some (.open .default)) ++
  alone 1 (fun w => return .load (← w.logAt 0)) ++
  alone 2 (fun w => return .putObject (← w.logAt 0) (← w.viewAt 1) [1, 2, 3]) ++
  alone 3 (fun w => return .prepare (← w.logAt 0) (← w.viewAt 1) ⟨1⟩ [4] [5] [← w.stagedAt 2]) ++
  alone 4 (fun w => return .commit (← w.logAt 0) (← w.preparedAt 3))

/-- A second commit, and a checkpoint over the first one. -/
def firstCheckpoint : List Action :=
  firstCommit ++
  alone 5 (fun w => return .prepare (← w.logAt 0) (← w.viewAt 4) ⟨2⟩ [6] [] []) ++
  alone 6 (fun w => return .commit (← w.logAt 0) (← w.preparedAt 5)) ++
  alone 7 (fun w => do
    let view ← w.viewAt 6
    return .publishCheckpoint (← w.logAt 0) view (← view.head.tail.head?) [7] [])

/-- The key of the object that call `t` has staged. -/
def World.stagedKey (w : World) (t : Nat) : List ImmutableKey :=
  match w.logAt 0, w.stagedAt t with
  | some log, some staged => [objectKey log.incarnation staged.object]
  | _, _ => []

/-- The collection of an object that was staged for nothing. -/
def firstCollection : List Action :=
  alone 0 (fun _ => some (.open .default)) ++
  alone 1 (fun w => return .load (← w.logAt 0)) ++
  alone 2 (fun w => return .putObject (← w.logAt 0) (← w.viewAt 1) [1, 2, 3]) ++
  scanning 3 (fun w => return .startCollectionWithLimit (← w.logAt 0) (← w.viewAt 1) 1)
    (fun w => w.stagedKey 2) ++
  alone 4 (fun w => return .resumeCollection (← w.logAt 0) (← w.viewAt 3))

/-- Four heads are stored, and the second commit was a candidate for one of them. -/
def firstCheckpointFacts (w : World) : Bool :=
  w.state.now == 4 && match w.logAt 0, w.preparedAt 5, w.viewAt 7 with
    | some log, some p, some view => (log.encodePrepared p).toOption.isSome &&
        decide (p.view.head.generation ≤ view.head.generation)
    | _, _, _ => false

theorem firstCheckpoint_ends : ends firstCheckpoint firstCheckpointFacts = true := by
  decide +kernel

/-- Its last head is durable. -/
theorem firstCheckpoint_durable : Reachable sampleLog (sample firstCheckpoint) ∧
    (sample firstCheckpoint).state.NoCollision ∧
    ∃ h v, (sample firstCheckpoint).state.HeadAt 3 h v ∧
      (sample firstCheckpoint).state.Durable h := by
  obtain ⟨hr, nc, hf⟩ := ends_ok firstCheckpoint_ends
  rw [firstCheckpointFacts, Bool.and_eq_true, beq_iff_eq] at hf
  obtain ⟨h, v, hh⟩ := (hr.ok nc).good.inv.headAt (i := 3) (by omega)
  exact ⟨hr, nc, h, v, hh, 3, v, hh, hf.1.symm⟩

end

end ObjectLog
