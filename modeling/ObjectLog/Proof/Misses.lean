import ObjectLog.Proof.HistoryOps
import ObjectLog.Proof.World

/-!
# Reads that miss

When a read on behalf of a view is told that an object is not there, all that is left of it
is `missing_read_error`. Over a store that loses nothing the view has expired by then, so that
is the outcome.
-/

set_option linter.unusedSectionVars false

namespace ObjectLog

open Rely

variable [Blake3] {α β : Type} {log : Log} {view : View} {object : ObjectRef}
  {reference : CommitRef} {G : ImmutableKey → Prop}

/-- The answer that one of the keys is not there. -/
def Misses (G : ImmutableKey → Prop) : Answers Effect Reply
  | .await (.get key) _, reply => G key ∧ reply = (.ok none : Except StoreError (Option Bytes))
  | _, _ => False

theorem Misses.mono {G' : ImmutableKey → Prop} {e : Effect} {a : Reply e} (h : Misses G e a)
    (hg : ∀ key, G key → G' key) : Misses G' e a := by
  cases e with
  | await req flight =>
      cases req with
      | get key => exact ⟨hg key h.1, h.2⟩
      | _ => exact h.elim
  | _ => exact h.elim

/-! ## Programs that read no object -/

omit [Blake3] in
theorem ask_misses {e : Effect} {K : Op (Reply e) → Prop} (h : ∀ a, ¬ Misses G e a) :
    Upon (Misses G) K (Prog.ask e) :=
  Upon.ask fun a ha => absurd ha (h a)

omit [Blake3] in
theorem startRead_misses (maxBytes : Nat) (req : Req) {K : Op (Except Error FlightId) → Prop} :
    Upon (Misses G) K (startRead maxBytes req) := by
  have hguard : Upon (Misses G) (fun _ => False) (admitRequest (.read maxBytes)) := by
    refine Upon.after (ask_misses (e := .admission (.read maxBytes)) fun _ => id) fun admitted => ?_
    split <;> trivial
  have hsubmit : Upon (Misses G) (fun _ => False) (submit req) :=
    ask_misses (e := .submit req) fun _ => id
  exact Upon.attempt (hguard.after fun _ => hsubmit) fun _ => False.elim

/-- After a miss a read ends with what it makes of it. -/
theorem readAttempt_misses {req : Req} {collect : Answer req → Except Error α}
    {started : Except Error FlightId} {retry : Op α} {K : Op α → Prop}
    (hK : ∀ flight answer, Misses G (.await req flight) (.ok answer) → K (.done (collect answer)))
    (hretry : Upon (Misses G) K retry) :
    Upon (Misses G) K (readAttempt req collect started retry) := by
  refine Upon.after (p := Prog.lift started) trivial fun flight => ?_
  refine Upon.bind (K := fun q => ∃ reply, q = .done (.ok reply) ∧
    Misses G (.await req flight) reply) (Upon.ask fun reply hmiss => ⟨reply, rfl, hmiss⟩) ?_ ?_
  · rintro q ⟨reply, rfl, hmiss⟩
    cases reply with
    | ok answer => exact hK flight answer hmiss
    | error e =>
        cases req with
        | get key => exact absurd hmiss.2 nofun
        | _ => exact hmiss.elim
  · intro reply
    cases reply with
    | ok answer => trivial
    | error e =>
        cases e with
        | generic => exact hretry
        | _ => trivial

theorem finishRead_misses {maxBytes : Nat} {req : Req} {collect : Answer req → Except Error α}
    {K : Op α → Prop}
    (hK : ∀ flight answer, Misses G (.await req flight) (.ok answer) → K (.done (collect answer)))
    (further : Nat) (started : Except Error FlightId) :
    Upon (Misses G) K (finishRead maxBytes req collect further started) := by
  induction further generalizing started with
  | zero => exact readAttempt_misses hK trivial
  | succ further ih =>
      exact readAttempt_misses hK ((startRead_misses maxBytes req).after ih)

theorem retrySafeRead_misses {maxBytes : Nat} {req : Req} {collect : Answer req → Except Error α}
    {K : Op α → Prop}
    (hK : ∀ flight answer, Misses G (.await req flight) (.ok answer) → K (.done (collect answer))) :
    Upon (Misses G) K (retrySafeRead maxBytes req collect) :=
  (startRead_misses maxBytes req).after fun started => finishRead_misses hK _ started

/-- Loading reads no object. -/
theorem load_misses {K : Op View → Prop} : Upon (Misses G) K log.load := by
  have hread : Upon (Misses G) (fun _ => False) (readHead log.options.maxHeadBytes.toNat) :=
    retrySafeRead_misses fun _ _ => False.elim
  refine hread.after fun stored => ?_
  cases stored with
  | none => trivial
  | some stored =>
      refine Upon.after (p := Prog.lift (log.headFromStored stored)) trivial fun head => ?_
      exact Upon.after (ask_misses (e := .observe head stored.version) fun _ => id) fun _ => trivial

theorem missingReadError_misses {K : Op α → Prop} :
    Upon (Misses G) K (log.missingReadError view : Op α) := by
  refine load_misses.after fun current => ?_
  split <;> trivial

/-! ## What is left of a read -/

/-- `missing_read_error` has no value, so nothing follows it. -/
theorem missingReadError_bind {f : α → Op β} :
    (log.missingReadError view >>= f : Op β) = log.missingReadError view := by
  unfold Log.missingReadError
  rw [bind_assoc]
  refine congrArg (log.load >>= ·) (funext fun current => ?_)
  cases compare current.head.collectionEpoch.toNat view.head.collectionEpoch.toNat <;> rfl

/-- All that is left of the program is `missing_read_error`. -/
abbrev Gives (log : Log) (view : View) (q : Op α) : Prop := q = log.missingReadError view

/-- Nor is there anything left of a program that it is part of. -/
theorem gives_bind {p : Op α} {f : α → Op β} (h : Upon (Misses G) (Gives log view) p)
    (hf : ∀ a, Upon (Misses G) (Gives log view) (f a)) :
    Upon (Misses G) (Gives log view) (p >>= f) := by
  refine h.bind (fun q hq => ?_) hf
  rw [hq]
  exact missingReadError_bind

theorem readImmutableOptional_misses :
    Upon (Misses G) (fun q => q = .done (.ok none)) (log.readImmutableOptional object) := by
  refine Upon.after (p := Prog.lift (log.readableLen object)) trivial fun declaredLen => ?_
  refine Upon.bind (K := fun q => q = .done (.ok none)) ?_ ?_ fun found => ?_
  · refine retrySafeRead_misses fun flight answer hmiss => ?_
    rw [Except.ok.inj hmiss.2]
    rfl
  · intro q hq
    rw [hq]
    rfl
  · cases found with
    | none => trivial
    | some bytes =>
        exact Upon.after (p := Prog.lift (verifyObject object bytes)) trivial fun _ => trivial

theorem readImmutableForView_misses :
    Upon (Misses G) (Gives log view) (log.readImmutableForView view object) := by
  refine readImmutableOptional_misses.bind (fun q hq => ?_) fun found => ?_
  · rw [hq]
    rfl
  · cases found with
    | none => exact missingReadError_misses
    | some bytes => trivial

theorem readObject_misses : Upon (Misses G) (Gives log view) (log.readObject view object) := by
  refine Upon.after (p := Prog.lift (log.validateView view)) trivial fun _ => ?_
  by_cases hkind : object.kind ≠ .blob
  · rw [if_pos hkind]
    trivial
  · rw [if_neg hkind]
    exact readImmutableForView_misses

theorem readNode_misses : Upon (Misses G) (Gives log view) (log.readNode view object) := by
  refine Upon.after (p := Prog.lift (log.validateView view)) trivial fun _ => ?_
  by_cases hkind : object.kind ≠ .node
  · rw [if_pos hkind]
    trivial
  · rw [if_neg hkind]
    exact gives_bind readImmutableForView_misses fun _ => trivial

theorem readCheckpoint_misses : Upon (Misses G) (Gives log view) (log.readCheckpoint view) := by
  refine Upon.after (p := Prog.lift (log.validateView view)) trivial fun _ => ?_
  cases view.head.checkpoint with
  | none => trivial
  | some reference =>
      refine Upon.after (p := Prog.lift (log.validateCheckpointBytes _)) trivial fun _ => ?_
      have hload : Upon (Misses G) (Gives log view) (log.loadCheckpointForView view reference) :=
        gives_bind readImmutableForView_misses fun _ => trivial
      exact gives_bind hload fun _ => trivial

theorem startCommit_misses {K : Op (Except Error FlightId) → Prop} :
    Upon (Misses G) K (log.startCommit reference) := by
  unfold Log.startCommit
  split
  · trivial
  · exact startRead_misses _ _

theorem finishCommit_misses (started : Except Error FlightId) :
    Upon (Misses G) (fun q => q = .done (.ok none) ∧ G (commitKey log.incarnation reference))
      (log.finishCommit reference started) := by
  refine finishRead_misses (fun flight answer hmiss => ⟨?_, hmiss.1⟩) _ started
  rw [Except.ok.inj hmiss.2]
  rfl

/-- The read of one commit of the tail. -/
theorem finishTailRecord_misses {index : Nat} (started : Except Error FlightId) :
    Upon (Misses G) (fun q => q = .done (.ok none) ∧ G (commitKey log.incarnation reference))
      (log.finishTailRecord view index reference started) := by
  refine (finishCommit_misses started).bind (fun q hq => ⟨?_, hq.2⟩) fun found => ?_
  · rw [hq.1]
    rfl
  · cases found with
    | none => trivial
    | some record =>
        exact Upon.after (p := Prog.lift (checkParent _ record)) trivial fun _ => trivial

theorem readTailRecord_misses {index : Nat} :
    Upon (Misses G) (Gives log view) (log.readTailRecord view index) := by
  have hoptional : Upon (Misses G) (fun q => q = .done (.ok none))
      (log.readTailRecordOptional view index) := by
    refine Upon.after (p := Prog.lift (log.validateView view)) trivial fun _ => ?_
    cases view.head.tail[index]? with
    | none => trivial
    | some reference =>
        refine startCommit_misses.after fun started => ?_
        exact (finishTailRecord_misses started).mono fun q hq => hq.1
  refine hoptional.bind (fun q hq => ?_) fun found => ?_
  · rw [hq]
    rfl
  · cases found with
    | none => exact missingReadError_misses
    | some record => trivial

theorem consumeTail_misses {σ : Type} {window : Nat} {consume : σ → CommitRecord → Except Error σ}
    (references : List CommitRef) :
    ∀ (started : List (Except Error FlightId)) (tip : Option Digest) (state : σ),
      Upon (Misses G) (Gives log view)
        (log.consumeTail view window consume references started tip state) := by
  induction references with
  | nil => exact fun _ _ _ => trivial
  | cons reference references ih =>
      intro started tip state
      unfold Log.consumeTail
      have hnext : Upon (Misses G) (fun _ => False) (log.nextRead reference started) := by
        cases started with
        | nil => exact startCommit_misses.after fun _ => trivial
        | cons next ahead => trivial
      have hahead : ∀ ahead, Upon (Misses G) (fun _ => False)
          (log.readAhead (window - 1) references ahead) :=
        fun ahead => (Upon.mapM fun _ _ => startCommit_misses).after fun _ => trivial
      refine hnext.after fun next => (hahead next.2).after fun ahead => ?_
      refine (finishCommit_misses next.1).bind (fun q hq => ?_) fun found => ?_
      · rw [hq.1]
        rfl
      · cases found with
        | none => exact missingReadError_misses
        | some record =>
            refine Upon.after (p := Prog.lift (checkParent tip record)) trivial fun _ => ?_
            exact Upon.after (p := Prog.lift (consume state record)) trivial fun state =>
              ih ahead _ state

theorem readTail_misses : Upon (Misses G) (Gives log view) (log.readTail view) := by
  have hrecords : Upon (Misses G) (Gives log view) (log.tailRecords view
      (fun records record => .ok (records ++ [record])) []) :=
    Upon.after (p := Prog.lift (log.validateView view)) trivial fun _ => consumeTail_misses _ _ _ _
  refine gives_bind hrecords fun _ => ?_
  exact Upon.after (ask_misses (e := .setVerifiedTail view.id log.stagingDomain) fun _ => id)
    fun _ => trivial

theorem openBytes_misses {root : ObjectRef} :
    Upon (Misses G) (Gives log view) (log.openBytes view root) := by
  unfold Log.openBytes
  by_cases hkind : root.kind = .blob
  · rw [if_pos hkind]
    refine Upon.after (p := Prog.lift (log.validateView view)) trivial fun _ => ?_
    refine Upon.after (p := Prog.lift root.validateCount) trivial fun _ => ?_
    dsimp only
    split
    · trivial
    · exact gives_bind readObject_misses fun _ => trivial
  · rw [if_neg hkind]
    refine gives_bind readNode_misses fun node => ?_
    exact Upon.after (p := Prog.lift (log.byteStream node)) trivial fun _ => trivial

/-! ## Calls that were told of a miss -/

variable {w w' : World} {s s' u : State} {t t' : Nat} {scope : LogId} {b : Begun}
  {key : ImmutableKey}

/-- **What an effect does to the requests**: nothing, or it sends one, or it takes an answer. -/
theorem Exec.flights {e : Effect} {a : Reply e} (hx : Exec t s e a s') :
    s'.flights = s.flights ∨
    (∃ req, s'.flights = s.flights ++ [⟨t, req, s'.now, none, none⟩]) ∨
    ∃ req i r sent landed n, (⟨e, a⟩ : Σ e, Reply e) = ⟨.await req i, r⟩ ∧
      s.flights[i]? = some ⟨t, req, sent, landed, none⟩ ∧
      s'.flights = s.flights.set i ⟨t, req, sent, landed, some (n, r)⟩ := by
  cases e with
  | submit req =>
      obtain ⟨-, rfl⟩ := hx
      exact .inr (.inl ⟨req, rfl⟩)
  | await req i =>
      obtain ⟨sent, landed, hi, -, rfl⟩ := hx
      exact .inr (.inr ⟨req, i, a, sent, landed, _, rfl, hi, rfl⟩)
  | listNext => obtain ⟨rfl, -⟩ := hx; exact .inl rfl
  | storageId => obtain ⟨-, rfl⟩ := hx; exact .inl rfl
  | stagingDomain => obtain ⟨-, rfl⟩ := hx; exact .inl rfl
  | observe head version => obtain ⟨-, rfl⟩ := hx; exact .inl rfl
  | verifiedTail id => obtain ⟨rfl, -⟩ := hx; exact .inl rfl
  | collectionCandidates id => obtain ⟨rfl, -⟩ := hx; exact .inl rfl
  | initCollectionCandidates id cs => obtain ⟨-, rfl⟩ := hx; exact .inl rfl
  | _ => cases hx; exact .inl rfl

/-- An answer is taken by the call that sent the request. -/
theorem Exec.told {e : Effect} {a : Reply e} (hx : Exec t s e a s')
    (h : s'.Answered t' (.get key) 0 none) :
    s.Answered t' (.get key) 0 none ∨
      t' = t ∧ ∀ G : ImmutableKey → Prop, G key → Misses G e a := by
  obtain ⟨j, sent, n, landed, hj, -⟩ := h
  rcases hx.flights with hsame | ⟨req, hsent⟩ | ⟨req, i, r, sent', landed', n', heq, hi, hset⟩
  · rw [hsame] at hj
    exact .inl ⟨j, sent, n, landed, hj, Nat.zero_le _⟩
  · rw [hsent] at hj
    rcases Nat.lt_or_ge j s.flights.length with hlt | hge
    · rw [List.getElem?_append_left hlt] at hj
      exact .inl ⟨j, sent, n, landed, hj, Nat.zero_le _⟩
    · -- a request that has just been sent has no answer
      rw [List.getElem?_append_right hge, List.getElem?_singleton] at hj
      split at hj
      · cases hj
      · cases hj
  · rw [hset] at hj
    by_cases hij : i = j
    · subst hij
      rw [List.getElem?_set_self (List.getElem?_eq_some_iff.1 hi).1] at hj
      cases hj
      cases heq
      exact .inr ⟨rfl, fun G hG => ⟨hG, rfl⟩⟩
    · rw [List.getElem?_set_ne hij] at hj
      exact .inl ⟨j, sent, n, landed, hj, Nat.zero_le _⟩

/-- A request that is new was sent now. -/
theorem Exec.sentNow {e : Effect} {a : Reply e} {j : Nat} {f : Flight} (hx : Exec t s e a s')
    (hj : s.flights.length ≤ j) (hf : s'.flights[j]? = some f) : f.sent = s'.now := by
  have hlt := (List.getElem?_eq_some_iff.1 hf).1
  rcases hx.flights with hsame | ⟨req, hsent⟩ | ⟨req, i, r, sent', landed', n', -, -, hset⟩
  · rw [hsame] at hlt
    omega
  · rw [hsent, List.getElem?_append_right hj, List.getElem?_singleton] at hf
    split at hf
    · obtain rfl := Option.some.inj hf
      rfl
    · cases hf
  · rw [hset, List.length_set] at hlt
    omega

/-- A landing tells nobody. -/
theorem answered_landing {req : Req} {a : Answer req} {i : Nat} {f : Flight}
    {x : Nat × Answer f.req} (hl : Lands s req a s') (hf : s.flights[i]? = some f)
    (h : (setFlight s' i { f with landed := some x }).Answered t (.get key) 0 none) :
    s.Answered t (.get key) 0 none := by
  obtain ⟨j, sent, n, landed, hj, -⟩ := h
  rw [setFlight, hl.same.2.1] at hj
  by_cases hij : i = j
  · subst hij
    rw [List.getElem?_set_self (List.getElem?_eq_some_iff.1 hf).1] at hj
    obtain ⟨tid, freq, fsent, flanded, ftold⟩ := f
    cases hj
    exact ⟨i, _, n, _, hf, Nat.zero_le _⟩
  · rw [List.getElem?_set_ne hij] at hj
    exact ⟨j, sent, n, landed, hj, Nat.zero_le _⟩

/-- **A request is sent after its call has begun.** -/
theorem Reachable.sent (hr : Reachable scope w) (nc : w.state.NoCollision)
    (hb : w.state.calls[t]? = some b) {j : Nat} {f : Flight} (hf : w.state.flights[j]? = some f)
    (ht : f.tid = t) : b.heads ≤ f.sent := by
  induction hr generalizing f with
  | init => simp [World.init, State.init] at hb
  | @step w w' hr hs ih =>
      have nc₀ := nc.back hs.headLog
      have ok := hr.ok nc₀
      obtain ⟨inv, hle⟩ := ok.kept hs
      -- a request that was there before was sent then
      have earlier : ∀ f₀ : Flight, w.state.flights[j]? = some f₀ → f.sent = f₀.sent →
          f₀.tid = t → b.heads ≤ f.sent := by
        intro f₀ hf₀ hsent htid
        have htold : w.state.calls[t]? = some b := by
          have hlt := ok.tids j f₀ hf₀
          rw [htid, ok.size] at hlt
          obtain ⟨b', hb'⟩ : ∃ b', w.state.calls[t]? = some b' := ⟨_, List.getElem?_eq_getElem hlt⟩
          obtain rfl := Option.some.inj ((hle.call hb').symm.trans hb)
          exact hb'
        rw [hsent]
        exact ih nc₀ htold hf₀ htid
      rcases Nat.lt_or_ge j w.state.flights.length with hlt | hge
      · obtain ⟨f', hf', htid, -, hsent⟩ := hle.flight (List.getElem?_eq_getElem hlt)
        obtain rfl := Option.some.inj (hf'.symm.trans hf)
        exact earlier _ (List.getElem?_eq_getElem hlt) hsent (htid.symm.trans ht)
      · -- a new one is sent now
        cases hs with
        | begin call _ =>
            have := (List.getElem?_eq_some_iff.1 hf).1
            change j < w.state.flights.length at this
            omega
        | act _ hx =>
            rw [hx.sentNow hge hf]
            exact (inv.calls t b hb).heads
        | land _ _ hl =>
            have := (List.getElem?_eq_some_iff.1 hf).1
            change j < (List.set _ _ _).length at this
            rw [List.length_set, hl.same.2.1] at this
            omega

theorem Reachable.answeredAfter {req : Req} {a : Answer req} (hr : Reachable scope w)
    (nc : w.state.NoCollision) (hb : w.state.calls[t]? = some b)
    (h : w.state.Answered t req 0 a) : w.state.Answered t req b.heads a := by
  obtain ⟨j, sent, n, landed, hj, -⟩ := h
  exact ⟨j, sent, n, landed, hj, hr.sent nc hb hj rfl⟩

/-- **A call that was told of a miss has come by the moment when it was.** -/
theorem Reachable.missed {K : Op Value → Prop} (hr : Reachable scope w)
    (nc : w.state.NoCollision) (hb : w.state.calls[t]? = some b)
    (hprog : ∀ name, Upon (Misses G) K (b.call.run name)) {q : Op Value}
    (ht : w.threads[t]? = some q) :
    (Upon (Misses G) K q ∧ ∀ key, G key → ¬ w.state.Answered t (.get key) 0 none) ∨
    ∃ w₀ q₀ key, Reachable scope w₀ ∧ Steps w₀ w ∧ w₀.threads[t]? = some q₀ ∧ K q₀ ∧
      w₀.state.calls[t]? = some b ∧ G key ∧ w₀.state.Answered t (.get key) b.heads none := by
  induction hr generalizing q with
  | init => simp [World.init, State.init] at hb
  | @step w w' hr hs ih =>
      have nc₀ := nc.back hs.headLog
      have ok := hr.ok nc₀
      obtain ⟨inv, hle⟩ := ok.kept hs
      by_cases hnew : w.state.calls.length ≤ t
      · -- the call has just begun
        cases hs with
        | act _ hx =>
            rw [hx.same.2] at hb
            have := (List.getElem?_eq_some_iff.1 hb).1
            omega
        | land _ _ hl =>
            rw [setFlight, hl.same.2.2.2] at hb
            have := (List.getElem?_eq_some_iff.1 hb).1
            omega
        | begin call hk =>
            rw [World.begin] at hb ht
            rw [List.getElem?_append_right hnew, List.getElem?_singleton] at hb
            rw [← ok.size] at hb hnew
            rw [List.getElem?_append_right hnew, List.getElem?_singleton] at ht
            split at hb
            · rename_i hzero
              rw [if_pos hzero] at ht
              obtain rfl := Option.some.inj hb
              obtain rfl := Option.some.inj ht
              refine .inl ⟨hprog _, fun key _ hans => ?_⟩
              obtain ⟨j, sent, n, landed, hj, -⟩ := hans
              have := ok.tids j _ hj
              dsimp only at this
              omega
            · cases hb
      · -- the call was there before
        have hlt : t < w.state.calls.length := Nat.lt_of_not_le hnew
        obtain ⟨b', hb'⟩ : ∃ b', w.state.calls[t]? = some b' := ⟨_, List.getElem?_eq_getElem hlt⟩
        obtain rfl := Option.some.inj ((hle.call hb').symm.trans hb)
        have hlt' : t < w.threads.length := by
          rw [ok.size]
          exact hlt
        have hp := List.getElem?_eq_getElem hlt'
        generalize w.threads[t] = p at hp
        rcases ih nc₀ hb' hp with ⟨hupon, hclean⟩ | ⟨w₀, q₀, key, hr₀, hsteps, hrest⟩
        · cases hs with
          | begin call hk =>
              rw [World.begin, List.getElem?_append_left hlt', hp] at ht
              obtain rfl := Option.some.inj ht
              exact .inl ⟨hupon, hclean⟩
          | @act t' e k a s' ht' hx =>
              by_cases hthread : t' = t
              · subst hthread
                obtain rfl := Option.some.inj (hp.symm.trans ht')
                have hset := ht
                rw [List.getElem?_set_self hlt'] at hset
                obtain rfl := Option.some.inj hset
                by_cases hmiss : ∃ key, G key ∧ s'.Answered t' (.get key) 0 none
                · obtain ⟨key, hkey, hans⟩ := hmiss
                  rcases hx.told hans with hold | ⟨-, htold⟩
                  · exact absurd hold (hclean key hkey)
                  · have hr' := hr.step (.act ht' hx)
                    exact .inr ⟨_, _, key, hr', .refl _, ht, (hupon a).1 (htold G hkey), hb, hkey,
                      hr'.answeredAfter nc hb hans⟩
                · exact .inl ⟨(hupon a).2, fun key hkey hans => hmiss ⟨key, hkey, hans⟩⟩
              · rw [List.getElem?_set_ne hthread, hp] at ht
                obtain rfl := Option.some.inj ht
                refine .inl ⟨hupon, fun key hkey hans => ?_⟩
                rcases hx.told hans with hold | ⟨hsame, -⟩
                · exact hclean key hkey hold
                · exact hthread hsame.symm
          | land hf hn hl =>
              obtain rfl := Option.some.inj (hp.symm.trans ht)
              exact .inl ⟨hupon, fun key hkey hans => hclean key hkey (answered_landing hl hf hans)⟩
        · exact .inr ⟨w₀, q₀, key, hr₀, hsteps.trans (.single hs), hrest⟩

/-- Along a run a call comes to what its program can come to. -/
theorem World.OK.reachesSteps (ok : w.OK) (hs : Steps w w') (nc : w'.state.NoCollision)
    {p : Op Value} (ht : w.threads[t]? = some p) :
    ∃ p', w'.threads[t]? = some p' ∧ p.Reaches anything p' := by
  induction hs with
  | refl => exact ⟨p, ht, .start⟩
  | tail hs' hstep ih =>
      have nc' := nc.back hstep.headLog
      obtain ⟨p', ht', hreach⟩ := ih nc'
      rcases (ok.steps hs' nc').1.thread hstep ht' with ⟨hsame, -⟩ | ⟨e, k, a, rfl, hnext, -⟩
      · exact ⟨p', hsame, hreach⟩
      · exact ⟨k a, hnext, hreach.next trivial⟩

/-! ## The reads of a view -/

/-- The handle and the view of a call that reads on behalf of a view. -/
def Call.readView : Call → Option (Log × View)
  | .readObject log view _ => some (log, view)
  | .readNode log view _ => some (log, view)
  | .readTail log view => some (log, view)
  | .tailRecord log view _ => some (log, view)
  | .historyNext cursor => some (cursor.log, cursor.view)
  | .readCheckpoint log view => some (log, view)
  | .openBytes log view _ => some (log, view)
  | .readAt reader _ _ => some (reader.log, reader.view)
  | _ => none

/-- The error that a call ended with. A cursor and a reader hand it out next to themselves. -/
def Call.failure : Call → Except Error Value → Option Error
  | .historyNext _, .ok (.history _ (.error e)) => some e
  | .readAt _ _ _, .ok (.readAt _ (.error e)) => some e
  | _, .error e => some e
  | _, .ok _ => none

@[simp] theorem Call.failure_error (c : Call) (e : Error) : c.failure (.error e) = some e := by
  cases c <;> rfl

/-- A program that can only find the view expired. -/
def FindsExpired (t : Nat) (c : Call) (log : Log) (view : View) (q : Op Value) : Prop :=
  ∀ u, Good u → u.LogOK log → u.Expired view →
    Runs t Anything q (fun r v => ∃ e, c.failure r = some e ∧ v.ViewError view e) u

theorem missingReadError_findsExpired (c : Call) :
    FindsExpired t c log view (log.missingReadError view) := by
  intro u gu hl hx
  refine (missingReadError_runs le_anything gu hl).mono fun r v _ h => ?_
  obtain ⟨e, rfl, he⟩ := h
  exact ⟨e, c.failure_error e, he hx⟩

theorem returned_misses {p : Op α} {f : α → Value} (c : Call)
    (h : Upon (Misses G) (Gives log view) p) :
    Upon (Misses G) (FindsExpired t c log view) (do return f (← p)) := by
  refine h.bind (fun q hq => ?_) fun _ => trivial
  rw [hq, missingReadError_bind]
  exact missingReadError_findsExpired c

/-- The error of the chunk goes out next to the reader. -/
theorem attempt_findsExpired {c : Call} {f : Except Error Bytes → Op Value}
    (hf : ∀ e, ∃ v, f (.error e) = pure v ∧ c.failure (.ok v) = some e) :
    FindsExpired t c log view ((log.missingReadError view : Op Bytes).attempt >>= f) := by
  intro u gu hl hx
  refine Runs.attemptBind le_rfl gu (missingReadError_runs le_anything gu hl) ?_
  rintro r v tr gv ⟨e, rfl, he⟩
  obtain ⟨x, hx', hfail⟩ := hf e
  rw [hx']
  exact Runs.pure fun v' o _ => ⟨e, hfail, (he hx).mono o.le⟩

theorem readAt_misses {reader : ByteReader} {offset maxLen : Nat} :
    Upon (Misses G) (FindsExpired t (.readAt reader offset maxLen) reader.log reader.view) (do
      let (reader, result) ← reader.readAt offset maxLen
      return .readAt reader result) := by
  unfold ByteReader.readAt
  split
  · trivial
  dsimp only
  split
  · trivial
  split
  · trivial
  rename_i child _
  rw [bind_assoc]
  refine readObject_misses.attemptBind (Ends.all fun _ => trivial) (fun q hq => ?_) fun r _ => ?_
  · rw [hq]
    exact attempt_findsExpired fun e => ⟨_, rfl, rfl⟩
  · cases r <;> trivial

/-- **What is left of a read after a miss**, cursors aside: these keep the misses of their
read-ahead for later. -/
theorem Call.misses {c : Call} (hc : c.readView = some (log, view))
    (hnext : ∀ cursor, c ≠ .historyNext cursor) (name : LogId) :
    Upon (Misses G) (FindsExpired t c log view) (c.run name) := by
  cases c with
  | readObject log view object => cases hc; exact returned_misses _ readObject_misses
  | readNode log view object => cases hc; exact returned_misses _ readNode_misses
  | readTail log view => cases hc; exact returned_misses _ readTail_misses
  | tailRecord log view index =>
      cases hc
      exact returned_misses _ (gives_bind readTailRecord_misses fun _ => trivial)
  | historyNext cursor => exact absurd rfl (hnext cursor)
  | readCheckpoint log view => cases hc; exact returned_misses _ readCheckpoint_misses
  | openBytes log view root => cases hc; exact returned_misses _ openBytes_misses
  | readAt reader offset maxLen => cases hc; exact readAt_misses
  | _ => cases hc

/-- The handle and the view of a read are genuine. -/
theorem State.BegunOK.reads (h : s.BegunOK b) (hc : b.call.readView = some (log, view)) :
    s.LogOK log ∧ s.ViewOK b.heads view := by
  obtain ⟨call, flights, heads⟩ := b
  obtain ⟨-, -, args⟩ := h
  cases call with
  | historyNext cursor =>
      cases hc
      have hok : s.CursorOK heads cursor := args (.cursor cursor) (by simp [Call.args])
      exact ⟨hok.log, hok.view⟩
  | readAt reader offset maxLen =>
      cases hc
      have hok := args (.reader reader) (by simp [Call.args])
      exact ⟨hok.1, hok.2.1⟩
  | readObject _ _ _ | readNode _ _ _ | readTail _ _ | tailRecord _ _ _ | readCheckpoint _ _
  | openBytes _ _ _ =>
      cases hc
      exact ⟨args (.log log) (by simp [Call.args]), args (.view view) (by simp [Call.args])⟩
  | _ => cases hc

/-- **A read that was told that an object of its view is not there finds the view expired.** -/
theorem Reachable.toldMissing (hr : Reachable scope w) (nc : w.state.NoCollision)
    (hb : w.state.calls[t]? = some b) (hc : b.call.readView = some (log, view))
    (hnext : ∀ cursor, b.call ≠ .historyNext cursor) {r : Except Error Value}
    (ht : w.threads[t]? = some (.done r)) (hkey : Reaches w.state.body view.head key)
    (hans : w.state.Answered t (.get key) 0 none) :
    ∃ e, b.call.failure r = some e ∧ w.state.ViewError view e := by
  rcases hr.missed nc hb (Call.misses hc hnext) ht with
    ⟨-, hclean⟩ | ⟨w₀, q₀, key, hr₀, hsteps, hq₀, hleft, hb₀, hkey, hans⟩
  · exact absurd hans (hclean key hkey)
  · -- when it was told, the view had expired
    have ok₀ := hr₀.ok (nc.back hsteps.headLog)
    obtain ⟨ok, hle⟩ := ok₀.steps hsteps nc
    have inv₀ := ok₀.good.inv
    obtain ⟨hlog, ⟨i, hi, hh⟩, -⟩ := (inv₀.calls t b hb₀).reads hc
    have hreach := hkey.back hle.body (inv₀.headStored hh)
    have hexpired := (State.Answered.get inv₀ hans).expired hi hh hreach
    obtain ⟨q, hq, hruns⟩ := ok₀.runsSteps hsteps nc hq₀ (hleft _ ok₀.good hlog hexpired)
    obtain rfl := Option.some.inj (hq.symm.trans ht)
    exact hruns.ended ok.good

/-! ## Cursors -/

variable {cursor : HistoryCursor}

/-- The key of the entry that a cursor stands before. -/
def HistoryCursor.entryKey (cursor : HistoryCursor) : Option ImmutableKey :=
  match cursor.checkpointRead, cursor.view.head.checkpoint with
  | false, some reference => some (objectKey cursor.log.incarnation reference.object)
  | _, _ => cursor.view.head.tail[cursor.nextCommit]?.map (commitKey cursor.log.incarnation)

/-- No two commits of a tail share a key. -/
theorem Inv.tail_keys (inv : Inv s) {i : Nat} {h : Head} {v : UpdateVersion}
    (hh : s.HeadAt i h v) {j k : Nat} {c c' : CommitRef} (hj : h.tail[j]? = some c)
    (hk : h.tail[k]? = some c') (hkey : commitKey h.incarnation c = commitKey h.incarnation c') :
    j = k := by
  have hs := inv.headStored hh
  obtain ⟨commit, body⟩ := hs.commits c (List.mem_of_getElem? hj)
  obtain ⟨commit', body'⟩ := hs.commits c' (List.mem_of_getElem? hk)
  -- one key has one body, and the body names its transaction
  have hbytes := body.stored
  rw [hkey, body'.stored] at hbytes
  have hdecode := body.decode
  rw [← Option.some.inj hbytes, body'.decode] at hdecode
  have htransaction : c'.transactionId = c.transactionId := by
    rw [← body.transactionId, ← body'.transactionId, Except.ok.inj hdecode]
  have hdistinct := hh.valid.distinct
  rw [Head.transactionIds, List.map_append] at hdistinct
  have htail := (List.nodup_append.1 hdistinct).1
  have hlt := (List.getElem?_eq_some_iff.1 hj).1
  refine (List.getElem?_inj (by simpa using hlt) htail).1 ?_
  rw [List.getElem?_map, List.getElem?_map, hj, hk, Option.map_some, Option.map_some, htransaction]

/-- A cursor that stands before a commit which was not there fails. -/
theorem take_missed {rest : List (Except Error (Option CommitRecord))}
    (h : cursor.ready = .ok none :: rest) :
    Ends anything cursor.take fun r => ∃ cursor' e, r = .ok (cursor', .error e) := by
  unfold HistoryCursor.take
  rw [h]
  refine (missingReadError_answered (V := fun _ => False)).attemptBind fun r hr => ?_
  cases r with
  | ok item => exact hr.elim
  | error e => exact Ends.pure ⟨_, e, rfl⟩

/-- A read-ahead that was told that the commit in front is not there says so in front. -/
theorem fetch_misses (hindex : cursor.view.head.tail[cursor.nextCommit]? = some reference)
    (distinct : ∀ (j : Nat) c, cursor.view.head.tail[j]? = some c →
      commitKey cursor.log.incarnation c = commitKey cursor.log.incarnation reference →
      j = cursor.nextCommit) :
    Upon (Misses fun key => key = commitKey cursor.log.incarnation reference)
      (fun q => Ends anything q fun r => ∃ rest, r = .ok (.ok none :: rest)) cursor.fetch := by
  unfold HistoryCursor.fetch
  refine Upon.after (Upon.mapM fun _ _ => startCommit_misses) fun started => ?_
  dsimp only
  have hentries := @fetch_entries cursor started (cursor.log.commitReadWindow readAheadWindow)
  have hwindow : 0 < cursor.log.commitReadWindow readAheadWindow :=
    commitReadWindow_pos readAheadWindow (by decide)
  generalize cursor.log.commitReadWindow readAheadWindow = window at hentries hwindow
  obtain ⟨hlt, hget⟩ := List.getElem?_eq_some_iff.1 hindex
  rw [List.drop_eq_getElem_cons hlt, hget] at hentries ⊢
  obtain ⟨n, rfl⟩ : ∃ n, window = n + 1 := ⟨window - 1, by omega⟩
  rw [List.take_succ_cons] at hentries ⊢
  cases started with
  | nil => trivial
  | cons first started =>
      rw [List.zip_cons_cons, List.zipIdx_cons] at hentries ⊢
      refine Upon.mapM_first ?_ ?_ ?_
      · exact (finishTailRecord_misses first).attempt fun q hq => by rw [hq.1]; rfl
      · -- the other commits have other keys
        intro x hx
        refine (finishTailRecord_misses x.1.2).attempt fun q hq => ?_
        have hplace := distinct _ _ (hentries (List.mem_cons_of_mem _ hx)) hq.2
        have hlater := (List.mem_zipIdx hx).1
        omega
      · intro x _
        exact Ends.attempt (Ends.all fun r => ⟨r, rfl⟩)

theorem take_misses {K : Op (HistoryCursor × Except Error (Option HistoryItem)) → Prop} :
    Upon (Misses G) K cursor.take := by
  unfold HistoryCursor.take
  split
  · trivial
  · trivial
  · refine Upon.attemptBind (K := fun _ => False) missingReadError_misses
      (Ends.all fun _ => trivial) (fun _ => False.elim) fun _ _ => trivial
  · trivial

/-- The cursor hands out an error. -/
def HandsError (q : Op (HistoryCursor × Except Error (Option HistoryItem))) : Prop :=
  Ends anything q fun r => ∃ cursor' e, r = .ok (cursor', .error e)

theorem nextRecord_misses
    (hG : ∀ key, G key →
      cursor.view.head.tail[cursor.nextCommit]?.map (commitKey cursor.log.incarnation) = some key)
    (distinct : ∀ (j k : Nat) c c', cursor.view.head.tail[j]? = some c →
      cursor.view.head.tail[k]? = some c' →
      commitKey cursor.log.incarnation c = commitKey cursor.log.incarnation c' → j = k) :
    Upon (Misses G) HandsError cursor.nextRecord := by
  unfold HistoryCursor.nextRecord
  split
  · rename_i hlt
    split
    · have hindex := List.getElem?_eq_getElem hlt
      have hfetch := fetch_misses hindex fun j c hj hkey => distinct j _ c _ hj hindex hkey
      have hentry : ∀ key, G key →
          key = commitKey cursor.log.incarnation cursor.view.head.tail[cursor.nextCommit] := by
        intro key hkey
        have hfront := hG key hkey
        rw [hindex] at hfront
        exact (Option.some.inj hfront).symm
      refine (hfetch.answers fun e a hmiss => hmiss.mono hentry).bind (fun q hq => ?_)
        fun _ => take_misses
      refine hq.bind (fun ready hready => ?_) fun e he => ?_
      · obtain ⟨rest, hrest⟩ := hready
        exact take_missed (Except.ok.inj hrest)
      · obtain ⟨rest, hrest⟩ := he
        cases hrest
    · exact take_misses
  · exact Upon.after (ask_misses (e := .setVerifiedTail _ _) fun _ => id) fun _ => trivial

/-- **What is left of `next` after a miss of the entry** that the cursor stands before. -/
theorem next_misses
    (distinct : ∀ (j k : Nat) c c', cursor.view.head.tail[j]? = some c →
      cursor.view.head.tail[k]? = some c' →
      commitKey cursor.log.incarnation c = commitKey cursor.log.incarnation c' → j = k) :
    Upon (Misses fun key => cursor.entryKey = some key) HandsError cursor.next := by
  unfold HistoryCursor.next
  split
  · trivial
  split
  · rename_i hread
    refine nextRecord_misses (fun key hkey => ?_) distinct
    rw [HistoryCursor.entryKey, hread] at hkey
    exact hkey
  · rename_i hread
    rw [Bool.not_eq_true] at hread
    refine readCheckpoint_misses.attemptBind (readCheckpoint_answered (A := anything))
      (fun q hq => ?_) fun r hr => ?_
    · rw [hq]
      refine (missingReadError_answered (V := fun _ => False)).attemptBind fun r hr => ?_
      cases r with
      | ok found => exact hr.elim
      | error e => exact Ends.pure ⟨_, e, rfl⟩
    · cases r with
      | error e => trivial
      | ok found =>
          cases found with
          | some record => trivial
          | none =>
              refine nextRecord_misses (fun key hkey => ?_) distinct
              rw [HistoryCursor.entryKey, hread, show cursor.view.head.checkpoint = none from hr]
                at hkey
              exact hkey

/-- The read-ahead of an earlier call has found the entry missing. -/
def HistoryCursor.KnowsMissing (cursor : HistoryCursor) : Prop :=
  cursor.complete = false ∧ cursor.checkpointRead = true ∧
    cursor.nextCommit < cursor.view.head.tail.length ∧ ∃ rest, cursor.ready = .ok none :: rest

theorem next_knowsMissing (h : cursor.KnowsMissing) : HandsError cursor.next := by
  obtain ⟨hopen, hread, hmore, rest, hready⟩ := h
  unfold HandsError HistoryCursor.next HistoryCursor.nextRecord
  rw [hopen, hread, if_pos hmore, hready]
  exact take_missed hready

theorem HandsError.failure {q : Op (HistoryCursor × Except Error (Option HistoryItem))}
    (h : HandsError q) : Ends anything (do
      let (cursor, result) ← q
      return .history cursor result)
      fun r => ∃ e, (Call.historyNext cursor).failure r = some e := by
  refine h.bind (fun out hout => ?_) fun e he => ?_
  · obtain ⟨cursor', e, heq⟩ := hout
    obtain rfl := Except.ok.inj heq
    exact Ends.pure ⟨e, rfl⟩
  · obtain ⟨cursor', e', heq⟩ := he
    cases heq

/-- **A cursor whose entry is not there fails**, whether this call was told so or an earlier
one that read ahead. -/
theorem Reachable.entryMissing (hr : Reachable scope w) (nc : w.state.NoCollision)
    (hb : w.state.calls[t]? = some b) (hcall : b.call = .historyNext cursor)
    {r : Except Error Value} (ht : w.threads[t]? = some (.done r))
    (hmiss : cursor.KnowsMissing ∨
      ∃ key, cursor.entryKey = some key ∧ w.state.Answered t (.get key) 0 none) :
    ∃ e, b.call.failure r = some e := by
  have ok := hr.ok nc
  have inv := ok.good.inv
  rcases hmiss with hknown | ⟨key, hentry, hans⟩
  · obtain ⟨name, hreach⟩ := hr.reaches hb ht
    rw [hcall] at hreach ⊢
    exact (next_knowsMissing hknown).failure.reached hreach
  · -- the tail of a stored head has no key twice
    have hcursor : w.state.CursorOK b.heads cursor :=
      (inv.calls t b hb).args (.cursor cursor) (by rw [hcall]; simp [Call.args])
    obtain ⟨⟨i, -, hh⟩, -⟩ := hcursor.view
    have hinc := (hcursor.log.head inv hh).2.1
    have distinct : ∀ (j k : Nat) c c', cursor.view.head.tail[j]? = some c →
        cursor.view.head.tail[k]? = some c' →
        commitKey cursor.log.incarnation c = commitKey cursor.log.incarnation c' → j = k := by
      intro j k c c' hj hk hkey
      rw [← hinc] at hkey
      exact inv.tail_keys hh hj hk hkey
    have hprog : ∀ name, Upon (Misses fun key => cursor.entryKey = some key)
        (fun q => Ends anything q fun r => ∃ e, b.call.failure r = some e)
        (b.call.run name) := by
      intro name
      rw [hcall]
      exact (next_misses distinct).bind (fun q hq => hq.failure) fun _ => trivial
    rcases hr.missed nc hb hprog ht with ⟨-, hclean⟩ | ⟨w₀, q₀, -, hr₀, hsteps, hq₀, hends, -⟩
    · exact absurd hans (hclean key hentry)
    · have ok₀ := hr₀.ok (nc.back hsteps.headLog)
      obtain ⟨q, hq, hreach⟩ := ok₀.reachesSteps hsteps nc hq₀
      obtain rfl := Option.some.inj (hq.symm.trans ht)
      exact hends.reached hreach

end ObjectLog
