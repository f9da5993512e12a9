import ObjectLog.Lib.Answers
import ObjectLog.Proof.Outcome

/-!
# Runs of the system

Every world of a run is in order: the state keeps the invariant, and every call is on
its way to the postcondition of its operation. This is where the rules that each call was
verified under are discharged: what the other calls and the store do in one step is within
what a call relies on.
-/

set_option linter.unusedSectionVars false

namespace ObjectLog

open Rely

variable [Blake3] {w w' w'' : World} {s s' : State} {t t' : Nat} {scope : LogId}

/-- Any number of steps. -/
def Steps : World → World → Prop := Relation.ReflTransGen Step

theorem Steps.refl (w : World) : Steps w w := Relation.ReflTransGen.refl

theorem Steps.trans (a : Steps w w') (b : Steps w' w'') : Steps w w'' :=
  Relation.ReflTransGen.trans a b

theorem Steps.single (h : Step w w') : Steps w w' := Relation.ReflTransGen.single h

theorem Reachable.steps (h : Reachable scope w) (hs : Steps w w') : Reachable scope w' := by
  induction hs with
  | refl => exact h
  | tail _ hstep ih => exact ih.step hstep

/-! ## The stored heads only grow -/

/-- An effect leaves the stored heads and the calls alone. -/
theorem Exec.same {e : Effect} {a : Reply e} (hx : Exec t s e a s') :
    s'.headLog = s.headLog ∧ s'.calls = s.calls := by
  cases e with
  | submit req => obtain ⟨-, rfl⟩ := hx; exact ⟨rfl, rfl⟩
  | await req i => obtain ⟨sent, landed, -, -, rfl⟩ := hx; exact ⟨rfl, rfl⟩
  | listNext => obtain ⟨rfl, -⟩ := hx; exact ⟨rfl, rfl⟩
  | storageId => obtain ⟨-, rfl⟩ := hx; exact ⟨rfl, rfl⟩
  | stagingDomain => obtain ⟨-, rfl⟩ := hx; exact ⟨rfl, rfl⟩
  | observe head version => obtain ⟨-, rfl⟩ := hx; exact ⟨rfl, rfl⟩
  | verifiedTail id => obtain ⟨rfl, -⟩ := hx; exact ⟨rfl, rfl⟩
  | collectionCandidates id => obtain ⟨rfl, -⟩ := hx; exact ⟨rfl, rfl⟩
  | initCollectionCandidates id cs => obtain ⟨-, rfl⟩ := hx; exact ⟨rfl, rfl⟩
  | _ => cases hx; exact ⟨rfl, rfl⟩

/-- A landing adds at most one stored head, and leaves requests, identities and calls alone. -/
theorem Lands.same {req : Req} {a : Answer req} (hl : Lands s req a s') :
    s.headLog <+: s'.headLog ∧ s'.flights = s.flights ∧ s'.ids = s.ids ∧ s'.calls = s.calls := by
  have none : s' = s → s.headLog <+: s'.headLog ∧ s'.flights = s.flights ∧ s'.ids = s.ids ∧
      s'.calls = s.calls := by
    rintro rfl
    exact ⟨List.prefix_rfl, rfl, rfl, rfl⟩
  cases req with
  | getHead => exact none hl.2
  | getHeadIfChanged eTag => exact none hl.1
  | createHead bytes =>
      obtain ⟨-, -, version, rfl⟩ | ⟨-, -, h⟩ := hl
      · exact ⟨List.prefix_append _ _, rfl, rfl, rfl⟩
      · exact none h
  | updateHead bytes expected =>
      obtain ⟨stored, version, -, -, -, -, rfl⟩ | ⟨-, -, h⟩ := hl
      · exact ⟨List.prefix_append _ _, rfl, rfl, rfl⟩
      · exact none h
  | get key => exact none hl.2
  | create key bytes =>
      obtain ⟨-, -, rfl⟩ | ⟨-, -, h⟩ := hl
      · exact ⟨List.prefix_rfl, rfl, rfl, rfl⟩
      · exact none h
  | delete key =>
      obtain rfl : s' = dropKey s key := hl
      exact ⟨List.prefix_rfl, rfl, rfl, rfl⟩

theorem Step.headLog (hs : Step w w') : w.state.headLog <+: w'.state.headLog := by
  cases hs with
  | begin call _ => exact List.prefix_rfl
  | act _ hx => exact hx.same.1 ▸ List.prefix_rfl
  | land _ _ hl => exact hl.same.1

theorem Steps.headLog (hs : Steps w w') : w.state.headLog <+: w'.state.headLog := by
  induction hs with
  | refl => exact List.prefix_rfl
  | tail _ hstep ih => exact ih.trans hstep.headLog

/-- A run without a collision had none before. -/
theorem State.NoCollision.back (hp : s.headLog <+: s'.headLog) (h : s'.NoCollision) :
    s.NoCollision := by
  intro i j a b v v' x y ⟨bytes, ha, hda⟩ ⟨bytes', hb, hdb⟩
  exact h i j a b v v' x y ⟨bytes, getElem?_of_isPrefix hp ha, hda⟩
    ⟨bytes', getElem?_of_isPrefix hp hb, hdb⟩

/-! ## What one call does to the others -/

/-- Requests and identities carry the call that made them. -/
theorem Exec.own {e : Effect} {a : Reply e} (hx : Exec t s e a s') :
    (∀ (j : Nat) (f : Flight), s.flights.length ≤ j → s'.flights[j]? = some f → f.tid = t) ∧
      ∀ x t', (x, t') ∈ s'.ids → (x, t') ∈ s.ids ∨ t' = t := by
  -- all but two effects leave both alone
  have quiet : s'.flights.length = s.flights.length → s'.ids = s.ids →
      (∀ (j : Nat) (f : Flight), s.flights.length ≤ j → s'.flights[j]? = some f → f.tid = t) ∧
        ∀ x t', (x, t') ∈ s'.ids → (x, t') ∈ s.ids ∨ t' = t := by
    intro hf hi
    refine ⟨fun j f hj hjf => ?_, fun x t' h => .inl (hi ▸ h)⟩
    have := (List.getElem?_eq_some_iff.1 hjf).1
    omega
  cases e with
  | submit req =>
      obtain ⟨-, rfl⟩ := hx
      refine ⟨fun j f hj hf => ?_, fun x t' h => .inl h⟩
      rw [List.getElem?_append_right hj, List.getElem?_singleton] at hf
      split at hf
      · obtain rfl := Option.some.inj hf
        rfl
      · cases hf
  | storageId =>
      obtain ⟨-, rfl⟩ := hx
      refine ⟨fun j f hj hf => ?_, fun x t' h => ?_⟩
      · have : j < s.flights.length := (List.getElem?_eq_some_iff.1 hf).1
        omega
      · rcases List.mem_append.1 h with h | h
        · exact .inl h
        · exact .inr (Prod.mk.inj (List.mem_singleton.1 h)).2
  | await req i =>
      obtain ⟨sent, landed, -, -, rfl⟩ := hx
      exact quiet (List.length_set ..) rfl
  | admission _ => cases hx; exact quiet rfl rfl
  | listNext => obtain ⟨rfl, -⟩ := hx; exact quiet rfl rfl
  | uuid => cases hx; exact quiet rfl rfl
  | stagingDomain => obtain ⟨-, rfl⟩ := hx; exact quiet rfl rfl
  | observe head version => obtain ⟨-, rfl⟩ := hx; exact quiet rfl rfl
  | verifiedTail id => obtain ⟨rfl, -⟩ := hx; exact quiet rfl rfl
  | setVerifiedTail id domain => cases hx; exact quiet rfl rfl
  | collectionCandidates id => obtain ⟨rfl, -⟩ := hx; exact quiet rfl rfl
  | initCollectionCandidates id cs => obtain ⟨-, rfl⟩ := hx; exact quiet rfl rfl
  | choose n => cases hx; exact quiet rfl rfl

/-- What an effect of one call is to another one. -/
theorem Exec.others {e : Effect} {a : Reply e} (hx : Exec t s e a s') (hle : s.Le s')
    (hne : t' ≠ t) : Others t' s s' where
  le := hle
  flights := fun j f hj hf ht => hne (ht.symm.trans (hx.own.1 j f hj hf))
  ids := by
    intro x h
    rcases hx.own.2 x t' h with h | h
    · exact h
    · exact absurd h hne

/-- A change of the state that sends nothing and draws nothing. -/
theorem Others.silent (hle : s.Le s') (hf : s'.flights.length = s.flights.length)
    (hi : s'.ids = s.ids) (t : Nat) : Others t s s' where
  le := hle
  flights := by
    intro j f hj hjf
    have := (List.getElem?_eq_some_iff.1 hjf).1
    omega
  ids := fun x h => hi ▸ h

/-! ## The invariant of a world -/

/-- **A world is in order**: the state keeps its invariant, and every call is on its way to
its postcondition. -/
structure World.OK (w : World) : Prop where
  good : Good w.state
  size : w.threads.length = w.state.calls.length
  tids : ∀ (j : Nat) (f : Flight), w.state.flights[j]? = some f → f.tid < w.threads.length
  runs : ∀ (t : Nat) p b, w.threads[t]? = some p → w.state.calls[t]? = some b →
    Runs t Anything p (fun r u => u.Returned t b r) w.state

theorem World.OK.call (ok : w.OK) {p : Op Value} (ht : w.threads[t]? = some p) :
    ∃ b, w.state.calls[t]? = some b := by
  have hlt := (List.getElem?_eq_some_iff.1 ht).1
  rw [ok.size] at hlt
  exact ⟨_, List.getElem?_eq_getElem hlt⟩

/-- A call that has returned. -/
theorem World.OK.returned (ok : w.OK) {r : Except Error Value} {b : Begun}
    (ht : w.threads[t]? = some (.done r)) (hb : w.state.calls[t]? = some b) :
    w.state.Returned t b r := (ok.runs t _ b ht hb).ended ok.good

/-- **What the callers come by is genuine.** -/
theorem Known.ok (ok : w.OK) {item : Item} (h : Known w item) :
    w.state.ItemOK w.state.now item := by
  induction h with
  | returned ht hi =>
      obtain ⟨b, hb⟩ := ok.call ht
      exact (ok.returned ht hb).items _ rfl _ hi
  | viewOfPrepared _ ih => exact ih.1
  | tokenOfPrepared _ ht hl ih => exact ⟨_, ih, ht, hl⟩
  | @tokenOfPending p token _ ht hl ih =>
      change State.PendingCommitOK _ _ _ at ih
      unfold State.PendingCommitOK at ih
      unfold PendingCommit.recoveryToken at ht
      cases hp : p.prepared with
      | some prepared =>
          rw [hp] at ih ht
          exact ⟨prepared, ih.1, ht, hl⟩
      | none =>
          rw [hp] at ih ht
          obtain ⟨token', htoken, hok⟩ := ih
          rw [htoken] at ht
          rw [← Except.ok.inj ht]
          exact hok
  | @history log view cursor _ _ hc ihl ihv =>
      simp only [Log.history, bind_ok] at hc
      obtain ⟨_, hval, hc⟩ := hc
      obtain rfl := Except.ok.inj hc
      exact ⟨ihl, ihv, hval, fun j r h => by simp at h⟩
  | clone _ ih => exact ⟨ih.log, ih.view, ih.checked, fun j r h => by simp [HistoryCursor.clone] at h⟩
  | viewOfCursor _ ih => exact ih.view

/-- **An unused namespace keeps the invariant.** -/
theorem Inv.init (scope : LogId) : Inv (State.init scope) := by
  have none : ∀ i h v, ¬ (State.init scope).HeadAt i h v := by
    rintro i h v ⟨bytes, hb, -⟩
    simp [State.init] at hb
  constructor
  case first => exact fun h v hh => absurd hh (none 0 h v)
  case links => exact fun i h v h' v' hh => absurd hh (none i h v)
  case installs =>
    rintro j j' i i' k ⟨f, bytes, expected, h, h', p, hf, -⟩
    simp [State.init] at hf
  all_goals simp [State.init]

theorem World.OK.init (scope : LogId) (nc : (World.init scope).state.NoCollision) :
    (World.init scope).OK where
  good := ⟨Inv.init scope, nc⟩
  size := rfl
  tids := by simp [World.init, State.init]
  runs := by simp [World.init]

/-- One step keeps the invariant and moves the state up. -/
theorem World.OK.kept (ok : w.OK) (hs : Step w w') :
    Inv w'.state ∧ w.state.Le w'.state := by
  cases hs with
  | begin call h => exact ok.good.inv.begin fun item hi => (h item hi).ok ok
  | act ht hx =>
      obtain ⟨b, hb⟩ := ok.call ht
      exact ok.good.inv.exec ((ok.runs _ _ b ht hb).performs ok.good).1.1 hx
  | land hf hn hl => exact ok.good.inv.land hf hn hl

/-- **What one step is to a call**: interference, or its own next effect. -/
theorem World.OK.thread (ok : w.OK) (hs : Step w w') {p : Op Value}
    (ht : w.threads[t]? = some p) :
    (w'.threads[t]? = some p ∧ Others t w.state w'.state) ∨
      ∃ e k a, p = .perform e k ∧ w'.threads[t]? = some (k a) ∧ Exec t w.state e a w'.state := by
  obtain ⟨-, hle⟩ := ok.kept hs
  have hlt := (List.getElem?_eq_some_iff.1 ht).1
  cases hs with
  | begin call h =>
      refine .inl ⟨?_, Others.silent hle rfl rfl t⟩
      rw [← ht]
      exact List.getElem?_append_left hlt
  | @act t' e k a s' ht' hx =>
      by_cases hne : t = t'
      · subst hne
        obtain rfl := Option.some.inj (ht.symm.trans ht')
        exact .inr ⟨e, k, a, rfl, List.getElem?_set_self hlt, hx⟩
      · refine .inl ⟨?_, hx.others hle hne⟩
        rw [← ht]
        exact List.getElem?_set_ne (Ne.symm hne)
  | land hf hn hl =>
      refine .inl ⟨ht, ?_⟩
      obtain ⟨-, h1, h2, -⟩ := hl.same
      refine Others.silent hle ?_ h2 t
      show (List.set _ _ _).length = _
      rw [List.length_set, h1]

/-- **A call stays on its way.** -/
theorem World.OK.runsStep (ok : w.OK) (hs : Step w w') (nc : w'.state.NoCollision) {p : Op Value}
    {Q : Except Error Value → State → Prop} (ht : w.threads[t]? = some p)
    (h : Runs t Anything p Q w.state) :
    ∃ p', w'.threads[t]? = some p' ∧ Runs t Anything p' Q w'.state := by
  rcases ok.thread hs ht with ⟨ht', o⟩ | ⟨e, k, a, rfl, ht', hx⟩
  · exact ⟨p, ht', h.others o⟩
  · exact ⟨k a, ht', (h.performs ok.good).2 a _ hx ⟨(ok.kept hs).1, nc⟩⟩

/-- A call that begins has nothing yet. -/
theorem World.OK.begins (ok : w.OK) (call : Call) :
    (w.begin call).state.Begins w.threads.length
      ⟨call, w.state.flights.length, w.state.now⟩ where
  call := by
    show (w.state.calls ++ _)[_]? = _
    rw [ok.size, List.getElem?_append_right le_rfl, Nat.sub_self]
    rfl
  heads := rfl
  flights := by
    intro j f hf
    have := ok.tids j f hf
    omega

/-- **One step keeps a world in order.** -/
theorem World.OK.step (ok : w.OK) (hs : Step w w') (nc : w'.state.NoCollision) : w'.OK := by
  obtain ⟨inv, hle⟩ := ok.kept hs
  have g : Good w'.state := ⟨inv, nc⟩
  have old : ∀ (t : Nat) p b p₀, w'.threads[t]? = some p → w'.state.calls[t]? = some b →
      w.threads[t]? = some p₀ → Runs t Anything p (fun r u => u.Returned t b r) w'.state := by
    intro t p b p₀ hp hb ht
    obtain ⟨b', hb'⟩ := ok.call ht
    obtain rfl := Option.some.inj ((hle.call hb').symm.trans hb)
    obtain ⟨p', hp', hr⟩ := ok.runsStep hs nc ht (ok.runs t p₀ b' ht hb')
    obtain rfl := Option.some.inj (hp'.symm.trans hp)
    exact hr
  have oldTid : ∀ (j : Nat) (f : Flight), j < w.state.flights.length →
      w'.state.flights[j]? = some f → f.tid < w.threads.length := by
    intro j f hj hf
    obtain ⟨f', hf', htid, -⟩ := hle.flight (List.getElem?_eq_getElem hj)
    obtain rfl := Option.some.inj (hf'.symm.trans hf)
    rw [htid]
    exact ok.tids j _ (List.getElem?_eq_getElem hj)
  cases hs with
  | begin call h =>
      refine ⟨g, ?_, fun j f hf => ?_, fun t p b hp hb => ?_⟩
      · show (w.threads ++ _).length = (w.state.calls ++ _).length
        rw [List.length_append, List.length_append, ok.size]
        rfl
      · show f.tid < (w.threads ++ _).length
        have := ok.tids j f hf
        rw [List.length_append]
        omega
      · rcases Nat.lt_or_ge t w.threads.length with hlt | hge
        · exact old t p b _ hp hb (List.getElem?_eq_getElem hlt)
        · -- the new call
          obtain rfl : t = w.threads.length := by
            have hlt : t < (w.threads ++ [call.run w.state.scope]).length :=
              (List.getElem?_eq_some_iff.1 hp).1
            rw [List.length_append, List.length_singleton] at hlt
            omega
          have hbegin := ok.begins call
          obtain rfl := Option.some.inj (hbegin.call.symm.trans hb)
          have hp' : p = call.run w.state.scope := by
            have : (w.threads ++ [call.run w.state.scope])[w.threads.length]? = some p := hp
            rw [List.getElem?_append_right le_rfl, Nat.sub_self] at this
            exact (Option.some.inj this).symm
          rw [hp']
          exact Call.runs g hbegin
  | @act t' e k a s' ht' hx =>
      have hlen : (w.threads.set t' (k a)).length = w.threads.length := List.length_set ..
      refine ⟨g, ?_, fun j f hf => ?_, fun t p b hp hb => ?_⟩
      · show (w.threads.set t' (k a)).length = s'.calls.length
        rw [hlen, hx.same.2, ok.size]
      · show f.tid < (w.threads.set t' (k a)).length
        rw [hlen]
        rcases Nat.lt_or_ge j w.state.flights.length with hj | hj
        · exact oldTid j f hj hf
        · rw [hx.own.1 j f hj hf]
          exact (List.getElem?_eq_some_iff.1 ht').1
      · have hlt : t < w.threads.length := hlen ▸ (List.getElem?_eq_some_iff.1 hp).1
        exact old t p b _ hp hb (List.getElem?_eq_getElem hlt)
  | land hf hn hl =>
      obtain ⟨-, h1, -, h2⟩ := hl.same
      refine ⟨g, ?_, fun j f hf => oldTid j f ?_ hf, fun t p b hp hb => old t p b p hp hb hp⟩
      · exact ok.size.trans (congrArg List.length h2).symm
      · have hj := (List.getElem?_eq_some_iff.1 hf).1
        change j < (List.set _ _ _).length at hj
        rwa [List.length_set, h1] at hj

/-- **Every world of a run is in order.** -/
theorem Reachable.ok (h : Reachable scope w) (nc : w.state.NoCollision) : w.OK := by
  induction h with
  | init => exact .init scope nc
  | step _ hs ih => exact (ih (nc.back hs.headLog)).step hs nc

theorem World.OK.steps (ok : w.OK) (hs : Steps w w') (nc : w'.state.NoCollision) :
    w'.OK ∧ w.state.Le w'.state := by
  induction hs with
  | refl => exact ⟨ok, .refl _⟩
  | tail _ hstep ih =>
      obtain ⟨ok', hle⟩ := ih (nc.back hstep.headLog)
      exact ⟨ok'.step hstep nc, hle.trans (ok'.kept hstep).2⟩

/-- **A call stays on its way along a run.** -/
theorem World.OK.runsSteps (ok : w.OK) (hs : Steps w w') (nc : w'.state.NoCollision) {p : Op Value}
    {Q : Except Error Value → State → Prop} (ht : w.threads[t]? = some p)
    (h : Runs t Anything p Q w.state) :
    ∃ p', w'.threads[t]? = some p' ∧ Runs t Anything p' Q w'.state := by
  induction hs with
  | refl => exact ⟨p, ht, h⟩
  | tail hs' hstep ih =>
      have nc' := nc.back hstep.headLog
      obtain ⟨p', ht', h'⟩ := ih nc'
      exact (ok.steps hs' nc').1.runsStep hstep nc ht' h'

theorem Reachable.scope_eq (h : Reachable scope w) (nc : w.state.NoCollision) :
    w.state.scope = scope := by
  induction h with
  | init => rfl
  | step hr hs ih =>
      have nc' := nc.back hs.headLog
      exact ((hr.ok nc').kept hs).2.scope.trans (ih nc')

/-- The world that a call began in. -/
theorem Reachable.begun (h : Reachable scope w) {b : Begun} (hb : w.state.calls[t]? = some b) :
    ∃ w₀, Reachable scope w₀ ∧ Steps (w₀.begin b.call) w ∧ w₀.state.flights.length = b.flights ∧
      w₀.state.now = b.heads ∧ w₀.state.calls.length = t ∧
      ∀ item ∈ b.call.args, Known w₀ item := by
  induction h with
  | init => simp [World.init, State.init] at hb
  | @step w w' hr hs ih =>
      -- a call that was there before began earlier
      have earlier : w.state.calls[t]? = some b → ∃ w₀, Reachable scope w₀ ∧
          Steps (w₀.begin b.call) w' ∧ w₀.state.flights.length = b.flights ∧
          w₀.state.now = b.heads ∧ w₀.state.calls.length = t ∧
          ∀ item ∈ b.call.args, Known w₀ item := by
        intro hb
        obtain ⟨w₀, hr₀, hsteps, hrest⟩ := ih hb
        exact ⟨w₀, hr₀, hsteps.trans (.single hs), hrest⟩
      cases hs with
      | begin call hk =>
          rcases Nat.lt_or_ge t w.state.calls.length with hlt | hge
          · refine earlier ?_
            rwa [World.begin, List.getElem?_append_left hlt] at hb
          · have heq : t = w.state.calls.length := by
              have := (List.getElem?_eq_some_iff.1 hb).1
              rw [World.begin, List.length_append, List.length_singleton] at this
              omega
            subst heq
            rw [World.begin, List.getElem?_concat_length] at hb
            obtain rfl := Option.some.inj hb
            exact ⟨w, hr, .refl _, rfl, rfl, rfl, hk⟩
      | act ht hx => exact earlier (by rwa [hx.same.2] at hb)
      | land hf hn hl => exact earlier (by rwa [setFlight, hl.same.2.2.2] at hb)

theorem Reachable.size (h : Reachable scope w) : w.threads.length = w.state.calls.length := by
  induction h with
  | init => rfl
  | step _ hs ih =>
      cases hs with
      | begin call _ => simp [World.begin, ih]
      | act _ hx => rw [List.length_set, hx.same.2, ih]
      | land _ _ hl => rw [setFlight, hl.same.2.2.2, ih]

/-- **A call is somewhere in its program.** -/
theorem Reachable.reaches (h : Reachable scope w) {b : Begun} {p : Op Value}
    (hb : w.state.calls[t]? = some b) (ht : w.threads[t]? = some p) :
    ∃ name, (b.call.run name).Reaches anything p := by
  induction h generalizing p with
  | init => simp [World.init, State.init] at hb
  | @step w w' hr hs ih =>
      cases hs with
      | begin call hk =>
          rw [World.begin] at hb ht
          rcases Nat.lt_or_ge t w.state.calls.length with hlt | hge
          · rw [List.getElem?_append_left hlt] at hb
            rw [List.getElem?_append_left (by rw [hr.size]; exact hlt)] at ht
            exact ih hb ht
          · -- the call that has just begun
            obtain rfl : t = w.state.calls.length := by
              have := (List.getElem?_eq_some_iff.1 hb).1
              rw [List.length_append, List.length_singleton] at this
              omega
            rw [List.getElem?_concat_length] at hb
            rw [← hr.size, List.getElem?_concat_length] at ht
            obtain rfl := Option.some.inj hb
            obtain rfl := Option.some.inj ht
            exact ⟨_, .start⟩
      | @act t' e k a s' ht' hx =>
          rw [hx.same.2] at hb
          by_cases hthread : t' = t
          · subst hthread
            obtain ⟨n, hn⟩ := ih hb ht'
            rw [List.getElem?_set_self (List.getElem?_eq_some_iff.1 ht').1] at ht
            obtain rfl := Option.some.inj ht
            exact ⟨n, hn.next trivial⟩
          · rw [List.getElem?_set_ne hthread] at ht
            exact ih hb ht
      | land hf hn hl => exact ih (by rwa [setFlight, hl.same.2.2.2] at hb) ht

/-- The head that is stored now. -/
def State.Durable (s : State) (h : Head) : Prop := ∃ i v, s.HeadAt i h v ∧ i + 1 = s.now

/-- The epoch that a view has fallen behind is one of the durable head. -/
theorem State.Expired.durable {view : View} {h : Head} (inv : Inv s) (hx : s.Expired view)
    (hd : s.Durable h) : view.head.collectionEpoch.toNat < h.collectionEpoch.toNat := by
  obtain ⟨j, g, v, hg, hlt⟩ := hx
  obtain ⟨i, v', hh, hlast⟩ := hd
  have := inv.epoch_mono (by have := hg.lt; omega : j ≤ i) hg hh
  omega

end ObjectLog
