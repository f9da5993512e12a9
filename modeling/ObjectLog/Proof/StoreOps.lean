import ObjectLog.Proof.Rules

/-!
# Requests and their answers

One lemma for each operation of `ScopedStore`. What an answer is worth is in the
invariant; here it is only brought to the program that took it. Errors are followed as
well: a read fails because the store or the guard refused, or because its own check of the
answer did.
-/

set_option linter.unusedSectionVars false

namespace ObjectLog

open Rely

variable [Blake3] {s s' u : State} {t : Nat} {A : Effect → Prop}

/-! ## Effects by what they send -/

/-- Everything but writes and new identities. -/
def Reads : Effect → Prop
  | .submit .getHead => True
  | .submit (.getHeadIfChanged _) => True
  | .submit (.get _) => True
  | .submit _ => False
  | .storageId => False
  | _ => True

def Creates (e : Effect) : Prop := Reads e ∨ ∃ key bytes, e = .submit (.create key bytes)
def Fresh (e : Effect) : Prop := Creates e ∨ e = .storageId
def Deletes (e : Effect) : Prop := Reads e ∨ ∃ key, e = .submit (.delete key)
def Updates (e : Effect) : Prop :=
  Reads e ∨ ∃ bytes expected, e = .submit (.updateHead bytes expected)
def Sends (req : Req) (e : Effect) : Prop := Reads e ∨ e = .submit req
def Anything (_ : Effect) : Prop := True

theorem reads_creates : Reads ≤ Creates := fun _ h => .inl h
theorem creates_fresh : Creates ≤ Fresh := fun _ h => .inl h
theorem reads_fresh : Reads ≤ Fresh := reads_creates.trans creates_fresh
theorem reads_deletes : Reads ≤ Deletes := fun _ h => .inl h
theorem reads_updates : Reads ≤ Updates := fun _ h => .inl h
theorem reads_sends {req : Req} : Reads ≤ Sends req := fun _ h => .inl h
theorem le_anything : A ≤ Anything := fun _ _ => trivial

/-! ## Requests in the air -/

/-- Call `t` has sent `req` as request `j`, not before moment `L`. -/
def State.Asked (s : State) (t : Nat) (req : Req) (L j : Nat) : Prop :=
  ∃ sent landed told, s.flights[j]? = some ⟨t, req, sent, landed, told⟩ ∧ L ≤ sent

/-- Call `t` has sent `req` as request `j`, not before moment `L`, and was answered `a`. -/
def State.AnsweredAt (s : State) (t : Nat) (req : Req) (L j : Nat) (a : Answer req) : Prop :=
  ∃ (sent n : Nat) (landed : Option (Nat × Answer req)),
    s.flights[j]? = some ⟨t, req, sent, landed, some (n, .ok a)⟩ ∧ L ≤ sent

def State.Answered (s : State) (t : Nat) (req : Req) (L : Nat) (a : Answer req) : Prop :=
  ∃ j, s.AnsweredAt t req L j a

/-- Among the requests that call `t` has sent since `s`, only `j` is not a read. -/
def OnlyWrite (t j : Nat) (s u : State) : Prop :=
  ∀ (j' : Nat) (f : Flight), s.flights.length ≤ j' → u.flights[j']? = some f → f.tid = t →
    ¬ Reads (.submit f.req) → j' = j

theorem State.Asked.mono {req : Req} {L j : Nat} (hle : s.Le s') (h : s.Asked t req L j) :
    s'.Asked t req L j := by
  obtain ⟨sent, landed, told, hf, hL⟩ := h
  obtain ⟨f', hf', landed', told', rfl, -, -⟩ := hle.flights j _ hf
  exact ⟨sent, landed', told', hf', hL⟩

theorem State.AnsweredAt.mono {req : Req} {L j : Nat} {a : Answer req} (hle : s.Le s')
    (h : s.AnsweredAt t req L j a) : s'.AnsweredAt t req L j a := by
  obtain ⟨sent, n, landed, hf, hL⟩ := h
  obtain ⟨f', hf', landed', told', rfl, -, ht⟩ := hle.flights j _ hf
  have := ht _ rfl
  subst this
  exact ⟨sent, n, landed', hf', hL⟩

theorem State.AnsweredAt.later {req : Req} {L L' j : Nat} {a : Answer req} (hL : L' ≤ L)
    (h : s.AnsweredAt t req L j a) : s.AnsweredAt t req L' j a := by
  obtain ⟨sent, n, landed, hf, h'⟩ := h
  exact ⟨sent, n, landed, hf, hL.trans h'⟩

theorem State.Answered.mono {req : Req} {L : Nat} {a : Answer req} (hle : s.Le s')
    (h : s.Answered t req L a) : s'.Answered t req L a := by
  obtain ⟨j, hj⟩ := h
  exact ⟨j, hj.mono hle⟩

theorem State.Answered.later {req : Req} {L L' : Nat} {a : Answer req} (hL : L' ≤ L)
    (h : s.Answered t req L a) : s.Answered t req L' a := by
  obtain ⟨j, hj⟩ := h
  exact ⟨j, hj.later hL⟩

/-- Reads before and after a write. -/
theorem OnlyWrite.after {j : Nat} (h : OnlyWrite t j s s') (tr : Track t Reads s' u) :
    OnlyWrite t j s u := by
  intro j' f hj hf ht hr
  rcases Nat.lt_or_ge j' s'.flights.length with hlt | hge
  · obtain ⟨g, hg⟩ : ∃ g, s'.flights[j']? = some g := ⟨_, List.getElem?_eq_getElem hlt⟩
    obtain ⟨f', hf', ht', hreq, -⟩ := tr.le.flight hg
    obtain rfl := Option.some.inj (hf'.symm.trans hf)
    exact h j' g hj hg (ht'.symm.trans ht) (hreq ▸ hr)
  · exact absurd (tr.flights j' f hge hf ht) hr

theorem OnlyWrite.before {j : Nat} (tr : Track t Reads s s') (h : OnlyWrite t j s' u)
    (hle : s'.Le u) : OnlyWrite t j s u := by
  intro j' f hj hf ht hr
  rcases Nat.lt_or_ge j' s'.flights.length with hlt | hge
  · obtain ⟨g, hg⟩ : ∃ g, s'.flights[j']? = some g := ⟨_, List.getElem?_eq_getElem hlt⟩
    obtain ⟨f', hf', ht', hreq, -⟩ := hle.flight hg
    obtain rfl := Option.some.inj (hf'.symm.trans hf)
    exact absurd (hreq ▸ tr.flights j' g hj hg (ht'.symm.trans ht)) hr
  · exact h j' f hge hf ht hr

/-- What an answer says. -/
theorem State.Answered.ok {req : Req} {L : Nat} {a : Answer req} (inv : Inv s)
    (h : s.Answered t req L a) :
    (∃ sent n, L ≤ sent ∧ sent ≤ n ∧ s.AnswerOK sent n req a) ∨ Refusal req a := by
  obtain ⟨j, sent, n, landed, hf, hL⟩ := h
  have ok := inv.flights j _ hf
  obtain ⟨-, ht⟩ := ok.told n (.ok a) rfl
  rcases ht a rfl with ⟨m, -, hm⟩ | hr
  · obtain ⟨h1, -, h2⟩ := ok.landed m a hm
    exact .inl ⟨sent, m, hL, h1, h2⟩
  · exact .inr hr

theorem State.Seen.later {L L' : Nat} {k : ImmutableKey} (hL : L' ≤ L) (h : s.Seen L k) :
    s.Seen L' k := fun hk i hd v hi => h hk i hd v (Nat.lt_of_lt_of_le hi hL)

theorem State.Missed.later {L L' : Nat} {k : ImmutableKey} (hL : L' ≤ L) (h : s.Missed L k) :
    s.Missed L' k where
  reached := fun i hd v hi => h.reached i hd v (Nat.lt_of_lt_of_le hi hL)
  unnamed := by
    intro hpos
    obtain ⟨i, hd, v, hi, hrest⟩ := h.unnamed (by omega)
    exact ⟨i, hd, v, by omega, hrest⟩

theorem State.ReadAt.later {L L' : Nat} {stored : StoredObject} (hL : L' ≤ L)
    (h : s.ReadAt L stored) : s.ReadAt L' stored := by
  obtain ⟨i, hi, hs⟩ := h
  exact ⟨i, hL.trans hi, hs⟩

theorem State.Answered.getHead {L : Nat} {a : Option StoredObject} (inv : Inv s) (hpos : 0 < L)
    (h : s.Answered t .getHead L a) : ∃ stored, a = some stored ∧ s.ReadAt L stored := by
  rcases h.ok inv with ⟨sent, n, hL, hn, ha⟩ | hr
  · cases a with
    | some stored => exact ⟨stored, rfl, State.ReadAt.later hL ha⟩
    | none =>
        have : n = 0 := ha
        omega
  · exact hr.elim

theorem State.Answered.get {key : ImmutableKey} {L : Nat} {a : Option Bytes} (inv : Inv s)
    (h : s.Answered t (.get key) L a) :
    match a with
    | some bytes => s.body key = some bytes ∧ s.Seen L key
    | none => s.Missed L key := by
  rcases h.ok inv with ⟨sent, n, hL, hn, ha⟩ | hr
  · cases a with
    | some bytes => exact ⟨ha.1, State.Seen.later hL ha.2⟩
    | none => exact State.Missed.later hL ha
  · exact hr.elim

/-! ## Single requests -/

theorem submit_runs {req : Req} (hs : A (.submit req))
    (may : ∀ u, Others t s u → Good u → May t u (.submit req)) :
    Runs t A (submit req) (fun r u => ∃ j, r = .ok j ∧ OnlyWrite t j s u ∧
      u.Asked t req s.now j) s := by
  refine Runs.ask fun u o g => ⟨⟨may u o g, hs⟩, fun j v hx gv v' o' g' => ?_⟩
  obtain ⟨hj, rfl⟩ := hx
  refine ⟨j, rfl, OnlyWrite.after (fun j' f hj' hf ht _ => ?_) o'.track,
    State.Asked.mono o'.le ⟨u.now, none, none, ?_, o.le.now⟩⟩
  · rcases Nat.lt_or_ge j' u.flights.length with hlt | hge
    · rw [List.getElem?_append_left hlt] at hf
      exact absurd ht (o.flights j' f hj' hf)
    · have := (List.getElem?_eq_some_iff.1 hf).1
      simp only [List.length_append, List.length_singleton] at this
      exact (show j' = u.flights.length by omega).trans hj.symm
  · rw [hj]
    exact List.getElem?_concat_length ..

theorem await_runs {req : Req} {L j : Nat} (hA : Reads ≤ A) (h : s.Asked t req L j) :
    Runs t A (await req j) (fun r u => (∃ x, r = .ok (.error x)) ∨
      ∃ a, r = .ok (.ok a) ∧ u.AnsweredAt t req L j a) s := by
  refine Runs.ask fun u o g => ⟨⟨trivial, hA _ trivial⟩, fun r v hx gv v' o' g' => ?_⟩
  obtain ⟨sent, landed, hf, ht, rfl⟩ := hx
  obtain ⟨sent', landed', told', hf', hL⟩ := h.mono o.le
  obtain rfl : sent' = sent := congrArg Flight.sent (Option.some.inj (hf'.symm.trans hf))
  cases r with
  | error x => exact .inl ⟨x, rfl⟩
  | ok a =>
      refine .inr ⟨a, rfl, State.AnsweredAt.mono o'.le ⟨sent', u.now, landed, ?_, hL⟩⟩
      exact List.getElem?_set_self (List.getElem?_eq_some_iff.1 hf).1

theorem admitRequest_runs (hA : Reads ≤ A) (g : Good s) (r : Request) :
    Runs t A (admitRequest r) (fun r _ => r = .ok () ∨ r = .error .requestDenied) s := by
  refine Runs.bind (A := A) (P := fun r _ => ∃ b, r = .ok b) le_rfl g ?_ ?_ nofun
  · exact Runs.ask fun u o g => ⟨⟨trivial, hA _ trivial⟩, fun b v hx gv v' o' g' => ⟨b, rfl⟩⟩
  · rintro b u tr gu -
    cases b with
    | true => exact Runs.pure fun _ _ _ => .inl rfl
    | false => exact Runs.throw fun _ _ _ => .inr rfl

/-- A request and its answer. Where the store fails, the request may still be in the air. -/
theorem request_runs {req : Req} (hA : Reads ≤ A) (hs : A (.submit req)) (g : Good s)
    (may : ∀ u, Others t s u → Good u → May t u (.submit req)) :
    Runs t A (request req) (fun r u => (∃ x, r = .error (.store x)) ∨
      ∃ a, r = .ok a ∧ ∃ j, u.AnsweredAt t req s.now j a ∧ OnlyWrite t j s u) s := by
  refine Runs.bind le_rfl g (submit_runs hs may) ?_ nofun
  rintro j u tr gu ⟨j', hj, only, ask⟩
  obtain rfl := Except.ok.inj hj
  refine Runs.bind hA gu (await_runs le_rfl ask) ?_ nofun
  rintro (x | a) v tr' gv h
  · exact Runs.throw fun _ _ _ => .inl ⟨x, rfl⟩
  · rcases h with ⟨x, hx⟩ | ⟨a', ha, ans⟩
    · cases hx
    · obtain rfl := Except.ok.inj (Except.ok.inj ha)
      exact Runs.pure fun w o _ => .inr ⟨a, rfl, j, ans.mono o.le,
        only.after (tr'.trans o.track)⟩

/-! ## Reads -/

theorem may_read {req : Req} (h : Reads (.submit req)) (u : State) : May t u (.submit req) := by
  cases req with
  | getHead => exact ⟨trivial, trivial⟩
  | getHeadIfChanged _ => exact ⟨trivial, trivial⟩
  | get _ => exact ⟨trivial, trivial⟩
  | createHead _ => exact h.elim
  | updateHead _ _ => exact h.elim
  | create _ _ => exact h.elim
  | delete _ => exact h.elim

theorem startRead_runs {req : Req} (hA : Reads ≤ A) (hr : Reads (.submit req)) (g : Good s)
    (maxBytes : Nat) :
    Runs t A (startRead maxBytes req) (fun r u => r = .ok (.error .requestDenied) ∨
      ∃ j, r = .ok (.ok j) ∧ u.Asked t req s.now j) s := by
  refine Runs.attempt (Runs.bind le_rfl g (admitRequest_runs hA g _) ?_ ?_)
  · rintro - u tr gu -
    refine (submit_runs (hA _ hr) fun v _ _ => may_read hr v).mono ?_
    rintro r v gv ⟨j, rfl, -, ask⟩
    obtain ⟨sent, landed, told, hf, hL⟩ := ask
    exact .inr ⟨j, rfl, sent, landed, told, hf, tr.le.now.trans hL⟩
  · rintro e u tr gu (h | h)
    · cases h
    · rw [Except.error.inj h]
      exact .inl rfl

/-- What the outcome of a read of `req`, not older than `L`, says. -/
def ReadResult {α : Type} (t : Nat) (req : Req) (L : Nat) (collect : Answer req → Except Error α)
    (r : Except Error α) (u : State) : Prop :=
  match r with
  | .ok a => ∃ ans, u.Answered t req L ans ∧ collect ans = .ok a
  | .error e => e.Unavailable ∨ ∃ ans, u.Answered t req L ans ∧ collect ans = .error e

theorem ReadResult.mono {α : Type} {req : Req} {L : Nat} {collect : Answer req → Except Error α}
    {r : Except Error α} (hle : s.Le s') (h : ReadResult t req L collect r s) :
    ReadResult t req L collect r s' := by
  cases r with
  | ok a =>
      obtain ⟨ans, h1, h2⟩ := h
      exact ⟨ans, h1.mono hle, h2⟩
  | error e =>
      rcases h with h | ⟨ans, h1, h2⟩
      · exact .inl h
      · exact .inr ⟨ans, h1.mono hle, h2⟩

/-- One attempt of a read. -/
theorem readAttempt_runs {α : Type} {req : Req} {collect : Answer req → Except Error α}
    {started : Except Error FlightId} {retry : Op α} {L : Nat} (hA : Reads ≤ A) (g : Good s)
    (ask : ∀ j, started = .ok j → s.Asked t req L j)
    (again : ∀ u, Track t A s u → Good u →
      Runs t A retry (ReadResult t req L collect) u) :
    Runs t A (readAttempt req collect started retry) (fun r u =>
      (∃ e, r = .error e ∧ started = .error e) ∨ ReadResult t req L collect r u) s := by
  refine Runs.liftBind (fun j hj => ?_) (fun e u he _ _ => .inl ⟨e, rfl, he⟩)
  refine Runs.bind le_rfl g (await_runs hA (ask j hj)) ?_ nofun
  rintro (x | ans) u tr gu h
  · cases x with
    | other => exact Runs.throw fun _ _ _ => .inr (.inl (.inr ⟨_, rfl⟩))
    | generic => exact (again u tr gu).mono fun r v _ h => .inr h
  · rcases h with ⟨x, hx⟩ | ⟨a', ha, hans⟩
    · cases hx
    · obtain rfl := Except.ok.inj (Except.ok.inj ha)
      refine Runs.lift fun v o _ => .inr ?_
      cases hc : collect ans with
      | ok a => exact ⟨ans, ⟨_, hans.mono o.le⟩, hc⟩
      | error e => exact .inr ⟨ans, ⟨_, hans.mono o.le⟩, hc⟩

theorem finishRead_runs {α : Type} {req : Req} {collect : Answer req → Except Error α} {L : Nat}
    (hA : Reads ≤ A) (hr : Reads (.submit req)) (maxBytes : Nat) :
    ∀ (further : Nat) (s : State) (started : Except Error FlightId), Good s → L ≤ s.now →
      (∀ j, started = .ok j → s.Asked t req L j) →
      Runs t A (finishRead maxBytes req collect further started) (fun r u =>
        (∃ e, r = .error e ∧ started = .error e) ∨ ReadResult t req L collect r u) s := by
  intro further
  induction further with
  | zero =>
      intro s started g hL ask
      refine readAttempt_runs hA g ask fun u tr gu => ?_
      exact Runs.throw fun _ _ _ => .inl (.inr ⟨_, rfl⟩)
  | succ further ih =>
      intro s started g hL ask
      refine readAttempt_runs hA g ask fun u tr gu => ?_
      refine Runs.bind le_rfl gu (startRead_runs hA hr gu _) ?_ ?_
      · rintro started' v tr' gv h'
        refine (ih v started' gv (hL.trans (tr.le.now.trans tr'.le.now)) ?_).mono ?_
        · rintro j rfl
          rcases h' with h' | ⟨j', hj', sent, landed, told, hf, hs⟩
          · cases h'
          · obtain rfl := Except.ok.inj (Except.ok.inj hj')
            exact ⟨sent, landed, told, hf, (hL.trans tr.le.now).trans hs⟩
        · rintro r w gw (⟨e, rfl, rfl⟩ | h'')
          · -- a refusal of the next attempt
            rcases h' with h' | ⟨j', hj', -⟩
            · obtain rfl := Except.error.inj (Except.ok.inj h')
              exact .inl (.inl rfl)
            · cases hj'
          · exact h''
      · rintro e v tr' gv (h' | ⟨_, h', -⟩) <;> cases h'

theorem retrySafeRead_runs {α : Type} {req : Req} {collect : Answer req → Except Error α}
    (hA : Reads ≤ A) (hr : Reads (.submit req)) (g : Good s) (maxBytes : Nat) :
    Runs t A (retrySafeRead maxBytes req collect) (ReadResult t req s.now collect) s := by
  refine Runs.bind le_rfl g (startRead_runs hA hr g maxBytes) ?_ ?_
  · rintro started u tr gu h
    refine (finishRead_runs hA hr maxBytes furtherReads u started gu tr.le.now ?_).mono ?_
    · rintro j rfl
      rcases h with h | ⟨j', hj', ask⟩
      · cases h
      · obtain rfl := Except.ok.inj (Except.ok.inj hj')
        exact ask
    · rintro r v gv (⟨e, rfl, rfl⟩ | h')
      · rcases h with h | ⟨j', hj', -⟩
        · obtain rfl := Except.error.inj (Except.ok.inj h)
          exact .inl (.inl rfl)
        · cases hj'
      · exact h'
  · rintro e u tr gu (h | ⟨_, h, -⟩) <;> cases h

theorem collectObject_ok {maxBytes : Nat} {bytes bytes' : Bytes} :
    collectObject maxBytes bytes = .ok bytes' ↔ bytes.length ≤ maxBytes ∧ bytes = bytes' := by
  simp [collectObject, bind_ok, pure, Except.pure]

theorem collectObject_error {maxBytes : Nat} {bytes : Bytes} {e : Error}
    (h : collectObject maxBytes bytes = .error e) :
    maxBytes < bytes.length ∧ e = .limitExceeded "read bytes" := by
  unfold collectObject ensure at h
  split at h
  · cases h
  · exact ⟨by omega, (Except.error.inj h).symm⟩

/-- A read of the head, when there is one. -/
theorem readHead_runs (hA : Reads ≤ A) (g : Good s) (hpos : 0 < s.now) (maxBytes : Nat) :
    Runs t A (readHead maxBytes) (fun r u => match r with
      | .ok a => ∃ stored, a = some stored ∧ u.ReadAt s.now stored ∧
          u.Answered t .getHead s.now (some stored)
      | .error e => e.Unavailable ∨ ∃ stored, u.ReadAt s.now stored ∧
          maxBytes < stored.bytes.length) s := by
  have hr : Reads (.submit .getHead) := trivial
  refine (retrySafeRead_runs hA hr g maxBytes).mono ?_
  rintro (e | a) u gu h
  · rcases h with h | ⟨ans, hans, hc⟩
    · exact .inl h
    · obtain ⟨stored, rfl, hr⟩ := hans.getHead gu.inv hpos
      refine .inr ⟨stored, hr, ?_⟩
      cases hx : collectObject maxBytes stored.bytes with
      | error e' => exact (collectObject_error hx).1
      | ok b => simp [collectHead, hx, bind, Except.bind, pure, Except.pure] at hc
  · obtain ⟨ans, hans, hc⟩ := h
    obtain ⟨stored, rfl, hr⟩ := hans.getHead gu.inv hpos
    refine ⟨stored, ?_, hr, hans⟩
    simp only [collectHead, bind_ok, collectObject_ok, pure, Except.pure, Except.ok.injEq] at hc
    obtain ⟨b, ⟨-, rfl⟩, rfl⟩ := hc
    rfl

/-- Call `t` asked for `key` after moment `L` and was told that it is missing. -/
structure State.Lacks (s : State) (t L : Nat) (key : ImmutableKey) : Prop where
  missed : s.Missed L key
  told : s.Answered t (.get key) L none

theorem State.Lacks.mono {L : Nat} {key : ImmutableKey} (hle : s.Le s') (hL : L ≤ s.now)
    (inv : Inv s) (h : s.Lacks t L key) : s'.Lacks t L key :=
  ⟨h.missed.mono hle hL inv.stored, h.told.mono hle⟩

theorem State.Lacks.later {L L' : Nat} {key : ImmutableKey} (hL : L' ≤ L)
    (h : s.Lacks t L key) : s.Lacks t L' key := ⟨h.missed.later hL, h.told.later hL⟩

/-- A read of an immutable object. -/
theorem readKey_runs (hA : Reads ≤ A) (g : Good s) (key : ImmutableKey) (maxBytes : Nat) :
    Runs t A (readKey key maxBytes) (fun r u => match r with
      | .ok (some bytes) => u.body key = some bytes ∧ u.Seen s.now key ∧ bytes.length ≤ maxBytes
      | .ok none => u.Lacks t s.now key
      | .error e => e.Unavailable ∨ (e = .limitExceeded "read bytes" ∧
          ∃ bytes, u.body key = some bytes ∧ maxBytes < bytes.length)) s := by
  have hr : Reads (.submit (.get key)) := trivial
  refine (retrySafeRead_runs hA hr g maxBytes).mono ?_
  rintro (e | a) u gu h
  · rcases h with h | ⟨ans, hans, hc⟩
    · exact .inl h
    · right
      have := hans.get gu.inv
      cases ans with
      | none => cases hc
      | some bytes =>
          cases hx : collectObject maxBytes bytes with
          | error e' =>
              obtain ⟨hlt, rfl⟩ := collectObject_error hx
              simp only [collectImmutable, hx, bind, Except.bind, Except.error.injEq] at hc
              exact ⟨hc.symm, bytes, this.1, hlt⟩
          | ok b => simp [collectImmutable, hx, bind, Except.bind, pure, Except.pure] at hc
  · obtain ⟨ans, hans, hc⟩ := h
    have := hans.get gu.inv
    cases ans with
    | none =>
        obtain rfl := Except.ok.inj hc
        exact ⟨this, hans⟩
    | some bytes =>
        simp only [collectImmutable, bind_ok, collectObject_ok, pure, Except.pure,
          Except.ok.injEq] at hc
        obtain ⟨b, ⟨hlen, rfl⟩, rfl⟩ := hc
        exact ⟨this.1, this.2, hlen⟩

/-- A conditional read of the head, when there is one. -/
theorem readIfChanged_runs (hA : Reads ≤ A) (g : Good s) (hpos : 0 < s.now)
    (observed : UpdateVersion) (maxBytes : Nat) :
    Runs t A (readIfChanged observed maxBytes) (fun r u => match r with
      | .ok .notModified => ∃ stored eTag, u.ReadAt s.now stored ∧ observed.eTag = some eTag ∧
          stored.version.eTag = some eTag
      | .ok (.modified stored) => u.ReadAt s.now stored
      | .ok .missing => False
      | .error _ => True) s := by
  unfold readIfChanged
  cases he : observed.eTag with
  | none => exact Runs.throw fun _ _ _ => trivial
  | some eTag =>
      have hr : Reads (.submit (.getHeadIfChanged eTag)) := trivial
      refine (retrySafeRead_runs hA hr g maxBytes).mono ?_
      rintro (e | a) u gu h
      · trivial
      · obtain ⟨ans, hans, hc⟩ := h
        rcases hans.ok gu.inv with ⟨sent, n, hL, hn, ha⟩ | hr
        · cases ans with
          | notModified =>
              obtain rfl := Except.ok.inj hc
              obtain ⟨stored, hs, ht⟩ := ha
              exact ⟨stored, eTag, hs.later hL, rfl, ht⟩
          | missing =>
              have : n = 0 := ha
              omega
          | modified stored =>
              simp only [bind_ok, collectObject_ok, pure, Except.pure, Except.ok.injEq] at hc
              obtain ⟨b, ⟨-, rfl⟩, rfl⟩ := hc
              exact State.ReadAt.later hL ha
        · exact hr.elim

/-! ## Writes -/

/-- An admitted write. A refusal of the guard sends nothing. -/
theorem write_runs {req : Req} (hA : Reads ≤ A) (hs : A (.submit req)) (g : Good s) (bytes : Nat)
    (may : ∀ u, Track t Reads s u → Good u → May t u (.submit req)) :
    Runs t A (do admitRequest (.write bytes); request req) (fun r u =>
      (r = .error .requestDenied ∧ Track t Reads s u) ∨ (∃ x, r = .error (.store x)) ∨
      ∃ a, r = .ok a ∧ ∃ j, u.AnsweredAt t req s.now j a ∧ OnlyWrite t j s u) s := by
  refine Runs.bind hA g (admitRequest_runs le_rfl g _) ?_ ?_
  · rintro - u tr gu -
    refine (request_runs hA hs gu fun v o gv => may v (tr.trans o.track) gv).track.mono ?_
    rintro r v gv ⟨tr', h | ⟨a, rfl, j, h, only⟩⟩
    · exact .inr (.inl h)
    · exact .inr (.inr ⟨a, rfl, j, h.later tr.le.now, only.before tr tr'.le⟩)
  · rintro e u tr gu (h | h)
    · cases h
    · rw [Except.error.inj h]
      exact .inl ⟨rfl, tr⟩

theorem create_runs {key : ImmutableKey} {bytes : Bytes} (hA : Reads ≤ A)
    (hs : A (.submit (.create key bytes))) (g : Good s)
    (may : ∀ u, Track t Reads s u → Good u → May t u (.submit (.create key bytes))) :
    Runs t A (create key bytes) (fun r u => (∃ e, r = .error e ∧ e.Unavailable) ∨
      ∃ b, r = .ok b ∧ (b = true → u.body key = some bytes)) s := by
  refine (write_runs hA hs g _ may).mono ?_
  rintro r u gu (⟨rfl, -⟩ | ⟨x, rfl⟩ | ⟨a, rfl, j, h, -⟩)
  · exact .inl ⟨_, rfl, .inl rfl⟩
  · exact .inl ⟨_, rfl, .inr ⟨x, rfl⟩⟩
  · refine .inr ⟨a, rfl, fun ha => ?_⟩
    rcases State.Answered.ok gu.inv ⟨j, h⟩ with ⟨sent, n, -, -, hok⟩ | hr
    · exact hok ha
    · rw [show a = false from hr] at ha
      cases ha

theorem createHead_runs {bytes : Bytes} (hA : Reads ≤ A) (hs : A (.submit (.createHead bytes)))
    (g : Good s)
    (may : ∀ u, Track t Reads s u → Good u → May t u (.submit (.createHead bytes))) :
    Runs t A (createHead bytes) (fun r u => (∃ e, r = .error e) ∨
      ∃ b, r = .ok b ∧ (b = true → ∃ v, u.headLog[0]? = some ⟨bytes, v⟩)) s := by
  refine (write_runs hA hs g _ may).mono ?_
  rintro r u gu (⟨rfl, -⟩ | ⟨x, rfl⟩ | ⟨a, rfl, j, h, -⟩)
  · exact .inl ⟨_, rfl⟩
  · exact .inl ⟨_, rfl⟩
  · refine .inr ⟨a, rfl, fun ha => ?_⟩
    rcases State.Answered.ok gu.inv ⟨j, h⟩ with ⟨sent, n, -, -, hok⟩ | hr
    · exact hok ha
    · rw [show a = false from hr] at ha
      cases ha

/-- What an update of the head is answered with. -/
theorem update_runs {bytes : Bytes} {expected : UpdateVersion} (hA : Reads ≤ A)
    (hs : A (.submit (.updateHead bytes expected))) (g : Good s)
    (may : ∀ u, Track t Reads s u → Good u → May t u (.submit (.updateHead bytes expected))) :
    Runs t A (update bytes expected) (fun r u =>
      (r = .error .requestDenied ∧ Track t Reads s u) ∨ (∃ x, r = .error (.store x)) ∨
      (r = .ok none ∧ ∃ j, u.AnsweredAt t (.updateHead bytes expected) s.now j none ∧
        OnlyWrite t j s u) ∨
      ∃ v, r = .ok (some v) ∧ ∃ (i : Nat) (stored : StoredObject), u.headLog[i]? = some stored ∧
        stored.version = expected ∧ u.headLog[i + 1]? = some ⟨bytes, v⟩) s := by
  refine (write_runs hA hs g _ may).mono ?_
  rintro r u gu (⟨rfl, h⟩ | ⟨x, rfl⟩ | ⟨a, rfl, j, h, only⟩)
  · exact .inl ⟨rfl, h⟩
  · exact .inr (.inl ⟨x, rfl⟩)
  · cases a with
    | none => exact .inr (.inr (.inl ⟨rfl, j, h, only⟩))
    | some v =>
        refine .inr (.inr (.inr ⟨v, rfl, ?_⟩))
        rcases State.Answered.ok gu.inv ⟨j, h⟩ with ⟨sent, n, -, -, hok⟩ | hr
        · exact hok v rfl
        · cases hr

/-! ## Deletes -/

theorem submitDeletes_runs (hA : Deletes ≤ A) : ∀ (keys : List ImmutableKey) (s : State), Good s →
    (∀ k ∈ keys, ∀ u, s.Le u → Good u → May t u (.submit (.delete k))) →
    Runs t A (submitDeletes keys) (fun r u => ∃ fs, r = .ok fs ∧ fs.map Prod.fst = keys ∧
      ∀ p ∈ fs, u.Asked t (.delete p.1) s.now p.2) s
  | [], s, _, _ => Runs.pure fun _ _ _ => ⟨[], rfl, rfl, nofun⟩
  | key :: keys, s, g, may => by
      refine Runs.bind le_rfl g
        (submit_runs (hA _ (.inr ⟨key, rfl⟩)) fun u o gu => may key (by simp) u o.le gu) ?_ nofun
      rintro j u tr gu ⟨j', hj, -, ask⟩
      obtain rfl := Except.ok.inj hj
      refine Runs.bind le_rfl gu (submitDeletes_runs hA keys u gu fun k hk v hv =>
        may k (by simp [hk]) v (tr.le.trans hv)) ?_ nofun
      rintro fs v tr' gv ⟨fs', hfs, hmap, hall⟩
      obtain rfl := Except.ok.inj hfs
      refine Runs.pure fun w o _ => ⟨_, rfl, by simp [hmap], ?_⟩
      rintro p hp
      rcases List.mem_cons.1 hp with rfl | hp
      · exact (ask.mono tr'.le).mono o.le
      · obtain ⟨sent, landed, told, hf, hs⟩ := (hall p hp).mono o.le
        exact ⟨sent, landed, told, hf, tr.le.now.trans hs⟩

theorem awaitDeletes_runs (hA : Reads ≤ A) {L : Nat} :
    ∀ (fs : List (ImmutableKey × FlightId)) (first : Option StoreError) (s : State), Good s →
      (∀ p ∈ fs, s.Asked t (.delete p.1) L p.2) →
      Runs t A (awaitDeletes fs first) (fun r u => ∃ o, r = .ok o ∧ (o = none → first = none ∧
        ∀ p ∈ fs, u.Answered t (.delete p.1) L ())) s
  | [], first, s, _, _ => Runs.pure fun _ _ _ => ⟨first, rfl, fun h => ⟨h, nofun⟩⟩
  | (key, j) :: fs, first, s, g, ask => by
      refine Runs.bind le_rfl g (await_runs hA (ask (key, j) (by simp))) ?_ nofun
      rintro (x | a) u tr gu h
      · refine (awaitDeletes_runs hA fs _ u gu fun p hp => (ask p (by simp [hp])).mono tr.le).mono ?_
        rintro r v gv ⟨o, rfl, ho⟩
        refine ⟨o, rfl, fun hn => ?_⟩
        cases first <;> simp at ho <;> exact absurd hn ho
      · rcases h with ⟨x, hx⟩ | ⟨a', ha, ans⟩
        · cases hx
        refine (awaitDeletes_runs hA fs first u gu
          fun p hp => (ask p (by simp [hp])).mono tr.le).track.mono ?_
        rintro r v gv ⟨tr', o, rfl, ho⟩
        refine ⟨o, rfl, fun hn => ⟨(ho hn).1, fun p hp => ?_⟩⟩
        rcases List.mem_cons.1 hp with rfl | hp
        · exact ⟨_, ans.mono tr'.le⟩
        · exact (ho hn).2 p hp

theorem deleteImmutableBatch_runs (hA : Deletes ≤ A) (g : Good s) {keys : List ImmutableKey}
    (may : ∀ k ∈ keys, ∀ u, s.Le u → Good u → May t u (.submit (.delete k))) :
    Runs t A (deleteImmutableBatch keys) (fun r u => match r with
      | .ok _ => ∀ k ∈ keys, u.Answered t (.delete k) s.now ()
      | .error e => e.Unavailable ∨ maxDeleteBatch < keys.length) s := by
  refine Runs.ite (fun h => Runs.throw fun _ _ _ => .inr h) fun _ => ?_
  refine Runs.ite (fun h => ?_) fun _ => ?_
  · subst h
    exact Runs.pure fun _ _ _ => nofun
  refine Runs.bind hA g ((admitRequest_runs le_rfl g _).permit reads_deletes) ?_ ?_
  swap
  · rintro e u - - (h | h)
    · cases h
    · exact .inl (.inl (Except.error.inj h))
  rintro - u tr gu -
  refine Runs.bind le_rfl gu (submitDeletes_runs hA keys u gu fun k hk v hv =>
    may k hk v (tr.le.trans hv)) ?_ nofun
  rintro fs v tr' gv ⟨fs', hfs, hmap, ask⟩
  obtain rfl := Except.ok.inj hfs
  refine Runs.bind le_rfl gv (awaitDeletes_runs (reads_deletes.trans hA) fs none v gv ask) ?_ nofun
  rintro (_ | x) w tr'' gw ⟨o, ho, hall⟩
  · obtain rfl := Except.ok.inj ho
    refine Runs.pure fun x o _ k hk => ?_
    rw [← hmap] at hk
    obtain ⟨p, hp, rfl⟩ := List.mem_map.1 hk
    exact (((hall rfl).2 p hp).mono o.le).later tr.le.now
  · exact Runs.throw fun _ _ _ => .inl (.inr ⟨x, rfl⟩)

end ObjectLog
