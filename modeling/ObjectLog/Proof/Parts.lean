import ObjectLog.Proof.Misses

/-!
# Parts of a call

What a call does inside one of its operations, or would do if it performed another one at that
point, is a run of that program under the identity of the call, among all the others. The call's
own program waits meanwhile. Everything that is proved of a program with `Runs` holds of such a
run: to the others, the call that waits is one that has returned nothing.
-/

set_option linter.unusedSectionVars false

namespace ObjectLog

open Rely

variable [Blake3] {α : Type} {w w' w₁ w₂ : World} {s s' : State} {t t' : Nat} {scope : LogId}
  {A : Effect → Prop} {p q : Op α} {e : Effect} {k : Reply e → Op Value}

/-- From `w` on call `t` performs `p`, and comes to `q` in `w'`, while the others go on. -/
inductive Performs (t : Nat) (w : World) (p : Op α) : World → Op α → Prop
  | start : Performs t w p w p
  | other {w₁ w₂ : World} {q : Op α} (h : Performs t w p w₁ q) (hs : Step w₁ w₂)
      (hsame : w₂.threads[t]? = w₁.threads[t]?) : Performs t w p w₂ q
  | own {w₁ : World} {e : Effect} {k : Reply e → Op α} {a : Reply e} {s' : State}
      (h : Performs t w p w₁ (.perform e k)) (hx : Exec t w₁.state e a s') :
      Performs t w p ⟨s', w₁.threads⟩ (k a)

/-- A program is not what follows one of its effects. -/
theorem next_ne (p : Op α) : ∀ {e : Effect} {k : Reply e → Op α} (a : Reply e),
    p = .perform e k → k a ≠ p := by
  induction p with
  | done r =>
      intro e k a h
      cases h
  | perform e' k' ih =>
      intro e k a h hk
      cases h
      exact ih a a hk rfl

/-! ## The call that waits -/

/-- What stands in for a call that waits. -/
def idle : Op Value := .done (.ok (.staged []))

/-- The world in which call `t` has returned nothing. -/
def World.idle (w : World) (t : Nat) : World := ⟨w.state, w.threads.set t ObjectLog.idle⟩

theorem idle_returned {b : Begun} : s.Returned t b (.ok (.staged [])) := by
  refine .plain rfl ?_
  unfold State.Outcome
  cases b.call <;> trivial

theorem idle_runs {b : Begun} :
    Runs t Anything idle (fun r u => u.Returned t b r) s := Runs.done fun _ _ _ => idle_returned

/-- Another program for one call, if it runs to the same end. -/
theorem World.OK.set (ok : w.OK) {q : Op Value}
    (hq : ∀ b, w.state.calls[t]? = some b → Runs t Anything q (fun r u => u.Returned t b r) w.state) :
    World.OK ⟨w.state, w.threads.set t q⟩ where
  good := ok.good
  size := by
    show (w.threads.set t q).length = _
    rw [List.length_set]
    exact ok.size
  tids := by
    intro j f hf
    show f.tid < (w.threads.set t q).length
    rw [List.length_set]
    exact ok.tids j f hf
  runs := by
    intro t' p b ht hb
    by_cases hne : t = t'
    · subst hne
      have hlt : t < w.threads.length := by
        rw [ok.size]
        exact (List.getElem?_eq_some_iff.1 hb).1
      have ht' : (w.threads.set t q)[t]? = some p := ht
      rw [List.getElem?_set_self hlt] at ht'
      obtain rfl := Option.some.inj ht'
      exact hq b hb
    · have ht' : (w.threads.set t q)[t']? = some p := ht
      rw [List.getElem?_set_ne hne] at ht'
      exact ok.runs t' p b ht' hb

theorem World.OK.idle (ok : w.OK) (t : Nat) : (w.idle t).OK := ok.set fun _ _ => idle_runs

/-- What others hold does not come from a call that has not returned. -/
theorem Known.idle {item : Item} (h : Known w item) (ht : w.threads[t]? = some (.perform e k)) :
    Known (w.idle t) item := by
  induction h with
  | @returned t' v item hret hi =>
      have hne : t ≠ t' := by
        rintro rfl
        rw [ht] at hret
        cases hret
      refine .returned (t := t') ?_ hi
      show (w.threads.set t _)[t']? = _
      rw [List.getElem?_set_ne hne]
      exact hret
  | viewOfPrepared _ ih => exact .viewOfPrepared ih
  | tokenOfPrepared _ hk hl ih => exact .tokenOfPrepared ih hk hl
  | tokenOfPending _ hk hl ih => exact .tokenOfPending ih hk hl
  | history _ _ hc ihl ihv => exact .history ihl ihv hc
  | clone _ ih => exact .clone ih
  | viewOfCursor _ ih => exact .viewOfCursor ih

/-- **The others do not notice that a call waits.** -/
theorem Step.idle (hs : Step w w') (ht : w.threads[t]? = some (.perform e k))
    (hsame : w'.threads[t]? = w.threads[t]?) : Step (w.idle t) (w'.idle t) := by
  have hlt := (List.getElem?_eq_some_iff.1 ht).1
  cases hs with
  | begin call h =>
      have hbegin := Step.begin (w := w.idle t) call fun item hi => (h item hi).idle ht
      have heq : (w.begin call).idle t = (w.idle t).begin call := by
        unfold World.idle World.begin
        congr 1
        exact List.set_append_left _ _ hlt
      rw [heq]
      exact hbegin
  | @act t' e' k' a s' ht' hx =>
      have hne : t ≠ t' := by
        rintro rfl
        have hnext : (w.threads.set t (k' a))[t]? = _ := hsame
        rw [List.getElem?_set_self hlt, ht'] at hnext
        exact next_ne _ a rfl (Option.some.inj hnext)
      have hact : (w.idle t).threads[t']? = some (.perform e' k') := by
        show (w.threads.set t _)[t']? = _
        rw [List.getElem?_set_ne hne]
        exact ht'
      have heq : World.idle ⟨s', w.threads.set t' (k' a)⟩ t =
          ⟨s', (w.idle t).threads.set t' (k' a)⟩ := by
        show (⟨s', (w.threads.set t' (k' a)).set t _⟩ : World) =
          ⟨s', (w.threads.set t _).set t' (k' a)⟩
        rw [List.set_comm _ _ hne]
      rw [heq]
      exact .act hact hx
  | land hf hn hl => exact .land hf hn hl

/-- An effect of a part keeps the world in order. -/
theorem World.OK.effect {k : Reply e → Op α} {Q : Except Error α → State → Prop} {a : Reply e}
    (ok : (w.idle t).OK) (hlt : t < w.threads.length) (hA : A ≤ Anything)
    (h : Runs t A (.perform e k) Q w.state) (hx : Exec t w.state e a s') (nc : s'.NoCollision) :
    (World.idle ⟨s', w.threads⟩ t).OK ∧ w.state.Le s' := by
  -- a call that performs this effect and returns nothing
  have hone : ∀ b, (w.idle t).state.calls[t]? = some b → Runs t Anything
      (.perform e fun _ => ObjectLog.idle) (fun r u => u.Returned t b r) (w.idle t).state := by
    intro b _
    have hask : Runs t Anything (Prog.ask e : Op (Reply e)) (fun r _ => ∃ a, r = .ok a) w.state :=
      Runs.ask fun u o gu => ⟨(((h.permit hA).others o).performs gu).1,
        fun a _ _ _ _ _ _ => ⟨a, rfl⟩⟩
    refine Runs.bind (f := fun _ => ObjectLog.idle) le_rfl ok.good hask
      (fun _ _ _ _ _ => idle_runs) fun _ _ _ _ herr => ?_
    obtain ⟨_, herr⟩ := herr
    cases herr
  have ok₁ := ok.set hone
  have hact : ((w.threads.set t ObjectLog.idle).set t
      (.perform e fun _ => ObjectLog.idle : Op Value))[t]? = some (.perform e fun _ => ObjectLog.idle) :=
    List.getElem?_set_self (by rw [List.length_set]; exact hlt)
  have hstep := Step.act (w := ⟨w.state, (w.threads.set t ObjectLog.idle).set t
    (.perform e fun _ => ObjectLog.idle)⟩) hact hx
  have ok₂ := ok₁.step hstep nc
  have hle := (ok₁.kept hstep).2
  rw [List.set_set, List.set_set] at ok₂
  exact ⟨ok₂, hle⟩

/-! ## Runs of a part -/

theorem Performs.waits (h : Performs t w p w' q) : w'.threads[t]? = w.threads[t]? := by
  induction h with
  | start => rfl
  | other _ _ hsame ih => exact hsame.trans ih
  | own _ _ ih => exact ih

theorem Performs.headLog (h : Performs t w p w' q) : w.state.headLog <+: w'.state.headLog := by
  induction h with
  | start => exact List.prefix_rfl
  | other _ hs _ ih => exact ih.trans hs.headLog
  | own _ hx ih =>
      rw [hx.same.1]
      exact ih

/-- **A part of a call runs to the end that was proved of it.** -/
theorem Performs.keeps {Q : Except Error α → State → Prop} (h : Performs t w p w' q)
    (ok : w.OK) (ht : w.threads[t]? = some (.perform e k)) (nc : w'.state.NoCollision)
    (hA : A ≤ Anything) (hruns : Runs t A p Q w.state) :
    (w'.idle t).OK ∧ w.state.Le w'.state ∧ Runs t A q Q w'.state := by
  induction h with
  | start => exact ⟨ok.idle t, .refl _, hruns⟩
  | @other w₁ w₂ q h hs hsame ih =>
      obtain ⟨ok₁, hle₁, hr₁⟩ := ih (nc.back hs.headLog)
      have hstep := hs.idle (h.waits.trans ht) hsame
      have hlt : t < w₁.threads.length := (List.getElem?_eq_some_iff.1 (h.waits.trans ht)).1
      have hidle : (w₁.idle t).threads[t]? = some ObjectLog.idle := List.getElem?_set_self hlt
      have others : Others t w₁.state w₂.state := by
        rcases ok₁.thread hstep hidle with ⟨-, o⟩ | ⟨_, _, _, hperform, -⟩
        · exact o
        · cases hperform
      exact ⟨ok₁.step hstep nc, hle₁.trans (ok₁.kept hstep).2, hr₁.others others⟩
  | @own w₁ e' k' a s' h hx ih =>
      obtain ⟨ok₁, hle₁, hr₁⟩ := ih (nc.back (hx.same.1 ▸ List.prefix_rfl))
      have hlt : t < w₁.threads.length := (List.getElem?_eq_some_iff.1 (h.waits.trans ht)).1
      obtain ⟨ok₂, hle₂⟩ := ok₁.effect hlt hA hr₁ hx nc
      exact ⟨ok₂, hle₁.trans hle₂, (hr₁.performs ok₁.good).2 a s' hx ok₂.good⟩

/-! ## Reads of what stays stored -/

/-- No read of `key` from request `n` on has found nothing. -/
def State.NoMiss (s : State) (n : Nat) (key : ImmutableKey) : Prop :=
  ∀ (j tid sent m : Nat) (told : Option (Nat × Except StoreError (Answer (.get key)))), n ≤ j →
    s.flights[j]? ≠ some ⟨tid, .get key, sent, some (m, none), told⟩

theorem State.NoMiss.exec {n : Nat} {key : ImmutableKey} {a : Reply e} (hx : Exec t s e a s')
    (h : s.NoMiss n key) : s'.NoMiss n key := by
  intro j tid sent m told hj hf
  rcases hx.flights with hsame | ⟨req, hsent⟩ | ⟨req, i, r, sent', landed, n', -, hi, hset⟩
  · rw [hsame] at hf
    exact h j tid sent m told hj hf
  · rw [hsent] at hf
    rcases Nat.lt_or_ge j s.flights.length with hlt | hge
    · rw [List.getElem?_append_left hlt] at hf
      exact h j tid sent m told hj hf
    · -- a request that was just sent has not landed
      rw [List.getElem?_append_right hge, List.getElem?_singleton] at hf
      split at hf <;> cases hf
  · rw [hset] at hf
    by_cases hij : i = j
    · subst hij
      rw [List.getElem?_set_self (List.getElem?_eq_some_iff.1 hi).1] at hf
      cases hf
      exact h i _ _ m _ hj hi
    · rw [List.getElem?_set_ne hij] at hf
      exact h j tid sent m told hj hf

theorem State.NoMiss.land {n i : Nat} {key : ImmutableKey} {f : Flight} {a : Answer f.req}
    (hf : s.flights[i]? = some f) (hl : Lands s f.req a s') (ho : s.objects key ≠ none)
    (h : s.NoMiss n key) :
    (setFlight s' i { f with landed := some (s.now, a) }).NoMiss n key := by
  intro j tid sent m told hj hfj
  rw [setFlight, hl.same.2.1] at hfj
  by_cases hij : i = j
  · subst hij
    rw [List.getElem?_set_self (List.getElem?_eq_some_iff.1 hf).1] at hfj
    obtain ⟨tid', req, sent', landed, told'⟩ := f
    cases hfj
    exact ho hl.1.symm
  · rw [List.getElem?_set_ne hij] at hfj
    exact h j tid sent m told hj hfj

theorem Step.noMiss {n : Nat} {key : ImmutableKey} (hs : Step w w')
    (ho : w.state.objects key ≠ none) (h : w.state.NoMiss n key) : w'.state.NoMiss n key := by
  cases hs with
  | begin call _ => exact h
  | act _ hx => exact h.exec hx
  | land hf _ hl => exact h.land hf hl ho

/-- What is stored in the end was stored all along, once it was created. -/
theorem State.Le.objects {key : ImmutableKey} (hle : s.Le s') (hk : key.kind ≠ .commit)
    (hc : (s.created key).isSome) (ho : s'.objects key ≠ none) : s.objects key ≠ none :=
  fun hnone => ho (hle.gone key hk hc hnone)

theorem Steps.noMiss {n : Nat} {key : ImmutableKey} (hs : Steps w w') (ok : w.OK)
    (nc : w'.state.NoCollision) (hk : key.kind ≠ .commit) (hc : (w.state.created key).isSome)
    (ho : w'.state.objects key ≠ none) (h : w.state.NoMiss n key) : w'.state.NoMiss n key := by
  induction hs with
  | refl => exact h
  | tail hs' hstep ih =>
      have nc' := nc.back hstep.headLog
      obtain ⟨ok', hle⟩ := ok.steps hs' nc'
      have ho' := (ok'.kept hstep).2.objects hk (hle.createdSome hc) ho
      exact hstep.noMiss ho' (ih nc' ho')

/-- **No read of a part misses what is stored all along.** -/
theorem Performs.noMiss {n : Nat} {key : ImmutableKey} {Q : Except Error α → State → Prop}
    (h : Performs t w p w' q) (ok : w.OK) (ht : w.threads[t]? = some (.perform e k))
    (nc : w'.state.NoCollision) (hA : A ≤ Anything) (hruns : Runs t A p Q w.state)
    (hk : key.kind ≠ .commit) (hc : (w.state.created key).isSome)
    (ho : w'.state.objects key ≠ none) (hn : w.state.NoMiss n key) : w'.state.NoMiss n key := by
  induction h with
  | start => exact hn
  | @other w₁ w₂ q h hs hsame ih =>
      have nc₁ := nc.back hs.headLog
      obtain ⟨ok₁, hle₁, -⟩ := h.keeps ok ht nc₁ hA hruns
      have hle₂ := (ok₁.kept (hs.idle (h.waits.trans ht) hsame)).2
      have ho₁ := hle₂.objects hk (hle₁.createdSome hc) ho
      exact hs.noMiss ho₁ (ih nc₁ ho₁)
  | @own w₁ e' k' a s' h hx ih =>
      have nc₁ : w₁.state.NoCollision := nc.back (hx.same.1 ▸ List.prefix_rfl)
      obtain ⟨ok₁, hle₁, hr₁⟩ := h.keeps ok ht nc₁ hA hruns
      have hlt : t < w₁.threads.length := (List.getElem?_eq_some_iff.1 (h.waits.trans ht)).1
      have hle₂ := (ok₁.effect hlt hA hr₁ hx nc).2
      exact (ih nc₁ (hle₂.objects hk (hle₁.createdSome hc) ho)).exec hx

/-! ## The outcome -/

/-- **The outcome of a part.** -/
theorem Performs.ends {Q : Except Error α → State → Prop} {r : Except Error α}
    (h : Performs t w p w' (.done r)) (ok : w.OK) (ht : w.threads[t]? = some (.perform e k))
    (nc : w'.state.NoCollision) (hA : A ≤ Anything) (hruns : Runs t A p Q w.state) :
    Good w'.state ∧ w.state.Le w'.state ∧ Q r w'.state := by
  obtain ⟨ok', hle, hr⟩ := h.keeps ok ht nc hA hruns
  exact ⟨ok'.good, hle, hr.ended ok'.good⟩

end ObjectLog
