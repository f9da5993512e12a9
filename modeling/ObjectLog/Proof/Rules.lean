import ObjectLog.Proof.Land
import ObjectLog.Lib.Answers

/-!
# What a call can rely on

The rules under which the program of one call is verified: the other calls and the store
move the state up in the order, send no request in its name and draw no identity for it.
`Runs t A p Q s` is the weakest precondition of the program `p` of call `t` for these
rules, where `p` performs only effects in `A`. A program that runs with few effects leaves
a `Track` of what it did not do, which is how later steps know that no request of theirs
was sent before.
-/

set_option linter.unusedSectionVars false

namespace ObjectLog

open Rely

variable [Blake3] {s s' u : State} {t : Nat}

/-- The hash has no collision among the publication bases of the durable heads. This is
all that is asked of it: a recovery token names its publication base by digest. -/
def State.NoCollision (s : State) : Prop :=
  ∀ i j h h' v v' a b, s.HeadAt i h v → s.HeadAt j h' v' →
    encodeHead (publicationBase h) = .ok a → encodeHead (publicationBase h') = .ok b →
    Digest.of a = Digest.of b → a = b

structure Good (s : State) : Prop where
  inv : Inv s
  noCollision : s.NoCollision

/-- What the other calls and the store can do while call `t` does nothing. -/
structure Others (t : Nat) (s s' : State) : Prop where
  le : s.Le s'
  flights : ∀ (j : Nat) (f : Flight), s.flights.length ≤ j → s'.flights[j]? = some f → f.tid ≠ t
  ids : ∀ x, (x, t) ∈ s'.ids → (x, t) ∈ s.ids

theorem Others.refl (t : Nat) (s : State) : Others t s s where
  le := .refl s
  flights := by
    intro j f hj hf
    have := (List.getElem?_eq_some_iff.1 hf).1
    omega
  ids := fun _ h => h

theorem Others.trans {s'' : State} (a : Others t s s') (b : Others t s' s'') :
    Others t s s'' where
  le := a.le.trans b.le
  flights := by
    intro j f hj hf
    rcases Nat.lt_or_ge j s'.flights.length with hlt | hge
    · obtain ⟨g, hg⟩ : ∃ g, s'.flights[j]? = some g := ⟨_, List.getElem?_eq_getElem hlt⟩
      obtain ⟨f', hf', ht, -, -⟩ := b.le.flight hg
      obtain rfl := Option.some.inj (hf'.symm.trans hf)
      rw [ht]
      exact a.flights j g hj hg
    · exact b.flights j f hge hf
  ids := fun x h => a.ids x (b.ids x h)

/-- The rules for call `t`, restricted to effects in `A`. -/
def rules (t : Nat) (A : Effect → Prop) : Rules State Effect Reply where
  rely := Others t
  inv := Good
  may := fun s e => May t s e ∧ A e
  exec := Exec t
  rely_refl := Others.refl t
  rely_trans := Others.trans

/-- What call `t` has done with effects in `A`, the others aside. -/
structure Track (t : Nat) (A : Effect → Prop) (s s' : State) : Prop where
  le : s.Le s'
  flights : ∀ (j : Nat) (f : Flight), s.flights.length ≤ j → s'.flights[j]? = some f →
    f.tid = t → A (.submit f.req)
  ids : ∀ x, (x, t) ∈ s'.ids → (x, t) ∈ s.ids ∨ A .storageId

theorem Others.track {A : Effect → Prop} (o : Others t s s') : Track t A s s' where
  le := o.le
  flights := fun j f hj hf ht => absurd ht (o.flights j f hj hf)
  ids := fun x h => .inl (o.ids x h)

theorem Track.refl (t : Nat) (A : Effect → Prop) (s : State) : Track t A s s :=
  (Others.refl t s).track

theorem Track.mono {A B : Effect → Prop} (hAB : A ≤ B) (h : Track t A s s') : Track t B s s' where
  le := h.le
  flights := fun j f hj hf ht => hAB _ (h.flights j f hj hf ht)
  ids := fun x hx => (h.ids x hx).imp id (hAB _)

theorem Track.trans {A : Effect → Prop} {s'' : State} (a : Track t A s s')
    (b : Track t A s' s'') : Track t A s s'' where
  le := a.le.trans b.le
  flights := by
    intro j f hj hf ht
    rcases Nat.lt_or_ge j s'.flights.length with hlt | hge
    · obtain ⟨g, hg⟩ : ∃ g, s'.flights[j]? = some g := ⟨_, List.getElem?_eq_getElem hlt⟩
      obtain ⟨f', hf', ht', hr, -⟩ := b.le.flight hg
      obtain rfl := Option.some.inj (hf'.symm.trans hf)
      rw [hr]
      exact a.flights j g hj hg (ht'.symm.trans ht)
    · exact b.flights j f hge hf ht
  ids := by
    intro x hx
    rcases b.ids x hx with h | h
    · exact a.ids x h
    · exact .inr h

/-- One effect leaves a track. -/
theorem track_exec {A : Effect → Prop} {e : Effect} {a : Reply e} (g : Good s)
    (may : May t s e ∧ A e) (hx : Exec t s e a s') : Track t A s s' := by
  obtain ⟨-, hle⟩ := g.inv.exec may.1 hx
  obtain ⟨-, hA⟩ := may
  -- requests and identities are left alone by all but two effects
  have quiet : s'.flights.length = s.flights.length → s'.ids = s.ids → Track t A s s' := by
    intro hf hi
    refine ⟨hle, fun j f hj hjf => ?_, fun x h => .inl (hi ▸ h)⟩
    have := (List.getElem?_eq_some_iff.1 hjf).1
    omega
  cases e with
  | submit req =>
      obtain ⟨-, rfl⟩ := hx
      refine ⟨hle, fun j f hj hf _ => ?_, fun x h => .inl h⟩
      rw [List.getElem?_append_right hj, List.getElem?_singleton] at hf
      split at hf
      · obtain rfl := Option.some.inj hf
        exact hA
      · cases hf
  | storageId =>
      obtain ⟨-, rfl⟩ := hx
      refine ⟨hle, fun j f hj hf => ?_, fun x _ => .inr hA⟩
      have : j < s.flights.length := (List.getElem?_eq_some_iff.1 hf).1
      omega
  | await req i =>
      obtain ⟨sent, landed, -, -, rfl⟩ := hx
      exact quiet (List.length_set ..) rfl
  | admission _ => cases hx; exact quiet rfl rfl
  | listNext => obtain ⟨rfl, -⟩ := hx; exact quiet rfl rfl
  | uuid => cases hx; exact quiet rfl rfl
  | stagingDomain => obtain ⟨-, rfl⟩ := hx; exact quiet rfl rfl
  | observe head version => obtain ⟨-, rfl⟩ := hx; exact quiet rfl rfl
  | verifiedTail id => obtain ⟨rfl, -⟩ := hx; exact quiet rfl rfl
  | setVerifiedTail id domain => cases hx; exact quiet rfl rfl
  | collectionCandidates id => obtain ⟨rfl, -⟩ := hx; exact quiet rfl rfl
  | initCollectionCandidates id cs => obtain ⟨-, rfl⟩ := hx; exact quiet rfl rfl
  | choose n => cases hx; exact quiet rfl rfl

/-! ## Programs of a call -/

variable {α β : Type} {A B : Effect → Prop}

/-- The program `p` of call `t`, run from `s` with effects in `A`, ends in `Q`. -/
def Runs (t : Nat) (A : Effect → Prop) (p : Op α) (Q : Except Error α → State → Prop)
    (s : State) : Prop := wp (rules t A) p Q s

theorem Runs.mono {p : Op α} {Q Q' : Except Error α → State → Prop} (h : Runs t A p Q s)
    (hQ : ∀ r u, Good u → Q r u → Q' r u) : Runs t A p Q' s := wp_mono hQ h

theorem Runs.others {p : Op α} {Q : Except Error α → State → Prop} (h : Runs t A p Q s)
    (o : Others t s u) : Runs t A p Q u := wp_rely h o

theorem Runs.permit {p : Op α} {Q : Except Error α → State → Prop} (hAB : A ≤ B)
    (h : Runs t A p Q s) : Runs t B p Q s :=
  wp_permit (T := rules t A) (fun _ _ hm => ⟨hm.1, hAB _ hm.2⟩) h

theorem Runs.track {p : Op α} {Q : Except Error α → State → Prop} (h : Runs t A p Q s) :
    Runs t A p (fun r u => Track t A s u ∧ Q r u) s := by
  refine wp_track (T := rules t A) ?_ ?_ ?_ h
  · exact fun a b => a.trans b
  · exact fun o => o.track
  · exact fun g m x _ => track_exec g m x

theorem Runs.settle {p : Op α} {Q : Except Error α → State → Prop} (h : Runs t A p Q s) :
    Runs t A p (fun r u => ∀ v, Others t u v → Good v → Q r v) s := wp_settle (T := rules t A) h

theorem Runs.and {p : Op α} {Q Q' : Except Error α → State → Prop} (h : Runs t A p Q s)
    (h' : Runs t A p Q' s) : Runs t A p (fun r u => Q r u ∧ Q' r u) s := wp_and h h'

/-- What holds however a program is answered. -/
theorem Runs.ends {p : Op α} {Q : Except Error α → State → Prop} {Q' : Except Error α → Prop}
    (h : Runs t A p Q s) (h' : Ends anything p Q') : Runs t A p (fun r u => Q r u ∧ Q' r) s :=
  h'.wp h

/-- **Sequencing**, with what the first program has left alone. -/
theorem Runs.bind {p : Op α} {f : α → Op β} {P : Except Error α → State → Prop}
    {Q : Except Error β → State → Prop} (hAB : A ≤ B) (g : Good s) (hp : Runs t A p P s)
    (ok : ∀ a u, Track t A s u → Good u → P (.ok a) u → Runs t B (f a) Q u)
    (err : ∀ e u, Track t A s u → Good u → P (.error e) u → Q (.error e) u) :
    Runs t B (p >>= f) Q s := by
  refine wp_bind (T := rules t B) g ((hp.track.permit hAB).mono ?_)
  rintro (e | a) u gu ⟨tr, h⟩
  · exact err e u tr gu h
  · exact ok a u tr gu h

/-- A program that has ended. -/
theorem Runs.done {r : Except Error α} {Q : Except Error α → State → Prop}
    (h : ∀ u, Others t s u → Good u → Q r u) : Runs t A (Prog.done r) Q s := h

theorem Runs.pure {a : α} {Q : Except Error α → State → Prop}
    (h : ∀ u, Others t s u → Good u → Q (.ok a) u) : Runs t A (Pure.pure a : Op α) Q s := h

theorem Runs.throw {e : Error} {Q : Except Error α → State → Prop}
    (h : ∀ u, Others t s u → Good u → Q (.error e) u) : Runs t A (MonadExcept.throw e : Op α) Q s := h

theorem Runs.lift {r : Except Error α} {Q : Except Error α → State → Prop}
    (h : ∀ u, Others t s u → Good u → Q r u) : Runs t A (Prog.lift r : Op α) Q s := h

/-- A pure step of a program. -/
theorem Runs.liftBind {r : Except Error α} {f : α → Op β} {Q : Except Error β → State → Prop}
    (ok : ∀ a, r = .ok a → Runs t A (f a) Q s)
    (err : ∀ e u, r = .error e → Others t s u → Good u → Q (.error e) u) :
    Runs t A (Prog.lift r >>= f) Q s := by
  cases r with
  | ok a => exact ok a rfl
  | error e => exact fun u o g => err e u rfl o g

theorem Runs.ite {c : Prop} [Decidable c] {p q : Op α} {Q : Except Error α → State → Prop}
    (hp : c → Runs t A p Q s) (hq : ¬ c → Runs t A q Q s) :
    Runs t A (if c then p else q) Q s := by
  split
  · exact hp ‹_›
  · exact hq ‹_›

theorem Runs.attempt {p : Op α} {Q : Except Error (Except Error α) → State → Prop}
    (h : Runs t A p (fun r u => Q (.ok r) u) s) : Runs t A p.attempt Q s := wp_attempt h

/-- A program whose outcome, error included, goes to what follows. -/
theorem Runs.attemptBind {p : Op α} {f : Except Error α → Op β} {P : Except Error α → State → Prop}
    {Q : Except Error β → State → Prop} (hAB : A ≤ B) (g : Good s) (hp : Runs t A p P s)
    (next : ∀ r u, Track t A s u → Good u → P r u → Runs t B (f r) Q u) :
    Runs t B (p.attempt >>= f) Q s := by
  refine Runs.bind (P := fun r u => ∃ r', r = .ok r' ∧ P r' u) hAB g
    (Runs.attempt (hp.mono fun r u _ h => ⟨r, rfl, h⟩)) ?_ nofun
  rintro r u tr gu ⟨r', hr, h⟩
  obtain rfl := Except.ok.inj hr
  exact next r u tr gu h

/-- One effect. -/
theorem Runs.ask {e : Effect} {Q : Except Error (Reply e) → State → Prop}
    (h : ∀ u, Others t s u → Good u → (May t u e ∧ A e) ∧ ∀ a v, Exec t u e a v → Good v →
      ∀ v', Others t v v' → Good v' → Q (.ok a) v') :
    Runs t A (Prog.ask e : Op (Reply e)) Q s := wp_ask (T := rules t A) h

/-- A list of programs, one after the other. -/
theorem Runs.mapM {f : α → Op β} {R : α → β → State → Prop}
    (hR : ∀ x y u v, Good u → u.Le v → R x y u → R x y v) :
    ∀ (xs : List α) (s : State), Good s →
      (∀ x ∈ xs, ∀ u, s.Le u → Good u → Runs t A (f x) (fun r v => ∃ y, r = .ok y ∧ R x y v) u) →
      Runs t A (xs.mapM f) (fun r u => ∃ ys, r = .ok ys ∧
        List.Forall₂ (fun x y => R x y u) xs ys) s
  | [], s, _, _ => Runs.pure fun _ _ _ => ⟨[], rfl, .nil⟩
  | x :: xs, s, g, h => by
      rw [List.mapM_cons]
      refine Runs.bind le_rfl g (h x (by simp) s (.refl s) g) ?_ nofun
      rintro y u tr gu ⟨y', hy, hr⟩
      obtain rfl := Except.ok.inj hy
      refine Runs.bind le_rfl gu (Runs.mapM hR xs u gu fun x' hx v hv =>
        h x' (by simp [hx]) v (tr.le.trans hv)) ?_ nofun
      rintro ys v tr' gv ⟨ys', hys, hall⟩
      obtain rfl := Except.ok.inj hys
      refine Runs.pure fun w o gw => ⟨y :: ys, rfl, .cons (hR _ _ _ _ gu (tr'.le.trans o.le) hr) ?_⟩
      exact hall.imp fun a b hab => hR _ _ _ _ gv o.le hab

/-- What has ended in `Q` is there. -/
theorem Runs.ended {r : Except Error α} {Q : Except Error α → State → Prop} (g : Good s)
    (h : Runs t A (Prog.done r) Q s) : Q r s := h s (Others.refl t s) g

/-- The next effect is one the call may perform, and what follows it ends in `Q`. -/
theorem Runs.performs {e : Effect} {k : Reply e → Op α} {Q : Except Error α → State → Prop}
    (g : Good s) (h : Runs t A (Prog.perform e k) Q s) :
    (May t s e ∧ A e) ∧ ∀ a s', Exec t s e a s' → Good s' → Runs t A (k a) Q s' :=
  h s (Others.refl t s) g

/-- A program that ends by wrapping its value. -/
theorem Runs.returns {p : Op α} {c : α → β} {P : Except Error α → State → Prop}
    {Q : Except Error β → State → Prop} (g : Good s) (hp : Runs t A p P s)
    (ok : ∀ a u, s.Le u → Good u → P (.ok a) u → Q (.ok (c a)) u)
    (err : ∀ e u, s.Le u → Good u → P (.error e) u → Q (.error e) u) :
    Runs t A (do return c (← p)) Q s := by
  refine Runs.bind le_rfl g hp.settle ?_ ?_
  · intro a u tr gu h
    exact Runs.pure fun v o gv => ok a v (tr.le.trans o.le) gv (h v o gv)
  · intro e u tr gu h
    exact err e u tr.le gu (h u (Others.refl t u) gu)

-- from here on a program is taken apart by the rules above, never by evaluation
attribute [irreducible] Runs

end ObjectLog
