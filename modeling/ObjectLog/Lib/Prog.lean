import Mathlib

/-!
# Programs that share a state with other parties

A *party* runs a program: a tree of effects whose answers it cannot choose. Between
any two of its effects the other parties may move the shared state, as far as a
*rely* relation lets them. This module has the programs, the error handling they
need, and a weakest precondition that already quantifies over the interference, so
that a proof never mentions the other parties' programs.

Nothing here knows what the state or the effects are.
-/

namespace Rely

/-- A program over effects `E`, where effect `e` is answered by an `R e`, that ends
with a value or an error. -/
inductive Prog (E : Type) (R : E → Type) (ε : Type) (α : Type) : Type where
  | done (r : Except ε α)
  | perform (e : E) (k : R e → Prog E R ε α)

namespace Prog

variable {E : Type} {R : E → Type} {ε α β : Type}

/-- Sequencing. An error ends the program. -/
def bind : Prog E R ε α → (α → Prog E R ε β) → Prog E R ε β
  | done (.ok a), f => f a
  | done (.error e), _ => done (.error e)
  | perform e k, f => perform e fun a => (k a).bind f

/-- Runs a program and hands its outcome, error included, to the continuation. -/
def attempt : Prog E R ε α → Prog E R ε (Except ε α)
  | done r => done (.ok r)
  | perform e k => perform e fun a => (k a).attempt

/-- Runs `h` on the error of a failed program. -/
def handle : Prog E R ε α → (ε → Prog E R ε α) → Prog E R ε α
  | done (.ok a), _ => done (.ok a)
  | done (.error e), h => h e
  | perform e k, h => perform e fun a => (k a).handle h

instance : Monad (Prog E R ε) where
  pure a := done (.ok a)
  bind := bind

theorem bind_done (p : Prog E R ε α) : p.bind (fun a => done (.ok a)) = p := by
  induction p with
  | done r => cases r <;> rfl
  | perform e k ih => simp only [bind, ih]

theorem bind_bind {γ : Type} (p : Prog E R ε α) (f : α → Prog E R ε β) (g : β → Prog E R ε γ) :
    (p.bind f).bind g = p.bind fun a => (f a).bind g := by
  induction p with
  | done r => cases r <;> rfl
  | perform e k ih => simp only [bind, ih]

instance : LawfulMonad (Prog E R ε) :=
  LawfulMonad.mk' _ (fun p => bind_done p) (fun _ _ => rfl) (fun p f g => bind_bind p f g)

instance : MonadExceptOf ε (Prog E R ε) where
  throw e := done (.error e)
  tryCatch := handle

/-- One effect and its answer. -/
def ask (e : E) : Prog E R ε (R e) :=
  perform e fun a => done (.ok a)

/-- A pure computation that may fail. -/
def lift (r : Except ε α) : Prog E R ε α :=
  done r

instance : MonadLift (Except ε) (Prog E R ε) where
  monadLift := lift

end Prog

/-- The rules of the shared state, as one party sees them. -/
structure Rules (W E : Type) (R : E → Type) where
  /-- What the other parties may turn the state into. -/
  rely : W → W → Prop
  /-- What is true of the state at every moment. -/
  inv : W → Prop
  /-- What the party owes the others when it performs an effect. -/
  may : W → E → Prop
  /-- The effect, its answer and the state after it. -/
  exec : W → (e : E) → R e → W → Prop
  rely_refl : ∀ w, rely w w
  rely_trans : ∀ {u v w}, rely u v → rely v w → rely u w

variable {W E : Type} {R : E → Type} {ε α β : Type}

/-- `wp T p Q w`: run from `w` among parties that keep to `T`, the program performs
only effects it may, and where it ends its outcome satisfies `Q` from then on. -/
def wp (T : Rules W E R) : Prog E R ε α → (Except ε α → W → Prop) → W → Prop
  | .done r, Q, w => ∀ w', T.rely w w' → T.inv w' → Q r w'
  | .perform e k, Q, w => ∀ w', T.rely w w' → T.inv w' →
      T.may w' e ∧ ∀ a w'', T.exec w' e a w'' → T.inv w'' → wp T (k a) Q w''

section

variable {T : Rules W E R} {Q Q' : Except ε α → W → Prop} {w w' : W}

/-- **Interference does not disturb a weakest precondition.** -/
theorem wp_rely {p : Prog E R ε α} (h : wp T p Q w) (hr : T.rely w w') : wp T p Q w' := by
  cases p with
  | done r => exact fun u hu hi => h u (T.rely_trans hr hu) hi
  | perform e k => exact fun u hu hi => h u (T.rely_trans hr hu) hi

/-- A weaker postcondition. -/
theorem wp_mono {p : Prog E R ε α} (hQ : ∀ r u, T.inv u → Q r u → Q' r u) :
    ∀ {w : W}, wp T p Q w → wp T p Q' w := by
  induction p with
  | done r => exact fun h u hu hi => hQ r u hi (h u hu hi)
  | perform e k ih =>
      intro w h u hu hi
      obtain ⟨hm, hk⟩ := h u hu hi
      exact ⟨hm, fun a v hx hv => ih a (hk a v hx hv)⟩

/-- A finished program. -/
theorem wp_done {r : Except ε α} (h : ∀ w', T.rely w w' → T.inv w' → Q r w') :
    wp T (.done r) Q w := h

theorem wp_pure {a : α} (h : ∀ w', T.rely w w' → T.inv w' → Q (.ok a) w') :
    wp T (pure a : Prog E R ε α) Q w := h

theorem wp_throw {e : ε} (h : ∀ w', T.rely w w' → T.inv w' → Q (.error e) w') :
    wp T (throw e : Prog E R ε α) Q w := h

/-- What a continuation asks of the outcome it is handed: an error passes it by. -/
def Then (T : Rules W E R) (f : α → Prog E R ε β) (Q : Except ε β → W → Prop) :
    Except ε α → W → Prop
  | .ok a, w => wp T (f a) Q w
  | .error e, w => Q (.error e) w

/-- **Sequencing.** -/
theorem wp_bind {p : Prog E R ε α} {f : α → Prog E R ε β} {Q : Except ε β → W → Prop} :
    ∀ {w : W}, T.inv w → wp T p (Then T f Q) w → wp T (p >>= f) Q w := by
  induction p with
  | done r =>
      intro w hi h
      cases r with
      | ok a => exact h w (T.rely_refl w) hi
      | error e => exact h
  | perform e k ih =>
      intro w _ h u hu hui
      obtain ⟨hm, hk⟩ := h u hu hui
      exact ⟨hm, fun a v hx hv => ih a hv (hk a v hx hv)⟩

/-- **Error handling.** The outcome of the attempt is an ordinary value. -/
theorem wp_attempt {p : Prog E R ε α} {Q : Except ε (Except ε α) → W → Prop} :
    ∀ {w : W}, wp T p (fun r u => Q (.ok r) u) w → wp T p.attempt Q w := by
  induction p with
  | done r => exact fun h => h
  | perform e k ih =>
      intro w h u hu hui
      obtain ⟨hm, hk⟩ := h u hu hui
      exact ⟨hm, fun a v hx hv => ih a (hk a v hx hv)⟩

/-- **Tracking.** What the other parties and every permitted effect keep, a whole
program keeps. -/
theorem wp_track {p : Prog E R ε α} {le : W → W → Prop}
    (trans : ∀ {u v x}, le u v → le v x → le u x) (rely : ∀ {u v}, T.rely u v → le u v)
    (exec : ∀ {u e a v}, T.inv u → T.may u e → T.exec u e a v → T.inv v → le u v) :
    ∀ {w : W}, wp T p Q w → wp T p (fun r u => le w u ∧ Q r u) w := by
  induction p with
  | done r => exact fun h u hu hi => ⟨rely hu, h u hu hi⟩
  | perform e k ih =>
      intro w h u hu hi
      obtain ⟨hm, hk⟩ := h u hu hi
      refine ⟨hm, fun a v hx hv => wp_mono ?_ (ih a (hk a v hx hv))⟩
      intro r x _ ⟨hle, hq⟩
      exact ⟨trans (trans (rely hu) (exec hi hm hx hv)) hle, hq⟩

/-- A party that performs fewer effects than it may. -/
theorem wp_permit {p : Prog E R ε α} {may : W → E → Prop} (hm : ∀ u e, T.may u e → may u e) :
    ∀ {w : W}, wp T p Q w → wp { T with may } p Q w := by
  induction p with
  | done r => exact fun h => h
  | perform e k ih =>
      intro w h u hu hi
      obtain ⟨hmay, hk⟩ := h u hu hi
      exact ⟨hm u e hmay, fun a v hx hv => ih a (hk a v hx hv)⟩

/-- What is true where a program ends stays true. -/
theorem wp_settle {p : Prog E R ε α} : ∀ {w : W}, wp T p Q w →
    wp T p (fun r u => ∀ v, T.rely u v → T.inv v → Q r v) w := by
  induction p with
  | done r => exact fun h u hu _ v hv hi => h v (T.rely_trans hu hv) hi
  | perform e k ih =>
      intro w h u hu hi
      obtain ⟨hm, hk⟩ := h u hu hi
      exact ⟨hm, fun a v hx hv => ih a (hk a v hx hv)⟩

/-- Two facts about one program. -/
theorem wp_and {p : Prog E R ε α} :
    ∀ {w : W}, wp T p Q w → wp T p Q' w → wp T p (fun r u => Q r u ∧ Q' r u) w := by
  induction p with
  | done r => exact fun h h' u hu hi => ⟨h u hu hi, h' u hu hi⟩
  | perform e k ih =>
      intro w h h' u hu hi
      obtain ⟨hm, hk⟩ := h u hu hi
      obtain ⟨-, hk'⟩ := h' u hu hi
      exact ⟨hm, fun a v hx hv => ih a (hk a v hx hv) (hk' a v hx hv)⟩

/-- One effect. -/
theorem wp_ask {e : E} {Q : Except ε (R e) → W → Prop}
    (h : ∀ u, T.rely w u → T.inv u → T.may u e ∧ ∀ a v, T.exec u e a v → T.inv v →
      ∀ v', T.rely v v' → T.inv v' → Q (.ok a) v') :
    wp T (Prog.ask e : Prog E R ε (R e)) Q w := by
  intro u hu hi
  obtain ⟨hm, hk⟩ := h u hu hi
  exact ⟨hm, fun a v hx hv v' hr hv' => hk a v hx hv v' hr hv'⟩

/-- A pure computation that may fail. -/
theorem wp_lift {r : Except ε α} (h : ∀ w', T.rely w w' → T.inv w' → Q r w') :
    wp T (Prog.lift r : Prog E R ε α) Q w := h

end

end Rely
