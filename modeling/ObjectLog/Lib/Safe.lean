import ObjectLog.Lib.Prog

/-!
# Programs that keep to the rules everywhere

A program is safe for the rules of the shared state when it performs only effects it may,
wherever it is started and whatever it is answered. Safety says nothing about outcomes, so it
goes through every way that programs are composed, and one part of a program never needs to
know what another has established. The rules must then be such that an effect with a condition
occurs in a program together with what establishes it.
-/

namespace Rely

variable {W E : Type} {R : E → Type} {ε α β : Type} {T : Rules W E R}

/-- The program keeps to the rules, wherever it is started. -/
def Safe (T : Rules W E R) (p : Prog E R ε α) : Prop :=
  ∀ w, T.inv w → wp T p (fun _ _ => True) w

namespace Safe

variable {p : Prog E R ε α}

theorem of {Q : Except ε α → W → Prop} (h : ∀ w, T.inv w → wp T p Q w) : Safe T p :=
  fun w hw => wp_mono (fun _ _ _ _ => trivial) (h w hw)

theorem done (r : Except ε α) : Safe T (Prog.done r : Prog E R ε α) := fun _ _ _ _ _ => trivial

theorem pure (a : α) : Safe T (pure a : Prog E R ε α) := done (.ok a)

theorem throw (e : ε) : Safe T (throw e : Prog E R ε α) := done (.error e)

theorem lift (r : Except ε α) : Safe T (Prog.lift r : Prog E R ε α) := done r

theorem bind {f : α → Prog E R ε β} (h : Safe T p) (hf : ∀ a, Safe T (f a)) :
    Safe T (p >>= f) := by
  intro w hw
  refine wp_bind hw (wp_mono (fun r u hu _ => ?_) (h w hw))
  cases r with
  | ok a => exact hf a u hu
  | error e => trivial

theorem liftBind {r : Except ε α} {f : α → Prog E R ε β} (hf : ∀ a, Safe T (f a)) :
    Safe T (Prog.lift r >>= f) := (lift r).bind hf

theorem attempt (h : Safe T p) : Safe T p.attempt := fun w hw => wp_attempt (h w hw)

theorem attemptBind {f : Except ε α → Prog E R ε β} (h : Safe T p) (hf : ∀ r, Safe T (f r)) :
    Safe T (p.attempt >>= f) := h.attempt.bind hf

theorem ite {c : Prop} [Decidable c] {q : Prog E R ε α} (hp : Safe T p) (hq : Safe T q) :
    Safe T (if c then p else q) := by
  split
  · exact hp
  · exact hq

theorem mapM {f : α → Prog E R ε β} (hf : ∀ a, Safe T (f a)) :
    ∀ xs : List α, Safe T (xs.mapM f)
  | [] => by
      rw [List.mapM_nil]
      exact pure _
  | x :: xs => by
      rw [List.mapM_cons]
      exact (hf x).bind fun _ => (mapM hf xs).bind fun _ => pure _

end Safe

/-! ## Traces -/

/-- The program performs these effects, is answered so, and comes to `q`. -/
inductive Prog.Trace (p : Prog E R ε α) : List (Σ e, R e) → Prog E R ε α → Prop
  | nil : p.Trace [] p
  | snoc {τ : List (Σ e, R e)} {e : E} {k : R e → Prog E R ε α} (h : p.Trace τ (.perform e k))
      (a : R e) : p.Trace (τ ++ [⟨e, a⟩]) (k a)

/-- **What a safe program does is a run of the rules**, for one party alone. -/
theorem wp_trace {p q : Prog E R ε α} {τ : List (Σ e, R e)} {P : List (Σ e, R e) → W → Prop}
    {Q : Except ε α → W → Prop} {w : W} (inv : ∀ w, T.inv w) (hw : P [] w)
    (step : ∀ τ w e (a : R e), P τ w → T.may w e → ∃ w', T.exec w e a w' ∧ P (τ ++ [⟨e, a⟩]) w')
    (h : wp T p Q w) (ht : p.Trace τ q) : ∃ w', P τ w' ∧ wp T q Q w' := by
  induction ht with
  | nil => exact ⟨w, hw, h⟩
  | snoc _ a ih =>
      obtain ⟨u, hP, hu⟩ := ih
      obtain ⟨hm, hk⟩ := hu u (T.rely_refl u) (inv u)
      obtain ⟨v, hx, hP'⟩ := step _ u _ a hP hm
      exact ⟨v, hP', hk a v hx (inv v)⟩

end Rely
