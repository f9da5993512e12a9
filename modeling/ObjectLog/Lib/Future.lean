import ObjectLog.Lib.Answers

/-!
# Futures that can be dropped

A future works on a state that belongs to its caller. Where it awaits a program the caller
may drop it, and is left with the state as it is then: what the future would have done after
the program is never done, and what it did before is not undone.
-/

namespace Rely

/-- A future over the state `σ`: it has ended, or it awaits a program while the caller's
state is `s`. -/
inductive Future (E : Type) (R : E → Type) (ε σ α : Type) : Type 1
  | ended (s : σ) (a : α)
  | awaiting {β : Type} (s : σ) (p : Prog E R ε β) (k : Except ε β → Future E R ε σ α)

namespace Future

variable {E : Type} {R : E → Type} {ε σ α : Type} {A : Answers E R}

/-- A future that is polled to its end, with the state it leaves. -/
def run : Future E R ε σ α → Prog E R ε (σ × α)
  | ended s a => pure (s, a)
  | awaiting _ p k => p.attempt >>= fun r => (k r).run

/-- What the caller's state is now. -/
def state : Future E R ε σ α → σ
  | ended s _ => s
  | awaiting s _ _ => s

/-- A future that goes on as another one. -/
def bind {β : Type} : Future E R ε σ α → (σ → α → Future E R ε σ β) → Future E R ε σ β
  | ended s a, f => f s a
  | awaiting s p k, f => awaiting s p fun r => (k r).bind f

/-- The future, once some of its awaits are over. -/
inductive Comes (A : Answers E R) : Future E R ε σ α → Future E R ε σ α → Prop
  | here {m : Future E R ε σ α} : Comes A m m
  | later {β : Type} {s : σ} {p : Prog E R ε β} {k : Except ε β → Future E R ε σ α}
      {m : Future E R ε σ α} {r : Except ε β} (hr : p.Reaches A (.done r)) (h : Comes A (k r) m) :
      Comes A (awaiting s p k) m

/-- However it is answered, the future passes through a state in `P`, or ends as `Q` says
before it does. -/
def Inevitably (A : Answers E R) (P : σ → Prop) (Q : α → Prop) : Future E R ε σ α → Prop
  | ended s a => P s ∨ Q a
  | awaiting s p k => P s ∨ Ends A p fun r => Inevitably A P Q (k r)

/-- However it is answered, the future is as `P` says at every await and at its end. -/
def Always (A : Answers E R) (P : Future E R ε σ α → Prop) : Future E R ε σ α → Prop
  | ended s a => P (ended s a)
  | awaiting s p k => P (awaiting s p k) ∧ Ends A p fun r => Always A P (k r)

/-- Dropping the future at one of its awaits can leave the state `s`. -/
inductive Leaves (A : Answers E R) : Future E R ε σ α → σ → Prop
  | here {β : Type} {s : σ} {p : Prog E R ε β} {k : Except ε β → Future E R ε σ α} :
      Leaves A (awaiting s p k) s
  | later {β : Type} {s s' : σ} {p : Prog E R ε β} {k : Except ε β → Future E R ε σ α}
      {r : Except ε β} (hr : p.Reaches A (.done r)) (h : Leaves A (k r) s') :
      Leaves A (awaiting s p k) s'

/-- However it is answered, the future passes only through states in `D`, and ends as `Q`
says. -/
def Keeps (A : Answers E R) (D : σ → Prop) (Q : σ → α → Prop) : Future E R ε σ α → Prop
  | ended s a => Q s a
  | awaiting s p k => D s ∧ Ends A p fun r => Keeps A D Q (k r)

variable {D : σ → Prop} {Q : σ → α → Prop} {m : Future E R ε σ α}

/-- What a dropped future leaves. -/
theorem Keeps.dropped {s : σ} (h : m.Keeps A D Q) (hl : m.Leaves A s) : D s := by
  induction hl with
  | here => exact h.1
  | later hr _ ih => exact ih (h.2.reached hr)

/-- What a future leaves that is polled to its end. -/
theorem Keeps.run (h : m.Keeps A D Q) :
    Ends A m.run fun r => ∃ s a, r = .ok (s, a) ∧ Q s a := by
  induction m with
  | ended s a => exact Ends.pure ⟨s, a, rfl, h⟩
  | awaiting s p k ih => exact h.2.attemptBind fun r hr => ih r hr

theorem Keeps.ended {s : σ} {a : α} (h : m.Keeps A D Q)
    (hr : m.run.Reaches A (.done (.ok (s, a)))) : Q s a := by
  obtain ⟨s', a', heq, hq⟩ := h.run.reached hr
  obtain ⟨rfl, rfl⟩ := Prod.mk.inj (Except.ok.inj heq)
  exact hq

theorem Always.comes {P : Future E R ε σ α → Prop} {m' : Future E R ε σ α} (h : m.Always A P)
    (hc : m.Comes A m') : P m' := by
  induction hc with
  | @here m =>
      cases m with
      | ended s a => exact h
      | awaiting s p k => exact h.1
  | later hr _ ih => exact ih (h.2.reached hr)

theorem Inevitably.mono {P P' : σ → Prop} {Q : α → Prop} (hp : ∀ s, P s → P' s)
    (h : m.Inevitably A P Q) : m.Inevitably A P' Q := by
  induction m with
  | ended s a => exact h.imp (hp s) id
  | awaiting s p k ih => exact h.imp (hp s) fun hk => hk.mono fun r hr => ih r hr

/-! ## Futures whose end may be an error -/

/-- The program that polls a future to its end and hands on what it returns. -/
def result (m : Future E R ε σ (Except ε α)) : Prog E R ε α :=
  m.run >>= fun x => Prog.lift x.2

@[simp] theorem result_ended {s : σ} {r : Except ε α} :
    (ended s r : Future E R ε σ (Except ε α)).result = .done r := rfl

/-- An await whose error is handed on. -/
theorem result_awaiting {β : Type} {s : σ} {p : Prog E R ε β}
    {k : Except ε β → Future E R ε σ (Except ε α)}
    (he : ∀ e, (k (.error e)).result = .done (.error e)) :
    (awaiting s p k).result = p >>= fun b => (k (.ok b)).result := by
  induction p with
  | done r =>
      cases r with
      | ok b => rfl
      | error e => exact he e
  | perform e q ih => exact congrArg (Prog.perform e) (funext ih)

theorem result_bind {β : Type} {m : Future E R ε σ (Except ε β)}
    {f : σ → Except ε β → Future E R ε σ (Except ε α)} {g : β → Prog E R ε α}
    (ok : ∀ s b, (f s (.ok b)).result = g b)
    (error : ∀ s e, (f s (.error e)).result = .done (.error e)) :
    (m.bind f).result = m.result >>= g := by
  induction m with
  | ended s r =>
      cases r with
      | ok b => exact ok s b
      | error e => exact error s e
  | awaiting s p k ih =>
      have hrun : (awaiting s p fun r => (k r).bind f).result =
          p.attempt >>= fun r => ((k r).bind f).result := bind_assoc ..
      have hrun' : (awaiting s p k).result = p.attempt >>= fun r => (k r).result := bind_assoc ..
      rw [bind, hrun, hrun', bind_assoc]
      exact congrArg (p.attempt >>= ·) (funext ih)

end Future

end Rely
