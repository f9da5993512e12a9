import ObjectLog.Lib.Prog

/-!
# Programs among answers nobody vouches for

The rules of `Rely` say what the other parties promise. Here there is no state and no other
party: an effect is answered by anything that a relation between effects and answers allows,
and a statement speaks about all the ends that a program can come to.
-/

namespace Rely

variable {E : Type} {R : E → Type} {ε α β : Type}

/-- The answers that an effect may get. -/
abbrev Answers (E : Type) (R : E → Type) := (e : E) → R e → Prop

/-- Every answer is possible. -/
def anything : Answers E R := fun _ _ => True

/-- However it is answered, the program ends as `Q` says. -/
def Ends (A : Answers E R) : Prog E R ε α → (Except ε α → Prop) → Prop
  | .done r, Q => Q r
  | .perform e k, Q => ∀ a, A e a → Ends A (k a) Q

/-- The program `p` can come to `q`. -/
inductive Prog.Reaches (A : Answers E R) (p : Prog E R ε α) : Prog E R ε α → Prop
  | start : p.Reaches A p
  | next {e : E} {k : R e → Prog E R ε α} {a : R e} (h : p.Reaches A (.perform e k)) (ha : A e a) :
      p.Reaches A (k a)

/-- A value, or an error that `S` allows. -/
def Fails (S : ε → Prop) : Except ε α → Prop
  | .ok _ => True
  | .error e => S e

/-- A value that `V` allows, or an error. -/
def Yields (V : α → Prop) : Except ε α → Prop
  | .ok a => V a
  | .error _ => True

section

variable {A : Answers E R} {p q : Prog E R ε α} {Q Q' : Except ε α → Prop} {S S' : ε → Prop}

/-! ## Computations that may fail -/

namespace Fails

variable {x : Except ε α} {f : α → Except ε β}

theorem intro (h : ∀ e, x = .error e → S e) : Fails S x := by
  cases x with
  | ok a => trivial
  | error e => exact h e rfl

theorem error {e : ε} (h : Fails S x) (he : x = .error e) : S e := by
  rw [he] at h
  exact h

theorem ok {a : α} : Fails S (.ok a : Except ε α) := trivial

theorem mono (h : Fails S x) (hs : ∀ e, S e → S' e) : Fails S' x :=
  intro fun e he => hs e (h.error he)

theorem bind (h : Fails S x) (hf : ∀ a, x = .ok a → Fails S (f a)) : Fails S (x >>= f) := by
  cases x with
  | ok a => exact hf a rfl
  | error e => exact h

theorem mapM {f : α → Except ε β} {xs : List α} (h : ∀ a ∈ xs, Fails S (f a)) :
    Fails S (xs.mapM f) := by
  induction xs with
  | nil => exact ok
  | cons a xs ih =>
      rw [List.mapM_cons]
      refine bind (h a (by simp)) fun b _ => bind (ih fun c hc => h c (by simp [hc])) fun _ _ => ok

theorem optionMapM {f : α → Except ε β} {x : Option α} (h : ∀ a ∈ x, Fails S (f a)) :
    Fails S (x.mapM f) := by
  cases x with
  | none => exact ok
  | some a => exact bind (h a rfl) fun _ _ => ok

theorem forM {f : α → Except ε PUnit} {xs : List α} (h : ∀ a ∈ xs, Fails S (f a)) :
    Fails S (xs.forM f) := by
  induction xs with
  | nil => exact ok
  | cons a xs ih => exact bind (h a (by simp)) fun _ _ => ih fun b hb => h b (by simp [hb])

theorem foldlM {f : β → α → Except ε β} {xs : List α} (h : ∀ b, ∀ a ∈ xs, Fails S (f b a))
    (b : β) : Fails S (xs.foldlM f b) := by
  induction xs generalizing b with
  | nil => exact ok
  | cons a xs ih =>
      rw [List.foldlM_cons]
      exact bind (h b a (by simp)) fun c _ => ih (fun b c hc => h b c (by simp [hc])) c

end Fails

/-! ## Programs -/

namespace Ends

theorem done {r : Except ε α} (h : Q r) : Ends A (.done r) Q := h

theorem pure {a : α} (h : Q (.ok a)) : Ends A (pure a : Prog E R ε α) Q := h

theorem throw {e : ε} (h : Q (.error e)) : Ends A (throw e : Prog E R ε α) Q := h

theorem lift {r : Except ε α} (h : Q r) : Ends A (Prog.lift r : Prog E R ε α) Q := h

theorem ask {e : E} {Q : Except ε (R e) → Prop} (h : ∀ a, A e a → Q (.ok a)) :
    Ends A (Prog.ask e : Prog E R ε (R e)) Q := h

theorem mono (h : Ends A p Q) (hq : ∀ r, Q r → Q' r) : Ends A p Q' := by
  induction p with
  | done r => exact hq r h
  | perform e k ih => exact fun a ha => ih a (h a ha)

theorem all (h : ∀ r, Q r) : Ends A p Q := by
  induction p with
  | done r => exact h r
  | perform e k ih => exact fun a _ => ih a

/-- Fewer answers. -/
theorem answers {B : Answers E R} (hab : ∀ e a, B e a → A e a) (h : Ends A p Q) : Ends B p Q := by
  induction p with
  | done r => exact h
  | perform e k ih => exact fun a ha => ih a (h a (hab e a ha))

theorem and (h : Ends A p Q) (h' : Ends A p Q') : Ends A p fun r => Q r ∧ Q' r := by
  induction p with
  | done r => exact ⟨h, h'⟩
  | perform e k ih => exact fun a ha => ih a (h a ha) (h' a ha)

theorem bind {f : α → Prog E R ε β} {Q' : Except ε β → Prop} (h : Ends A p Q)
    (ok : ∀ a, Q (.ok a) → Ends A (f a) Q') (error : ∀ e, Q (.error e) → Q' (.error e)) :
    Ends A (p >>= f) Q' := by
  induction p with
  | done r =>
      cases r with
      | ok a => exact ok a h
      | error e => exact error e h
  | perform e k ih => exact fun a ha => ih a (h a ha)

theorem attempt {Q : Except ε (Except ε α) → Prop} (h : Ends A p fun r => Q (.ok r)) :
    Ends A p.attempt Q := by
  induction p with
  | done r => exact h
  | perform e k ih => exact fun a ha => ih a (h a ha)

theorem attemptBind {f : Except ε α → Prog E R ε β} {Q' : Except ε β → Prop} (h : Ends A p Q)
    (next : ∀ r, Q r → Ends A (f r) Q') : Ends A (p.attempt >>= f) Q' := by
  induction p with
  | done r => exact next r h
  | perform e k ih => exact fun a ha => ih a (h a ha)

/-- Where only the errors matter. -/
theorem andThen {f : α → Prog E R ε β} (h : Ends A p (Fails S))
    (ok : ∀ a, Ends A (f a) (Fails S)) : Ends A (p >>= f) (Fails S) :=
  h.bind (fun a _ => ok a) fun _ he => he

/-- The continuation of a pure computation knows its value. -/
theorem liftThen {r : Except ε α} {f : α → Prog E R ε β} (h : Fails S r)
    (ok : ∀ a, r = .ok a → Ends A (f a) (Fails S)) : Ends A (Prog.lift r >>= f) (Fails S) := by
  cases r with
  | ok a => exact ok a rfl
  | error e => exact h

/-- Where only the value matters. -/
theorem feed {V : α → Prop} {V' : β → Prop} {f : α → Prog E R ε β} (h : Ends A p (Yields V))
    (ok : ∀ a, V a → Ends A (f a) (Yields V')) : Ends A (p >>= f) (Yields V') :=
  h.bind ok fun _ _ => trivial

/-- The value of a pure computation. -/
theorem feedLift {V : β → Prop} {r : Except ε α} {f : α → Prog E R ε β}
    (ok : ∀ a, r = .ok a → Ends A (f a) (Yields V)) : Ends A (Prog.lift r >>= f) (Yields V) := by
  cases r with
  | ok a => exact ok a rfl
  | error e => trivial

/-- A program with one outcome, which is a value. -/
theorem after {a : α} {f : α → Prog E R ε β} {Q' : Except ε β → Prop}
    (h : Ends A p fun r => r = .ok a) (hf : Ends A (f a) Q') : Ends A (p >>= f) Q' := by
  refine h.bind ?_ nofun
  intro b hb
  rw [Except.ok.inj hb]
  exact hf

/-- A list of programs, one after the other, none of which fails. -/
theorem mapM {f : α → Prog E R ε β} {P : α → β → Prop} {xs : List α}
    (h : ∀ x ∈ xs, Ends A (f x) fun r => ∃ y, r = .ok y ∧ P x y) :
    Ends A (xs.mapM f) fun r => ∃ ys, r = .ok ys ∧ List.Forall₂ P xs ys := by
  induction xs with
  | nil => exact pure ⟨[], rfl, .nil⟩
  | cons x xs ih =>
      rw [List.mapM_cons]
      refine (h x (by simp)).bind ?_ nofun
      rintro y ⟨y', hy, hp⟩
      obtain rfl := Except.ok.inj hy
      refine (ih fun z hz => h z (by simp [hz])).bind ?_ nofun
      rintro ys ⟨ys', hys, hps⟩
      obtain rfl := Except.ok.inj hys
      exact pure ⟨y :: ys, rfl, .cons hp hps⟩

/-- The error branch after a program that does not fail. -/
theorem attempt_bind {f : α → Prog E R ε β} {g : Except ε α → Prog E R ε β}
    (h : Ends anything p fun r => ∃ a, r = .ok a) (hg : ∀ a, g (.ok a) = f a) :
    p.attempt >>= g = p >>= f := by
  induction p with
  | done r =>
      obtain ⟨a, rfl⟩ := h
      exact hg a
  | perform e k ih =>
      refine congrArg (Prog.perform e) (funext fun a => ?_)
      exact ih a (h a trivial)

/-- **What every end satisfies, an end that was reached satisfies.** -/
theorem reaches (h : Ends A p Q) (hr : p.Reaches A q) : Ends A q Q := by
  induction hr with
  | start => exact h
  | next _ ha ih => exact ih _ ha

theorem reached {r : Except ε α} (h : Ends A p Q) (hr : p.Reaches A (.done r)) : Q r :=
  h.reaches hr

end Ends

/-! ## After one answer -/

/-- Whenever the program gets an answer that `bad` names, the rest of it is as `K` says. -/
def Upon (bad : Answers E R) (K : Prog E R ε α → Prop) : Prog E R ε α → Prop
  | .done _ => True
  | .perform e k => ∀ a, (bad e a → K (k a)) ∧ Upon bad K (k a)

namespace Upon

variable {bad : Answers E R} {K : Prog E R ε α → Prop}

theorem ask {e : E} {K : Prog E R ε (R e) → Prop} (h : ∀ a, bad e a → K (.done (.ok a))) :
    Upon bad K (Prog.ask e : Prog E R ε (R e)) := fun a => ⟨h a, trivial⟩

theorem mono {K' : Prog E R ε α → Prop} (h : Upon bad K p) (hk : ∀ q, K q → K' q) :
    Upon bad K' p := by
  induction p with
  | done r => trivial
  | perform e k ih => exact fun a => ⟨fun ha => hk _ ((h a).1 ha), ih a (h a).2⟩

theorem answers {bad' : Answers E R} (h : Upon bad K p) (hb : ∀ e a, bad' e a → bad e a) :
    Upon bad' K p := by
  induction p with
  | done r => trivial
  | perform e k ih => exact fun a => ⟨fun ha => (h a).1 (hb e a ha), ih a (h a).2⟩

theorem bind {f : α → Prog E R ε β} {K' : Prog E R ε β → Prop} (h : Upon bad K p)
    (hk : ∀ q, K q → K' (q >>= f)) (hf : ∀ a, Upon bad K' (f a)) : Upon bad K' (p >>= f) := by
  induction p with
  | done r =>
      cases r with
      | ok a => exact hf a
      | error e => trivial
  | perform e k ih => exact fun a => ⟨fun ha => hk _ ((h a).1 ha), ih a (h a).2⟩

theorem attemptBind {f : Except ε α → Prog E R ε β} {K' : Prog E R ε β → Prop}
    (h : Upon bad K p) (he : Ends anything p Q) (hk : ∀ q, K q → K' (q.attempt >>= f))
    (hf : ∀ r, Q r → Upon bad K' (f r)) : Upon bad K' (p.attempt >>= f) := by
  induction p with
  | done r => exact hf r he
  | perform e k ih => exact fun a => ⟨fun ha => hk _ ((h a).1 ha), ih a (h a).2 (he a trivial)⟩

/-- A program that gets no such answer, and one that may follow it. -/
theorem after {f : α → Prog E R ε β} {K' : Prog E R ε β → Prop}
    (h : Upon bad (fun _ => False) p) (hf : ∀ a, Upon bad K' (f a)) : Upon bad K' (p >>= f) :=
  h.bind (fun _ => False.elim) hf

theorem attempt {K' : Prog E R ε (Except ε α) → Prop} (h : Upon bad K p)
    (hk : ∀ q, K q → K' q.attempt) : Upon bad K' p.attempt := by
  induction p with
  | done r => trivial
  | perform e k ih => exact fun a => ⟨fun ha => hk _ ((h a).1 ha), ih a (h a).2⟩

theorem mapM {f : α → Prog E R ε β} {xs : List α}
    (h : ∀ x ∈ xs, Upon bad (fun _ => False) (f x)) :
    Upon bad (fun _ => False) (xs.mapM f) := by
  induction xs with
  | nil => trivial
  | cons x xs ih =>
      rw [List.mapM_cons]
      exact (h x (by simp)).after fun _ => (ih fun z hz => h z (by simp [hz])).after fun _ => trivial

/-- Where only the first of some programs gets such an answer, and ends with `y` upon it. -/
theorem mapM_first {f : α → Prog E R ε β} {x : α} {xs : List α} {y : β}
    (h : Upon bad (fun q => q = .done (.ok y)) (f x))
    (rest : ∀ z ∈ xs, Upon bad (fun _ => False) (f z))
    (total : ∀ z ∈ xs, Ends anything (f z) fun r => ∃ b, r = .ok b) :
    Upon bad (fun q => Ends anything q fun r => ∃ ys, r = .ok (y :: ys)) ((x :: xs).mapM f) := by
  rw [List.mapM_cons]
  refine h.bind (fun q hq => ?_) fun _ => (mapM rest).after fun _ => trivial
  rw [hq]
  have hall := Ends.mapM (P := fun _ _ => True) fun z hz =>
    (total z hz).mono fun r hr => hr.imp fun b hb => ⟨hb, trivial⟩
  exact hall.bind (fun ys _ => Ends.pure ⟨ys, rfl⟩) nofun

end Upon

/-! ## One end -/

/-- The end of a program whose effects are answered by a function. -/
def Prog.answeredBy (f : (e : E) → R e) : Prog E R ε α → Except ε α
  | .done r => r
  | .perform e k => (k (f e)).answeredBy f

theorem Prog.Reaches.trans {p' : Prog E R ε α} (h : p.Reaches A p') (h' : p'.Reaches A q) :
    p.Reaches A q := by
  induction h' with
  | start => exact h
  | next _ ha ih => exact .next ih ha

/-- A program ends where it can come to. -/
theorem Ends.reachable : Ends A p fun r => p.Reaches A (.done r) := by
  induction p with
  | done r => exact .start
  | perform e k ih =>
      exact fun a ha => (ih a).mono fun r hr => (Prog.Reaches.next .start ha).trans hr

/-- What every end satisfies holds among other parties as well. -/
theorem Ends.wp {W : Type} {T : Rules W E R} {Q : Except ε α → W → Prop}
    {Q' : Except ε α → Prop} {w : W} (h : Ends anything p Q') (hw : wp T p Q w) :
    wp T p (fun r u => Q r u ∧ Q' r) w := by
  induction p generalizing w with
  | done r => exact fun u hr hi => ⟨hw u hr hi, h⟩
  | perform e k ih =>
      intro u hr hi
      obtain ⟨hm, hk⟩ := hw u hr hi
      exact ⟨hm, fun a v hx hv => ih a (h a trivial) (hk a v hx hv)⟩

/-- Continuations that agree on the ends of a program. -/
theorem Ends.attempt_congr {f g : Except ε α → Prog E R ε β} (h : Ends anything p Q)
    (hfg : ∀ r, Q r → f r = g r) : p.attempt >>= f = p.attempt >>= g := by
  induction p with
  | done r => exact hfg r h
  | perform e k ih => exact congrArg (Prog.perform e) (funext fun a => ih a (h a trivial))

theorem Prog.reaches_answeredBy {f : (e : E) → R e} (hf : ∀ e, A e (f e)) :
    p.Reaches A (.done (p.answeredBy f)) := by
  induction p with
  | done r => exact .start
  | perform e k ih => exact (Prog.Reaches.next .start (hf e)).trans (ih (f e))

end

end Rely
