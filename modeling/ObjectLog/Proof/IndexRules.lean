import ObjectLog.Proof.IndexTrees

/-!
# Rules for the functions of the index

What a faithful caller does: `save` stores the node under a root of which nothing else was
known, `load` returns the node of a root, either may fail instead with an error out of a set
`F`, and loops meet their entries in any order. Other parties may save nodes at any time. The
rules below are those of `Rely.wp`, for outcomes that are a result or an error of the caller.
-/

namespace ObjectLog.Git

open Rely

/-- The nodes that were saved and the calls of `visit` so far. -/
structure IndexWorld (V H : Type) where
  nodes : Nodes V H
  visited : List (Key × V)

/-- What a function of the index may do beyond loading nodes. -/
structure IndexLicence (V H : Type) where
  save : RadixNode V H → Prop
  visit : Prop

variable {V H ε α β : Type}

/-- Nodes were saved and nothing was visited. -/
def IndexWorld.Le (w w' : IndexWorld V H) : Prop :=
  w.nodes.Le w'.nodes ∧ w'.visited = w.visited

theorem IndexWorld.Le.refl (w : IndexWorld V H) : w.Le w :=
  ⟨Nodes.Le.refl _, rfl⟩

theorem IndexWorld.Le.trans {u v w : IndexWorld V H} (h : u.Le v) (h' : v.Le w) : u.Le w :=
  ⟨h.1.trans h'.1, h'.2.trans h.2⟩

/-- The effects, performed by a faithful caller that fails only with errors in `F`. -/
def Faithful (F : ε → Prop) (w : IndexWorld V H) :
    (e : IndexEffect V H) → IndexEffect.Answer V H ε e → IndexWorld V H → Prop
  | .load _ root, answer, w' =>
      w' = w ∧ ((∃ node, w.nodes root = some node ∧ answer = .ok node) ∨
        ∃ e, F e ∧ answer = .error e)
  | .save node, answer, w' =>
      (∃ root, w.Le w' ∧ w'.nodes root = some node ∧ answer = .ok root) ∨
        (w' = w ∧ ∃ e, F e ∧ answer = .error e)
  | .visit id value, _, w' => w' = { w with visited := w.visited ++ [(id, value)] }
  | .range _, _, w' => w' = w

/-- No effect changes a saved node. -/
theorem Faithful.keepsNodes {F : ε → Prop} {w w' : IndexWorld V H} {e : IndexEffect V H}
    {answer : e.Answer V H ε} (h : Faithful F w e answer w') : w.nodes.Le w'.nodes := by
  cases e with
  | load path root =>
      cases h.1
      exact Nodes.Le.refl _
  | save node =>
      obtain ⟨_, hle, _, _⟩ | ⟨hsame, _⟩ := h
      · exact hle.1
      · cases hsame
        exact Nodes.Le.refl _
  | visit id value =>
      cases h
      exact Nodes.Le.refl _
  | range keys =>
      cases h
      exact Nodes.Le.refl _

/-- A node is loaded only at the path at which the tree under it is well formed. -/
def IndexLicence.May (M : IndexLicence V H) (L : Nat) (w : IndexWorld V H) :
    IndexEffect V H → Prop
  | .load path root => ∃ m, Denotes w.nodes L path root m
  | .save node => M.save node
  | .visit _ _ => M.visit
  | .range _ => True

def indexRules (L : Nat) (F : ε → Prop) (M : IndexLicence V H) :
    Rules (IndexWorld V H) (IndexEffect V H) (IndexEffect.Answer V H ε) where
  rely := IndexWorld.Le
  inv _ := True
  may := M.May L
  exec := Faithful F
  rely_refl := IndexWorld.Le.refl
  rely_trans := IndexWorld.Le.trans

/-- A result as `Q` says, or an error of the caller. -/
def Returns (F : ε → Prop) (Q : α → IndexWorld V H → Prop) :
    Except (IndexFailure ε) α → IndexWorld V H → Prop
  | .ok a, w => Q a w
  | .error failure, _ => ∃ e, F e ∧ failure = .caller e

/-- Run from `w`, the program returns as `Q` says unless the caller's functions fail. -/
def Does (L : Nat) (F : ε → Prop) (M : IndexLicence V H) (p : IndexProg V H ε α)
    (Q : α → IndexWorld V H → Prop) (w : IndexWorld V H) : Prop :=
  wp (indexRules L F M) p (Returns F Q) w

namespace Does

variable {L : Nat} {F : ε → Prop} {M : IndexLicence V H} {p : IndexProg V H ε α}
  {Q Q' : α → IndexWorld V H → Prop} {w : IndexWorld V H}

theorem mono (h : Does L F M p Q w) (hq : ∀ a u, Q a u → Q' a u) : Does L F M p Q' w := by
  refine wp_mono ?_ h
  intro r u _ hr
  cases r with
  | ok a => exact hq a u hr
  | error failure => exact hr

theorem pure {a : α} (h : ∀ w', w.Le w' → Q a w') : Does L F M (pure a) Q w :=
  wp_pure fun w' hw _ => h w' hw

theorem bind {f : α → IndexProg V H ε β} {Q' : β → IndexWorld V H → Prop}
    (h : Does L F M p Q w) (hf : ∀ a u, Q a u → Does L F M (f a) Q' u) :
    Does L F M (p >>= f) Q' w := by
  refine wp_bind trivial (wp_mono ?_ h)
  intro r u _ hr
  cases r with
  | ok a => exact hf a u hr
  | error failure => exact hr

/-- One answer of the caller's `load` or `save`. -/
theorem answered {answer : Except ε α} (hok : ∀ a, answer = .ok a → ∀ w', w.Le w' → Q a w')
    (herror : ∀ e, answer = .error e → F e) :
    Does L F M (Prog.lift (answer.mapError .caller)) Q w := by
  refine wp_lift fun w' hw _ => ?_
  cases answer with
  | ok a => exact hok a rfl w' hw
  | error e => exact ⟨e, herror e rfl, rfl⟩

theorem load {path : Key} {root : H} {node : RadixNode V H} {m : Catalog V}
    (hm : Denotes w.nodes L path root m) (hnode : w.nodes root = some node) :
    Does L F M (Git.load path root) (fun a w' => a = node ∧ w.Le w') w := by
  intro u hu _
  refine ⟨⟨m, hm.mono hu.1⟩, fun answer v hv _ => ?_⟩
  obtain ⟨rfl, hanswer⟩ := hv
  refine answered ?_ ?_
  · intro a ha w' hw'
    obtain ⟨n, hn, hok⟩ | ⟨e, _, herr⟩ := hanswer
    · rw [hu.1 root node hnode] at hn
      cases hn
      rw [hok] at ha
      cases ha
      exact ⟨rfl, hu.trans hw'⟩
    · rw [herr] at ha
      nomatch ha
  · intro e he
    obtain ⟨n, _, hok⟩ | ⟨e', he', herr⟩ := hanswer
    · rw [hok] at he
      nomatch he
    · rw [herr] at he
      cases he
      exact he'

theorem save {node : RadixNode V H} (hm : M.save node) :
    Does L F M (Git.save node) (fun root w' => w.Le w' ∧ w'.nodes root = some node) w := by
  intro u hu _
  refine ⟨hm, fun answer v hv _ => ?_⟩
  refine answered ?_ ?_
  · intro root hroot w' hw'
    obtain ⟨r, hle, hr, hok⟩ | ⟨_, e, _, herr⟩ := hv
    · rw [hok] at hroot
      cases hroot
      exact ⟨(hu.trans hle).trans hw', hw'.1 _ _ hr⟩
    · rw [herr] at hroot
      nomatch hroot
  · intro e he
    obtain ⟨r, _, _, hok⟩ | ⟨_, e', he', herr⟩ := hv
    · rw [hok] at he
      nomatch he
    · rw [herr] at he
      cases he
      exact he'

theorem visit {id : Key} {value : V} (hm : M.visit) :
    Does L F M (Git.visit id value)
      (fun _ w' => w.nodes.Le w'.nodes ∧ w'.visited = w.visited ++ [(id, value)]) w := by
  intro u hu _
  refine ⟨hm, fun answer v hv _ => wp_lift fun w' hw' _ => ?_⟩
  cases hv
  refine ⟨hu.1.trans hw'.1, ?_⟩
  rw [hw'.2, hu.2]

theorem range (m : GoMap Key α) :
    Does L F M (Git.range m) (fun l w' => w.Le w' ∧ m.Enumerates l) w := by
  intro u hu _
  refine ⟨trivial, fun order v hv _ => wp_lift fun w' hw' _ => ?_⟩
  cases hv
  exact ⟨hu.trans hw', m.enumerates_entries order⟩

theorem write {m : Option (GoMap Key α)} {m' : GoMap Key α} (h : m = some m') :
    Does L F M (Git.write m) (fun a w' => a = m' ∧ w.Le w') w := by
  rw [h]
  exact wp_lift fun w' hw' _ => ⟨rfl, hw'⟩

/-- **A loop over the entries of a map**, with an invariant on the entries done so far. -/
theorem loop {f : β → α → IndexProg V H ε β} {l : List α}
    {I : List α → β → IndexWorld V H → Prop}
    (stable : ∀ done b u u', I done b u → u.Le u' → I done b u')
    (turn : ∀ done a rest, l = done ++ a :: rest → ∀ b u, I done b u →
      Does L F M (f b a) (I (done ++ [a])) u)
    {b : β} (start : I [] b w) : Does L F M (l.foldlM f b) (I l) w := by
  suffices h : ∀ rest done, l = done ++ rest → ∀ b u, I done b u →
      Does L F M (rest.foldlM f b) (I l) u from h l [] rfl b w start
  intro rest
  induction rest with
  | nil =>
      intro done hl b u hi
      rw [hl, List.append_nil]
      exact pure fun u' hu' => stable done b u u' hi hu'
  | cons a rest ih =>
      intro done hl b u hi
      rw [List.foldlM_cons]
      refine bind (turn done a rest hl b u hi) fun b' u' hi' => ?_
      exact ih (done ++ [a]) (by rw [hl, List.append_assoc]; rfl) b' u' hi'

/-- However a function of the index ends, saved nodes stay. -/
theorem keepsNodes (h : Does L F M p Q w) :
    wp (indexRules L F M) p (fun r u => w.nodes.Le u.nodes ∧ Returns F Q r u) w :=
  @wp_track _ _ _ _ _ (indexRules L F M) _ p (fun u v => u.nodes.Le v.nodes)
    (fun h h' => h.trans h') (fun h => h.1) (fun _ _ hx _ => Faithful.keepsNodes hx) w h

end Does

end ObjectLog.Git
