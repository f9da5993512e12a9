import ObjectLog.Proof.Graph
import ObjectLog.System

/-!
# How the state of the system grows

Everything the proofs say about a moment of a run is said so that it stays true: heads
that were durable, bytes that were created, requests that were sent. `s.Le s'` is the
order in which those facts grow, and each of them has a `mono` lemma.

Two of its clauses are not about growth. `gone`: a deleted key that is not a commit key
never comes back, since its storage identity is used once. `planned`: the plan of an
epoch that has begun is settled. They make two negative facts permanent, that a key is
missing (`gone`) and that a key is in no plan up to some epoch (`Avoids`).
-/

set_option linter.unusedSectionVars false

namespace ObjectLog

variable [Blake3]

/-! ## Heads and plans -/

/-- The bytes each key was created with. -/
def State.body (s : State) : Bodies := fun k => (s.created k).map Prod.fst

theorem State.body_eq {s : State} {k : ImmutableKey} {bytes : Bytes} :
    s.body k = some bytes ↔ ∃ n, s.created k = some (bytes, n) := by
  simp [State.body]

theorem State.body_isSome {s : State} {k : ImmutableKey} :
    (s.body k).isSome ↔ (s.created k).isSome := by
  simp [State.body]

/-- The plan behind a reference. -/
def State.PlanAt (s : State) (h : Head) (p : CollectionPlanRef) (plan : CollectionPlan) : Prop :=
  ∃ bytes, s.body (collectionPlanKey h.incarnation p) = some bytes ∧
    decodeCollectionPlan bytes h.options = .ok plan

/-- The active plan of `h` lists `k`. -/
def State.Listed (s : State) (h : Head) (k : ImmutableKey) : Prop :=
  ∃ p plan, h.activePlan = some p ∧ s.PlanAt h p plan ∧ ∃ c ∈ plan.candidates, c.key = k

/-- The plan of epoch `e` lists `k`. -/
def State.Planned (s : State) (e : Nat) (k : ImmutableKey) : Prop :=
  ∃ i h v, s.HeadAt i h v ∧ h.collectionEpoch.toNat = e ∧ s.Listed h k

/-- Epoch `e` has begun, and no plan up to it lists `k`. -/
def State.Avoids (s : State) (e : Nat) (k : ImmutableKey) : Prop :=
  (∃ i h v, s.HeadAt i h v ∧ e ≤ h.collectionEpoch.toNat) ∧ ∀ e' ≤ e, ¬ s.Planned e' k

/-! ## The order -/

/-- What can happen to a request. -/
def Flight.Le (f f' : Flight) : Prop :=
  ∃ landed told, f' = ⟨f.tid, f.req, f.sent, landed, told⟩ ∧
    (∀ x, f.landed = some x → landed = some x) ∧ (∀ x, f.told = some x → told = some x)

structure State.Le (s s' : State) : Prop where
  scope : s'.scope = s.scope
  heads : s.headLog <+: s'.headLog
  created : ∀ k x, s.created k = some x → s'.created k = some x
  flights : ∀ (i : Nat) (f : Flight), s.flights[i]? = some f → ∃ f', s'.flights[i]? = some f' ∧ f.Le f'
  ids : s.ids <+: s'.ids
  views : ∀ (i : Nat) (o : ObservedState), s.views[i]? = some o →
    ∃ o', s'.views[i]? = some o' ∧ o'.head = o.head ∧ o'.version = o.version
  calls : s.calls <+: s'.calls
  domains : s.domains ≤ s'.domains
  gone : ∀ k, k.kind ≠ .commit → (s.created k).isSome → s.objects k = none → s'.objects k = none
  planned : ∀ i h v, s.HeadAt i h v → ∀ e k, e ≤ h.collectionEpoch.toNat → s'.Planned e k →
    s.Planned e k

theorem Flight.Le.refl (f : Flight) : f.Le f := ⟨f.landed, f.told, rfl, fun _ h => h, fun _ h => h⟩

theorem Flight.Le.trans {f g k : Flight} (h₁ : f.Le g) (h₂ : g.Le k) : f.Le k := by
  obtain ⟨l, t, rfl, hl, ht⟩ := h₁
  obtain ⟨l', t', rfl, hl', ht'⟩ := h₂
  exact ⟨l', t', rfl, fun x hx => hl' x (hl x hx), fun x hx => ht' x (ht x hx)⟩

theorem Flight.Le.tid {f f' : Flight} (h : f.Le f') : f'.tid = f.tid := by
  obtain ⟨_, _, rfl, _⟩ := h; rfl

theorem Flight.Le.req {f f' : Flight} (h : f.Le f') : f'.req = f.req := by
  obtain ⟨_, _, rfl, _⟩ := h; rfl

theorem Flight.Le.sent {f f' : Flight} (h : f.Le f') : f'.sent = f.sent := by
  obtain ⟨_, _, rfl, _⟩ := h; rfl

variable {s s' s'' : State}

theorem State.HeadAt.lt {i : Nat} {h : Head} {v : UpdateVersion} (hh : s.HeadAt i h v) :
    i < s.now := by
  obtain ⟨bytes, hi, _⟩ := hh
  exact (List.getElem?_eq_some_iff.1 hi).1

theorem getElem?_of_isPrefix {α : Type} {xs ys : List α} (h : xs <+: ys) {i : Nat} {a : α}
    (ha : xs[i]? = some a) : ys[i]? = some a := by
  obtain ⟨zs, rfl⟩ := h
  rw [List.getElem?_append_left (List.getElem?_eq_some_iff.1 ha).1, ha]

theorem State.HeadAt.unique {i : Nat} {h h' : Head} {v v' : UpdateVersion} (a : s.HeadAt i h v)
    (b : s.HeadAt i h' v') : h = h' ∧ v = v' := by
  obtain ⟨x, hx, dx⟩ := a
  obtain ⟨y, hy, dy⟩ := b
  obtain ⟨rfl, rfl⟩ := StoredObject.mk.inj (Option.some.inj (hx.symm.trans hy))
  exact ⟨Except.ok.inj (dx.symm.trans dy), rfl⟩

theorem State.Le.refl (s : State) : s.Le s where
  scope := rfl
  heads := List.prefix_rfl
  created := fun _ _ h => h
  flights := fun _ f h => ⟨f, h, .refl f⟩
  ids := List.prefix_rfl
  views := fun _ o h => ⟨o, h, rfl, rfl⟩
  calls := List.prefix_rfl
  domains := le_rfl
  gone := fun _ _ _ h => h
  planned := fun _ _ _ _ _ _ _ h => h

theorem State.HeadAt.mono {i : Nat} {h : Head} {v : UpdateVersion} (hle : s.Le s')
    (hh : s.HeadAt i h v) : s'.HeadAt i h v := by
  obtain ⟨bytes, hi, hd⟩ := hh
  exact ⟨bytes, getElem?_of_isPrefix hle.heads hi, hd⟩

theorem State.Le.body (hle : s.Le s') : s.body.Le s'.body := by
  intro k bytes hb
  obtain ⟨n, hn⟩ := State.body_eq.1 hb
  exact State.body_eq.2 ⟨n, hle.created k _ hn⟩

theorem State.Le.createdSome (hle : s.Le s') {k : ImmutableKey} (h : (s.created k).isSome) :
    (s'.created k).isSome := by
  obtain ⟨x, hx⟩ := Option.isSome_iff_exists.1 h
  rw [hle.created k x hx]; rfl

theorem State.Le.trans (h₁ : s.Le s') (h₂ : s'.Le s'') : s.Le s'' where
  scope := h₂.scope.trans h₁.scope
  heads := h₁.heads.trans h₂.heads
  created := fun k x h => h₂.created k x (h₁.created k x h)
  flights := by
    intro i f hf
    obtain ⟨f', hf', l⟩ := h₁.flights i f hf
    obtain ⟨f'', hf'', l'⟩ := h₂.flights i f' hf'
    exact ⟨f'', hf'', l.trans l'⟩
  ids := h₁.ids.trans h₂.ids
  views := by
    intro i o ho
    obtain ⟨o', ho', e1, e2⟩ := h₁.views i o ho
    obtain ⟨o'', ho'', e3, e4⟩ := h₂.views i o' ho'
    exact ⟨o'', ho'', e3.trans e1, e4.trans e2⟩
  calls := h₁.calls.trans h₂.calls
  domains := h₁.domains.trans h₂.domains
  gone := fun k hk hc ho => h₂.gone k hk (h₁.createdSome hc) (h₁.gone k hk hc ho)
  planned := fun i h v hh e k he hp =>
    h₁.planned i h v hh e k he (h₂.planned i h v (hh.mono h₁) e k he hp)

theorem State.Le.now (hle : s.Le s') : s.now ≤ s'.now := hle.heads.length_le

theorem State.Le.flights_length (hle : s.Le s') : s.flights.length ≤ s'.flights.length := by
  by_contra hlt
  obtain ⟨f, hf⟩ : ∃ f, s.flights[s'.flights.length]? = some f :=
    ⟨_, List.getElem?_eq_getElem (by omega)⟩
  obtain ⟨f', hf', _⟩ := hle.flights _ f hf
  simp at hf'

theorem State.Le.call {t : Nat} {b : Begun} (hle : s.Le s') (h : s.calls[t]? = some b) :
    s'.calls[t]? = some b := getElem?_of_isPrefix hle.calls h

theorem State.Le.id {x : StorageId × Nat} (hle : s.Le s') (h : x ∈ s.ids) : x ∈ s'.ids :=
  hle.ids.subset h

/-! ## Facts that stay -/

theorem State.PlanAt.mono {h : Head} {p : CollectionPlanRef} {plan : CollectionPlan}
    (hle : s.Le s') (hp : s.PlanAt h p plan) : s'.PlanAt h p plan := by
  obtain ⟨bytes, hb, hd⟩ := hp
  exact ⟨bytes, hle.body _ _ hb, hd⟩

theorem State.PlanAt.unique {h : Head} {p : CollectionPlanRef} {plan plan' : CollectionPlan}
    (a : s.PlanAt h p plan) (b : s.PlanAt h p plan') : plan = plan' := by
  obtain ⟨x, hx, dx⟩ := a
  obtain ⟨y, hy, dy⟩ := b
  obtain rfl := Option.some.inj (hx.symm.trans hy)
  exact Except.ok.inj (dx.symm.trans dy)

theorem State.Listed.mono {h : Head} {k : ImmutableKey} (hle : s.Le s') (hl : s.Listed h k) :
    s'.Listed h k := by
  obtain ⟨p, plan, hp, hpl, hc⟩ := hl
  exact ⟨p, plan, hp, hpl.mono hle, hc⟩

theorem State.Planned.mono {e : Nat} {k : ImmutableKey} (hle : s.Le s') (hp : s.Planned e k) :
    s'.Planned e k := by
  obtain ⟨i, h, v, hh, he, hl⟩ := hp
  exact ⟨i, h, v, hh.mono hle, he, hl.mono hle⟩

theorem State.Avoids.mono {e : Nat} {k : ImmutableKey} (hle : s.Le s') (ha : s.Avoids e k) :
    s'.Avoids e k := by
  obtain ⟨⟨i, h, v, hh, he⟩, hno⟩ := ha
  refine ⟨⟨i, h, v, hh.mono hle, he⟩, fun e' he' hp => hno e' he' ?_⟩
  exact hle.planned i h v hh e' k (he'.trans he) hp

theorem State.Avoids.le {e e' : Nat} {k : ImmutableKey} (ha : s.Avoids e k) (h : e' ≤ e) :
    s.Avoids e' k := by
  obtain ⟨⟨i, hd, v, hh, he⟩, hno⟩ := ha
  exact ⟨⟨i, hd, v, hh, h.trans he⟩, fun d hd => hno d (hd.trans h)⟩

/-- A complete graph of which no key is in a plan up to epoch `e`. -/
structure State.Proven (s : State) (h : Head) (e : Nat) (r : ObjectRef) : Prop where
  stored : Stored s.body h.incarnation h.options r
  avoids : ∀ k, Under s.body h.incarnation h.options r k → s.Avoids e k

theorem State.Proven.mono {h : Head} {e : Nat} {r : ObjectRef} (hle : s.Le s')
    (hp : s.Proven h e r) : s'.Proven h e r where
  stored := hp.stored.mono hle.body
  avoids := fun k hk => (hp.avoids k (hk.back hle.body hp.stored)).mono hle

theorem State.Proven.child {h : Head} {e : Nat} {r c : ObjectRef} {bytes : Bytes} {n : Node}
    (hp : s.Proven h e r) (kind : r.kind = .node)
    (hb : s.body (objectKey h.incarnation r) = some bytes)
    (hd : decodeNode bytes h.options = .ok n) (hc : c ∈ n.children) : s.Proven h e c := by
  refine ⟨?_, fun k hk => hp.avoids k (.child kind hb hd hc hk)⟩
  cases hp.stored with
  | blob kind' _ => rw [kind] at kind'; cases kind'
  | node _ m hd' _ hs =>
      obtain rfl := Option.some.inj (m.stored.symm.trans hb)
      obtain rfl := Except.ok.inj (hd'.symm.trans hd)
      exact hs c hc

end ObjectLog
