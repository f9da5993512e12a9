import ObjectLog.Proof.Stable

/-!
# What the invariant gives

From the justified links between consecutive heads, by induction along them: heads are
numbered by their generation, epochs never fall, the graph of every head is complete and
in no plan up to its epoch, and the plan of a cleared fence has been swept. Then what the
store still holds: everything the durable head needs.
-/

set_option linter.unusedSectionVars false

namespace ObjectLog

variable [Blake3] {s : State}

theorem State.HeadAt.valid {i : Nat} {h : Head} {v : UpdateVersion} (hh : s.HeadAt i h v) :
    h.Valid := by
  obtain ⟨_, _, hd⟩ := hh
  exact (decodeHead_ok hd).2

/-! ## Along the links -/

/-- What a change never touches. -/
theorem Change.Result.identity {h h' : Head} {c : Change} (hr : c.Result h h') :
    h'.logId = h.logId ∧ h'.incarnation = h.incarnation ∧ h'.options = h.options := by
  cases hr with
  | retention _ => rename_i change g _; cases change <;> exact ⟨rfl, rfl, rfl⟩
  | _ => exact ⟨rfl, rfl, rfl⟩

theorem toNat_succ {a b : UInt64} (h : checkedAdd a 1 = some b) : b.toNat = a.toNat + 1 :=
  checkedAdd_toNat h

/-- Only an installation moves the epoch, by one. -/
theorem Change.Result.epoch {h h' : Head} {c : Change} (hr : c.Result h h') :
    (∃ p, c = .install p ∧ h'.activePlan = some p ∧
      h'.collectionEpoch.toNat = h.collectionEpoch.toNat + 1) ∨
    ((∀ p, c ≠ .install p) ∧ h'.collectionEpoch = h.collectionEpoch) := by
  cases hr with
  | append _ _ => exact .inr ⟨nofun, rfl⟩
  | checkpoint _ _ => exact .inr ⟨nofun, rfl⟩
  | retention _ => rename_i change g _; exact .inr ⟨nofun, by cases change <;> rfl⟩
  | install _ he => exact .inl ⟨_, rfl, rfl, toNat_succ he⟩
  | clear _ => exact .inr ⟨nofun, rfl⟩

/-- The fence after a change. -/
theorem Change.Result.activePlan {h h' : Head} {c : Change} (hr : c.Result h h') :
    (∃ p, c = .install p ∧ h'.activePlan = some p) ∨ (c = .clear ∧ h'.activePlan = none) ∨
    ((∀ p, c ≠ .install p) ∧ c ≠ .clear ∧ h'.activePlan = h.activePlan) := by
  cases hr with
  | append _ _ => exact .inr (.inr ⟨nofun, nofun, rfl⟩)
  | checkpoint _ _ => exact .inr (.inr ⟨nofun, nofun, rfl⟩)
  | retention _ => rename_i change g _; exact .inr (.inr ⟨nofun, nofun, by cases change <;> rfl⟩)
  | install _ _ => exact .inl ⟨_, rfl, rfl⟩
  | clear _ => exact .inr (.inl ⟨rfl, rfl⟩)

/-- The tail and the checkpoint after a change. -/
theorem Change.Result.records {h h' : Head} {c : Change} (hr : c.Result h h') :
    (∃ ref, c = .append ref ∧ h'.tail = h.tail ++ [ref] ∧ h'.checkpoint = h.checkpoint) ∨
    (∃ through object i, c = .checkpoint through object ∧ h.tail[i]? = some through ∧
      h'.tail = h.tail.drop (i + 1) ∧ h'.checkpoint = some
        { throughSequence := through.sequence, throughCommit := through.digest, object }) ∨
    ((∀ ref, c ≠ .append ref) ∧ (∀ through object, c ≠ .checkpoint through object) ∧
      h'.tail = h.tail ∧ h'.checkpoint = h.checkpoint) := by
  cases hr with
  | append _ _ => exact .inl ⟨_, rfl, rfl, rfl⟩
  | checkpoint _ hi => exact .inr (.inl ⟨_, _, _, rfl, hi, rfl, rfl⟩)
  | retention _ =>
      rename_i change g _
      exact .inr (.inr ⟨nofun, nofun, by cases change <;> rfl, by cases change <;> rfl⟩)
  | install _ _ => exact .inr (.inr ⟨nofun, nofun, rfl, rfl⟩)
  | clear _ => exact .inr (.inr ⟨nofun, nofun, rfl, rfl⟩)

theorem Inv.headAt (inv : Inv s) {i : Nat} (hi : i < s.now) : ∃ h v, s.HeadAt i h v := by
  obtain ⟨st, hst⟩ : ∃ st, s.headLog[i]? = some st := ⟨_, List.getElem?_eq_getElem hi⟩
  obtain ⟨h, hd, _⟩ := inv.heads st (List.mem_of_getElem? hst)
  exact ⟨h, st.version, st.bytes, hst, hd⟩

theorem Inv.replaces (inv : Inv s) {i : Nat} {h h' : Head} {v v' : UpdateVersion}
    (a : s.HeadAt i h v) (b : s.HeadAt (i + 1) h' v') :
    ∃ t c, s.Replaces t (i + 1) i h h' c := by
  obtain ⟨_, f, _, c, _, _, _, hr⟩ := inv.links i h v h' v' a b
  exact ⟨f.tid, c, hr⟩

/-- **Induction along the heads.** -/
theorem Inv.induct (inv : Inv s) {P : Nat → Head → Prop}
    (init : ∀ inc opts, P 0 (Head.empty s.scope inc opts))
    (step : ∀ i h v h' v' t c, s.HeadAt i h v → s.HeadAt (i + 1) h' v' →
      s.Replaces t (i + 1) i h h' c → P i h → P (i + 1) h') :
    ∀ {i h v}, s.HeadAt i h v → P i h := by
  intro i
  induction i with
  | zero =>
      intro h v hh
      obtain ⟨inc, opts, rfl⟩ := inv.first h v hh
      exact init inc opts
  | succ i ih =>
      intro h' v' hh'
      obtain ⟨h, v, hh⟩ := inv.headAt (i := i) (by have := hh'.lt; omega)
      obtain ⟨t, c, hr⟩ := inv.replaces hh hh'
      exact step i h v h' v' t c hh hh' hr (ih hh)

/-- The generation of a head is its number. -/
theorem Inv.generation (inv : Inv s) {i : Nat} {h : Head} {v : UpdateVersion}
    (hh : s.HeadAt i h v) : h.generation.toNat = i := by
  refine inv.induct (P := fun i h => h.generation.toNat = i) ?_ ?_ hh
  · exact fun _ _ => rfl
  · intro i h v h' v' t c _ _ hr ih
    rw [hr.result.generation, ih]

theorem Inv.identity (inv : Inv s) {i j : Nat} {h h' : Head} {v v' : UpdateVersion}
    (a : s.HeadAt i h v) (b : s.HeadAt j h' v') :
    h.logId = s.scope ∧ h'.incarnation = h.incarnation ∧ h'.options = h.options := by
  -- both agree with the first head
  obtain ⟨h₀, v₀, hh₀⟩ := inv.headAt (i := 0) (by have := a.lt; omega)
  have key : ∀ {i h v}, s.HeadAt i h v →
      h.logId = s.scope ∧ h.incarnation = h₀.incarnation ∧ h.options = h₀.options := by
    intro i
    induction i with
    | zero =>
        intro h v hh
        obtain ⟨rfl, rfl⟩ := hh.unique hh₀
        obtain ⟨inc, opts, rfl⟩ := inv.first _ _ hh
        exact ⟨rfl, rfl, rfl⟩
    | succ i ih =>
        intro h' v' hh'
        obtain ⟨h, v, hh⟩ := inv.headAt (i := i) (by have := hh'.lt; omega)
        obtain ⟨t, c, hr⟩ := inv.replaces hh hh'
        obtain ⟨e1, e2, e3⟩ := hr.result.identity
        obtain ⟨f1, f2, f3⟩ := ih hh
        exact ⟨e1.trans f1, e2.trans f2, e3.trans f3⟩
  obtain ⟨e1, e2, e3⟩ := key a
  obtain ⟨_, f2, f3⟩ := key b
  exact ⟨e1, f2.trans e2.symm, f3.trans e3.symm⟩

/-- A version stands for one moment. -/
theorem Inv.version_unique (inv : Inv s) {i j : Nat} {h h' : Head} {v v' : UpdateVersion}
    (a : s.HeadAt i h v) (b : s.HeadAt j h' v')
    (hv : v = v' ∨ (v'.eTag.isSome ∧ v.eTag = v'.eTag)) : i = j ∧ h = h' := by
  obtain ⟨x, hx, dx⟩ := a
  obtain ⟨y, hy, dy⟩ := b
  have he : x = y := inv.versions _ (List.mem_of_getElem? hx) _ (List.mem_of_getElem? hy) hv
  subst he
  obtain rfl := Except.ok.inj (dx.symm.trans dy)
  refine ⟨?_, rfl⟩
  rw [← inv.generation ⟨x, hx, dx⟩, ← inv.generation ⟨x, hy, dy⟩]

/-- Two durable heads are equal only if they are the same one. -/
theorem Inv.head_unique (inv : Inv s) {i j : Nat} {h : Head} {v v' : UpdateVersion}
    (a : s.HeadAt i h v) (b : s.HeadAt j h v') : i = j := by
  rw [← inv.generation a, ← inv.generation b]

theorem Inv.epoch_mono (inv : Inv s) {i j : Nat} {h h' : Head} {v v' : UpdateVersion}
    (hij : i ≤ j) (a : s.HeadAt i h v) (b : s.HeadAt j h' v') :
    h.collectionEpoch.toNat ≤ h'.collectionEpoch.toNat := by
  induction j generalizing h' v' with
  | zero =>
      obtain rfl : i = 0 := by omega
      rw [(a.unique b).1]
  | succ j ih =>
      rcases Nat.lt_or_ge j i with hlt | hge
      · obtain rfl : i = j + 1 := by omega
        rw [(a.unique b).1]
      · obtain ⟨hj, vj, hhj⟩ := inv.headAt (i := j) (by have := b.lt; omega)
        obtain ⟨t, c, hr⟩ := inv.replaces hhj b
        refine (ih hge hhj).trans ?_
        rcases hr.result.epoch with ⟨_, _, _, he⟩ | ⟨_, he⟩
        · omega
        · rw [he]

/-! ## Plans -/

/-- Where the fence of a head comes from. -/
structure State.Origin (s : State) (n : Nat) (p : CollectionPlanRef) (i : Nat) (h : Head)
    (plan : CollectionPlan) (created : Nat) : Prop where
  lt : i < n
  head : ∃ v, s.HeadAt i h v
  unfenced : h.activePlan = none
  named : ∀ m h' v', i < m → m ≤ n → s.HeadAt m h' v' → h'.activePlan = some p
  flight : ∃ j, s.InstallFlight j i (collectionPlanKey h.incarnation p)
  body : s.PlanBody h p plan created
  later : i < created
  epoch : plan.collectionEpoch.toNat = h.collectionEpoch.toNat + 1
  candidates : ∀ c ∈ plan.candidates,
    (∃ bytes m, s.created c.key = some (bytes, m) ∧ m ≤ i + 1) ∧ ¬ Reaches s.body h c.key ∧
      c.key ≠ collectionPlanKey h.incarnation p

/-- **Every fence was installed, by one request, and has been there since.** -/
theorem Inv.origin (inv : Inv s) {n : Nat} {h : Head} {v : UpdateVersion} {p : CollectionPlanRef}
    (hh : s.HeadAt n h v) (hp : h.activePlan = some p) :
    ∃ i hi plan created, s.Origin n p i hi plan created := by
  induction n generalizing h v with
  | zero =>
      obtain ⟨inc, opts, rfl⟩ := inv.first h v hh
      cases hp
  | succ n ih =>
      obtain ⟨g, u, hg⟩ := inv.headAt (i := n) (by have := hh.lt; omega)
      obtain ⟨j, f, bytes, c, hf, hreq, hb, hr⟩ := inv.links n g u h v hg hh
      rcases hr.result.activePlan with ⟨p', rfl, hp'⟩ | ⟨rfl, hp'⟩ | ⟨hne, -, hp'⟩
      · -- installed just now
        obtain rfl := Option.some.inj (hp'.symm.trans hp)
        obtain ⟨-, -, plan, created, hbody, hlt, hepoch, hc⟩ := hr.justified
        obtain ⟨hnone, -, -⟩ := hr.guard
        obtain ⟨bytes', hb', hd'⟩ := hh
        obtain ⟨rfl, -⟩ := StoredObject.mk.inj (Option.some.inj (hb.symm.trans hb'))
        refine ⟨n, g, plan, created, by omega, ⟨u, hg⟩, hnone, ?_, ?_, hbody, hlt, hepoch, hc⟩
        · intro m h' v' h1 h2 hm
          obtain rfl : m = n + 1 := by omega
          rw [(hm.unique ⟨bytes, hb', hd'⟩).1, hp]
        · exact ⟨j, f, bytes, u, g, h, p', hf, hreq, hg, hnone, hd', hp, by
            rw [hr.result.identity.2.1]⟩
      · rw [hp'] at hp; cases hp
      · -- taken over from the head before
        obtain ⟨i, hi, plan, created, o⟩ := ih hg (hp'.symm.trans hp)
        refine ⟨i, hi, plan, created, { o with lt := by have := o.lt; omega, named := ?_ }⟩
        intro m h' v' h1 h2 hm
        rcases Nat.lt_or_ge n m with hlt | hge
        · obtain rfl : m = n + 1 := by omega
          rw [(hm.unique hh).1, hp]
        · exact o.named m h' v' h1 hge hm

/-- The epoch of a fenced head is one more than that of the head it was installed on. -/
theorem Inv.origin_epoch (inv : Inv s) {n : Nat} {h : Head} {v : UpdateVersion}
    {p : CollectionPlanRef} {i : Nat} {hi : Head} {plan : CollectionPlan} {created : Nat}
    (hh : s.HeadAt n h v) (o : s.Origin n p i hi plan created) :
    h.collectionEpoch.toNat = hi.collectionEpoch.toNat + 1 := by
  have hlt := o.lt
  obtain ⟨v₀, hh₀⟩ := o.head
  -- along the heads after the installation
  have key : ∀ m h' v', i < m → m ≤ n → s.HeadAt m h' v' →
      h'.collectionEpoch.toNat = hi.collectionEpoch.toNat + 1 := by
    intro m
    induction m with
    | zero => intro h' v' h1; omega
    | succ m ih =>
        intro h' v' h1 h2 hm
        obtain ⟨g, u, hg⟩ := inv.headAt (i := m) (by have := hm.lt; omega)
        obtain ⟨t, c, hr⟩ := inv.replaces hg hm
        have hp' := o.named (m + 1) h' v' h1 h2 hm
        rcases Nat.lt_or_ge i m with hlt' | hge
        · have hg' := ih g u hlt' (by omega) hg
          rcases hr.result.epoch with ⟨p', rfl, -, -⟩ | ⟨-, he⟩
          · have hnone := hr.guard.1
            rw [o.named m g u hlt' (by omega) hg] at hnone
            cases hnone
          · rw [he, hg']
        · obtain rfl : m = i := by omega
          obtain ⟨rfl, -⟩ := hg.unique hh₀
          rcases hr.result.epoch with ⟨_, -, -, he⟩ | ⟨hne, -⟩
          · exact he
          · -- nothing but an installation fences an open head
            rcases hr.result.activePlan with ⟨p', rfl, -⟩ | ⟨-, hn⟩ | ⟨-, -, hn⟩
            · exact absurd rfl (hne p')
            · rw [hn] at hp'; cases hp'
            · rw [hn, o.unfenced] at hp'; cases hp'
  exact key n h v hlt le_rfl hh

/-- Epochs have one plan. -/
theorem Inv.origin_unique (inv : Inv s) {n n' i i' : Nat} {h h' hi hi' : Head}
    {v v' : UpdateVersion} {p p' : CollectionPlanRef} {plan plan' : CollectionPlan} {c c' : Nat}
    (hh : s.HeadAt n h v) (hh' : s.HeadAt n' h' v')
    (he : h.collectionEpoch.toNat = h'.collectionEpoch.toNat) (o : s.Origin n p i hi plan c)
    (o' : s.Origin n' p' i' hi' plan' c') : i = i' ∧ hi = hi' ∧ p = p' := by
  obtain ⟨vi, hhi⟩ := o.head
  obtain ⟨vi', hhi'⟩ := o'.head
  have e1 := inv.origin_epoch hh o
  have e2 := inv.origin_epoch hh' o'
  -- the first head of the epoch is the one after the installation
  have first : ∀ {n p i hi plan c}, s.Origin n p i hi plan c → n < s.now →
      ∃ g u, s.HeadAt (i + 1) g u ∧ g.activePlan = some p ∧
        g.collectionEpoch.toNat = hi.collectionEpoch.toNat + 1 := by
    intro n p i hi plan c o hn
    have := o.lt
    obtain ⟨g, u, hg⟩ := inv.headAt (i := i + 1) (by omega)
    have o₁ : s.Origin (i + 1) p i hi plan c :=
      { o with lt := by omega, named := fun m a b h1 h2 => o.named m a b h1 (by omega) }
    exact ⟨g, u, hg, o₁.named _ g u (by omega) le_rfl hg, inv.origin_epoch hg o₁⟩
  obtain ⟨g, u, hg, hp, eg⟩ := first o hh.lt
  obtain ⟨g', u', hg', hp', eg'⟩ := first o' hh'.lt
  obtain rfl : i = i' := by
    rcases Nat.lt_trichotomy i i' with hlt | heq | hgt
    · have := inv.epoch_mono (show i + 1 ≤ i' by omega) hg hhi'
      omega
    · exact heq
    · have := inv.epoch_mono (show i' + 1 ≤ i by omega) hg' hhi
      omega
  obtain ⟨rfl, -⟩ := hhi.unique hhi'
  obtain ⟨rfl, -⟩ := hg.unique hg'
  exact ⟨rfl, rfl, Option.some.inj (hp.symm.trans hp')⟩

/-- A planned key, with where its plan comes from. -/
theorem Inv.planned_origin (inv : Inv s) {e : Nat} {k : ImmutableKey} (hp : s.Planned e k) :
    ∃ n h v p i hi plan created, s.HeadAt n h v ∧ h.collectionEpoch.toNat = e ∧
      h.activePlan = some p ∧ s.Origin n p i hi plan created ∧
      ∃ c ∈ plan.candidates, c.key = k := by
  obtain ⟨n, h, v, hh, he, p, plan, hap, hpl, hc⟩ := hp
  obtain ⟨i, hi, plan', created, o⟩ := inv.origin hh hap
  obtain ⟨vi, hhi⟩ := o.head
  obtain ⟨-, e2, e3⟩ := inv.identity hh hhi
  have hsame : plan' = plan := by
    obtain ⟨bytes, hb, hd⟩ := o.body.at'
    rw [e2] at hb
    rw [e3] at hd
    exact State.PlanAt.unique ⟨bytes, hb, hd⟩ hpl
  subst hsame
  exact ⟨n, h, v, p, i, hi, plan', created, hh, he, hap, o, hc⟩

/-- The plan of an epoch is listed by the first head of the epoch and by no other plan. -/
theorem Inv.planned_listed (inv : Inv s) {n : Nat} {h : Head} {v : UpdateVersion}
    {p : CollectionPlanRef} {k : ImmutableKey} (hh : s.HeadAt n h v) (hp : h.activePlan = some p)
    (hk : s.Planned h.collectionEpoch.toNat k) : s.Listed h k := by
  obtain ⟨n', h', v', p', i', hi', plan', c', hh', he', hp', o', hc'⟩ := inv.planned_origin hk
  obtain ⟨i, hi, plan, c, o⟩ := inv.origin hh hp
  obtain ⟨rfl, rfl, rfl⟩ := inv.origin_unique hh hh' he'.symm o o'
  obtain ⟨vi, hhi⟩ := o.head
  obtain ⟨-, e2, e3⟩ := inv.identity hh hhi
  obtain ⟨bytes, hb, hd⟩ := o'.body.at'
  rw [e2] at hb
  rw [e3] at hd
  exact ⟨p, plan', hp, ⟨bytes, hb, hd⟩, hc'⟩

/-- **A key younger than a head is in no plan up to the head's epoch.** A plan lists what
was there when it was installed. -/
theorem Inv.fresh_avoids (inv : Inv s) {i n : Nat} {h : Head} {v : UpdateVersion}
    {k : ImmutableKey} {bytes : Bytes} (hh : s.HeadAt i h v) (hc : s.created k = some (bytes, n))
    (hi : i < n) : s.Avoids h.collectionEpoch.toNat k := by
  refine ⟨⟨i, h, v, hh, le_rfl⟩, fun e he hp => ?_⟩
  obtain ⟨m, g, u, p, j, hj, plan, cr, hg, hge, hgp, o, c, hcm, rfl⟩ := inv.planned_origin hp
  obtain ⟨⟨b, m', hm', hle⟩, -, -⟩ := o.candidates c hcm
  obtain ⟨-, rfl⟩ := Prod.mk.inj (Option.some.inj (hm'.symm.trans hc))
  obtain ⟨vj, hhj⟩ := o.head
  have hep := inv.origin_epoch hg o
  -- the installation is not after the head, or its epoch would be
  rcases Nat.lt_or_ge j i with hlt | hge'
  · omega
  · have := inv.epoch_mono hge' hh hhj
    omega

/-! ## The graph of every head -/

theorem Inv.headStored (inv : Inv s) {i : Nat} {h : Head} {v : UpdateVersion}
    (hh : s.HeadAt i h v) : HeadStored s.body h := by
  refine inv.induct (P := fun _ h => HeadStored s.body h) ?_ ?_ hh
  · intro inc opts
    exact ⟨fun c hc => by simp [Head.empty] at hc, fun c hc => by simp [Head.empty] at hc⟩
  · intro i h v h' v' t c _ _ hr ih
    obtain ⟨e1, e2, e3⟩ := hr.result.identity
    have commits : ∀ c ∈ h.tail, ∃ commit, CommitBody s.body h' c commit := by
      intro c hc
      obtain ⟨commit, b⟩ := ih.commits c hc
      exact ⟨commit, b.congr e1 e2 e3⟩
    have checkpoint : ∀ c, h.checkpoint = some c → ∃ ck, CheckpointBody s.body h' c ck := by
      intro c hc
      obtain ⟨ck, b⟩ := ih.checkpoint c hc
      exact ⟨ck, b.congr e1 e2 e3⟩
    rcases hr.result.records with ⟨ref, rfl, ht, hc⟩ | ⟨through, object, j, rfl, -, ht, hc⟩ |
      ⟨-, -, ht, hc⟩
    · obtain ⟨-, -, q, log, p, -, -, -, hb, -⟩ := hr.justified
      refine ⟨fun c hm => ?_, fun c hm => checkpoint c (hc ▸ hm)⟩
      rw [ht, List.mem_append, List.mem_singleton] at hm
      rcases hm with hm | rfl
      · exact commits c hm
      · exact ⟨_, hb.congr e1 e2 e3⟩
    · refine ⟨fun c hm => commits c (List.mem_of_mem_drop (ht ▸ hm)), fun c hm => ?_⟩
      obtain rfl := Option.some.inj (hc.symm.trans hm)
      obtain ⟨-, -, -, ck, hb, -⟩ := hr.justified
      exact ⟨ck, hb.congr e1 e2 e3⟩
    · exact ⟨fun c hm => commits c (ht ▸ hm), fun c hm => checkpoint c (hc ▸ hm)⟩

theorem State.Proven.congr {h h' : Head} {e : Nat} {r : ObjectRef}
    (hi : h'.incarnation = h.incarnation) (ho : h'.options = h.options) (hp : s.Proven h e r) :
    s.Proven h' e r := by
  obtain ⟨h1, h2⟩ := hp
  constructor
  · rw [hi, ho]; exact h1
  · rw [hi, ho]; exact h2

/-- **The graph of a head is in no plan up to the epoch of the head.** -/
theorem Inv.reaches_avoids (inv : Inv s) {i : Nat} {h : Head} {v : UpdateVersion}
    {k : ImmutableKey} (hh : s.HeadAt i h v) (hr : Reaches s.body h k) :
    s.Avoids h.collectionEpoch.toNat k := by
  revert k
  refine inv.induct (P := fun _ h => ∀ {k}, Reaches s.body h k →
    s.Avoids h.collectionEpoch.toNat k) ?_ ?_ hh
  · intro inc opts k hr
    cases hr with
    | commit hc => simp [Head.empty] at hc
    | commitObject hc => simp [Head.empty] at hc
    | checkpoint hc => simp [Head.empty] at hc
    | checkpointObject hc => simp [Head.empty] at hc
  · intro i h v h' v' t c hh hh' hr ih k hk
    obtain ⟨-, e2, e3⟩ := hr.result.identity
    have hres := hr.result.epoch
    rcases hr.result.records with ⟨ref, rfl, ht, hc⟩ | ⟨through, object, j, rfl, -, ht, hc⟩ |
      ⟨-, -, ht, hc⟩
    · -- an append reaches the new record besides
      rcases hres with ⟨_, hne, -⟩ | ⟨-, he⟩
      · cases hne
      obtain ⟨-, hav, q, log, p, -, -, -, hb, ho⟩ := hr.justified
      rw [he]
      cases hk with
      | commit hm =>
          rw [ht, List.mem_append, List.mem_singleton] at hm
          rw [e2]
          rcases hm with hm | rfl
          · exact ih (.commit hm)
          · exact hav
      | commitObject hm hbd hd ho' hu =>
          rw [ht, List.mem_append, List.mem_singleton] at hm
          rw [e2] at hbd hu
          rw [e3] at hu
          rcases hm with hm | rfl
          · exact ih (.commitObject hm hbd hd ho' hu)
          · obtain rfl := Option.some.inj (hb.stored.symm.trans hbd)
            obtain rfl := Except.ok.inj (hb.decode.symm.trans hd)
            exact (ho _ ho').avoids _ hu
      | checkpoint hm =>
          rw [e2]
          exact ih (.checkpoint (hc ▸ hm))
      | checkpointObject hm hbd hd ho' hu =>
          rw [e2] at hbd hu
          rw [e3] at hu
          exact ih (.checkpointObject (hc ▸ hm) hbd hd ho' hu)
    · -- a checkpoint reaches the new checkpoint and what is left of the tail
      rcases hres with ⟨_, hne, -⟩ | ⟨-, he⟩
      · cases hne
      obtain ⟨-, -, hav, ck, hb, ho⟩ := hr.justified
      rw [he]
      cases hk with
      | commit hm =>
          rw [e2]
          exact ih (.commit (List.mem_of_mem_drop (ht ▸ hm)))
      | commitObject hm hbd hd ho' hu =>
          rw [e2] at hbd hu
          rw [e3] at hu
          exact ih (.commitObject (List.mem_of_mem_drop (ht ▸ hm)) hbd hd ho' hu)
      | checkpoint hm =>
          obtain rfl := Option.some.inj (hc.symm.trans hm)
          rw [e2]
          exact hav
      | checkpointObject hm hbd hd ho' hu =>
          obtain rfl := Option.some.inj (hc.symm.trans hm)
          rw [e2] at hbd hu
          rw [e3] at hu
          obtain rfl := Option.some.inj (hb.stored.symm.trans hbd)
          obtain rfl := Except.ok.inj (hb.decode.symm.trans hd)
          exact (ho _ ho').avoids _ hu
    · have hk' : Reaches s.body h k := hk.congr ht hc e2 e3
      rcases hres with ⟨p, rfl, hp, he⟩ | ⟨-, he⟩
      · -- the new plan spares what its head reaches
        obtain ⟨-, hno⟩ := ih hk'
        refine ⟨⟨i + 1, h', v', hh', le_rfl⟩, fun e' he' hpl => ?_⟩
        rcases Nat.lt_or_ge h.collectionEpoch.toNat e' with hlt | hge
        · obtain rfl : e' = h'.collectionEpoch.toNat := by omega
          obtain ⟨p', plan, hap, hat, c, hm, rfl⟩ := inv.planned_listed hh' hp hpl
          obtain rfl := Option.some.inj (hp.symm.trans hap)
          obtain ⟨-, -, plan', n, hbody, -, -, hcs⟩ := hr.justified
          obtain ⟨bytes, hbd, hd⟩ := hat
          rw [e2] at hbd
          rw [e3] at hd
          obtain rfl := State.PlanAt.unique hbody.at' ⟨bytes, hbd, hd⟩
          exact (hcs c hm).2.1 hk'
        · exact hno e' hge hpl
      · rw [he]
        exact ih hk'

/-! ## Candidates -/

/-- What `encodePrepared` returns. -/
theorem encodePrepared_ok {log : Log} {p : PreparedCommit} {ref : CommitRef} {bytes : Bytes}
    (h : log.encodePrepared p = .ok (ref, bytes)) :
    bytes = encodeCommit (log.preparedCommit p) ∧
      bytes.length ≤ log.options.maxCommitBytes.toNat ∧
      ref.sequence = p.view.head.nextSequence ∧ ref.transactionId = p.transactionId ∧
      ref.storageId = p.storageId ∧ ref.digest = Digest.of bytes ∧
      ref.len.toNat = bytes.length := by
  simp only [Log.encodePrepared, commitReference, bind_ok, ensure_ok, okOr_ok, pure, Except.pure,
    Except.ok.injEq, Prod.mk.injEq, exists_const] at h
  obtain ⟨hlen, _, ⟨len, hl, rfl⟩, rfl, rfl⟩ := h
  exact ⟨rfl, hlen, rfl, rfl, rfl, rfl, toU64_toNat hl⟩

/-- The call that drew the identity of a candidate says everything else about it. -/
theorem Inv.prepared_unique (inv : Inv s) {q q' : Nat} {log log' : Log} {p p' : PreparedCommit}
    (a : s.Prepared q log p) (b : s.Prepared q' log' p') (hid : p.storageId = p'.storageId) :
    q = q' ∧ log = log' ∧ p.view = p'.view ∧ p.transactionId = p'.transactionId ∧
      p.operation = p'.operation ∧ p.result = p'.result ∧ p.objects = p'.objects := by
  obtain ⟨⟨x, xs, hx, hcx, hox⟩, hidx⟩ := a
  obtain ⟨⟨y, ys, hy, hcy, hoy⟩, hidy⟩ := b
  obtain rfl := inv.owner _ _ _ hidx (hid ▸ hidy)
  obtain rfl := Option.some.inj (hx.symm.trans hy)
  obtain ⟨h1, h2, h3, h4, h5, rfl⟩ := Call.prepare.inj (hcx.symm.trans hcy)
  exact ⟨rfl, h1, h2, h3, h4, h5, hox.trans hoy.symm⟩

/-- Two candidates of one identity have one body. -/
theorem Inv.prepared_bytes (inv : Inv s) {q q' : Nat} {log log' : Log} {p p' : PreparedCommit}
    {ref ref' : CommitRef} {bytes bytes' : Bytes} (a : s.Prepared q log p)
    (b : s.Prepared q' log' p') (ea : log.encodePrepared p = .ok (ref, bytes))
    (eb : log'.encodePrepared p' = .ok (ref', bytes')) (hid : ref.storageId = ref'.storageId) :
    ref = ref' ∧ bytes = bytes' := by
  have hida := (encodePrepared_ok ea).2.2.2.2.1
  have hidb := (encodePrepared_ok eb).2.2.2.2.1
  obtain ⟨-, rfl, h1, h2, h3, h4, h5⟩ := inv.prepared_unique a b (by rw [← hida, ← hidb, hid])
  have hc : log.encodePrepared p = log.encodePrepared p' := by
    unfold Log.encodePrepared Log.preparedCommit
    rw [h1, h2, h3, h4, h5, ← hida, ← hidb, hid]
  exact Prod.mk.inj (Except.ok.inj (ea.symm.trans (hc.trans eb)))

/-! ## The chain of parents -/

/-- The parent that the commit at `index` of the tail names. -/
def Head.parentAt (h : Head) : Nat → Option Digest
  | 0 => h.checkpoint.map CheckpointRef.throughCommit
  | index + 1 => h.tail[index]?.map CommitRef.digest

theorem View.expectedTipAt_eq (view : View) (index : Nat) :
    view.expectedTipAt index = view.head.parentAt index := by
  cases index <;> rfl

/-- The tip is the parent of the next commit. -/
theorem Head.tip_eq_parentAt (h : Head) : h.tip = h.parentAt h.tail.length := by
  unfold Head.tip
  rw [List.getLast?_eq_getElem?]
  cases hl : h.tail.length with
  | zero =>
      rw [List.length_eq_zero_iff] at hl
      simp [hl, Head.parentAt]
  | succ n =>
      have : n < h.tail.length := by omega
      simp [Head.parentAt, List.getElem?_eq_getElem this]

theorem CommitBody.unique {body : Bodies} {h h' : Head} {c : CommitRef} {x y : Commit}
    (hi : h'.incarnation = h.incarnation) (a : CommitBody body h c x) (b : CommitBody body h' c y) :
    x = y := by
  have hb := b.stored
  rw [hi] at hb
  have he := Option.some.inj (a.stored.symm.trans hb)
  have hd := a.decode
  rw [he] at hd
  exact Except.ok.inj (hd.symm.trans b.decode)

theorem sameBase_iff {h h' : Head} : SameBase h h' ↔ h.logId = h'.logId ∧
    h.incarnation = h'.incarnation ∧ h.options = h'.options ∧ h.nextSequence = h'.nextSequence ∧
    h.checkpoint = h'.checkpoint ∧ h.tail = h'.tail ∧ h.recentOutcomes = h'.recentOutcomes ∧
    h.collectionEpoch = h'.collectionEpoch ∧ h.activePlan = h'.activePlan := by
  simp only [SameBase, Head.hasSamePublicationBase, Bool.and_eq_true, beq_iff_eq, and_assoc]

theorem SameBase.refl (h : Head) : SameBase h h :=
  sameBase_iff.2 ⟨rfl, rfl, rfl, rfl, rfl, rfl, rfl, rfl, rfl⟩

theorem SameBase.symm {h h' : Head} (a : SameBase h h') : SameBase h' h := by
  obtain ⟨h1, h2, h3, h4, h5, h6, h7, h8, h9⟩ := sameBase_iff.1 a
  exact sameBase_iff.2 ⟨h1.symm, h2.symm, h3.symm, h4.symm, h5.symm, h6.symm, h7.symm, h8.symm,
    h9.symm⟩

theorem SameBase.trans {h h' h'' : Head} (a : SameBase h h') (b : SameBase h' h'') :
    SameBase h h'' := by
  obtain ⟨h1, h2, h3, h4, h5, h6, h7, h8, h9⟩ := sameBase_iff.1 a
  obtain ⟨g1, g2, g3, g4, g5, g6, g7, g8, g9⟩ := sameBase_iff.1 b
  exact sameBase_iff.2 ⟨h1.trans g1, h2.trans g2, h3.trans g3, h4.trans g4, h5.trans g5,
    h6.trans g6, h7.trans g7, h8.trans g8, h9.trans g9⟩

theorem SameBase.tip {h h' : Head} (hs : SameBase h h') : h.tip = h'.tip := by
  obtain ⟨-, -, -, -, hc, ht, -⟩ := sameBase_iff.1 hs
  unfold Head.tip
  rw [hc, ht]

/-- **The tail of every durable head is a chain**: each body names the digest of the commit
before it. -/
theorem Inv.chain (inv : Inv s) {i : Nat} {h : Head} {v : UpdateVersion} (hh : s.HeadAt i h v)
    {k : Nat} {c : CommitRef} {commit : Commit} (hk : h.tail[k]? = some c)
    (hb : CommitBody s.body h c commit) : commit.expectedTip = h.parentAt k := by
  revert k c commit
  refine inv.induct (P := fun _ h => ∀ {k c commit}, h.tail[k]? = some c →
    CommitBody s.body h c commit → commit.expectedTip = h.parentAt k) ?_ ?_ hh
  · intro inc opts k c commit hk
    simp [Head.empty] at hk
  · intro i h v h' v' t ch hh hh' hr ih k c commit hk hb
    obtain ⟨e1, e2, e3⟩ := hr.result.identity
    have hb₀ : CommitBody s.body h c commit := hb.congr e1.symm e2.symm e3.symm
    rcases hr.result.records with ⟨ref, rfl, ht, hc⟩ | ⟨through, object, j, rfl, hj, ht, hc⟩ |
      ⟨-, -, ht, hc⟩
    · rw [ht] at hk
      rcases Nat.lt_or_ge k h.tail.length with hlt | hge
      · rw [List.getElem?_append_left hlt] at hk
        rw [ih hk hb₀]
        cases k with
        | zero => simp [Head.parentAt, hc]
        | succ k => simp [Head.parentAt, ht, List.getElem?_append_left (by omega : k < h.tail.length)]
      · -- the new commit names the tip of the head it was appended to
        rw [List.getElem?_append_right hge, List.getElem?_singleton] at hk
        split at hk
        · obtain rfl := Option.some.inj hk
          obtain ⟨-, -, q, log, p, -, -, hs, hbp, -⟩ := hr.justified
          obtain rfl := hb₀.unique rfl hbp
          show p.view.head.tip = _
          obtain rfl : k = h.tail.length := by omega
          rw [hs.tip, h.tip_eq_parentAt]
          cases hl : h.tail.length with
          | zero => simp [Head.parentAt, hc]
          | succ n => simp [Head.parentAt, ht, List.getElem?_append_left (by omega : n < h.tail.length)]
        · cases hk
    · rw [ht, List.getElem?_drop] at hk
      rw [ih hk hb₀]
      cases k with
      | zero =>
          rw [show j + 1 + 0 = j + 1 from rfl]
          simp [Head.parentAt, hc, hj]
      | succ k =>
          rw [show j + 1 + (k + 1) = (j + 1 + k) + 1 by omega]
          simp [Head.parentAt, ht]
    · rw [ht] at hk
      rw [ih hk hb₀]
      cases k <;> simp [Head.parentAt, ht, hc]

end ObjectLog
