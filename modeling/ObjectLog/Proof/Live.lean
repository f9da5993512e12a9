import ObjectLog.Proof.Safety

/-!
# What the store still holds

Deletes are late, repeated and reordered, so nothing is said about when one lands. What
is said: a key that a plan has listed is gone once the fence of the plan is gone
(`Inv.swept`), and a key that the durable head needs is in no plan so far, so no delete
of it was ever sent (`Inv.live`, `Inv.plan_live`).
-/

set_option linter.unusedSectionVars false

namespace ObjectLog

variable [Blake3] {s : State}

/-- A delete that was answered has happened, and its key stays away. -/
theorem Inv.deleted (inv : Inv s) {t i L : Nat} {k : ImmutableKey} (hd : s.Deleted t i L k)
    (hk : k.kind ≠ .commit) : s.objects k = none := by
  obtain ⟨j, sent, n, landed, hf, -, -⟩ := hd
  have ok := inv.flights j _ hf
  obtain ⟨-, ht⟩ := ok.told n (.ok ()) rfl
  rcases ht () rfl with ⟨m, -, hl⟩ | hr
  · obtain ⟨-, -, ha⟩ := ok.landed m () hl
    exact ha hk
  · exact hr.elim

/-- A key whose plan is no longer named was deleted by the call that cleared the fence. -/
theorem Inv.unlisted (inv : Inv s) {k : ImmutableKey} {m n : Nat} {g h : Head}
    {u v : UpdateVersion} (hg : s.HeadAt m g u) (hl : s.Listed g k) (hmn : m ≤ n)
    (hh : s.HeadAt n h v) (hno : ¬ s.Listed h k) : ∃ t i L, s.Deleted t i L k := by
  induction n generalizing h v with
  | zero =>
      obtain rfl : m = 0 := by omega
      obtain ⟨rfl, -⟩ := hg.unique hh
      exact absurd hl hno
  | succ n ih =>
      rcases Nat.lt_or_ge n m with hlt | hge
      · obtain rfl : m = n + 1 := by omega
        obtain ⟨rfl, -⟩ := hg.unique hh
        exact absurd hl hno
      obtain ⟨h₁, v₁, hh₁⟩ := inv.headAt (i := n) (by have := hh.lt; omega)
      by_cases hl₁ : s.Listed h₁ k
      · -- the fence went with this change
        obtain ⟨t, c, hr⟩ := inv.replaces hh₁ hh
        obtain ⟨p, plan, hp, ⟨bytes, hb, hd⟩, x, hx, rfl⟩ := hl₁
        obtain ⟨-, e2, e3⟩ := hr.result.identity
        rcases hr.result.activePlan with ⟨p', rfl, -⟩ | ⟨rfl, -⟩ | ⟨-, -, he⟩
        · have := hr.guard.1
          rw [hp] at this
          cases this
        · obtain ⟨_, _, _, p', plan', -, -, -, hp', hat, i₀, _, _, -, -, hdel⟩ := hr.justified
          obtain rfl := Option.some.inj (hp.symm.trans hp')
          obtain rfl := State.PlanAt.unique ⟨bytes, hb, hd⟩ hat
          exact ⟨t, i₀, n + 1, hdel x hx⟩
        · refine absurd ⟨p, plan, he.trans hp, ⟨bytes, ?_, ?_⟩, x, hx, rfl⟩ hno
          · rw [e2]; exact hb
          · rw [e3]; exact hd
      · exact ih hge hh₁ hl₁

/-- **A swept plan.** A key of a plan up to the epoch of a head that does not list it is
gone. -/
theorem Inv.swept (inv : Inv s) {n e : Nat} {h : Head} {v : UpdateVersion} {k : ImmutableKey}
    (hh : s.HeadAt n h v) (he : e ≤ h.collectionEpoch.toNat) (hp : s.Planned e k)
    (hno : ¬ s.Listed h k) (hk : k.kind ≠ .commit) : s.objects k = none := by
  obtain ⟨m, g, u, p, i, hi, plan, cr, hg, hge, hgp, o, c, hc, rfl⟩ := inv.planned_origin hp
  obtain ⟨vi, hhi⟩ := o.head
  have hep := inv.origin_epoch hg o
  -- the installation is before the head
  have hin : i < n := by
    by_contra hle
    have := inv.epoch_mono (by omega) hh hhi
    omega
  obtain ⟨g₁, u₁, hg₁⟩ := inv.headAt (i := i + 1) (by have := o.lt; have := hg.lt; omega)
  have hp₁ := o.named (i + 1) g₁ u₁ (by omega) (by have := o.lt; omega) hg₁
  obtain ⟨-, e2, e3⟩ := inv.identity hhi hg₁
  obtain ⟨bytes, hb, hd⟩ := o.body.at'
  have hl : s.Listed g₁ c.key :=
    ⟨p, plan, hp₁, ⟨bytes, by rw [e2]; exact hb, by rw [e3]; exact hd⟩, c, hc, rfl⟩
  obtain ⟨t, j, L, hdel⟩ := inv.unlisted hg₁ hl (by omega) hh hno
  exact inv.deleted hdel hk

/-! ## The graph -/

/-- The roles of the keys of a head. -/
theorem Reaches.kind_ne {body : Bodies} {h : Head} {k : ImmutableKey} (hv : h.Valid)
    (hs : HeadStored body h) (hr : Reaches body h k) : k.kind ≠ .collectionPlan := by
  cases hr with
  | commit hc => simp [commitKey]
  | commitObject hc hb hd ho hu =>
      obtain ⟨commit, b⟩ := hs.commits _ hc
      obtain rfl := Option.some.inj (b.stored.symm.trans hb)
      obtain rfl := Except.ok.inj (b.decode.symm.trans hd)
      rcases hu.kind_ne (b.objects _ ho) with h | h <;> simp [h]
  | checkpoint hc => simp [objectKey, hv.baseKind _ hc, ObjectKind.immutable]
  | checkpointObject hc hb hd ho hu =>
      obtain ⟨ck, b⟩ := hs.checkpoint _ hc
      obtain rfl := Option.some.inj (b.stored.symm.trans hb)
      obtain rfl := Except.ok.inj (b.decode.symm.trans hd)
      rcases hu.kind_ne (b.objects _ ho) with h | h <;> simp [h]

/-- A missing key of a head is in the plan of a later epoch. -/
theorem Inv.reached_lost (inv : Inv s) {i : Nat} {h : Head} {v : UpdateVersion}
    {k : ImmutableKey} (hh : s.HeadAt i h v) (hr : Reaches s.body h k)
    (ho : s.objects k = none) : ∃ e, h.collectionEpoch.toNat < e ∧ s.Planned e k := by
  have hs := inv.headStored hh
  have hc := State.body_isSome.1 (hr.body_isSome hs)
  rcases inv.lost k hc ho with ⟨e, hp⟩ | ⟨hk, -⟩
  · refine ⟨e, ?_, hp⟩
    by_contra hle
    exact (inv.reaches_avoids hh hr).2 e (by omega) hp
  · exact absurd hk (hr.kind_ne hh.valid hs)

/-- Every plan so far is of an epoch up to that of the durable head. -/
theorem Inv.planned_le (inv : Inv s) {i e : Nat} {h : Head} {v : UpdateVersion}
    {k : ImmutableKey} (hh : s.HeadAt i h v) (hlast : i + 1 = s.now) (hp : s.Planned e k) :
    e ≤ h.collectionEpoch.toNat := by
  obtain ⟨m, g, u, hg, rfl, -⟩ := hp
  exact inv.epoch_mono (by have := hg.lt; omega) hg hh

/-- **Everything the durable head reaches is stored**, as it was created. -/
theorem Inv.live (inv : Inv s) {i : Nat} {h : Head} {v : UpdateVersion} {k : ImmutableKey}
    (hh : s.HeadAt i h v) (hlast : i + 1 = s.now) (hr : Reaches s.body h k) :
    ∃ bytes, s.objects k = some bytes ∧ s.body k = some bytes := by
  cases ho : s.objects k with
  | some bytes => exact ⟨bytes, rfl, inv.objects k bytes ho⟩
  | none =>
      obtain ⟨e, hlt, hp⟩ := inv.reached_lost hh hr ho
      have := inv.planned_le hh hlast hp
      omega

/-! ## The plan -/

/-- The head an installation replaces is determined by the request. -/
theorem Inv.installFlight_unique (inv : Inv s) {j i i' : Nat} {k k' : ImmutableKey}
    (a : s.InstallFlight j i k) (b : s.InstallFlight j i' k') : i = i' := by
  obtain ⟨f, bytes, expected, _, _, _, hf, hreq, hh, -⟩ := a
  obtain ⟨f', bytes', expected', _, _, _, hf', hreq', hh', -⟩ := b
  obtain rfl := Option.some.inj (hf.symm.trans hf')
  obtain ⟨-, rfl⟩ := Req.updateHead.inj (hreq.symm.trans hreq')
  exact (inv.version_unique hh hh' (.inl rfl)).1

/-- No later plan lists the plan of a fence that stands. -/
theorem Inv.plan_not_planned (inv : Inv s) {n : Nat} {h : Head} {v : UpdateVersion}
    {p : CollectionPlanRef} (hh : s.HeadAt n h v) (hlast : n + 1 = s.now)
    (hp : h.activePlan = some p) (e : Nat) :
    ¬ s.Planned e (collectionPlanKey h.incarnation p) := by
  intro hpl
  obtain ⟨i, hi, plan, cr, o⟩ := inv.origin hh hp
  obtain ⟨m, g, u, p', i', hi', plan', cr', hg, hge, hgp, o', c, hc, hck⟩ := inv.planned_origin hpl
  obtain ⟨vi, hhi⟩ := o.head
  obtain ⟨vi', hhi'⟩ := o'.head
  obtain ⟨-, e2, -⟩ := inv.identity hhi hh
  obtain ⟨bytes, hcr, -, -⟩ := o.body.created
  obtain ⟨⟨bytes', x, hx, hle⟩, -, hne⟩ := o'.candidates c hc
  rw [hck, e2] at hx
  obtain ⟨-, rfl⟩ := Prod.mk.inj (Option.some.inj (hcr.symm.trans hx))
  have h1 := o.later
  have h2 := o'.lt
  have h3 := hg.lt
  rcases Nat.lt_or_ge i i' with hlt | hge'
  · -- the later installation found an open head
    have hnone := o'.unfenced
    rw [o.named i' hi' vi' hlt (by omega) hhi'] at hnone
    cases hnone
  · obtain rfl : i = i' := by omega
    obtain ⟨rfl, -⟩ := hhi.unique hhi'
    have hee : h.collectionEpoch.toNat = g.collectionEpoch.toNat := by
      rw [inv.origin_epoch hh o, inv.origin_epoch hg o']
    obtain ⟨-, -, rfl⟩ := inv.origin_unique hh hg hee o o'
    exact hne (hck.trans (by rw [e2]))

/-- The plan of a fence that stands is not retired. -/
theorem Inv.plan_not_retired (inv : Inv s) {n : Nat} {h : Head} {v : UpdateVersion}
    {p : CollectionPlanRef} (hh : s.HeadAt n h v) (hlast : n + 1 = s.now)
    (hp : h.activePlan = some p) : ¬ s.Retired (collectionPlanKey h.incarnation p) := by
  rintro ⟨-, j, i', m, g, u, hi', hlt, hg, hne⟩
  obtain ⟨i, hi, plan, cr, o⟩ := inv.origin hh hp
  obtain ⟨vi, hhi⟩ := o.head
  obtain ⟨j', hj'⟩ := o.flight
  obtain ⟨-, e2, -⟩ := inv.identity hhi hh
  obtain ⟨-, e4, -⟩ := inv.identity hg hh
  rw [← e2] at hj'
  obtain rfl := inv.installs _ _ _ _ _ hi' hj'
  obtain rfl := inv.installFlight_unique hi' hj'
  refine hne ?_
  rw [o.named m g u hlt (by have := hg.lt; omega) hg, e4]
  rfl

/-- The plan a head names: what was created under its key. -/
structure State.PlanMatches (s : State) (h : Head) (p : CollectionPlanRef) (bytes : Bytes)
    (plan : CollectionPlan) : Prop where
  body : s.body (collectionPlanKey h.incarnation p) = some bytes
  len : bytes.length = p.len.toNat
  digest : Digest.of bytes = p.digest
  decode : decodeCollectionPlan bytes h.options = .ok plan
  logId : plan.logId = h.logId
  epoch : plan.collectionEpoch = h.collectionEpoch

theorem Inv.plan_body (inv : Inv s) {n : Nat} {h : Head} {v : UpdateVersion}
    {p : CollectionPlanRef} (hh : s.HeadAt n h v) (hp : h.activePlan = some p) :
    ∃ bytes plan, s.PlanMatches h p bytes plan := by
  obtain ⟨i, hi, plan, cr, o⟩ := inv.origin hh hp
  obtain ⟨vi, hhi⟩ := o.head
  obtain ⟨e1, e2, e3⟩ := inv.identity hhi hh
  obtain ⟨e1', -, -⟩ := inv.identity hh hhi
  obtain ⟨bytes, hcr, hlen, hdig⟩ := o.body.created
  obtain ⟨bytes', hb', hd'⟩ := o.body.at'
  rw [← e2] at hcr hb'
  rw [← e3] at hd'
  have hb : s.body (collectionPlanKey h.incarnation p) = some bytes := State.body_eq.2 ⟨cr, hcr⟩
  obtain rfl := Option.some.inj (hb'.symm.trans hb)
  refine ⟨_, plan, hb, hlen, hdig, hd', ?_, ?_⟩
  · rw [o.body.logId, e1, e1']
  · exact UInt64.toNat_inj.1 (by rw [o.epoch, inv.origin_epoch hh o])

/-- **The plan of the durable head is stored.** -/
theorem Inv.plan_live (inv : Inv s) {n : Nat} {h : Head} {v : UpdateVersion}
    {p : CollectionPlanRef} (hh : s.HeadAt n h v) (hlast : n + 1 = s.now)
    (hp : h.activePlan = some p) :
    ∃ bytes plan, s.objects (collectionPlanKey h.incarnation p) = some bytes ∧
      s.PlanMatches h p bytes plan := by
  obtain ⟨bytes, plan, m⟩ := inv.plan_body hh hp
  cases ho : s.objects (collectionPlanKey h.incarnation p) with
  | none =>
      have hc : (s.created (collectionPlanKey h.incarnation p)).isSome := by
        rw [← State.body_isSome, m.body]
        rfl
      rcases inv.lost _ hc ho with ⟨e, hpl⟩ | hr
      · exact absurd hpl (inv.plan_not_planned hh hlast hp e)
      · exact absurd hr (inv.plan_not_retired hh hlast hp)
  | some stored =>
      have := inv.objects _ _ ho
      obtain rfl := Option.some.inj (this.symm.trans m.body)
      exact ⟨_, plan, rfl, m⟩

/-- **A plan that was cleared is not installed again.** -/
theorem Inv.plan_once (inv : Inv s) {i m n : Nat} {h h' h'' : Head} {v v' v'' : UpdateVersion}
    {p : CollectionPlanRef} (hi : s.HeadAt i h v) (hm : s.HeadAt m h' v') (hn : s.HeadAt n h'' v'')
    (him : i ≤ m) (hmn : m ≤ n) (hp : h.activePlan = some p) (hno : h'.activePlan ≠ some p) :
    h''.activePlan ≠ some p := by
  intro hp'
  obtain ⟨k, hk, plan, cr, o⟩ := inv.origin hi hp
  obtain ⟨k', hk', plan', cr', o'⟩ := inv.origin hn hp'
  obtain ⟨vk, hhk⟩ := o.head
  obtain ⟨vk', hhk'⟩ := o'.head
  obtain ⟨j, hj⟩ := o.flight
  obtain ⟨j', hj'⟩ := o'.flight
  obtain ⟨-, e, -⟩ := inv.identity hhk hhk'
  rw [e] at hj'
  obtain rfl := inv.installs _ _ _ _ _ hj hj'
  obtain rfl := inv.installFlight_unique hj hj'
  have hlt := o.lt
  exact hno (o'.named m h' v' (by omega) hmn hm)

/-- Two plans of one epoch are one plan. -/
theorem Inv.plan_of_epoch (inv : Inv s) {i n : Nat} {h h' : Head} {v v' : UpdateVersion}
    {p p' : CollectionPlanRef} (hi : s.HeadAt i h v) (hn : s.HeadAt n h' v')
    (he : h.collectionEpoch = h'.collectionEpoch) (hp : h.activePlan = some p)
    (hp' : h'.activePlan = some p') : p = p' := by
  obtain ⟨k, hk, plan, cr, o⟩ := inv.origin hi hp
  obtain ⟨k', hk', plan', cr', o'⟩ := inv.origin hn hp'
  exact (inv.origin_unique hi hn (by rw [he]) o o').2.2

end ObjectLog
