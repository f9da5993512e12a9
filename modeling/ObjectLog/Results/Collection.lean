import ObjectLog.Proof.World
import ObjectLog.Replay

/-!
# Collection is safe

What the durable head reaches is stored, whatever collectors, writers and delayed requests
do. The discipline of the fence says why: a plan is stored before a head names it, nothing
of a plan is deleted before it is named, and a plan is cleared only by a collector that saw
every one of its deletes answered. A retention is the way to keep an old view as well.
-/

set_option linter.unusedSectionVars false

namespace ObjectLog

variable {w w' : World} {s : State} {scope : LogId} {i j m n t : Nat} {h h' : Head}
  {v v' : UpdateVersion}

/-! ## The durable graph -/

/-- **Everything that the durable head reaches is stored as it was created**, and so is its
collection plan. The first part says that the graph is complete: no reference in it leads
to an object that was never there. -/
theorem durable_graph_stored [Blake3] (hr : Reachable scope w) (nc : w.state.NoCollision)
    (hd : w.state.Durable h) :
    HeadStored w.state.body h ∧
    (∀ k, Reaches w.state.body h k →
      ∃ bytes, w.state.objects k = some bytes ∧ w.state.body k = some bytes) ∧
    ∀ p, h.activePlan = some p → ∃ bytes,
      w.state.objects (collectionPlanKey h.incarnation p) = some bytes ∧
      w.state.body (collectionPlanKey h.incarnation p) = some bytes := by
  have inv := (hr.ok nc).good.inv
  obtain ⟨i, v, hh, hlast⟩ := hd
  refine ⟨inv.headStored hh, fun k hk => inv.live hh hlast hk, fun p hp => ?_⟩
  obtain ⟨bytes, plan, hobj, hm⟩ := inv.plan_live hh hlast hp
  exact ⟨bytes, hobj, hm.body⟩

section

attribute [local instance] sampleHash

theorem durable_graph_stored_firstCheckpoint : ∃ h, (sample firstCheckpoint).state.Durable h ∧
    ∀ k, Reaches (sample firstCheckpoint).state.body h k →
      ∃ bytes, (sample firstCheckpoint).state.objects k = some bytes ∧
        (sample firstCheckpoint).state.body k = some bytes := by
  obtain ⟨hr, nc, h, v, -, hd⟩ := firstCheckpoint_durable
  exact ⟨h, hd, (durable_graph_stored hr nc hd).2.1⟩

end

/-! ## The fence -/

/-- A delete of `k` by call `t` that was submitted after head `i` was stored and had been
answered when `n` heads were. -/
def State.DeletedBetween (s : State) (i n : Nat) (k : ImmutableKey) : Prop :=
  ∃ (t j sent m : Nat) (landed : Option (Nat × Answer (.delete k))),
    s.flights[j]? = some ⟨t, .delete k, sent, landed, some (m, .ok ())⟩ ∧ i < sent ∧ m ≤ n

/-- **The discipline of the fence.** -/
structure State.FenceDiscipline [Blake3] (s : State) : Prop where
  /-- A named plan is stored, under the epoch of the head, as long as it is named. -/
  stored : ∀ h p, s.Durable h → h.activePlan = some p → ∃ bytes plan,
    s.objects (collectionPlanKey h.incarnation p) = some bytes ∧ bytes.length = p.len.toNat ∧
    Digest.of bytes = p.digest ∧ decodeCollectionPlan bytes h.options = .ok plan ∧
    plan.logId = h.logId ∧ plan.collectionEpoch = h.collectionEpoch
  /-- A plan gives way to no plan only, and only after each of its candidates was deleted
  by a request that was sent after a head with the plan was stored. -/
  cleared : ∀ i h v h' v' p, s.HeadAt i h v → s.HeadAt (i + 1) h' v' → h.activePlan = some p →
    h'.activePlan ≠ some p → h'.activePlan = none ∧ ∃ plan i₀ h₀ v₀, s.PlanAt h p plan ∧
      s.HeadAt i₀ h₀ v₀ ∧ h₀.activePlan = some p ∧
      ∀ c ∈ plan.candidates, s.DeletedBetween i₀ (i + 1) c.key
  /-- An update that clears a plan is sent by a collector that was started on that plan. -/
  exact : ∀ (j : Nat) f bytes expected i h h' p, s.flights[j]? = some f →
    f.req = .updateHead bytes expected → s.HeadAt i h expected → decodeHead bytes = .ok h' →
    h.activePlan = some p → h'.activePlan ≠ some p →
    ∃ b log view, s.calls[f.tid]? = some b ∧ b.call = .resumeCollection log view ∧
      view.head.activePlan = some p
  /-- A delete is sent by a collector for a candidate of the plan it was started on, which a
  durable head had named by then, or for a plan object that no head can name again. -/
  fenced : ∀ (j : Nat) f k, s.flights[j]? = some f → f.req = .delete k →
    (∃ i h v b log view, i < f.sent ∧ s.HeadAt i h v ∧ s.Listed h k ∧
      s.calls[f.tid]? = some b ∧ b.call = .resumeCollection log view ∧
      view.head.activePlan = h.activePlan) ∨
    (k.kind = .collectionPlan ∧ ∀ h p, s.Durable h → h.activePlan = some p →
      collectionPlanKey h.incarnation p ≠ k)
  /-- The epoch moves by one when a plan is installed, and never otherwise. -/
  epochs : ∀ i h v h' v', s.HeadAt i h v → s.HeadAt (i + 1) h' v' →
    (h.activePlan = none ∧ h'.activePlan.isSome ∧
      h'.collectionEpoch.toNat = h.collectionEpoch.toNat + 1) ∨
    ((h'.activePlan = h.activePlan ∨ h'.activePlan = none) ∧
      h'.collectionEpoch = h.collectionEpoch)

/-- The only change that takes a plan away clears it. -/
theorem Change.Result.clears [Blake3] {c : Change} {p : CollectionPlanRef} (hr : c.Result h h')
    (hg : c.Guard h) (hp : h.activePlan = some p) (hno : h'.activePlan ≠ some p) :
    c = .clear ∧ h'.activePlan = none := by
  rcases hr.activePlan with ⟨p', rfl, -⟩ | hclear | ⟨-, -, hsame⟩
  · rw [hg.1] at hp
    cases hp
  · exact hclear
  · exact absurd (hsame.trans hp) hno

theorem Inv.fenceDiscipline [Blake3] (inv : Inv s) : s.FenceDiscipline where
  stored := by
    rintro h p ⟨i, v, hh, hlast⟩ hp
    obtain ⟨bytes, plan, hobj, hm⟩ := inv.plan_live hh hlast hp
    exact ⟨bytes, plan, hobj, hm.len, hm.digest, hm.decode, hm.logId, hm.epoch⟩
  cleared := by
    intro i h v h' v' p hh hh' hp hno
    obtain ⟨t, c, hrep⟩ := inv.replaces hh hh'
    obtain ⟨rfl, hnone⟩ := hrep.result.clears hrep.guard hp hno
    obtain ⟨b, log, view, p', plan, -, -, -, hp', hplan, i₀, h₀, v₀, hh₀, hp₀, hdel⟩ :=
      hrep.justified
    obtain rfl := Option.some.inj (hp.symm.trans hp')
    refine ⟨hnone, plan, i₀, h₀, v₀, hplan, hh₀, hp₀, fun c hc => ?_⟩
    obtain ⟨j, sent, m, landed, hf, hsent, hm⟩ := hdel c hc
    exact ⟨t, j, sent, m, landed, hf, hsent, hm⟩
  exact := by
    intro j f bytes expected i h h' p hf hreq hh hd hp hno
    have hok := (inv.flights j f hf).req
    rw [hreq] at hok
    obtain ⟨i₁, h₁, c, h₁', hh₁, hd₁, -, hrep⟩ := hok
    obtain ⟨rfl, rfl⟩ := inv.version_unique hh hh₁ (.inl rfl)
    obtain rfl := Except.ok.inj (hd.symm.trans hd₁)
    obtain ⟨rfl, -⟩ := hrep.result.clears hrep.guard hp hno
    obtain ⟨b, log, view, p', plan, hb, hcall, hview, hp', -⟩ := hrep.justified
    obtain rfl := Option.some.inj (hp.symm.trans hp')
    exact ⟨b, log, view, hb, hcall, hview⟩
  fenced := by
    intro j f k hf hreq
    have hok := (inv.flights j f hf).req
    rw [hreq] at hok
    obtain ⟨-, hlisted | hretired⟩ := hok
    · exact .inl hlisted
    · refine .inr ⟨hretired.1, fun h p ⟨i, v, hh, hlast⟩ hp hk => ?_⟩
      rw [← hk] at hretired
      exact inv.plan_not_retired hh hlast hp hretired
  epochs := by
    intro i h v h' v' hh hh'
    obtain ⟨t, c, hrep⟩ := inv.replaces hh hh'
    rcases hrep.result.epoch with ⟨p, rfl, hp, he⟩ | ⟨hno, he⟩
    · exact .inl ⟨hrep.guard.1, by rw [hp]; rfl, he⟩
    · refine .inr ⟨?_, he⟩
      rcases hrep.result.activePlan with ⟨p, hc, -⟩ | ⟨-, hnone⟩ | ⟨-, -, hsame⟩
      · exact absurd hc (hno p)
      · exact .inr hnone
      · exact .inl hsame

/-- **Every run keeps the discipline of the fence.** -/
theorem fence_discipline [Blake3] (hr : Reachable scope w) (nc : w.state.NoCollision) :
    w.state.FenceDiscipline := (hr.ok nc).good.inv.fenceDiscipline

section

attribute [local instance] sampleHash

/-- The collection was installed and completed, and the object is gone. -/
def firstCollectionFacts (w : World) : Bool :=
  (w.stagedKey 2).all (fun key => (w.state.objects key).isNone) &&
  match w.outcomeAt 3, w.outcomeAt 4 with
  | some (_, .ok (.collectionStart (.installed _ _))),
      some (_, .ok (.collectionFinish (.complete _ _))) => true
  | _, _ => false

theorem firstCollection_ends : ends firstCollection firstCollectionFacts = true := by
  decide +kernel

theorem fence_discipline_firstCollection : (sample firstCollection).state.FenceDiscipline := by
  obtain ⟨hr, nc, -⟩ := ends_ok firstCollection_ends
  exact fence_discipline hr nc

end

/-! ## Retentions -/

/-- As long as a head keeps the retention, no plan is installed and the epoch stays. -/
theorem Inv.retained [Blake3] {id : RetentionId} (inv : Inv s) (hm : s.HeadAt m h v)
    (hmn : m ≤ n) (hkeep : ∀ k g u, m ≤ k → k ≤ n → s.HeadAt k g u → id ∈ g.retentionIds)
    (hn : s.HeadAt n h' v') : h'.activePlan = none ∧ h'.collectionEpoch = h.collectionEpoch := by
  have unfenced : ∀ k g u, m ≤ k → k ≤ n → s.HeadAt k g u → g.activePlan = none := by
    intro k g u h1 h2 hg
    have hid := hkeep k g u h1 h2 hg
    cases hp : g.activePlan with
    | none => rfl
    | some p =>
        have := hg.valid.fence (by rw [hp]; rfl)
        rw [this] at hid
        simp at hid
  refine ⟨unfenced n h' v' hmn le_rfl hn, ?_⟩
  induction hmn generalizing h' v' with
  | refl =>
      obtain ⟨rfl, -⟩ := hm.unique hn
      rfl
  | @step n hmn ih =>
      obtain ⟨g, u, hg⟩ := inv.headAt (i := n) (Nat.lt_of_succ_lt hn.lt)
      have he := ih (fun k g u h1 h2 => hkeep k g u h1 (Nat.le_succ_of_le h2)) hg
        (fun k g u h1 h2 => unfenced k g u h1 (Nat.le_succ_of_le h2))
      obtain ⟨t, c, hrep⟩ := inv.replaces hg hn
      rcases hrep.result.epoch with ⟨p, rfl, hp, -⟩ | ⟨-, hsame⟩
      · rw [unfenced (n + 1) h' v' (Nat.le_succ_of_le hmn) le_rfl hn] at hp
        cases hp
      · exact hsame.trans he

/-- **A confirmed retention protects its view.** Once `retain` has answered that it is
applied in head `m`, then up to every later head `n` that still has the retention, no plan
is installed and the epoch is that of the view. While `n` is durable, everything that the
head of the view or a head since `m` reaches is stored. -/
theorem retention_protects_view [Blake3] {b : Begun} {log : Log} {view applied : View}
    {id : RetentionId} (hr : Reachable scope w) (nc : w.state.NoCollision)
    (hb : w.state.calls[t]? = some b) (hcall : b.call = .changeRetention log view (.acquire id))
    (ht : w.threads[t]? = some (.done (.ok (.retention (.applied applied))))) :
    ∃ m, w.state.HeadAt m applied.head applied.version ∧ id ∈ applied.head.retentionIds ∧
      ∀ n h v, m ≤ n → w.state.HeadAt n h v →
        (∀ k g u, m ≤ k → k ≤ n → w.state.HeadAt k g u → id ∈ g.retentionIds) →
        h.activePlan = none ∧ h.collectionEpoch = view.head.collectionEpoch ∧
        (n + 1 = w.state.now → ∀ g key, (g = view.head ∨ ∃ k u, m ≤ k ∧ w.state.HeadAt k g u) →
          Reaches w.state.body g key →
          ∃ bytes, w.state.objects key = some bytes ∧ w.state.body key = some bytes) := by
  have ok := hr.ok nc
  have inv := ok.good.inv
  have hout := (ok.returned ht hb).outcome
  simp only [State.Outcome, hcall] at hout
  obtain ⟨⟨⟨m, -, hm⟩, -⟩, hclass, hepoch⟩ := hout
  have hid : id ∈ applied.head.retentionIds := by
    by_contra hno
    simp only [RetentionChange.classify, if_neg hno] at hclass
    split at hclass <;> cases hclass
  refine ⟨m, hm, hid, fun n h v hmn hn hkeep => ?_⟩
  obtain ⟨hplan, he⟩ := inv.retained hm hmn hkeep hn
  have heview : h.collectionEpoch = view.head.collectionEpoch := he.trans (hepoch rfl)
  refine ⟨hplan, heview, fun hlast g key hg hreach => ?_⟩
  -- the head that reaches the key has the epoch of the durable head
  have hgat : ∃ k u, w.state.HeadAt k g u ∧ g.collectionEpoch = h.collectionEpoch := by
    rcases hg with rfl | ⟨k, u, hmk, hk⟩
    · have hargs := (inv.calls t b hb).args (.view view) (by rw [hcall]; simp [Call.args])
      obtain ⟨⟨k, -, hk⟩, -⟩ := hargs
      exact ⟨k, _, hk, heview.symm⟩
    · have hkn : k ≤ n := by
        have := hk.lt
        omega
      refine ⟨k, u, hk, ?_⟩
      exact (inv.retained hm hmk (fun k' g u h1 h2 => hkeep k' g u h1 (h2.trans hkn)) hk).2.trans
        he.symm
  obtain ⟨k, u, hk, hge⟩ := hgat
  obtain ⟨bytes, hbody⟩ := Option.isSome_iff_exists.1 (hreach.body_isSome (inv.headStored hk))
  cases hobj : w.state.objects key with
  | some stored =>
      obtain rfl := Option.some.inj ((inv.objects key stored hobj).symm.trans hbody)
      exact ⟨stored, rfl, hbody⟩
  | none =>
      -- a lost key would have been planned in a later epoch, but there is none
      obtain ⟨e, hlt, hplanned⟩ := inv.reached_lost hk hreach hobj
      have := inv.planned_le hn hlast hplanned
      rw [hge] at hlt
      omega

section

attribute [local instance] sampleHash

/-- A retention of the view after the first commit. -/
def firstRetention : List Action :=
  firstCommit ++
  alone 5 (fun w => return .changeRetention (← w.logAt 0) (← w.viewAt 4) (.acquire ⟨1⟩))

def firstRetentionFacts (w : World) : Bool :=
  match w.outcomeAt 5 with
  | some (⟨.changeRetention _ _ (.acquire _), _, _⟩, .ok (.retention (.applied _))) => true
  | _ => false

theorem firstRetention_ends : ends firstRetention firstRetentionFacts = true := by
  decide +kernel

theorem retention_protects_view_firstRetention : ∃ m h v id,
    (sample firstRetention).state.HeadAt m h v ∧ id ∈ h.retentionIds := by
  obtain ⟨hr, nc, hf⟩ := ends_ok firstRetention_ends
  unfold firstRetentionFacts at hf
  split at hf
  · rename_i log view id _ _ applied hout
    obtain ⟨hb, ht⟩ := World.outcomeAt_ok hout
    obtain ⟨m, hm, hid, -⟩ := retention_protects_view hr nc hb rfl ht
    exact ⟨m, applied.head, applied.version, id, hm, hid⟩
  · cases hf

end

/-! ## Starting from a stale view -/

section

attribute [local instance] sampleHash

/-- A node is committed, compacted and collected, and a collector starts from the view that
had it. -/
def staleStart : List Action :=
  alone 0 (fun _ => some (.open .default)) ++
  alone 1 (fun w => return .load (← w.logAt 0)) ++
  alone 2 (fun w => return .putNode (← w.logAt 0) (← w.viewAt 1) [1] []) ++
  alone 3 (fun w => return .prepare (← w.logAt 0) (← w.viewAt 1) ⟨1⟩ [] [] [← w.stagedAt 2]) ++
  alone 4 (fun w => return .commit (← w.logAt 0) (← w.preparedAt 3)) ++
  alone 5 (fun w => do
    let view ← w.viewAt 4
    return .publishCheckpoint (← w.logAt 0) view (← view.head.tail.head?) [] []) ++
  scanning 6 (fun w => return .startCollectionWithLimit (← w.logAt 0) (← w.viewAt 5) 1)
    (fun w => w.stagedKey 2) ++
  alone 7 (fun w => return .resumeCollection (← w.logAt 0) (← w.viewAt 6)) ++
  alone 8 (fun w => return .startCollectionWithLimit (← w.logAt 0) (← w.viewAt 4) 1)

end

end ObjectLog
