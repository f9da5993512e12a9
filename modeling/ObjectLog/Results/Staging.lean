import ObjectLog.Proof.Parts
import ObjectLog.Results.Collection

/-!
# Staging proofs and the fence

A handle that names objects vouches for their complete graphs at a collection epoch. As long as
that epoch is the durable one, everything it vouches for is stored and in no active plan, so a
publication that relies on the proof would have passed the verification it skips. And the plan
of a fence is found as it was installed, or the view that named it has expired.
-/

set_option linter.unusedSectionVars false

namespace ObjectLog

open Rely

section

variable [Blake3] {w w' : World} {s s' : State} {scope : LogId} {t L : Nat} {h : Head}
  {v : UpdateVersion} {log : Log} {view : View} {o r : ObjectRef} {item : Item} {b : Begun}
  {epoch : UInt64} {key : ImmutableKey}

/-! ## Handles that vouch for objects -/

/-- A handle vouches for an object at a collection epoch: it is the proof that the object was
staged, or the object is a dependency of a candidate or a checkpoint of a view of that epoch. -/
inductive State.Vouches (s : State) : Item → UInt64 → ObjectRef → Prop
  | staged (st : StagedObject) : s.Vouches (.staged st) st.collectionEpoch st.object
  | prepared {p : PreparedCommit} {o : ObjectRef} (ho : o ∈ p.objects) :
      s.Vouches (.prepared p) p.view.head.collectionEpoch o
  | pending {c : PendingCommit} {p : PreparedCommit} {o : ObjectRef} (hp : c.prepared = some p)
      (ho : o ∈ p.objects) : s.Vouches (.pendingCommit c) p.view.head.collectionEpoch o
  | checkpoint {p : PendingCheckpoint} {bytes : Bytes} {ck : Checkpoint} {o : ObjectRef}
      (hb : s.body (objectKey p.view.head.incarnation p.checkpoint.object) = some bytes)
      (hd : decodeCheckpoint bytes = .ok ck) (ho : o ∈ ck.objects) :
      s.Vouches (.pendingCheckpoint p) p.view.head.collectionEpoch o

/-- What a candidate depends on was proven for the epoch of its view. -/
theorem State.PreparedOK.proven {p : PreparedCommit} (hp : s.PreparedOK L p) (inv : Inv s)
    (ho : o ∈ p.objects) : s.Proven p.view.head p.view.head.collectionEpoch.toNat o := by
  obtain ⟨-, q, log, p₀, hprep, -, -, -, -, hobjs, hsame⟩ := hp
  rw [hobjs] at ho
  have hproven := (hprep.preparedBy inv).proven o ho
  obtain ⟨-, e2, e3, -, -, -, -, e8, -⟩ := sameBase_iff.1 hsame
  rw [e8] at hproven
  exact hproven.congr e2.symm e3.symm

/-- **What a genuine handle vouches for is proven.** The handle may have been genuine before the
checkpoint it names was read. -/
theorem State.Vouches.proven (hv : s'.Vouches item epoch o) (hle : s.Le s') (inv : Inv s)
    (hi : s.ItemOK L item) : ∃ h₀ v₀, s.HeadAt 0 h₀ v₀ ∧ s.Proven h₀ epoch.toNat o := by
  -- every handle but a staging proof names the head that it was made on
  have first : ∀ {i : Nat} {h : Head} {v : UpdateVersion} {n : Nat}, s.HeadAt i h v →
      s.Proven h n o → ∃ h₀ v₀, s.HeadAt 0 h₀ v₀ ∧ s.Proven h₀ n o := by
    intro i h v n hh hp
    obtain ⟨h₀, v₀, hh₀⟩ := inv.headAt (i := 0) (Nat.zero_lt_of_lt hh.lt)
    obtain ⟨-, e2, e3⟩ := inv.identity hh hh₀
    exact ⟨h₀, v₀, hh₀, hp.congr e2 e3⟩
  cases hv with
  | staged st => exact hi
  | prepared ho =>
      have hi : s.PreparedOK L _ := hi
      obtain ⟨⟨i, -, hh⟩, -⟩ := hi.1
      exact first hh (hi.proven inv ho)
  | @pending c p _ hp ho =>
      have hi : s.PendingCommitOK L c := hi
      unfold State.PendingCommitOK at hi
      rw [hp] at hi
      obtain ⟨⟨i, -, hh⟩, -⟩ := hi.1.1
      exact first hh (hi.1.proven inv ho)
  | @checkpoint p bytes ck _ hb hd ho =>
      obtain ⟨hview, -, -, hproven⟩ : s.PendingCheckpointOK L p := hi
      obtain ⟨⟨i, -, hh⟩, -⟩ := hview
      obtain ⟨ck', hbody, hobjs⟩ := hproven.body
      -- the body of the checkpoint is the one it was made with
      obtain rfl := Option.some.inj ((hle.body _ _ hbody.stored).symm.trans hb)
      obtain rfl := Except.ok.inj (hbody.decode.symm.trans hd)
      exact first hh (hobjs o ho)

/-- **What is proven for an epoch is stored as long as no later one has begun.** -/
theorem Inv.held {n : Nat} (inv : Inv s) (hp : s.Proven h n o)
    (hu : Under s.body h.incarnation h.options o key)
    (hlast : ∀ i g u, s.HeadAt i g u → g.collectionEpoch.toNat ≤ n) :
    ∃ bytes, s.objects key = some bytes ∧ s.body key = some bytes := by
  have hsome := hu.body_isSome hp.stored
  cases ho : s.objects key with
  | some bytes => exact ⟨bytes, rfl, inv.objects key bytes ho⟩
  | none =>
      rcases inv.lost key (State.body_isSome.1 hsome) ho with ⟨m, hplan⟩ | ⟨hkind, -⟩
      · obtain ⟨i, g, u, hg, rfl, hlist⟩ := id hplan
        exact absurd hplan ((hp.avoids key hu).2 _ (hlast i g u hg))
      · rcases Under.kind_ne hp.stored hu with hk | hk <;> rw [hk] at hkind <;> cases hkind

/-- No head is of a later epoch than the durable one. -/
theorem Inv.durable_epoch (inv : Inv s) (hd : s.Durable h) :
    ∀ i g u, s.HeadAt i g u → g.collectionEpoch.toNat ≤ h.collectionEpoch.toNat := by
  obtain ⟨n, v, hh, hlast⟩ := hd
  intro i g u hg
  have := hg.lt
  exact inv.epoch_mono (by omega) hg hh

/-! ## Views -/

/-- The view is one that was observed. -/
def State.Observed (s : State) (view : View) : Prop :=
  ∃ ob, s.views[view.id]? = some ob ∧ ob.head = view.head ∧ ob.version = view.version

theorem State.Observed.viewOK (hv : s.Observed view) (inv : Inv s) : s.ViewOK s.now view := by
  obtain ⟨ob, hob, hhead, hversion⟩ := hv
  obtain ⟨⟨i, hh⟩, -⟩ := inv.views _ ob hob
  rw [hhead, hversion] at hh
  exact ⟨⟨i, hh.lt, hh⟩, ob, hob, hhead, hversion⟩

/-- A fence that was seen cleared is not the durable one. -/
theorem State.Unfenced.durable {p : CollectionPlanRef} (hun : s.Unfenced L p) (inv : Inv s)
    (hb : s.Before L view) (hp : view.head.activePlan = some p) (hd : s.Durable h) :
    h.activePlan ≠ some p := by
  obtain ⟨-, i, hi, hh⟩ := hb
  obtain ⟨m, g, u, hm, hg, hno⟩ := hun
  obtain ⟨n, v, hhn, hlast⟩ := hd
  have := hg.lt
  exact inv.plan_once hh hg hhn (by omega) (by omega) hp hno

/-! ## Replaying a part -/

/-- Call `t` has not returned yet. -/
def World.busy (w : World) (t : Nat) : Bool :=
  match w.threads[t]? with
  | some (.perform _ _) => true
  | _ => false

theorem World.busy_ok (h : w.busy t = true) :
    ∃ (e : Effect) (k : Reply e → Op Value), w.threads[t]? = some (.perform e k) := by
  unfold World.busy at h
  split at h
  · exact ⟨_, _, ‹_›⟩
  · cases h

/-- Lets the request land that an effect waits for. -/
def World.settle (w : World) : Effect → Option World
  | .await _ i => match w.state.flights[i]? with
      | some f => if f.landed.isNone then w.land i else some w
      | none => none
  | _ => some w

/-- Call `t` performs a program alone, each effect answered as usual. -/
def World.performing {α : Type} (t : Nat) : Nat → World → Op α → Option (World × Except Error α)
  | _, w, .done r => some (w, r)
  | 0, _, .perform _ _ => none
  | n + 1, w, .perform e k => do
      let w ← w.settle e
      let (a, s) ← perform t w.state .usual e
      World.performing t n ⟨s, w.threads⟩ (k a)

theorem World.settle_performs {α : Type} {p q : Op α} {w₁ w₂ : World} {e : Effect}
    (hp : Performs t w p w₁ q) (h : w₁.settle e = some w₂) : Performs t w p w₂ q := by
  unfold World.settle at h
  split at h
  · rename_i req i
    split at h
    · split at h
      · have hstep := World.land_step h
        obtain ⟨f, -, h⟩ := Option.bind_eq_some_iff.1 h
        split at h
        · obtain ⟨x, -, h⟩ := Option.bind_eq_some_iff.1 h
          obtain rfl := Option.some.inj h
          exact .other hp hstep rfl
        · cases h
      · obtain rfl := Option.some.inj h
        exact hp
    · cases h
  · obtain rfl := Option.some.inj h
    exact hp

theorem World.performing_performs {α : Type} {p : Op α} {r : Except Error α} :
    ∀ (n : Nat) (w₁ : World) (q : Op α), Performs t w p w₁ q →
      World.performing t n w₁ q = some (w', r) → Performs t w p w' (.done r)
  | n, w₁, .done r', hp, h => by
      have hend : some (w₁, r') = some (w', r) := by
        cases n <;> exact h
      obtain ⟨rfl, rfl⟩ := Prod.mk.inj (Option.some.inj hend)
      exact hp
  | 0, _, .perform _ _, _, h => by cases h
  | n + 1, w₁, .perform e k, hp, h => by
      obtain ⟨w₂, hsettle, h⟩ := Option.bind_eq_some_iff.1 h
      obtain ⟨⟨a, s'⟩, hperform, h⟩ := Option.bind_eq_some_iff.1 h
      have hnext := Performs.own (World.settle_performs hp hsettle) (perform_ok hperform)
      exact World.performing_performs n _ (k a) hnext h

/-! ## The plan of a fence -/

/-- **A stale fence expires.** Whenever a call loads the plan that a view names, it gets the plan
that was installed, or the store refuses, or the view has expired and the durable head does not
name the plan. -/
theorem fence_loads_or_expires {e : Effect} {k : Reply e → Op Value} {p : CollectionPlanRef}
    (hr : Reachable scope w) (nc : w.state.NoCollision)
    (ht : w.threads[t]? = some (.perform e k)) (hl : Known w (.log log)) (hv : w.state.Observed view)
    (hp : view.head.activePlan = some p) :
    ∃ bytes plan, w.state.PlanMatches view.head p bytes plan ∧
      (∀ w' r, w'.state.NoCollision →
        Performs t w (log.readCollectionPlan view.head p) w' (.done r) →
        r = .ok plan ∨ ∃ err, r = .error err ∧ (err.Unavailable ∨
          err = .viewExpired ∧ ∀ h, w'.state.Durable h → h.activePlan ≠ some p)) ∧
      ∀ w' r, w'.state.NoCollision →
        Performs t w (log.activeCollectionCandidates view) w' (.done r) →
        r = .ok (some plan.candidates) ∨ ∃ err, r = .error err ∧ (err.Unavailable ∨
          err = .viewExpired ∧ ∀ h, w'.state.Durable h → h.activePlan ≠ some p) := by
  have ok := hr.ok nc
  have inv := ok.good.inv
  have hviewing : Viewing w.state log view := ⟨hl.ok ok, hv.viewOK inv⟩
  obtain ⟨i, hh⟩ := hviewing.head
  obtain ⟨bytes, plan, hplan⟩ := inv.plan_body hh hp
  -- what was read later is what was stored
  have exact : ∀ {u : State} {plan' : CollectionPlan}, w.state.Le u →
      u.PlanAt view.head p plan' → plan' = plan := by
    rintro u plan' hle ⟨bytes', hb', hd'⟩
    obtain rfl := Option.some.inj ((hle.body _ _ hplan.body).symm.trans hb')
    exact Except.ok.inj (hd'.symm.trans hplan.decode)
  have failed : ∀ {u : State} {err : Error}, Inv u → w.state.Le u →
      u.PlanError t w.state.now view err → err.Unavailable ∨
        err = .viewExpired ∧ ∀ h, u.Durable h → h.activePlan ≠ some p := by
    rintro u err invu hle (herr | ⟨herr, p', hp', -, hun⟩)
    · exact .inl herr
    · obtain rfl := Option.some.inj (hp.symm.trans hp')
      exact .inr ⟨herr, fun h hd => hun.durable invu (hviewing.before.mono hle) hp hd⟩
  refine ⟨bytes, plan, hplan, fun w' r nc' hperf => ?_, fun w' r nc' hperf => ?_⟩
  · obtain ⟨g, hle, hend⟩ := hperf.ends ok ht nc' le_anything
      (readCollectionPlan_runs le_rfl ok.good hviewing hp)
    cases r with
    | error err => exact .inr ⟨err, rfl, failed g.inv hle hend⟩
    | ok plan' => exact .inl (congrArg Except.ok (exact hle hend))
  · obtain ⟨g, hle, hend⟩ := hperf.ends ok ht nc' le_anything
      (activeCollectionCandidates_runs le_rfl ok.good hviewing)
    cases r with
    | error err => exact .inr ⟨err, rfl, failed g.inv hle hend⟩
    | ok blocked =>
        cases blocked with
        | none =>
            have hnone : view.head.activePlan = none := hend
            rw [hp] at hnone
            cases hnone
        | some cs =>
            obtain ⟨p', plan', hp', hat, rfl⟩ := hend
            obtain rfl := Option.some.inj (hp.symm.trans hp')
            rw [exact hle hat]
            exact .inl rfl

end

section

attribute [local instance] sampleHash

/-- A collection that has been finished, and a caller that still holds the view with its fence. -/
def staleFence : List Action :=
  firstCollection ++
  [.call fun w => return .putObject (← w.logAt 0) (← w.viewAt 3) [4]]

/-- Call 5 has begun, and where it loads the plan of its view, the view has expired. -/
def staleFenceFacts (w : World) : Bool :=
  w.busy 5 && match w.logAt 0, w.viewAt 3 with
  | some log, some view => view.head.activePlan.isSome &&
      match World.performing 5 50 w (log.activeCollectionCandidates view) with
      | some (w', .error .viewExpired) => w'.state.collisionFree && decide (0 < w'.state.now)
      | _ => false
  | _, _ => false

theorem staleFence_ends : ends staleFence staleFenceFacts = true := by
  decide +kernel

theorem fence_loads_or_expires_staleFence :
    ∃ log view p w' h, view.head.activePlan = some p ∧
      Performs 5 (sample staleFence) (Log.activeCollectionCandidates log view) w'
        (.done (.error .viewExpired)) ∧
      w'.state.Durable h ∧ h.activePlan ≠ some p := by
  obtain ⟨hr, nc, hf⟩ := ends_ok staleFence_ends
  generalize sample staleFence = w at hr nc hf ⊢
  rw [staleFenceFacts, Bool.and_eq_true] at hf
  obtain ⟨hbusy, hf⟩ := hf
  obtain ⟨e, k, ht⟩ := World.busy_ok hbusy
  split at hf
  · rename_i log view hlog hview
    rw [Bool.and_eq_true] at hf
    obtain ⟨p, hp⟩ := Option.isSome_iff_exists.1 hf.1
    replace hf := hf.2
    split at hf
    · rename_i w' hperforming
      rw [Bool.and_eq_true, decide_eq_true_eq] at hf
      have hperf := World.performing_performs 50 w _ .start hperforming
      have hviewOK : w.state.ViewOK w.state.now view := (World.viewAt_known hview).ok (hr.ok nc)
      have nc' := State.collisionFree_ok hf.1
      obtain ⟨bytes, plan, -, -, hload⟩ := fence_loads_or_expires hr nc ht
        (World.logAt_known hlog) hviewOK.2 hp
      -- the state after the part is in order, so it has a durable head
      have hruns := activeCollectionCandidates_runs (t := 5) le_rfl (hr.ok nc).good
        ⟨(World.logAt_known hlog).ok (hr.ok nc), hviewOK⟩
      obtain ⟨g, -, -⟩ := hperf.ends (hr.ok nc) ht nc' le_anything hruns
      obtain ⟨h, v, hh⟩ := g.inv.headAt (i := w'.state.now - 1) (by omega)
      have hd : w'.state.Durable h := ⟨_, v, hh, by omega⟩
      rcases hload w' _ nc' hperf with hok | ⟨err, herr, hun | ⟨-, hgone⟩⟩
      · cases hok
      · obtain rfl := Except.error.inj herr
        rcases hun with hun | ⟨_, hun⟩ <;> cases hun
      · exact ⟨log, view, p, w', h, hp, hperf, hd, hgone h hd⟩
    · cases hf
  · cases hf

end

section

variable [Blake3] {w w' : World} {s s' : State} {scope : LogId} {t L : Nat} {h : Head}
  {v : UpdateVersion} {log : Log} {view : View} {o r : ObjectRef} {item : Item} {b : Begun}
  {epoch : UInt64} {key : ImmutableKey}

/-! ## The verification that a proof stands for -/

/-- **A call does not miss what its arguments vouch for**, while no later epoch has begun. -/
theorem Performs.finds {α : Type} {A : Effect → Prop} {e : Effect} {k : Reply e → Op Value}
    {p : Op α} {Q : Except Error α → State → Prop} {r : Except Error α} {h₀ : Head}
    {v₀ : UpdateVersion} (hperf : Performs t w p w' (.done r)) (hr : Reachable scope w)
    (nc : w.state.NoCollision) (nc' : w'.state.NoCollision) (hA : A ≤ Anything)
    (hruns : Runs t A p Q w.state) (hb : w.state.calls[t]? = some b)
    (ht : w.threads[t]? = some (.perform e k)) (hi : item ∈ b.call.args)
    (hv : w.state.Vouches item epoch o) (hh₀ : w.state.HeadAt 0 h₀ v₀)
    (hu : Under w'.state.body h₀.incarnation h₀.options o key)
    (hlast : ∀ i g u, w'.state.HeadAt i g u → g.collectionEpoch.toNat ≤ epoch.toNat) :
    ¬ w'.state.Answered t (.get key) L none := by
  have ok := hr.ok nc
  obtain ⟨w₀, hr₀, hsteps, hflights, -, hcalls, hknown⟩ := hr.begun hb
  have hbegin := Step.begin b.call hknown
  have nc₁ := nc.back hsteps.headLog
  have ok₀ := hr₀.ok (nc₁.back hbegin.headLog)
  have ok₁ := ok₀.step hbegin nc₁
  have hle₀ := (ok₀.kept hbegin).2.trans (ok₁.steps hsteps nc).2
  obtain ⟨ok', hle, -⟩ := hperf.keeps ok ht nc' hA hruns
  have inv' := ok'.good.inv
  -- the object was proven when the call began
  obtain ⟨g₀, u₀, hg₀, hproven⟩ := hv.proven hle₀ ok₀.good.inv ((hknown item hi).ok ok₀)
  obtain ⟨rfl, -⟩ := hh₀.unique (hg₀.mono hle₀)
  have hu₀ := hu.back (hle₀.trans hle).body hproven.stored
  have hcreated := State.body_isSome.1 (hu₀.body_isSome hproven.stored)
  have hkind : key.kind ≠ .commit := by
    rcases Under.kind_ne hproven.stored hu₀ with hk | hk <;> rw [hk] <;> nofun
  obtain ⟨bytes, hobj, -⟩ := inv'.held (hproven.mono (hle₀.trans hle)) hu hlast
  have hstored : w'.state.objects key ≠ none := by
    have hobj' : w'.state.objects key = some bytes := hobj
    rw [hobj']
    nofun
  have hnew : (w₀.begin b.call).state.NoMiss b.flights key := by
    intro j tid sent m told hj hf
    have hlt : j < w₀.state.flights.length := (List.getElem?_eq_some_iff.1 hf).1
    omega
  have hmiss : w.state.NoMiss b.flights key := by
    refine hsteps.noMiss ok₁ nc hkind hcreated ?_ hnew
    exact hle.objects hkind (hle₀.createdSome hcreated) hstored
  have hmiss' := hperf.noMiss ok ht nc' hA hruns hkind (hle₀.createdSome hcreated) hstored hmiss
  rintro ⟨j, sent, n, landed, hf, -⟩
  -- the request is one of this call, so it was sent after the call began
  have hj : b.flights ≤ j := by
    by_contra hlt
    have hf₀ := List.getElem?_eq_getElem (show j < w₀.state.flights.length by omega)
    have htid := ok₀.tids j _ hf₀
    obtain ⟨f', hf', htid', -⟩ := (hle₀.trans hle).flight hf₀
    obtain rfl := Option.some.inj (hf.symm.trans hf')
    rw [← htid', ok₀.size, hcalls] at htid
    exact Nat.lt_irrefl t htid
  obtain ⟨-, htold⟩ := (inv'.flights j _ hf).told n (.ok none) rfl
  rcases htold none rfl with ⟨m, -, hlanded⟩ | hrefused
  · have hlanded' : landed = some (m, none) := hlanded
    rw [hlanded'] at hf
    exact hmiss' j t sent m _ hj hf
  · exact hrefused

/-- What a fence blocks is in the plan. -/
theorem State.BlockedOK.listed {blocked : Option (List CollectionCandidate)}
    (hbl : s.BlockedOK view blocked) (hany : blocked.any (isCollectionCandidate · key) = true) :
    s.Listed view.head key := by
  cases blocked with
  | none => cases hany
  | some cs =>
      obtain ⟨p, plan, hp, hat, rfl⟩ := hbl
      obtain ⟨bytes, -, hdec⟩ := id hat
      obtain ⟨-, -, -, hsorted, -⟩ := CollectionPlan.validate_ok (decodeCollectionPlan_ok hdec).1
      obtain ⟨c, hc, hkey⟩ := (isCollectionCandidate_iff hsorted).1 hany
      exact ⟨p, plan, hp, hat, c, hc, hkey⟩

/-- A publication within the limit is within the budget of its verification. -/
theorem publicationObjects_count {objects : List ObjectRef} {n : UInt64}
    (h : log.publicationObjects objects = .ok n) :
    countOf objects ≤ log.options.maxCollectionObjects.toNat := by
  simp only [Log.publicationObjects, bind_ok, ensure_ok, pure, Except.pure] at h
  obtain ⟨count, hcount, ⟨⟩, hle, -⟩ := h
  have hsum := (subtreeObjects_ok hcount).1
  have hle := UInt64.le_iff_toNat_le.1 hle
  unfold countOf
  omega

/-- **Staging proofs are sound.** What a handle vouches for at the durable epoch is stored, as it
was created, and not in the active plan. So for a publication whose dependencies the arguments of
the call vouch for, the verification that it skips succeeds, unless the store refuses: all it
takes is that the fence of the view is still the durable one in the end. -/
theorem staged_proofs_sound (hr : Reachable scope w) (nc : w.state.NoCollision) :
    (∀ item o h, Known w item → w.state.Durable h →
      w.state.Vouches item h.collectionEpoch o →
      Stored w.state.body h.incarnation h.options o ∧
      ∀ r, UnderRef w.state.body h.incarnation h.options o r →
        ¬ w.state.Listed h (objectKey h.incarnation r) ∧
        ∃ bytes, w.state.objects (objectKey h.incarnation r) = some bytes ∧
          Matches w.state.body h.incarnation h.options r bytes) ∧
    ∀ (t : Nat) b (e : Effect) (k : Reply e → Op Value) log view objects n,
      w.state.calls[t]? = some b → w.threads[t]? = some (.perform e k) →
      Known w (.log log) → w.state.Observed view →
      (∀ o ∈ objects, ∃ item ∈ b.call.args,
        w.state.Vouches item view.head.collectionEpoch o) →
      log.publicationObjects objects = .ok n →
      ∀ w' r, w'.state.NoCollision →
        Performs t w (log.verifyPublicationDependencies view objects) w' (.done r) →
        (∃ h, w'.state.Durable h ∧ h.collectionEpoch = view.head.collectionEpoch ∧
          h.activePlan = view.head.activePlan) →
        (∃ blocked, r = .ok blocked) ∨ ∃ err, r = .error err ∧ err.Unavailable := by
  have ok := hr.ok nc
  have inv := ok.good.inv
  refine ⟨fun item o h hknown hd hv => ?_, ?_⟩
  · obtain ⟨h₀, v₀, hh₀, hproven⟩ := hv.proven (.refl _) inv (hknown.ok ok)
    obtain ⟨i, v, hh, -⟩ := id hd
    obtain ⟨-, e2, e3⟩ := inv.identity hh₀ hh
    have hproven := hproven.congr e2 e3
    refine ⟨hproven.stored, fun r hur => ⟨fun hlist => ?_, ?_⟩⟩
    · exact (hproven.avoids _ hur.under).2 _ le_rfl ⟨i, h, v, hh, rfl, hlist⟩
    · obtain ⟨bytes, hobj, hbody⟩ := inv.held hproven hur.under (inv.durable_epoch hd)
      obtain ⟨bytes', hm⟩ := (hur.stored hproven.stored).matches
      obtain rfl := Option.some.inj (hbody.symm.trans hm.stored)
      exact ⟨bytes, hobj, hm⟩
  · intro t b e k log view objects n hb ht hl hv hvouch hcount w' r nc' hperf hfence
    have hviewing : Viewing w.state log view := ⟨hl.ok ok, hv.viewOK inv⟩
    obtain ⟨i, hh⟩ := hviewing.head
    obtain ⟨-, e2, e3⟩ := hviewing.same inv
    have hproven : ∀ o ∈ objects,
        w.state.Proven view.head view.head.collectionEpoch.toNat o := by
      intro o ho
      obtain ⟨item, hi, hvo⟩ := hvouch o ho
      obtain ⟨h₀, v₀, hh₀, hp⟩ :=
        hvo.proven (.refl _) inv ((inv.calls t b hb).args item hi)
      obtain ⟨-, f2, f3⟩ := inv.identity hh₀ hh
      exact hp.congr f2 f3
    have hstored : ∀ o ∈ objects, Stored w.state.body log.incarnation log.options o := by
      intro o ho
      rw [← e2, ← e3]
      exact (hproven o ho).stored
    have hruns := verifyPublicationDependencies_sound (t := t) le_rfl ok.good hviewing hstored
    obtain ⟨g, hle, hend⟩ := hperf.ends ok ht nc' le_anything hruns
    cases r with
    | ok blocked => exact .inl ⟨blocked, rfl⟩
    | error err =>
        refine .inr ⟨err, rfl, ?_⟩
        obtain ⟨h, hd, hepoch, hplan⟩ := hfence
        have hlast := g.inv.durable_epoch hd
        rw [hepoch] at hlast
        -- a dependency is under one of the objects, and its key is not in a plan up to the epoch
        have under : ∀ x, w'.state.Dependency log objects x → ∃ o ∈ objects,
            Under w'.state.body view.head.incarnation view.head.options o
              (objectKey log.incarnation x) := by
          rintro x ⟨o, ho, hux⟩
          rw [← e2, ← e3] at hux
          refine ⟨o, ho, ?_⟩
          rw [← e2]
          exact hux.under
        rcases hend with (herr | ⟨-, p, hp, -, hun⟩) |
          ⟨blocked, hbl, herr | (⟨-, x, hx, hany⟩ | ⟨-, hbudget⟩) | ⟨x, hx, -, hlack⟩⟩
        · exact herr
        · -- the fence is still the durable one
          exact absurd (hplan.trans hp) (hun.durable g.inv (hviewing.before.mono hle) hp hd)
        · exact herr
        · obtain ⟨o, ho, hu⟩ := under x hx
          exact absurd ⟨i, _, _, hh.mono hle, rfl, hbl.listed hany⟩
            ((((hproven o ho).mono hle).avoids _ hu).2 _ le_rfl)
        · have := publicationObjects_count hcount
          omega
        · obtain ⟨o, ho, hu⟩ := under x hx
          obtain ⟨item, hi, hvo⟩ := hvouch o ho
          obtain ⟨h₀, v₀, hh₀⟩ := inv.headAt (i := 0) (Nat.zero_lt_of_lt hh.lt)
          obtain ⟨-, f2, f3⟩ := inv.identity hh hh₀
          rw [← f2, ← f3] at hu
          exact absurd hlack.told
            (hperf.finds hr nc nc' le_anything hruns hb ht hi hvo hh₀ hu hlast)

end

section

attribute [local instance] sampleHash

/-- A commit of a candidate with one object, begun. -/
def commitBegun : List Action := firstCommit.dropLast

/-- Call 4 was given the candidate of call 3, and a verification of its dependencies passes. -/
def commitBegunFacts (w : World) : Bool :=
  w.state.now == 1 && w.busy 4 && match w.logAt 0, w.preparedAt 3 with
  | some log, some p =>
      (w.state.calls[4]?).any (fun b => decide (.prepared p ∈ b.call.args)) &&
      !p.objects.isEmpty && (log.publicationObjects p.objects).toOption.isSome &&
      match World.performing 4 50 w (log.verifyPublicationDependencies p.view p.objects) with
      | some (w', .ok _) => w'.state.collisionFree && w'.state.now == 1
      | _ => false
  | _, _ => false

theorem commitBegun_ends : ends commitBegun commitBegunFacts = true := by
  decide +kernel

theorem staged_proofs_sound_commitBegun :
    ∃ (log : Log) (p : PreparedCommit) (w' : World) (r : Except Error _), p.objects ≠ [] ∧
      (sample commitBegun).state.Durable p.view.head ∧
      (∀ o ∈ p.objects, Stored (sample commitBegun).state.body p.view.head.incarnation
        p.view.head.options o) ∧
      Performs 4 (sample commitBegun) (log.verifyPublicationDependencies p.view p.objects) w'
        (.done r) ∧
      ((∃ blocked, r = .ok blocked) ∨ ∃ err, r = .error err ∧ err.Unavailable) := by
  obtain ⟨hr, nc, hf⟩ := ends_ok commitBegun_ends
  generalize sample commitBegun = w at hr nc hf ⊢
  rw [commitBegunFacts, Bool.and_eq_true, Bool.and_eq_true, beq_iff_eq] at hf
  obtain ⟨⟨hnow, hbusy⟩, hf⟩ := hf
  obtain ⟨e, k, ht⟩ := World.busy_ok hbusy
  split at hf
  · rename_i log p hlog hprep
    simp only [Bool.and_eq_true] at hf
    obtain ⟨⟨⟨hcall, hne⟩, hcount⟩, hf⟩ := hf
    have hknown := World.preparedAt_known hprep
    have hview : w.state.ViewOK w.state.now p.view := (Known.viewOfPrepared hknown).ok (hr.ok nc)
    obtain ⟨⟨i, hi, hh⟩, hobserved⟩ := hview
    have hd : w.state.Durable p.view.head := ⟨i, _, hh, by omega⟩
    obtain ⟨b, hb, hargs⟩ := (Option.any_eq_true _ _).1 hcall
    obtain ⟨n, hn⟩ : ∃ n, log.publicationObjects p.objects = .ok n := by
      cases hx : log.publicationObjects p.objects with
      | ok n => exact ⟨n, rfl⟩
      | error err => rw [hx] at hcount; cases hcount
    split at hf
    · rename_i w' blocked hperforming
      rw [Bool.and_eq_true, beq_iff_eq] at hf
      have hperf := World.performing_performs 50 w _ .start hperforming
      have nc' := State.collisionFree_ok hf.1
      obtain ⟨hstored, hverify⟩ := staged_proofs_sound hr nc
      -- no head was stored meanwhile, so the view is still that of the durable head
      have hsame : w.state.headLog <+: w'.state.headLog := hperf.headLog
      have hd' : w'.state.Durable p.view.head := by
        obtain ⟨bytes, hbytes, hdec⟩ := hh
        exact ⟨i, _, ⟨bytes, getElem?_of_isPrefix hsame hbytes, hdec⟩, by omega⟩
      refine ⟨log, p, w', .ok blocked, by simpa using hne, hd, fun o ho => ?_, hperf, ?_⟩
      · exact (hstored _ o _ hknown hd (.prepared ho)).1
      · exact hverify 4 b e k log p.view p.objects n hb ht (World.logAt_known hlog) hobserved
          (fun o ho => ⟨_, of_decide_eq_true hargs, .prepared ho⟩) hn w' _ nc' hperf
          ⟨_, hd', rfl, rfl⟩
    · cases hf
  · cases hf

end

end ObjectLog
