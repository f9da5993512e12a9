import ObjectLog.Proof.WalkErrors

/-!
# What a finished walk proves

A walk that verifies its blobs proves the graph under its roots: complete, and in no plan
up to the epoch of the view it was made for, since each object was found after the view
was observed and is not a candidate of the view's own plan. A walk that only asks what is
reachable has met every key that the head reaches.
-/

set_option linter.unusedSectionVars false

namespace ObjectLog

open Rely

variable [Blake3] {s s' u : State} {t : Nat} {A : Effect → Prop} {log : Log} {view : View}
  {blocked : Option (List CollectionCandidate)} {mode : GraphWalk} {L : Nat}
  {base visited : Visited}

/-! ## The plan of a view -/

/-- The candidates of the active plan of the view. -/
def State.BlockedOK (s : State) (view : View) (blocked : Option (List CollectionCandidate)) :
    Prop :=
  match blocked with
  | none => view.head.activePlan = none
  | some candidates => ∃ p plan, view.head.activePlan = some p ∧
      s.PlanAt view.head p plan ∧ plan.candidates = candidates

theorem State.BlockedOK.mono (hle : s.Le s') (h : s.BlockedOK view blocked) :
    s'.BlockedOK view blocked := by
  cases blocked with
  | none => exact h
  | some candidates =>
      obtain ⟨p, plan, hp, hat, hc⟩ := h
      exact ⟨p, plan, hp, hat.mono hle, hc⟩

/-- What is not blocked is not listed. -/
theorem State.BlockedOK.free {k : ImmutableKey} (h : s.BlockedOK view blocked)
    (hf : ¬ blocked.any (isCollectionCandidate · k)) : ¬ s.Listed view.head k := by
  rintro ⟨p, plan, hp, hat, c, hc, rfl⟩
  cases blocked with
  | none =>
      have : view.head.activePlan = none := h
      rw [this] at hp
      cases hp
  | some candidates =>
      obtain ⟨p', plan', hp', hat', rfl⟩ := h
      obtain rfl := Option.some.inj (hp.symm.trans hp')
      obtain rfl := hat.unique hat'
      obtain ⟨bytes, -, hdec⟩ := hat
      obtain ⟨-, -, -, hsorted, -⟩ := CollectionPlan.validate_ok
        (decodeCollectionPlan_ok hdec).1
      exact hf ((isCollectionCandidate_iff hsorted).2 ⟨c, hc, rfl⟩)

theorem planOfHead_ok {head : Head} {p : CollectionPlanRef} {bytes : Bytes}
    {plan : CollectionPlan} (h : log.planOfHead head p bytes = .ok plan) :
    decodeCollectionPlan bytes log.options = .ok plan := by
  simp only [Log.planOfHead, bind_ok, ensure_ok, pure, Except.pure, Except.ok.injEq] at h
  obtain ⟨⟨⟩, -, plan', hd, ⟨⟩, -, rfl⟩ := h
  exact hd

theorem planOfHead_matches {i : Nat} {h : Head} {v : UpdateVersion} {p : CollectionPlanRef}
    {bytes : Bytes} {plan : CollectionPlan} (inv : Inv s) (hl : s.LogOK log) (hh : s.HeadAt i h v)
    (m : s.PlanMatches h p bytes plan) : log.planOfHead h p bytes = .ok plan := by
  obtain ⟨e1, -, e3⟩ := hl.head inv hh
  refine bind_ok.2 ⟨(), ensure_ok.2 ⟨m.len, m.digest⟩, ?_⟩
  refine bind_ok.2 ⟨plan, e3 ▸ m.decode, ?_⟩
  exact bind_ok.2 ⟨(), ensure_ok.2 ⟨m.logId.trans e1, m.epoch⟩, rfl⟩

/-- A head not before moment `L` does not name the plan `p`. -/
def State.Unfenced (s : State) (L : Nat) (p : CollectionPlanRef) : Prop :=
  ∃ i h v, L ≤ i + 1 ∧ s.HeadAt i h v ∧ h.activePlan ≠ some p

theorem State.Unfenced.mono {p : CollectionPlanRef} (hle : s.Le s') (h : s.Unfenced L p) :
    s'.Unfenced L p := by
  obtain ⟨i, hd, v, hi, hh, hne⟩ := h
  exact ⟨i, hd, v, hi, hh.mono hle, hne⟩

theorem State.Unfenced.later {L' : Nat} {p : CollectionPlanRef} (hL : L' ≤ L)
    (h : s.Unfenced L p) : s.Unfenced L' p := by
  obtain ⟨i, hd, v, hi, hh, hne⟩ := h
  exact ⟨i, hd, v, by omega, hh, hne⟩

/-- The plan of a fence could not be read: the store refused, or the plan is missing and the
fence has been cleared. -/
def State.PlanError (s : State) (t L : Nat) (view : View) (e : Error) : Prop :=
  e.Unavailable ∨ (e = .viewExpired ∧ ∃ p, view.head.activePlan = some p ∧
    s.Lacks t L (collectionPlanKey view.head.incarnation p) ∧ s.Unfenced L p)

theorem State.PlanError.mono {e : Error} (hle : s.Le s') (hL : L ≤ s.now) (inv : Inv s)
    (h : s.PlanError t L view e) : s'.PlanError t L view e := by
  refine h.imp id ?_
  rintro ⟨he, p, hp, hlack, hun⟩
  exact ⟨he, p, hp, hlack.mono hle hL inv, hun.mono hle⟩

theorem State.PlanError.later {L' : Nat} {e : Error} (hL : L' ≤ L) (h : s.PlanError t L view e) :
    s.PlanError t L' view e := by
  refine h.imp id ?_
  rintro ⟨he, p, hp, hlack, hun⟩
  exact ⟨he, p, hp, hlack.later hL, hun.later hL⟩

/-- A head that misses the plan it names has been replaced by one that does not. -/
theorem State.Lacks.unfenced {p : CollectionPlanRef} (inv : Inv s) (hb : s.Before L view)
    (h : s.Lacks t L (collectionPlanKey view.head.incarnation p)) : s.Unfenced L p := by
  obtain ⟨-, i, hi, hh⟩ := hb
  obtain ⟨m, g, w, hm, hg, hne⟩ := h.missed.unnamed (by omega)
  obtain ⟨-, e2, -⟩ := inv.identity hh hg
  refine ⟨m, g, w, hm, hg, fun hgp => ?_⟩
  rw [hgp, e2] at hne
  exact hne rfl

/-- What a head that is loaded after the fence was cleared looks like. -/
theorem State.Unfenced.loaded {p : CollectionPlanRef} {current : View} (hun : s.Unfenced L p)
    (hb : s.Before L view) (hp : view.head.activePlan = some p) (hle : s.Le u) (inv : Inv u)
    (load : Loaded t s.now current u) :
    view.head.generation < current.head.generation ∧ current.head.activePlan ≠ some p ∧
      (view.head.collectionEpoch < current.head.collectionEpoch ∨
        (current.head.collectionEpoch = view.head.collectionEpoch ∧
          current.head.activePlan = none)) := by
  obtain ⟨-, i, hi, hh⟩ := hb
  obtain ⟨m, g, w, hm, hg, hno⟩ := hun
  obtain ⟨n, hn, hhn⟩ := load.head
  have him : i ≠ m := by
    rintro rfl
    obtain ⟨rfl, -⟩ := hh.unique hg
    exact hno hp
  have hmn : m ≤ n := by
    have := hg.lt
    omega
  have hlater := inv.plan_once (hh.mono hle) (hg.mono hle) hhn (by omega) hmn hp hno
  refine ⟨?_, hlater, ?_⟩
  · rw [UInt64.lt_iff_toNat_lt, inv.generation (hh.mono hle), inv.generation hhn]
    omega
  · have hmono := inv.epoch_mono (by omega : i ≤ n) (hh.mono hle) hhn
    rcases Nat.lt_or_ge view.head.collectionEpoch.toNat current.head.collectionEpoch.toNat with
      hlt | hge
    · exact .inl (UInt64.lt_iff_toNat_lt.2 hlt)
    · have he : current.head.collectionEpoch = view.head.collectionEpoch :=
        UInt64.toNat_inj.1 (by omega)
      refine .inr ⟨he, ?_⟩
      cases hc : current.head.activePlan with
      | none => rfl
      | some p' =>
          rw [inv.plan_of_epoch (hh.mono hle) hhn he.symm hp hc] at hlater
          exact absurd hc hlater

/-- **The plan of a view is what was installed, or the view has expired.** -/
theorem readCollectionPlan_runs {p : CollectionPlanRef} (hA : Reads ≤ A) (g : Good s)
    (hv : Viewing s log view) (hp : view.head.activePlan = some p) :
    Runs t A (log.readCollectionPlan view.head p) (fun r u => match r with
      | .ok plan => u.PlanAt view.head p plan
      | .error e => u.PlanError t s.now view e) s := by
  obtain ⟨-, -, e3⟩ := hv.same g.inv
  obtain ⟨i, hh⟩ := hv.head
  obtain ⟨bytes₀, plan₀, m⟩ := g.inv.plan_body hh hp
  refine Runs.ite (fun hlt => ?_) fun _ => ?_
  · have h1 := hh.valid.planLen p hp
    have h2 := UInt64.lt_iff_toNat_lt.1 hlt
    rw [e3] at h1
    omega
  refine Runs.bind le_rfl g (readKey_runs hA g _ _) ?_ ?_
  swap
  · rintro e u tr gu (h | ⟨-, bytes, hb, hlt⟩)
    · exact .inl h
    · obtain rfl := Option.some.inj ((tr.le.body _ _ m.body).symm.trans hb)
      rw [m.len] at hlt
      omega
  rintro (_ | bytes) u tr gu h
  · have hun := h.unfenced gu.inv (hv.before.mono tr.le)
    refine Runs.bind le_rfl gu (load_runs hA gu (hv.log.mono tr.le)) ?_
      fun e v _ _ he => .inl he
    rintro current v tr' gv load
    have hnow := hun.loaded (hv.before.mono tr.le) hp tr'.le gv.inv load
    refine Runs.ite (fun _ => Runs.throw fun w o _ => ?_) fun hno => absurd hnow hno
    have hle := tr'.le.trans o.le
    exact .inr ⟨rfl, p, hp, h.mono hle tr.le.now gu.inv, hun.mono hle⟩
  · refine Runs.lift fun v o gv => ?_
    obtain rfl := Option.some.inj ((tr.le.body _ _ m.body).symm.trans h.1)
    rw [planOfHead_matches g.inv hv.log hh m]
    exact ⟨_, o.le.body _ _ h.1, m.decode⟩

/-- The candidates of the view, from its cache or from the store. -/
theorem activeCollectionCandidates_runs (hA : Reads ≤ A) (g : Good s) (hv : Viewing s log view) :
    Runs t A (log.activeCollectionCandidates view) (fun r u => match r with
      | .ok blocked => u.BlockedOK view blocked
      | .error e => u.PlanError t s.now view e) s := by
  unfold Log.activeCollectionCandidates
  cases hp : view.head.activePlan with
  | none => exact Runs.pure fun _ _ _ => hp
  | some p =>
      -- what the cache of a view holds is the plan of its head
      have cached : ∀ {v : State} {o : ObservedState} {cs : List CollectionCandidate}, Good v →
          v.views[view.id]? = some o → o.head = view.head →
          o.collectionCandidates = some cs → v.BlockedOK view (some cs) := by
        intro v o cs gv ho hh hc
        obtain ⟨-, hcs⟩ := gv.inv.views _ o ho
        obtain ⟨p', plan, hp', hat, he⟩ := hcs cs hc
        rw [hh] at hp' hat
        exact ⟨p', plan, hp', hat, he⟩
      have observed : ∀ v, s.Le v → ∃ o, v.views[view.id]? = some o ∧ o.head = view.head := by
        intro v hle
        obtain ⟨-, o, ho, e1, -⟩ := (hv.mono hle).view
        exact ⟨o, ho, e1⟩
      refine Runs.bind (P := fun r u => ∃ c : Option (List CollectionCandidate), r = .ok c ∧
        ∀ cs, c = some cs → u.BlockedOK view (some cs)) le_rfl g ?_ ?_ nofun
      · refine Runs.ask fun u o gu => ⟨⟨trivial, hA _ trivial⟩, fun c v hx gv w o' gw => ?_⟩
        obtain ⟨rfl, rfl⟩ := hx
        refine ⟨_, rfl, fun cs hcs => State.BlockedOK.mono o'.le ?_⟩
        obtain ⟨ob, hob, hh⟩ := observed v o.le
        rw [hob] at hcs
        exact cached gv hob hh hcs
      rintro c u tr gu ⟨c', hc', hcs⟩
      obtain rfl := Except.ok.inj hc'
      cases c with
      | some cs => exact Runs.pure fun v o _ => (hcs cs rfl).mono o.le
      | none =>
          refine Runs.bind le_rfl gu (readCollectionPlan_runs hA gu (hv.mono tr.le) hp) ?_
            fun e v _ _ h => State.PlanError.later tr.le.now h
          rintro plan v tr' gv hat
          refine Runs.bind (P := fun r u => ∃ cs : List CollectionCandidate, r = .ok cs ∧
            u.BlockedOK view (some cs)) le_rfl gv ?_ ?_ nofun
          · refine Runs.ask fun w o gw => ⟨⟨fun ob hob => ?_, hA _ trivial⟩,
              fun cs x hx gx y o' gy => ?_⟩
            · obtain ⟨ob', hob', hh⟩ := observed w ((tr.le.trans tr'.le).trans o.le)
              obtain rfl := Option.some.inj (hob.symm.trans hob')
              rw [hh]
              exact ⟨p, plan, hp, hat.mono o.le, rfl⟩
            · obtain ⟨rfl, rfl⟩ := hx
              refine ⟨_, rfl, ?_⟩
              obtain ⟨ob, hob, hh⟩ := observed w ((tr.le.trans tr'.le).trans o.le)
              have hle : w.Le y := (gw.inv.exec (t := t)
                (e := .initCollectionCandidates view.id plan.candidates) (fun ob' hob' => by
                  obtain rfl := Option.some.inj (hob.symm.trans hob')
                  rw [hh]
                  exact ⟨p, plan, hp, hat.mono o.le, rfl⟩) ⟨rfl, rfl⟩).2.trans o'.le
              rw [hob]
              cases hcc : ob.collectionCandidates with
              | some cs => simpa [hcc] using (cached gw hob hh hcc).mono hle
              | none => simpa [hcc] using
                  (show w.BlockedOK view (some plan.candidates) from
                    ⟨p, plan, hp, hat.mono o.le, rfl⟩).mono hle
          · rintro cs w tr'' gw ⟨cs', hcs', hb⟩
            obtain rfl := Except.ok.inj hcs'
            exact Runs.pure fun x o _ => hb.mono o.le

/-! ## A finished walk -/

/-- Every object the walk has met is handled. -/
def State.Marked (s : State) (L : Nat) (log : Log) (blocked : Option (List CollectionCandidate))
    (mode : GraphWalk) (visited : Visited) : Prop :=
  ∀ r, visited.Has log r → r.kind ≠ .checkpoint →
    Enqueueable log blocked r ∧ s.Handled L log mode visited r

theorem State.Marked.mono (hle : s.Le s') (hL : L ≤ s.now)
    (h : s.Marked L log blocked mode visited) : s'.Marked L log blocked mode visited :=
  fun r hr hk => ⟨(h r hr hk).1, (h r hr hk).2.mono hle hL (.refl _)⟩

/-- Nothing that the walk started with is a blob or a node. -/
def Visited.Records (base : Visited) : Prop :=
  ∀ k m, base.lookup k = some m → k.kind ≠ .blob ∧ k.kind ≠ .node

theorem WalkOK.marked (ok : WalkOK s t L log blocked mode base visited [] [])
    (hbase : base.Records) : s.Marked L log blocked mode visited := by
  intro r hr hk
  rcases ok.met _ _ hr with hb | ⟨r', hr', hm, hok, hp | ⟨x, hx, -⟩ | hh⟩
  · obtain ⟨h1, h2⟩ := hbase _ _ hb
    cases hkind : r.kind <;> simp_all [objectKey, ObjectKind.immutable]
  · cases hp
  · cases hx
  · have hr'' : visited.Has log r' := by
      rw [Visited.Has, hr', ← hm]
      exact hr
    obtain rfl := Visited.Has.unique hr' hr'' hr
    exact ⟨hok, hh⟩

theorem markObjectGraph_runs {roots : List ObjectRef} (hA : Reads ≤ A) (g : Good s)
    (hbase : base.Records) :
    Runs t A (log.markObjectGraph roots base blocked mode) (fun r u => match r with
      | .ok visited => base.Le visited ∧
          (∀ r ∈ roots, visited.Has log r ∧ r.kind ≠ .checkpoint) ∧
          u.Marked s.now log blocked mode visited
      | .error _ => True) s := by
  refine Runs.liftBind (fun walk hwalk => ?_) fun _ _ _ _ _ => trivial
  have enq := enqueueObjects_ok hwalk
  obtain ⟨new, hp, -, -, hnew, hback⟩ := enq.pending
  have hp : walk.pending = new := hp
  have ok : WalkOK s t s.now log blocked mode base walk.visited walk.pending [] := by
    refine ⟨fun k m hk => ?_, fun r hr => ?_, nofun⟩
    · rcases hback k m hk with hk | ⟨r, hr, hrk, hrm⟩
      · exact .inl hk
      · exact .inr ⟨r, hrk, hrm, (hnew r hr).2.1, .inl (hp ▸ hr)⟩
    · rw [hp] at hr
      exact (hnew r hr).2
  refine (walkGraph_runs hA _ walk [] 0 s g le_rfl ok (by simp)).mono ?_
  rintro (e | visited) u gu h
  · trivial
  · exact ⟨enq.kept.trans h.1, fun r hr =>
      ⟨(enq.met r hr).1.mono h.1, (enq.met r hr).2.kind⟩, h.2.marked hbase⟩

/-- **What the walk has met is closed**: the keys under an object it met were met. -/
theorem State.Marked.under (hm : s.Marked L log blocked mode visited) {r : ObjectRef}
    {k : ImmutableKey} (hu : Under s.body log.incarnation log.options r k) :
    visited.Has log r → r.kind ≠ .checkpoint →
      ∃ r', objectKey log.incarnation r' = k ∧ visited.Has log r' ∧ r'.kind ≠ .checkpoint := by
  induction hu with
  | self r => exact fun hr hk => ⟨r, rfl, hr, hk⟩
  | child kind hb hd hc _ ih =>
      intro hr hk
      rcases (hm _ hr hk).2 with ⟨hkind, -⟩ | ⟨-, bytes, n, hf, hdec, -, hch⟩
      · rw [kind] at hkind
        cases hkind
      · obtain rfl := Option.some.inj (hf.1.stored.symm.trans hb)
        obtain rfl := Except.ok.inj (hdec.symm.trans hd)
        exact ih (hch _ hc).1 (hch _ hc).2

/-- **A walk that verified the blobs met a complete graph.** The induction is on the count
that a reference declares, which is larger than that of its children. -/
theorem State.Marked.stored (hm : s.Marked L log blocked .verifyBlobs visited) :
    ∀ (n : Nat) (r : ObjectRef), r.subtreeObjects.toNat ≤ n → visited.Has log r →
      r.kind ≠ .checkpoint → Stored s.body log.incarnation log.options r := by
  intro n
  induction n with
  | zero =>
      intro r hn hr hk
      have hc := (hm r hr hk).1.counted
      have h0 : r.subtreeObjects = 0 := UInt64.toNat_inj.1 (by simpa using hn)
      simp [ObjectRef.Counted, ObjectRef.validateCount, h0] at hc
  | succ n ih =>
      intro r hn hr hk
      rcases (hm r hr hk).2 with ⟨hkind, h | ⟨bytes, hf⟩⟩ | ⟨hkind, bytes, node, hf, hd, hs, hch⟩
      · cases h
      · exact .blob hkind hf.1
      · refine .node hkind hf.1 hd hs fun c hc => ih c ?_ (hch c hc).1 (hch c hc).2
        have := subtreeObjects_lt hs hc
        omega

/-- An object that the walk met was found in the store. -/
theorem State.Marked.seen (hm : s.Marked L log blocked .verifyBlobs visited) {r : ObjectRef}
    (hr : visited.Has log r) (hk : r.kind ≠ .checkpoint) :
    s.Seen L (objectKey log.incarnation r) := by
  rcases (hm r hr hk).2 with ⟨-, h | ⟨bytes, hf⟩⟩ | ⟨-, bytes, node, hf, -⟩
  · cases h
  · exact hf.2
  · exact hf.2

theorem objectKey_kind (inc : Uuid) (r : ObjectRef) : (objectKey inc r).kind ≠ .commit := by
  cases h : r.kind <;> simp [objectKey, ObjectKind.immutable, h]

/-- **What the walk of a publication proves.** -/
theorem State.Marked.proven (hm : s.Marked L log blocked .verifyBlobs visited) (inv : Inv s)
    (hv : Viewing s log view) (hb : s.Before L view) (hbl : s.BlockedOK view blocked)
    {r : ObjectRef} (hr : visited.Has log r) (hk : r.kind ≠ .checkpoint) :
    s.Proven view.head view.head.collectionEpoch.toNat r := by
  obtain ⟨-, e2, e3⟩ := hv.same inv
  refine ⟨?_, fun k hu => ?_⟩
  · rw [e2, e3]
    exact hm.stored _ r le_rfl hr hk
  · rw [e2, e3] at hu
    obtain ⟨r', rfl, hr', hk'⟩ := hm.under hu hr hk
    obtain ⟨-, i, hi, hh⟩ := hb
    exact hm.seen hr' hk' (objectKey_kind _ _) i _ _ hi hh (hbl.free (hm r' hr' hk').1.free)

/-! ## The users of the walk -/

theorem Visited.records_nil : Visited.Records [] := fun _ _ h => by simp at h

/-- How reading a complete graph can fail. -/
def State.GraphError (s : State) (t L : Nat) (e : Error) : Prop :=
  e.Unavailable ∨ e = .limitExceeded "collection live objects" ∨
    (e.Missing ∧ ∃ key, key.kind ≠ .commit ∧ s.Lacks t L key)

theorem State.GraphError.later {L' : Nat} {e : Error} (hL : L' ≤ L) (h : s.GraphError t L e) :
    s.GraphError t L' e :=
  h.imp id (Or.imp id fun ⟨hm, key, hk, hl⟩ => ⟨hm, key, hk, hl.later hL⟩)

/-- Without a fence nothing is blocked. -/
theorem State.WalkError.graphError {G : ObjectRef → Prop} {budget : Nat} {e : Error}
    (h : s.WalkError t L log none G budget e) : s.GraphError t L e := by
  rcases h with h | (⟨-, r, -, hf⟩ | ⟨he, -⟩) | ⟨r, -, hm, hl⟩
  · exact .inl h
  · cases hf
  · exact .inr (.inl he)
  · exact .inr (.inr ⟨hm, _, objectKey_kind _ _, hl⟩)

theorem Visited.of_nil {G : ObjectRef → Prop} : Visited.Of [] log G := fun _ _ h => by simp at h

/-- The graph under the dependencies of a publication. -/
def State.Dependency (s : State) (log : Log) (objects : List ObjectRef) (r : ObjectRef) : Prop :=
  ∃ o ∈ objects, UnderRef s.body log.incarnation log.options o r

/-- How the verification of complete dependencies can fail. -/
def State.DependencyError (s : State) (t L : Nat) (log : Log) (view : View)
    (objects : List ObjectRef) (e : Error) : Prop :=
  s.PlanError t L view e ∨ ∃ blocked, s.BlockedOK view blocked ∧
    s.WalkError t L log blocked (s.Dependency log objects) (countOf objects) e

theorem UnderRef.mono {body body' : Bodies} {inc : Uuid} {opts : Options} {o r : ObjectRef}
    (hle : body.Le body') (h : UnderRef body inc opts o r) : UnderRef body' inc opts o r := by
  induction h with
  | self r => exact .self r
  | child kind hb hd hc _ ih => exact .child kind (hle _ _ hb) hd hc ih

theorem Inside.mono {body body' : Bodies} {h : Head} {r : ObjectRef} (hle : body.Le body')
    (hi : Inside body h r) : Inside body' h r := by
  cases hi with
  | commitObject hc hb hd ho hu => exact .commitObject hc (hle _ _ hb) hd ho (hu.mono hle)
  | checkpointObject hc hb hd ho hu => exact .checkpointObject hc (hle _ _ hb) hd ho (hu.mono hle)

theorem State.WalkError.congr {G G' : ObjectRef → Prop} {budget : Nat} {e : Error}
    (hG : ∀ r, G r → G' r) (h : s.WalkError t L log blocked G budget e) :
    s.WalkError t L log blocked G' budget e := by
  rcases h with h | (⟨he, r, hr, hf⟩ | he) | ⟨r, hr, hl⟩
  · exact .inl h
  · exact .inr (.inl (.inl ⟨he, r, hG r hr, hf⟩))
  · exact .inr (.inl (.inr he))
  · exact .inr (.inr ⟨r, hG r hr, hl⟩)

theorem State.WalkError.later {G : ObjectRef → Prop} {budget L' : Nat} {e : Error} (hL : L' ≤ L)
    (h : s.WalkError t L log blocked G budget e) : s.WalkError t L' log blocked G budget e :=
  h.imp id (Or.imp id fun ⟨r, hr, hm, hl⟩ => ⟨r, hr, hm, hl.later hL⟩)

theorem markDependencies_runs {objects : List ObjectRef} (hA : Reads ≤ A) (g : Good s)
    (hs : ∀ o ∈ objects, Stored s.body log.incarnation log.options o) :
    Runs t A (log.markObjectGraph objects [] blocked mode) (fun r u => match r with
      | .ok _ => True
      | .error e => u.WalkError t s.now log blocked (u.Dependency log objects)
          (countOf objects) e) s := by
  have hroots : ∀ o ∈ objects, s.Dependency log objects o := fun o ho => ⟨o, ho, .self o⟩
  refine (markObjectGraph_sound hA g (graphOK_under hs) hroots Visited.of_nil).track.mono ?_
  rintro (e | visited) u gu ⟨tr, h⟩
  · rw [List.length_nil, Nat.zero_add] at h
    exact h.congr fun r ⟨o, ho, hu⟩ => ⟨o, ho, hu.mono tr.le.body⟩
  · trivial

theorem verifyPublicationDependencies_runs {objects : List ObjectRef} (hA : Reads ≤ A)
    (g : Good s) (hv : Viewing s log view) :
    Runs t A (log.verifyPublicationDependencies view objects) (fun r u => match r with
      | .ok blocked => u.BlockedOK view blocked ∧
          ∀ o ∈ objects, u.Proven view.head view.head.collectionEpoch.toNat o
      | .error _ => True) s := by
  refine Runs.bind le_rfl g (activeCollectionCandidates_runs hA g hv) ?_ fun _ _ _ _ _ => trivial
  rintro blocked u tr gu hbl
  refine Runs.bind le_rfl gu (markObjectGraph_runs hA gu Visited.records_nil) ?_
    fun _ _ _ _ _ => trivial
  rintro visited v tr' gv ⟨-, hroots, hm⟩
  refine Runs.pure fun w o gw => ⟨(State.BlockedOK.mono tr'.le hbl).mono o.le, fun x hx => ?_⟩
  refine State.Proven.mono o.le (hm.proven gv.inv (hv.mono (tr.le.trans tr'.le)) ?_
    (hbl.mono tr'.le) (hroots x hx).1 (hroots x hx).2)
  exact (hv.mono tr.le).before.mono tr'.le

/-- **The verification of complete dependencies.** -/
theorem verifyPublicationDependencies_sound {objects : List ObjectRef} (hA : Reads ≤ A)
    (g : Good s) (hv : Viewing s log view)
    (hs : ∀ o ∈ objects, Stored s.body log.incarnation log.options o) :
    Runs t A (log.verifyPublicationDependencies view objects) (fun r u => match r with
      | .ok _ => True
      | .error e => u.DependencyError t s.now log view objects e) s := by
  refine Runs.bind le_rfl g (activeCollectionCandidates_runs hA g hv) ?_ fun _ _ _ _ h => .inl h
  rintro blocked u tr gu hbl
  have hs' := fun o ho => (hs o ho).mono tr.le.body
  refine Runs.bind le_rfl gu (markDependencies_runs hA gu hs') ?_ ?_
  · exact fun _ _ _ _ _ => Runs.pure fun _ _ _ => trivial
  · exact fun e v tr' gv h => .inr ⟨blocked, hbl.mono tr'.le, h.later tr.le.now⟩

/-- How `verify_publication` of complete dependencies can fail. -/
def State.PublicationError (s : State) (t L : Nat) (e : Error) : Prop :=
  e = .collectionFence ∨ s.GraphError t L e ∨ (e.Missing ∧ ∃ key, s.Lacks t L key)

theorem State.PlanError.publication {e : Error} (h : s.PlanError t L view e) :
    s.PublicationError t L e := by
  rcases h with h | ⟨he, p, -, hl, -⟩
  · exact .inr (.inl (.inl h))
  · exact .inr (.inr ⟨.inl he, _, hl⟩)

theorem State.DependencyError.publication {objects : List ObjectRef} {e : Error}
    (h : s.DependencyError t L log view objects e) : s.PublicationError t L e := by
  rcases h with h | ⟨blocked, -, h | (⟨he, -⟩ | ⟨he, -⟩) | ⟨r, -, hm, hl⟩⟩
  · exact h.publication
  · exact .inr (.inl (.inl h))
  · exact .inl he
  · exact .inr (.inl (.inr (.inl he)))
  · exact .inr (.inr ⟨hm, _, hl⟩)

/-- What `verify_publication` has established when it succeeds: the new key is not in the
plan of the view, and where the staging domain is another one, neither is the graph. -/
theorem verifyPublication_runs {key : ImmutableKey} {objects : List ObjectRef} {staging : Domain}
    (hA : Reads ≤ A) (g : Good s) (hv : Viewing s log view) :
    Runs t A (log.verifyPublication view key objects staging) (fun r u => match r with
      | .ok _ => ¬ u.Listed view.head key ∧ (log.proofMatches staging = false →
          ∀ o ∈ objects, u.Proven view.head view.head.collectionEpoch.toNat o)
      | .error _ => True) s := by
  -- both branches go on with the check of the new key
  have finish : ∀ (blocked : Option (List CollectionCandidate)) (u : State),
      u.BlockedOK view blocked → (log.proofMatches staging = false →
        ∀ o ∈ objects, u.Proven view.head view.head.collectionEpoch.toNat o) →
      Runs t A (if blocked.any (isCollectionCandidate · key) then throw .collectionFence
        else pure ()) (fun r u => match r with
          | .ok _ => ¬ u.Listed view.head key ∧ (log.proofMatches staging = false →
              ∀ o ∈ objects, u.Proven view.head view.head.collectionEpoch.toNat o)
          | .error _ => True) u := by
    intro blocked u hbl hp
    refine Runs.ite (fun _ => Runs.throw fun _ _ _ => trivial) fun hfree => ?_
    exact Runs.pure fun v o _ => ⟨(hbl.mono o.le).free hfree, fun hf x hx => (hp hf x hx).mono o.le⟩
  refine Runs.ite (fun hm => ?_) fun _ => ?_
  · refine Runs.bind le_rfl g (activeCollectionCandidates_runs hA g hv) ?_ fun _ _ _ _ _ => trivial
    exact fun blocked u tr gu h => finish blocked u h fun hf => by rw [hm] at hf; cases hf
  · refine Runs.bind le_rfl g (verifyPublicationDependencies_runs hA g hv) ?_
      fun _ _ _ _ _ => trivial
    exact fun blocked u tr gu h => finish blocked u h.1 fun _ => h.2

theorem verifyPublication_sound {key : ImmutableKey} {objects : List ObjectRef} {staging : Domain}
    (hA : Reads ≤ A) (g : Good s) (hv : Viewing s log view)
    (hs : ∀ o ∈ objects, Stored s.body log.incarnation log.options o) :
    Runs t A (log.verifyPublication view key objects staging) (fun r u => match r with
      | .ok _ => True
      | .error e => u.PublicationError t s.now e) s := by
  have finish : ∀ (blocked : Option (List CollectionCandidate)) (u : State),
      Runs t A (if blocked.any (isCollectionCandidate · key) then throw .collectionFence
        else pure ()) (fun r u => match r with
          | .ok _ => True
          | .error e => u.PublicationError t s.now e) u := fun blocked u =>
    Runs.ite (fun _ => Runs.throw fun _ _ _ => .inl rfl) fun _ => Runs.pure fun _ _ _ => trivial
  refine Runs.ite (fun _ => ?_) fun _ => ?_
  · exact Runs.bind le_rfl g (activeCollectionCandidates_runs hA g hv)
      (fun blocked u _ _ _ => finish blocked u) fun _ _ _ _ h => h.publication
  · exact Runs.bind le_rfl g (verifyPublicationDependencies_sound hA g hv hs)
      (fun blocked u _ _ _ => finish blocked u) fun _ _ _ _ h => h.publication

theorem verifyObjectGraph_runs {objects : List ObjectRef} (hA : Reads ≤ A) (g : Good s)
    (hs : ∀ o ∈ objects, Stored s.body log.incarnation log.options o) :
    Runs t A (log.verifyObjectGraph objects) (fun r u => match r with
      | .ok _ => True
      | .error e => u.GraphError t s.now e) s := by
  have hroots : ∀ o ∈ objects, ∃ o' ∈ objects,
      UnderRef s.body log.incarnation log.options o' o := fun o ho => ⟨o, ho, .self o⟩
  refine Runs.bind le_rfl g
    (markObjectGraph_sound hA g (graphOK_under hs) hroots Visited.of_nil) ?_ ?_
  · exact fun _ _ _ _ _ => Runs.pure fun _ _ _ => trivial
  · exact fun _ _ _ _ h => h.graphError

theorem Viewing.storedObjects {c : CommitRef} {record : CommitRecord} (hv : Viewing s log view)
    (inv : Inv s) (hr : s.RecordOK view.head c record) :
    ∀ o ∈ record.objects, Stored s.body log.incarnation log.options o := by
  obtain ⟨-, e2, e3⟩ := hv.same inv
  obtain ⟨commit, b, rfl⟩ := hr
  intro o ho
  rw [← e2, ← e3]
  exact b.objects o ho

theorem verifyPublishedCommit_runs {c : CommitRef} (hA : Reads ≤ A) (g : Good s)
    (hv : Viewing s log view) (hc : c ∈ view.head.tail) :
    Runs t A (log.verifyPublishedCommit c) (fun r u => match r with
      | .ok _ => True
      | .error e => u.PublicationError t s.now e) s := by
  refine Runs.bind le_rfl g (readCommit_runs hA g hv hc) ?_ ?_
  · intro record u tr gu hr
    refine (verifyObjectGraph_runs hA gu ((hv.mono tr.le).storedObjects gu.inv hr)).mono ?_
    rintro (e | a) v gv h
    · exact .inr (.inl (State.GraphError.later tr.le.now h))
    · trivial
  · rintro e u tr gu (h | h)
    · exact .inr (.inl (.inl h))
    · exact .inr (.inr ⟨h.1, _, h.2⟩)

theorem verifyCheckpoint_runs {c : CheckpointRef} {i : Nat} {h : Head} {v : UpdateVersion}
    {ck : Checkpoint} (hA : Reads ≤ A) (g : Good s) (hl : s.LogOK log) (hh : s.HeadAt i h v)
    (hb : CheckpointBody s.body h c ck) :
    Runs t A (log.verifyCheckpoint c) (fun r u => match r with
      | .ok _ => True
      | .error e => u.GraphError t s.now e) s := by
  obtain ⟨-, e2, e3⟩ := hl.head g.inv hh
  refine Runs.bind le_rfl g (loadCheckpoint_runs hA g hl c) ?_ ?_
  · rintro ck' u tr gu ⟨bytes, hbytes, hdec⟩
    -- what was loaded is what was stored
    have hst := tr.le.body _ _ (e2 ▸ hb.stored)
    obtain rfl := Option.some.inj (hst.symm.trans hbytes)
    obtain rfl := Except.ok.inj (hb.decode.symm.trans hdec)
    refine (verifyObjectGraph_runs hA gu fun o ho => ?_).mono ?_
    · rw [← e2, ← e3]
      exact (hb.objects o ho).mono tr.le.body
    · rintro (e | a) w gw hw
      · exact State.GraphError.later tr.le.now hw
      · trivial
  · intro e u tr gu hload
    rcases hload i h v ck hh hb with he | he
    · exact .inl he
    · exact .inr (.inr ⟨he.1, _, objectKey_kind _ _, he.2⟩)

/-! ## The live set -/

theorem insertLive_ok {live live' : Visited} {key : ImmutableKey} {len subtree : UInt64}
    (h : log.insertLive live key len subtree = .ok live') (hl : live.Records)
    (hk : key.kind ≠ .blob ∧ key.kind ≠ .node) :
    live.Le live' ∧ (live'.lookup key).isSome ∧ live'.Records := by
  simp only [Log.insertLive, bind_ok, ensure_ok, pure, Except.pure, Except.ok.injEq] at h
  obtain ⟨⟨⟩, -, ⟨⟩, -, rfl⟩ := h
  split
  · rename_i hs
    exact ⟨.refl _, hs, hl⟩
  · rename_i hs
    rw [Option.not_isSome_iff_eq_none] at hs
    have hlook : ∀ k, List.lookup k ((key, (len, subtree)) :: live) =
        if k = key then some (len, subtree) else live.lookup k := by
      intro k
      rw [List.lookup_cons]
      by_cases he : k = key
      · simp [he]
      · rw [beq_false_of_ne he, if_neg he]
    refine ⟨fun k m hm => ?_, by rw [hlook, if_pos rfl]; rfl, fun k m hm => ?_⟩
    · rw [hlook, if_neg (fun he => by rw [he, hs] at hm; cases hm)]
      exact hm
    · rw [hlook] at hm
      split at hm
      · rename_i he
        exact he ▸ hk
      · exact hl k m hm

theorem addRoots_ok {roots objects roots' : List ObjectRef}
    (h : log.addRoots roots objects = .ok roots') : roots' = roots ++ objects := by
  simp only [Log.addRoots, bind_ok, pure, Except.pure, Except.ok.injEq] at h
  obtain ⟨_, _, rfl⟩ := h
  rfl

/-- What the records of a tail put into the live set and the roots. -/
theorem markCommits_ok {records : List CommitRecord} {st st' : LiveRoots}
    (h : records.foldlM log.markCommit st = .ok st') (hl : st.1.Records) :
    st.1.Le st'.1 ∧ st'.1.Records ∧ (∀ o ∈ st.2, o ∈ st'.2) ∧ ∀ record ∈ records,
      (st'.1.lookup (commitKey log.incarnation record.reference)).isSome ∧
      ∀ o ∈ record.objects, o ∈ st'.2 := by
  induction records generalizing st with
  | nil =>
      obtain rfl : st = st' := by simpa [pure, Except.pure] using h
      exact ⟨.refl _, hl, fun _ h => h, nofun⟩
  | cons record records ih =>
      rw [List.foldlM_cons, bind_ok] at h
      obtain ⟨st₁, h₁, h₂⟩ := h
      simp only [Log.markCommit, bind_ok, pure, Except.pure, Except.ok.injEq] at h₁
      obtain ⟨live, hlive, roots, hroots, rfl⟩ := h₁
      obtain ⟨hle, hsome, hrec⟩ := insertLive_ok hlive hl ⟨nofun, nofun⟩
      obtain rfl := addRoots_ok hroots
      obtain ⟨i1, i2, i3, i4⟩ := ih h₂ hrec
      refine ⟨hle.trans i1, i2, fun o ho => i3 o (List.mem_append_left _ ho), fun x hx => ?_⟩
      rcases List.mem_cons.1 hx with rfl | hx
      · obtain ⟨m, hm⟩ := Option.isSome_iff_exists.1 hsome
        exact ⟨by rw [i1 _ _ hm]; rfl, fun o ho => i3 o (List.mem_append_right _ ho)⟩
      · exact i4 x hx

theorem forall₂_mem {α β : Type} {R : α → β → Prop} {xs : List α} {ys : List β}
    (h : List.Forall₂ R xs ys) {x : α} (hx : x ∈ xs) : ∃ y ∈ ys, R x y := by
  induction h with
  | nil => cases hx
  | cons hab _ ih =>
      rcases List.mem_cons.1 hx with rfl | hx
      · exact ⟨_, by simp, hab⟩
      · obtain ⟨y, hy, hr⟩ := ih hx
        exact ⟨y, by simp [hy], hr⟩

/-- The live set has every key of the graph, from what the tail, the checkpoint and the
walk have put into it. -/
theorem live_complete {live : Visited} (inv : Inv s) (hv : Viewing s log view)
    {records : List CommitRecord} (hrec : s.TailRecords view 0 records)
    (hm : s.Marked L log none .reachability live)
    (hcommits : ∀ record ∈ records,
      (live.lookup (commitKey log.incarnation record.reference)).isSome ∧
      ∀ o ∈ record.objects, live.Has log o ∧ o.kind ≠ .checkpoint)
    (hck : ∀ c, view.head.checkpoint = some c →
      (live.lookup (objectKey log.incarnation c.object)).isSome ∧
      ∃ bytes ck, s.body (objectKey log.incarnation c.object) = some bytes ∧
        decodeCheckpoint bytes = .ok ck ∧
        ∀ o ∈ ck.objects, live.Has log o ∧ o.kind ≠ .checkpoint)
    {k : ImmutableKey} (hr : Reaches s.body view.head k) : (live.lookup k).isSome := by
  obtain ⟨-, e2, e3⟩ := hv.same inv
  -- a key under a root was met
  have under : ∀ {o : ObjectRef}, live.Has log o ∧ o.kind ≠ .checkpoint →
      Under s.body view.head.incarnation view.head.options o k → (live.lookup k).isSome := by
    intro o ho hu
    rw [e2, e3] at hu
    obtain ⟨r', rfl, hr', -⟩ := hm.under hu ho.1 ho.2
    rw [hr']
    rfl
  have record : ∀ {c : CommitRef}, c ∈ view.head.tail → ∃ record ∈ records,
      s.RecordOK view.head c record := fun hc => forall₂_mem hrec (by simpa using hc)
  cases hr with
  | commit hc =>
      obtain ⟨x, hx, commit, -, rfl⟩ := record hc
      rw [e2]
      exact (hcommits _ hx).1
  | commitObject hc hb hd ho hu =>
      obtain ⟨x, hx, commit, b, rfl⟩ := record hc
      obtain rfl := Option.some.inj (b.stored.symm.trans hb)
      obtain rfl := Except.ok.inj (b.decode.symm.trans hd)
      exact under ((hcommits _ hx).2 _ ho) hu
  | checkpoint hc =>
      rw [e2]
      exact (hck _ hc).1
  | checkpointObject hc hb hd ho hu =>
      obtain ⟨-, bytes, ck, hb', hd', hall⟩ := hck _ hc
      rw [e2] at hb
      obtain rfl := Option.some.inj (hb'.symm.trans hb)
      obtain rfl := Except.ok.inj (hd'.symm.trans hd)
      exact under (hall _ ho) hu

/-- **The live set of a collector is complete.** -/
theorem markLive_runs (hA : Reads ≤ A) (g : Good s) (hv : Viewing s log view) :
    Runs t A (log.markLive view) (fun r u => match r with
      | .ok live => ∀ k, Reaches u.body view.head k → (live.lookup k).isSome
      | .error _ => True) s := by
  refine Runs.bind le_rfl g (tailRecords_runs hA g hv) ?_ fun _ _ _ _ _ => trivial
  rintro ⟨live, roots⟩ u tr gu ⟨records, hrec, hfold⟩
  obtain ⟨-, hlr, -, hcommits⟩ := markCommits_ok hfold Visited.records_nil
  refine Runs.bind le_rfl gu (rememberTail_runs hA) ?_ fun _ _ _ _ _ => trivial
  rintro - v tr₁ gv -
  have hv₁ := hv.mono (tr.le.trans tr₁.le)
  have hrec₁ := hrec.mono tr₁.le
  cases hc : view.head.checkpoint with
  | none =>
      refine (markObjectGraph_runs hA gv hlr).track.mono ?_
      rintro (e | live') w gw ⟨tr₂, h⟩
      · trivial
      · obtain ⟨hle, hroots, hm⟩ := h
        intro k hr
        refine live_complete gw.inv (hv₁.mono tr₂.le) (hrec₁.mono tr₂.le) hm (fun x hx => ?_)
          (fun c hc' => by rw [hc] at hc'; cases hc') hr
        obtain ⟨h1, h2⟩ := hcommits x hx
        obtain ⟨m, hm'⟩ := Option.isSome_iff_exists.1 h1
        exact ⟨by rw [hle _ _ hm']; rfl, fun o ho => hroots o (h2 o ho)⟩
  | some c =>
      refine Runs.liftBind (fun live₁ hins => ?_) fun _ _ _ _ _ => trivial
      obtain ⟨i, hh⟩ := hv₁.head
      have hkind := hh.valid.baseKind c hc
      obtain ⟨hle₁, hsome₁, hlr₁⟩ := insertLive_ok hins hlr
        (by simp [objectKey, hkind, ObjectKind.immutable])
      refine Runs.bind le_rfl gv (loadCheckpoint_runs hA gv hv₁.log c) ?_ fun _ _ _ _ _ => trivial
      rintro ck w tr₂ gw ⟨bytes, hbytes, hdec⟩
      refine Runs.liftBind (fun roots' hadd => ?_) fun _ _ _ _ _ => trivial
      obtain rfl := addRoots_ok hadd
      refine (markObjectGraph_runs hA gw hlr₁).track.mono ?_
      rintro (e | live') x gx ⟨tr₃, h⟩
      · trivial
      · obtain ⟨hle, hroots, hm⟩ := h
        intro k hr
        refine live_complete gx.inv (hv₁.mono (tr₂.le.trans tr₃.le))
          (hrec₁.mono (tr₂.le.trans tr₃.le)) hm (fun x hx => ?_) (fun c' hc' => ?_) hr
        · obtain ⟨h1, h2⟩ := hcommits x hx
          obtain ⟨m, hm'⟩ := Option.isSome_iff_exists.1 h1
          exact ⟨by rw [hle _ _ (hle₁ _ _ hm')]; rfl,
            fun o ho => hroots o (List.mem_append_left _ (h2 o ho))⟩
        · obtain rfl := Option.some.inj (hc.symm.trans hc')
          obtain ⟨m, hm'⟩ := Option.isSome_iff_exists.1 hsome₁
          exact ⟨by rw [hle _ _ hm']; rfl, bytes, ck, tr₃.le.body _ _ hbytes, hdec,
            fun o ho => hroots o (List.mem_append_right _ ho)⟩

end ObjectLog
