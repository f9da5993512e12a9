import ObjectLog.Proof.Live

/-!
# The steps of a call keep the invariant

An effect of a call never touches the store: it sends a request, takes an answer, draws an
identity or fills a cache. What the call owes for it is `May`, and `Inv.exec` says that a
call that pays keeps the invariant and moves the state up in the order.
-/

set_option linter.unusedSectionVars false

namespace ObjectLog

variable [Blake3] {s s' : State}

/-! ## The store stays -/

/-- The store, and the scope it is read under, are the same. -/
structure SameStore (s s' : State) : Prop where
  scope : s'.scope = s.scope
  headLog : s'.headLog = s.headLog
  objects : s'.objects = s.objects
  created : s'.created = s.created
  domains : s.domains ≤ s'.domains

theorem SameStore.headAt (e : SameStore s s') {i : Nat} {h : Head} {v : UpdateVersion} :
    s'.HeadAt i h v ↔ s.HeadAt i h v := by
  simp only [State.HeadAt, e.headLog]

theorem SameStore.now (e : SameStore s s') : s'.now = s.now := by
  simp only [State.now, e.headLog]

theorem SameStore.body (e : SameStore s s') : s'.body = s.body := by
  funext k
  simp only [State.body, e.created]

theorem SameStore.planned (e : SameStore s s') {n : Nat} {k : ImmutableKey} :
    s'.Planned n k ↔ s.Planned n k := by
  simp only [State.Planned, State.Listed, State.PlanAt, e.headAt, e.body]

theorem SameStore.le (e : SameStore s s')
    (flights : ∀ (i : Nat) (f : Flight), s.flights[i]? = some f →
      ∃ f', s'.flights[i]? = some f' ∧ f.Le f')
    (ids : s.ids <+: s'.ids)
    (views : ∀ (i : Nat) (o : ObservedState), s.views[i]? = some o →
      ∃ o', s'.views[i]? = some o' ∧ o'.head = o.head ∧ o'.version = o.version)
    (calls : s.calls <+: s'.calls) : s.Le s' where
  scope := e.scope
  heads := by rw [e.headLog]
  created := fun k x h => by rw [e.created]; exact h
  flights := flights
  ids := ids
  views := views
  calls := calls
  domains := e.domains
  gone := fun k _ _ h => by rw [e.objects]; exact h
  planned := fun _ _ _ _ _ _ _ h => e.planned.1 h

/-- Every flight is still there, and perhaps others. -/
theorem flights_append_le (xs : List Flight) (i : Nat) (f : Flight)
    (hf : s.flights[i]? = some f) :
    ∃ f', (s.flights ++ xs)[i]? = some f' ∧ f.Le f' :=
  ⟨f, by rw [List.getElem?_append_left (List.getElem?_eq_some_iff.1 hf).1, hf], .refl f⟩

theorem flights_set_le {j : Nat} {g g' : Flight} (hg : s.flights[j]? = some g) (hle : g.Le g')
    (i : Nat) (f : Flight) (hf : s.flights[i]? = some f) :
    ∃ f', (s.flights.set j g')[i]? = some f' ∧ f.Le f' := by
  by_cases hij : j = i
  · subst hij
    obtain rfl := Option.some.inj (hg.symm.trans hf)
    exact ⟨g', List.getElem?_set_self (List.getElem?_eq_some_iff.1 hg).1, hle⟩
  · exact ⟨f, by rw [List.getElem?_set_ne hij, hf], .refl f⟩

/-- Every request of a state with one flight replaced was there before. -/
theorem flights_set_back {j : Nat} {g : Flight} (g' : Flight) (hg : s.flights[j]? = some g)
    (hr : g'.req = g.req) (ht : g'.tid = g.tid) (hs : g'.sent = g.sent) (i : Nat) (f' : Flight)
    (hf : (s.flights.set j g')[i]? = some f') :
    ∃ f, s.flights[i]? = some f ∧ f'.req = f.req ∧ f'.tid = f.tid ∧ f'.sent = f.sent ∧
      (i ≠ j → f' = f) ∧ (i = j → f' = g' ∧ f = g) := by
  by_cases hij : j = i
  · subst hij
    rw [List.getElem?_set_self (List.getElem?_eq_some_iff.1 hg).1] at hf
    obtain rfl := Option.some.inj hf
    exact ⟨g, hg, hr, ht, hs, fun h => absurd rfl h, fun _ => ⟨rfl, rfl⟩⟩
  · rw [List.getElem?_set_ne hij] at hf
    exact ⟨f', hf, rfl, rfl, rfl, fun _ => rfl, fun h => absurd h.symm hij⟩

theorem Inv.stored (inv : Inv s) : ∀ i h v, s.HeadAt i h v → HeadStored s.body h :=
  fun _ _ _ hh => inv.headStored hh

/-- What is left to show when the store stays as it is. -/
theorem Inv.of_sameStore (inv : Inv s) (e : SameStore s s') (hle : s.Le s')
    (owner : ∀ x t t', (x, t) ∈ s'.ids → (x, t') ∈ s'.ids → t = t')
    (ids : ∀ x t, (x, t) ∈ s'.ids → s'.DrawOK t)
    (flights : ∀ (j : Nat) f, s'.flights[j]? = some f → s'.FlightOK f)
    (creates : ∀ (j j' : Nat) (f f' : Flight) k b b', k.kind ≠ .commit →
      s'.flights[j]? = some f → s'.flights[j']? = some f' → f.req = .create k b →
      f'.req = .create k b' → j = j')
    (uncreated : ∀ (j : Nat) (f : Flight) k b, k.kind ≠ .commit → s'.flights[j]? = some f →
      f.req = .create k b → f.landed = none → s'.created k = none)
    (installs : ∀ j j' i i' k, s'.InstallFlight j i k → s'.InstallFlight j' i' k → j = j')
    (views : ∀ (id : Nat) o, s'.views[id]? = some o → (∃ i, s'.HeadAt i o.head o.version) ∧
      ∀ cs, o.collectionCandidates = some cs →
        ∃ p plan, o.head.activePlan = some p ∧ s'.PlanAt o.head p plan ∧ plan.candidates = cs)
    (calls : ∀ (t : Nat) b, s'.calls[t]? = some b → s'.BegunOK b) : Inv s' where
  heads := by rw [e.headLog]; exact inv.heads
  first := by
    intro h v hh
    rw [e.scope]
    exact inv.first h v (e.headAt.1 hh)
  links := fun i h v h' v' a b => (inv.links i h v h' v' (e.headAt.1 a) (e.headAt.1 b)).mono hle
  versions := by rw [e.headLog]; exact inv.versions
  created := by
    intro k bytes n hc
    rw [e.created] at hc
    exact (inv.created k bytes n hc).mono hle
  objects := by
    intro k bytes ho
    rw [e.objects] at ho
    rw [e.body]
    exact inv.objects k bytes ho
  lost := by
    intro k hc ho
    rw [e.created] at hc
    rw [e.objects] at ho
    rcases inv.lost k hc ho with ⟨n, hp⟩ | hr
    · exact .inl ⟨n, hp.mono hle⟩
    · exact .inr (hr.mono hle)
  owner := owner
  ids := ids
  flights := flights
  creates := creates
  uncreated := uncreated
  installs := installs
  views := views
  calls := calls

theorem Inv.views_mono (inv : Inv s) (hle : s.Le s') {id : Nat} {o : ObservedState}
    (ho : s.views[id]? = some o) : (∃ i, s'.HeadAt i o.head o.version) ∧
      ∀ cs, o.collectionCandidates = some cs →
        ∃ p plan, o.head.activePlan = some p ∧ s'.PlanAt o.head p plan ∧ plan.candidates = cs := by
  obtain ⟨⟨i, hh⟩, hc⟩ := inv.views id o ho
  refine ⟨⟨i, hh.mono hle⟩, fun cs hcs => ?_⟩
  obtain ⟨p, plan, hp, hpl, he⟩ := hc cs hcs
  exact ⟨p, plan, hp, hpl.mono hle, he⟩

/-- An installation in the air was one before, whatever else the state has gained. -/
theorem State.InstallFlight.back (inv : Inv s) (hle : s.Le s')
    (hv : ∀ a ∈ s'.headLog, ∀ b ∈ s'.headLog, a.version = b.version → a.bytes = b.bytes)
    {j i : Nat} {k : ImmutableKey} {f f' : Flight} (hf : s.flights[j]? = some f)
    (hf' : s'.flights[j]? = some f') (hr : f'.req = f.req) (h : s'.InstallFlight j i k) :
    ∃ i₀, s.InstallFlight j i₀ k := by
  obtain ⟨g, bytes, expected, hd, h', p, hg, hreq, hh, hn, hb, hp, hk⟩ := h
  obtain rfl := Option.some.inj (hf'.symm.trans hg)
  have hreq₀ := hr.symm.trans hreq
  have ok := (inv.flights j f hf).req
  rw [hreq₀] at ok
  obtain ⟨i₀, h₀, -, -, hh₀, -⟩ := ok
  -- the version names one stored state
  obtain ⟨x, hx, dx⟩ := hh
  obtain ⟨y, hy, dy⟩ := hh₀.mono hle
  have hxy : x = y := hv _ (List.mem_of_getElem? hx) _ (List.mem_of_getElem? hy) rfl
  subst hxy
  obtain rfl := Except.ok.inj (dx.symm.trans dy)
  exact ⟨i₀, f, bytes, expected, hd, h', p, hf, hreq₀, hh₀, hn, hb, hp, hk⟩

/-- What is left to show when neither the store nor the requests change. -/
theorem Inv.of_local (inv : Inv s) (e : SameStore s s') (hle : s.Le s')
    (hfl : s'.flights = s.flights)
    (owner : ∀ x t t', (x, t) ∈ s'.ids → (x, t') ∈ s'.ids → t = t')
    (ids : ∀ x t, (x, t) ∈ s'.ids → s'.DrawOK t)
    (views : ∀ (id : Nat) o, s'.views[id]? = some o → (∃ i, s'.HeadAt i o.head o.version) ∧
      ∀ cs, o.collectionCandidates = some cs →
        ∃ p plan, o.head.activePlan = some p ∧ s'.PlanAt o.head p plan ∧ plan.candidates = cs)
    (calls : ∀ (t : Nat) b, s'.calls[t]? = some b → s'.BegunOK b) : Inv s' := by
  refine inv.of_sameStore e hle owner ids ?_ ?_ ?_ ?_ views calls
  · rw [hfl]
    exact fun j f hf => (inv.flights j f hf).mono hle inv.stored
  · rw [hfl]
    exact inv.creates
  · rw [hfl, e.created]
    exact inv.uncreated
  · intro j j' i i' k a b
    simp only [State.InstallFlight, hfl, e.headAt] at a b
    exact inv.installs j j' i i' k a b

/-! ## Effects -/

/-- What is new about a request: an object that is not a commit is created by one request,
and a plan is installed by one. -/
def State.New (s : State) : Req → Prop
  | .create key _ => key.kind ≠ .commit →
      ∀ (j : Nat) (f : Flight) b, s.flights[j]? = some f → f.req ≠ .create key b
  | .updateHead bytes expected => ∀ i h h' p, s.HeadAt i h expected → h.activePlan = none →
      decodeHead bytes = .ok h' → h'.activePlan = some p →
      ∀ j i', ¬ s.InstallFlight j i' (collectionPlanKey h'.incarnation p)
  | _ => True

/-- What call `t` owes the others for an effect. -/
def May (t : Nat) (s : State) : Effect → Prop
  | .submit req => s.ReqOK t s.now req ∧ s.New req
  | .storageId => s.DrawOK t
  | .observe head version => ∃ i, s.HeadAt i head version
  | .initCollectionCandidates id candidates => ∀ o, s.views[id]? = some o →
      ∃ p plan, o.head.activePlan = some p ∧ s.PlanAt o.head p plan ∧ plan.candidates = candidates
  | _ => True

/-- A request is sent. -/
theorem Inv.submit (inv : Inv s) {t : Nat} {req : Req} (ok : s.ReqOK t s.now req)
    (new : s.New req) :
    let s' := { s with flights := s.flights ++ [⟨t, req, s.now, none, none⟩] }
    Inv s' ∧ s.Le s' := by
  intro s'
  have e : SameStore s s' := ⟨rfl, rfl, rfl, rfl, le_rfl⟩
  have hle : s.Le s' := e.le (flights_append_le _) List.prefix_rfl
    (fun _ o h => ⟨o, h, rfl, rfl⟩) List.prefix_rfl
  -- a flight of the new state is an old one or the new one
  have split : ∀ (j : Nat) (f : Flight), s'.flights[j]? = some f → s.flights[j]? = some f ∨
      (j = s.flights.length ∧ f = ⟨t, req, s.now, none, none⟩) := by
    intro j f hf
    rcases Nat.lt_or_ge j s.flights.length with hlt | hge
    · left
      rwa [List.getElem?_append_left hlt] at hf
    · right
      rw [List.getElem?_append_right hge, List.getElem?_singleton] at hf
      split at hf
      · exact ⟨by omega, (Option.some.inj hf).symm⟩
      · cases hf
  refine ⟨inv.of_sameStore e hle inv.owner (fun x t h => (inv.ids x t h).mono hle) ?_ ?_ ?_ ?_
    (fun id o h => inv.views_mono hle h) (fun t b h => (inv.calls t b h).mono hle), hle⟩
  · intro j f hf
    rcases split j f hf with hf | ⟨-, rfl⟩
    · exact (inv.flights j f hf).mono hle inv.stored
    · exact ⟨le_rfl, ok.mono hle, nofun, nofun⟩
  · intro j j' f f' k b b' hk hf hf' hr hr'
    rcases split j f hf with old | ⟨rfl, rfl⟩ <;> rcases split j' f' hf' with old' | ⟨rfl, rfl⟩
    · exact inv.creates j j' f f' k b b' hk old old' hr hr'
    · obtain rfl : req = .create k b' := hr'
      exact absurd hr (new hk j f b old)
    · obtain rfl : req = .create k b := hr
      exact absurd hr' (new hk j' f' b' old')
    · rfl
  · intro j f k b hk hf hr hl
    rcases split j f hf with hf | ⟨rfl, rfl⟩
    · exact inv.uncreated j f k b hk hf hr hl
    · obtain rfl : req = .create k b := hr
      show s.created k = none
      cases hc : s.created k with
      | none => rfl
      | some x =>
          obtain ⟨j', f', hf', hr'⟩ := (inv.created k x.1 x.2 hc).request
          exact absurd hr' (new hk j' f' _ hf')
  · intro j j' i i' k a b
    have hv : ∀ a ∈ s'.headLog, ∀ b ∈ s'.headLog, a.version = b.version → a.bytes = b.bytes :=
      fun a ha b hb h => inv.versions a ha b hb (.inl h)
    -- an old one, or the new one, which installs a key nobody installs
    have key : ∀ {j i}, s'.InstallFlight j i k → (∃ i₀, s.InstallFlight j i₀ k) ∨
        (j = s.flights.length ∧ ∀ j' i', ¬ s.InstallFlight j' i' k) := by
      intro j i a
      obtain ⟨f, bytes, expected, hd, h', p, hf, hreq, hh, hn, hb, hp, hk⟩ := a
      rcases split j f hf with hf₀ | ⟨rfl, rfl⟩
      · exact .inl (State.InstallFlight.back inv hle hv hf₀ hf rfl
          ⟨f, bytes, expected, hd, h', p, hf, hreq, hh, hn, hb, hp, hk⟩)
      · obtain rfl : req = .updateHead bytes expected := hreq
        subst hk
        exact .inr ⟨rfl, new i hd h' p (e.headAt.1 hh) hn hb hp⟩
    rcases key a with ⟨i₀, a₀⟩ | ⟨rfl, no⟩ <;> rcases key b with ⟨i₀', b₀⟩ | ⟨rfl, no'⟩
    · exact inv.installs j j' i₀ i₀' k a₀ b₀
    · exact absurd a₀ (no' _ _)
    · exact absurd b₀ (no _ _)
    · rfl

/-- An answer is taken. -/
theorem Inv.await (inv : Inv s) {t i sent : Nat} {req : Req}
    {landed : Option (Nat × Answer req)} {r : Except StoreError (Answer req)}
    (hf : s.flights[i]? = some ⟨t, req, sent, landed, none⟩)
    (ht : Told ⟨t, req, sent, landed, none⟩ r) :
    let s' := setFlight s i ⟨t, req, sent, landed, some (s.now, r)⟩
    Inv s' ∧ s.Le s' := by
  intro s'
  have e : SameStore s s' := ⟨rfl, rfl, rfl, rfl, le_rfl⟩
  have hfle : (⟨t, req, sent, landed, none⟩ : Flight).Le ⟨t, req, sent, landed, some (s.now, r)⟩ :=
    ⟨landed, some (s.now, r), rfl, fun _ h => h, nofun⟩
  have hle : s.Le s' := e.le (flights_set_le hf hfle) List.prefix_rfl
    (fun _ o h => ⟨o, h, rfl, rfl⟩) List.prefix_rfl
  have back := flights_set_back ⟨t, req, sent, landed, some (s.now, r)⟩ hf rfl rfl rfl
  refine ⟨inv.of_sameStore e hle inv.owner (fun x t h => (inv.ids x t h).mono hle) ?_ ?_ ?_ ?_
    (fun id o h => inv.views_mono hle h) (fun t b h => (inv.calls t b h).mono hle), hle⟩
  · intro j f hj
    obtain ⟨g, hg, -, -, -, hne, heq⟩ := back j f hj
    by_cases hji : j = i
    · obtain ⟨rfl, rfl⟩ := heq hji
      have ok := (inv.flights j _ hg).mono hle inv.stored
      refine ⟨ok.sent, ok.req, ok.landed, fun n r' hr => ?_⟩
      obtain ⟨rfl, rfl⟩ := Prod.mk.inj (Option.some.inj hr)
      refine ⟨le_rfl, fun a ha => ?_⟩
      rw [ha] at ht
      rcases ht with ⟨m, hm⟩ | hr
      · exact .inl ⟨m, ((inv.flights j _ hg).landed m a hm).2.1, hm⟩
      · exact .inr hr
    · obtain rfl := hne hji
      exact (inv.flights j f hg).mono hle inv.stored
  · intro j j' f f' k b b' hk hj hj' hr hr'
    obtain ⟨g, hg, hgr, -⟩ := back j f hj
    obtain ⟨g', hg', hgr', -⟩ := back j' f' hj'
    exact inv.creates j j' g g' k b b' hk hg hg' (hgr.symm.trans hr) (hgr'.symm.trans hr')
  · intro j f k b hk hj hr hl
    obtain ⟨g, hg, hgr, -, -, hne, heq⟩ := back j f hj
    refine inv.uncreated j g k b hk hg (hgr.symm.trans hr) ?_
    by_cases hji : j = i
    · obtain ⟨rfl, rfl⟩ := heq hji
      exact hl
    · obtain rfl := hne hji
      exact hl
  · intro j j' n n' k a b
    have hv : ∀ a ∈ s'.headLog, ∀ b ∈ s'.headLog, a.version = b.version → a.bytes = b.bytes :=
      fun a ha b hb h => inv.versions a ha b hb (.inl h)
    have key : ∀ {j n}, s'.InstallFlight j n k → ∃ n₀, s.InstallFlight j n₀ k := by
      intro j n hi
      have ⟨f, _, _, _, _, _, hj, _⟩ := hi
      obtain ⟨g, hg, hgr, -⟩ := back j f hj
      exact State.InstallFlight.back inv hle hv hg hj hgr hi
    obtain ⟨_, a₀⟩ := key a
    obtain ⟨_, b₀⟩ := key b
    exact inv.installs j j' _ _ k a₀ b₀

/-- An identity is drawn. -/
theorem Inv.drawId (inv : Inv s) {t : Nat} {x : StorageId} (hx : ∀ t', (x, t') ∉ s.ids)
    (hd : s.DrawOK t) : Inv (drawId s t x) ∧ s.Le (drawId s t x) := by
  have e : SameStore s (ObjectLog.drawId s t x) := ⟨rfl, rfl, rfl, rfl, le_rfl⟩
  have hle : s.Le (ObjectLog.drawId s t x) := e.le (fun _ f h => ⟨f, h, .refl f⟩)
    (List.prefix_append _ _) (fun _ o h => ⟨o, h, rfl, rfl⟩) List.prefix_rfl
  refine ⟨inv.of_local e hle rfl ?_ ?_ (fun id o h => inv.views_mono hle h)
    (fun t b h => (inv.calls t b h).mono hle), hle⟩
  · intro y u u' hu hu'
    simp only [ObjectLog.drawId, List.mem_append, List.mem_singleton, Prod.mk.injEq] at hu hu'
    rcases hu with hu | ⟨rfl, rfl⟩ <;> rcases hu' with hu' | ⟨hy, rfl⟩
    · exact inv.owner y u u' hu hu'
    · exact absurd (hy ▸ hu) (hx u)
    · exact absurd hu' (hx u')
    · rfl
  · intro y u hu
    simp only [ObjectLog.drawId, List.mem_append, List.mem_singleton, Prod.mk.injEq] at hu
    rcases hu with hu | ⟨-, rfl⟩
    · exact (inv.ids y u hu).mono hle
    · exact hd.mono hle

/-- A head is observed. -/
theorem Inv.observe (inv : Inv s) {head : Head} {version : UpdateVersion}
    (hh : ∃ i, s.HeadAt i head version) :
    let s' := { s with views := s.views ++ [⟨head, version, none, none⟩] }
    Inv s' ∧ s.Le s' := by
  intro s'
  have e : SameStore s s' := ⟨rfl, rfl, rfl, rfl, le_rfl⟩
  have hle : s.Le s' := by
    refine e.le (fun _ f h => ⟨f, h, .refl f⟩) List.prefix_rfl (fun i o h => ⟨o, ?_, rfl, rfl⟩)
      List.prefix_rfl
    exact getElem?_of_isPrefix (List.prefix_append _ _) h
  refine ⟨inv.of_local e hle rfl inv.owner (fun x t h => (inv.ids x t h).mono hle) ?_
    (fun t b h => (inv.calls t b h).mono hle), hle⟩
  intro id o ho
  rcases Nat.lt_or_ge id s.views.length with hlt | hge
  · exact inv.views_mono hle (by rwa [List.getElem?_append_left hlt] at ho)
  · rw [List.getElem?_append_right hge, List.getElem?_singleton] at ho
    split at ho
    · obtain rfl := Option.some.inj ho
      obtain ⟨i, hh⟩ := hh
      exact ⟨⟨i, hh.mono hle⟩, nofun⟩
    · cases ho

/-- A cache of a view is filled. -/
theorem Inv.modifyView (inv : Inv s) {id : ViewId} {g : ObservedState → ObservedState}
    (hg : ∀ o, (g o).head = o.head ∧ (g o).version = o.version)
    (hc : ∀ o cs, s.views[id]? = some o → (g o).collectionCandidates = some cs →
      o.collectionCandidates = some cs ∨
      ∃ p plan, o.head.activePlan = some p ∧ s.PlanAt o.head p plan ∧ plan.candidates = cs) :
    Inv (modifyView s id g) ∧ s.Le (modifyView s id g) := by
  have e : SameStore s (ObjectLog.modifyView s id g) := ⟨rfl, rfl, rfl, rfl, le_rfl⟩
  have hview : ∀ i, (ObjectLog.modifyView s id g).views[i]? =
      (fun o => if id = i then g o else o) <$> s.views[i]? := fun i =>
    List.getElem?_modify g id s.views i
  have hle : s.Le (ObjectLog.modifyView s id g) := by
    refine e.le (fun _ f h => ⟨f, h, .refl f⟩) List.prefix_rfl (fun i o ho => ?_) List.prefix_rfl
    rw [hview, ho]
    refine ⟨_, rfl, ?_⟩
    split
    · exact hg o
    · exact ⟨rfl, rfl⟩
  refine ⟨inv.of_local e hle rfl inv.owner (fun x t h => (inv.ids x t h).mono hle) ?_
    (fun t b h => (inv.calls t b h).mono hle), hle⟩
  intro i o' ho'
  rw [hview] at ho'
  cases ho : s.views[i]? with
  | none => rw [ho] at ho'; cases ho'
  | some o =>
      rw [ho] at ho'
      obtain rfl := Option.some.inj ho'
      obtain ⟨hh, hcs⟩ := inv.views_mono hle ho
      by_cases hi : id = i
      · subst hi
        simp only [if_true, (hg o).1, (hg o).2]
        refine ⟨hh, fun cs h => ?_⟩
        rcases hc o cs ho h with h | ⟨p, plan, hp, hpl, hcs⟩
        · exact hcs cs h
        · exact ⟨p, plan, hp, hpl.mono hle, hcs⟩
      · simp only [if_neg hi]
        exact ⟨hh, hcs⟩

/-- **An effect a call may perform keeps the invariant.** -/
theorem Inv.exec (inv : Inv s) {t : Nat} {e : Effect} {a : Reply e} (may : May t s e)
    (hx : Exec t s e a s') : Inv s' ∧ s.Le s' := by
  cases e with
  | admission _ => cases hx; exact ⟨inv, .refl s⟩
  | submit req =>
      obtain ⟨-, rfl⟩ := hx
      exact inv.submit may.1 may.2
  | await req i =>
      obtain ⟨sent, landed, hf, ht, rfl⟩ := hx
      exact inv.await hf ht
  | listNext => obtain ⟨rfl, -⟩ := hx; exact ⟨inv, .refl s'⟩
  | storageId =>
      obtain ⟨hfresh, rfl⟩ := hx
      exact inv.drawId hfresh may
  | uuid => cases hx; exact ⟨inv, .refl s⟩
  | stagingDomain =>
      obtain ⟨-, rfl⟩ := hx
      have e : SameStore s { s with domains := s.domains + 1 } := ⟨rfl, rfl, rfl, rfl, Nat.le_succ _⟩
      have hle := e.le (fun _ f h => ⟨f, h, .refl f⟩) List.prefix_rfl
        (fun _ o h => ⟨o, h, rfl, rfl⟩) List.prefix_rfl
      exact ⟨inv.of_local e hle rfl inv.owner (fun x t h => (inv.ids x t h).mono hle)
        (fun id o h => inv.views_mono hle h) (fun t b h => (inv.calls t b h).mono hle), hle⟩
  | observe head version =>
      obtain ⟨-, rfl⟩ := hx
      exact inv.observe may
  | verifiedTail id => obtain ⟨rfl, -⟩ := hx; exact ⟨inv, .refl s'⟩
  | setVerifiedTail id domain =>
      cases hx
      exact inv.modifyView (fun _ => ⟨rfl, rfl⟩) fun o cs _ h => .inl h
  | collectionCandidates id => obtain ⟨rfl, -⟩ := hx; exact ⟨inv, .refl s'⟩
  | initCollectionCandidates id candidates =>
      obtain ⟨-, rfl⟩ := hx
      refine inv.modifyView (fun _ => ⟨rfl, rfl⟩) fun o cs ho h => ?_
      cases hc : o.collectionCandidates with
      | some _ => left; simpa [hc] using h
      | none =>
          obtain rfl : candidates = cs := by simpa [hc] using h
          exact .inr (may o ho)
  | choose n => cases hx; exact ⟨inv, .refl s⟩

/-- **A call begins.** -/
theorem Inv.begin (inv : Inv s) {call : Call} (args : ∀ item ∈ call.args, s.ItemOK s.now item) :
    let s' := { s with calls := s.calls ++ [⟨call, s.flights.length, s.now⟩] }
    Inv s' ∧ s.Le s' := by
  intro s'
  have e : SameStore s s' := ⟨rfl, rfl, rfl, rfl, le_rfl⟩
  have hle : s.Le s' := e.le (fun _ f h => ⟨f, h, .refl f⟩) List.prefix_rfl
    (fun _ o h => ⟨o, h, rfl, rfl⟩) (List.prefix_append _ _)
  refine ⟨inv.of_local e hle rfl inv.owner (fun x t h => (inv.ids x t h).mono hle)
    (fun id o h => inv.views_mono hle h) ?_, hle⟩
  intro t b hb
  rcases Nat.lt_or_ge t s.calls.length with hlt | hge
  · exact (inv.calls t b (by rwa [List.getElem?_append_left hlt] at hb)).mono hle
  · rw [List.getElem?_append_right hge, List.getElem?_singleton] at hb
    split at hb
    · obtain rfl := Option.some.inj hb
      exact ⟨le_rfl, le_rfl, fun item hi => (args item hi).mono hle le_rfl⟩
    · cases hb

end ObjectLog
