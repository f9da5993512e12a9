import ObjectLog.Proof.Step

/-!
# A request lands

This is where the store changes. A request was justified when it was sent, by facts that
still hold; what is left is to see that they are enough at whatever moment it lands, and
to say what its answer means from then on.
-/

set_option linter.unusedSectionVars false

namespace ObjectLog

variable [Blake3] {s s' : State}

/-! ## What a landing leaves alone -/

/-- Request `i`, which was in the air, has landed with answer `a`. -/
structure LandedAs (s s' : State) (i : Nat) (f : Flight) (a : Answer f.req) : Prop where
  flight : s.flights[i]? = some f
  air : f.landed = none
  scope : s'.scope = s.scope
  flights : s'.flights = s.flights.set i { f with landed := some (s.now, a) }
  ids : s'.ids = s.ids
  views : s'.views = s.views
  calls : s'.calls = s.calls
  domains : s'.domains = s.domains

variable {i : Nat} {f : Flight} {a : Answer f.req}

theorem LandedAs.flightLe (l : LandedAs s s' i f a) (j : Nat) (g : Flight)
    (hg : s.flights[j]? = some g) : ∃ g', s'.flights[j]? = some g' ∧ g.Le g' := by
  rw [l.flights]
  refine flights_set_le l.flight ⟨_, f.told, rfl, ?_, fun _ h => h⟩ j g hg
  rw [l.air]
  exact nofun

theorem LandedAs.back (l : LandedAs s s' i f a) (j : Nat) (g' : Flight)
    (hg : s'.flights[j]? = some g') :
    ∃ g, s.flights[j]? = some g ∧ g'.req = g.req ∧ g'.tid = g.tid ∧ g'.sent = g.sent ∧
      (j ≠ i → g' = g) ∧ (j = i → g' = { f with landed := some (s.now, a) } ∧ g = f) := by
  rw [l.flights] at hg
  exact flights_set_back { f with landed := some (s.now, a) } l.flight rfl rfl rfl j g' hg

/-- The order, from what happened to the heads and the keys. -/
theorem LandedAs.le (l : LandedAs s s' i f a) (heads : s.headLog <+: s'.headLog)
    (created : ∀ k x, s.created k = some x → s'.created k = some x)
    (gone : ∀ k, k.kind ≠ .commit → (s.created k).isSome → s.objects k = none →
      s'.objects k = none)
    (planned : ∀ n h v, s.HeadAt n h v → ∀ e k, e ≤ h.collectionEpoch.toNat →
      s'.Planned e k → s.Planned e k) : s.Le s' where
  scope := l.scope
  heads := heads
  created := created
  flights := l.flightLe
  ids := by rw [l.ids]
  views := fun j o h => ⟨o, by rw [l.views]; exact h, rfl, rfl⟩
  calls := by rw [l.calls]
  domains := l.domains.ge
  gone := gone
  planned := planned

/-- What is left to show about the invariant. -/
theorem LandedAs.inv (l : LandedAs s s' i f a) (inv : Inv s) (hle : s.Le s')
    (answer : s'.AnswerOK f.sent s.now f.req a)
    (heads : ∀ st ∈ s'.headLog, ∃ h, decodeHead st.bytes = .ok h ∧
      st.bytes.length ≤ h.options.maxHeadBytes.toNat)
    (first : ∀ h v, s'.HeadAt 0 h v → ∃ inc opts, h = Head.empty s'.scope inc opts)
    (links : ∀ i h v h' v', s'.HeadAt i h v → s'.HeadAt (i + 1) h' v' → s'.Link i h v h' v')
    (versions : ∀ a ∈ s'.headLog, ∀ b ∈ s'.headLog, (a.version = b.version ∨
      (b.version.eTag.isSome ∧ a.version.eTag = b.version.eTag)) → a.bytes = b.bytes)
    (created : ∀ k bytes n, s'.created k = some (bytes, n) → s'.CreatedOK k bytes n)
    (objects : ∀ k bytes, s'.objects k = some bytes → s'.body k = some bytes)
    (lost : ∀ k, (s'.created k).isSome → s'.objects k = none →
      (∃ e, s'.Planned e k) ∨ s'.Retired k)
    (uncreated : ∀ (j : Nat) (g : Flight) k b, k.kind ≠ .commit → j ≠ i →
      s.flights[j]? = some g → g.req = .create k b → g.landed = none → s'.created k = none) :
    Inv s' where
  heads := heads
  first := first
  links := links
  versions := versions
  created := created
  objects := objects
  lost := lost
  owner := by rw [l.ids]; exact inv.owner
  ids := by
    rw [l.ids]
    exact fun x t h => (inv.ids x t h).mono hle
  flights := by
    intro j g' hj
    obtain ⟨g, hg, -, -, -, hne, heq⟩ := l.back j g' hj
    by_cases hji : j = i
    · obtain ⟨rfl, rfl⟩ := heq hji
      have old := inv.flights j g hg
      refine ⟨old.sent.trans hle.now, old.req.mono hle, fun n b hb => ?_, fun n r hr => ?_⟩
      · obtain ⟨rfl, rfl⟩ := Prod.mk.inj (Option.some.inj hb)
        exact ⟨old.sent, hle.now, answer⟩
      · obtain ⟨h1, h2⟩ := old.told n r hr
        refine ⟨h1.trans hle.now, fun b hb => ?_⟩
        -- an answer taken before the landing is a refusal
        rcases h2 b hb with ⟨m, -, hm⟩ | h
        · rw [l.air] at hm
          cases hm
        · exact .inr h
    · obtain rfl := hne hji
      exact (inv.flights j _ hg).mono hle inv.stored
  creates := by
    intro j j' g g' k b b' hk hj hj' hr hr'
    obtain ⟨x, hx, hxr, -⟩ := l.back j g hj
    obtain ⟨y, hy, hyr, -⟩ := l.back j' g' hj'
    exact inv.creates j j' x y k b b' hk hx hy (hxr.symm.trans hr) (hyr.symm.trans hr')
  uncreated := by
    intro j g' k b hk hj hr hl
    obtain ⟨g, hg, hgr, -, -, hne, heq⟩ := l.back j g' hj
    by_cases hji : j = i
    · obtain ⟨rfl, -⟩ := heq hji
      cases hl
    · obtain rfl := hne hji
      exact uncreated j _ k b hk hji hg hr hl
  installs := by
    intro j j' n n' k a b
    have hv : ∀ a ∈ s'.headLog, ∀ b ∈ s'.headLog, a.version = b.version → a.bytes = b.bytes :=
      fun a ha b hb h => versions a ha b hb (.inl h)
    have key : ∀ {j n}, s'.InstallFlight j n k → ∃ n₀, s.InstallFlight j n₀ k := by
      intro j n hi
      have ⟨g', _, _, _, _, _, hj, _⟩ := hi
      obtain ⟨g, hg, hgr, -⟩ := l.back j g' hj
      exact State.InstallFlight.back inv hle hv hg hj hgr hi
    obtain ⟨_, a₀⟩ := key a
    obtain ⟨_, b₀⟩ := key b
    exact inv.installs j j' _ _ k a₀ b₀
  views := by
    rw [l.views]
    exact fun id o h => inv.views_mono hle h
  calls := by
    rw [l.calls]
    exact fun t b h => (inv.calls t b h).mono hle

/-! ## The heads stay -/

/-- What is left to show when the heads stay. -/
theorem LandedAs.inv_keys (l : LandedAs s s' i f a) (inv : Inv s) (hle : s.Le s')
    (hlog : s'.headLog = s.headLog) (answer : s'.AnswerOK f.sent s.now f.req a)
    (created : ∀ k bytes n, s'.created k = some (bytes, n) → s'.CreatedOK k bytes n)
    (objects : ∀ k bytes, s'.objects k = some bytes → s'.body k = some bytes)
    (lost : ∀ k, (s'.created k).isSome → s'.objects k = none →
      (∃ e, s'.Planned e k) ∨ s'.Retired k)
    (uncreated : ∀ (j : Nat) (g : Flight) k b, k.kind ≠ .commit → j ≠ i →
      s.flights[j]? = some g → g.req = .create k b → g.landed = none → s'.created k = none) :
    Inv s' := by
  have at' : ∀ {n h v}, s'.HeadAt n h v → s.HeadAt n h v := by
    intro n h v hh
    simpa only [State.HeadAt, hlog] using hh
  refine l.inv inv hle answer ?_ ?_ ?_ ?_ created objects lost uncreated
  · rw [hlog]; exact inv.heads
  · intro h v hh
    rw [l.scope]
    exact inv.first h v (at' hh)
  · exact fun n h v h' v' x y => (inv.links n h v h' v' (at' x) (at' y)).mono hle
  · rw [hlog]; exact inv.versions

/-- A landing that only answers. -/
theorem LandedAs.same (l : LandedAs s s' i f a) (inv : Inv s) (e : SameStore s s')
    (answer : s.AnswerOK f.sent s.now f.req a)
    (hdel : ∀ key, f.req = .delete key → (s.created key).isSome) : Inv s' ∧ s.Le s' := by
  have hle : s.Le s' := l.le (by rw [e.headLog]) (fun k x h => by rw [e.created]; exact h)
    (fun k _ _ h => by rw [e.objects]; exact h) (fun _ _ _ _ _ _ _ h => e.planned.1 h)
  refine ⟨l.inv_keys inv hle e.headLog
    (answer.mono hle (inv.flights i f l.flight).sent inv.stored hdel) ?_ ?_ ?_ ?_, hle⟩
  · intro k bytes n hc
    rw [e.created] at hc
    exact (inv.created k bytes n hc).mono hle
  · intro k bytes ho
    rw [e.objects] at ho
    rw [e.body]
    exact inv.objects k bytes ho
  · intro k hc ho
    rw [e.created] at hc
    rw [e.objects] at ho
    rcases inv.lost k hc ho with ⟨n, hp⟩ | hr
    · exact .inl ⟨n, hp.mono hle⟩
    · exact .inr (hr.mono hle)
  · intro j g k b hk _ hg hr hl
    rw [e.created]
    exact inv.uncreated j g k b hk hg hr hl

/-! ## Answers of reads -/

/-- The last stored state of the head was durable when the request landed. -/
theorem readAt_getLast {sent : Nat} {stored : StoredObject} (hs : sent ≤ s.now)
    (hl : s.headLog.getLast? = some stored) : s.ReadAt sent stored := by
  rw [List.getLast?_eq_getElem?] at hl
  exact ⟨s.headLog.length - 1, by unfold State.now at hs; omega, hl⟩

theorem now_of_getLast_none (hl : s.headLog.getLast? = none) : s.now = 0 := by
  rw [List.getLast?_eq_none_iff] at hl
  simp [State.now, hl]

/-- What a key that is there says about the plans. -/
theorem Inv.seen (inv : Inv s) {L : Nat} {k : ImmutableKey} {bytes : Bytes}
    (ho : s.objects k = some bytes) : s.Seen L k := by
  intro hk n h v _ hh hl
  refine ⟨⟨n, h, v, hh, le_rfl⟩, fun e he hp => ?_⟩
  have := inv.swept hh he hp hl hk
  rw [ho] at this
  cases this

/-- What a key that is not there says about the plans. -/
theorem Inv.missed (inv : Inv s) {L : Nat} {k : ImmutableKey} (hL : L ≤ s.now)
    (ho : s.objects k = none) : s.Missed L k := by
  refine ⟨fun _ _ _ _ hh hr => inv.reached_lost hh hr ho, fun hpos => ?_⟩
  obtain ⟨h, v, hh⟩ := inv.headAt (i := s.now - 1) (by omega)
  refine ⟨s.now - 1, h, v, by omega, hh, fun hk => ?_⟩
  -- the plan that the durable head names is stored
  obtain ⟨p, hp, rfl⟩ := Option.map_eq_some_iff.1 hk
  obtain ⟨bytes, -, hb, -⟩ := inv.plan_live hh (by omega) hp
  rw [hb] at ho
  cases ho

/-! ## A new head -/

theorem headAt_append {bytes : Bytes} {w : UpdateVersion}
    (hlog : s'.headLog = s.headLog ++ [⟨bytes, w⟩]) {n : Nat} {h : Head} {v : UpdateVersion} :
    s'.HeadAt n h v ↔ s.HeadAt n h v ∨ (n = s.now ∧ v = w ∧ decodeHead bytes = .ok h) := by
  unfold State.HeadAt State.now
  rw [hlog]
  constructor
  · rintro ⟨x, hx, hd⟩
    rcases Nat.lt_or_ge n s.headLog.length with hlt | hge
    · rw [List.getElem?_append_left hlt] at hx
      exact .inl ⟨x, hx, hd⟩
    · rw [List.getElem?_append_right hge, List.getElem?_singleton] at hx
      split at hx
      · obtain ⟨rfl, rfl⟩ := StoredObject.mk.inj (Option.some.inj hx)
        exact .inr ⟨by omega, rfl, hd⟩
      · cases hx
  · rintro (⟨x, hx, hd⟩ | ⟨rfl, rfl, hd⟩)
    · exact ⟨x, getElem?_of_isPrefix (List.prefix_append _ _) hx, hd⟩
    · exact ⟨bytes, by simp, hd⟩

/-- The keys are untouched by a new head. -/
theorem LandedAs.inv_head (l : LandedAs s s' i f a) (inv : Inv s) (hle : s.Le s')
    (hobj : s'.objects = s.objects) (hcr : s'.created = s.created)
    (answer : s'.AnswerOK f.sent s.now f.req a)
    (heads : ∀ st ∈ s'.headLog, ∃ h, decodeHead st.bytes = .ok h ∧
      st.bytes.length ≤ h.options.maxHeadBytes.toNat)
    (first : ∀ h v, s'.HeadAt 0 h v → ∃ inc opts, h = Head.empty s'.scope inc opts)
    (links : ∀ i h v h' v', s'.HeadAt i h v → s'.HeadAt (i + 1) h' v' → s'.Link i h v h' v')
    (versions : ∀ a ∈ s'.headLog, ∀ b ∈ s'.headLog, (a.version = b.version ∨
      (b.version.eTag.isSome ∧ a.version.eTag = b.version.eTag)) → a.bytes = b.bytes) :
    Inv s' := by
  refine l.inv inv hle answer heads first links versions ?_ ?_ ?_ ?_
  · intro k bytes n hc
    rw [hcr] at hc
    exact (inv.created k bytes n hc).mono hle
  · intro k bytes ho
    rw [hobj] at ho
    exact hle.body _ _ (inv.objects k bytes ho)
  · intro k hc ho
    rw [hcr] at hc
    rw [hobj] at ho
    rcases inv.lost k hc ho with ⟨n, hp⟩ | hr
    · exact .inl ⟨n, hp.mono hle⟩
    · exact .inr (hr.mono hle)
  · intro j g k b hk _ hg hr hl
    rw [hcr]
    exact inv.uncreated j g k b hk hg hr hl

/-- The bytes of an empty head decode to it. -/
theorem decodeHead_empty {scope : LogId} {inc : Uuid} {opts : Options} {bytes : Bytes}
    (he : encodeHead (Head.empty scope inc opts) = .ok bytes)
    (hl : bytes.length ≤ opts.maxHeadBytes.toNat) :
    decodeHead bytes = .ok (Head.empty scope inc opts) :=
  decodeHead_encodeHead he nofun (Nat.lt_of_le_of_lt hl (UInt64.toNat_lt _))

/-- The first head. -/
theorem LandedAs.createHead (l : LandedAs s s' i f a) (inv : Inv s) {bytes : Bytes}
    {w : UpdateVersion} (hempty : s.headLog = []) (hlog : s'.headLog = [⟨bytes, w⟩])
    (hobj : s'.objects = s.objects) (hcr : s'.created = s.created)
    (ok : s.ReqOK f.tid f.sent (.createHead bytes))
    (answer : s'.AnswerOK f.sent s.now f.req a) : Inv s' ∧ s.Le s' := by
  have hle : s.Le s' := by
    refine l.le (by rw [hempty]; exact List.nil_prefix) (fun k x h => by rw [hcr]; exact h)
      (fun k _ _ h => by rw [hobj]; exact h) (fun n h v hh => ?_)
    obtain ⟨x, hx, -⟩ := hh
    simp [hempty] at hx
  obtain ⟨inc, opts, he, hl⟩ := ok
  have hd := decodeHead_empty he hl
  refine ⟨l.inv_head inv hle hobj hcr answer ?_ ?_ ?_ ?_, hle⟩
  · intro st hst
    rw [hlog, List.mem_singleton] at hst
    subst hst
    exact ⟨_, hd, hl⟩
  · rintro h v ⟨x, hx, hdx⟩
    rw [hlog] at hx
    obtain ⟨rfl, rfl⟩ := StoredObject.mk.inj (Option.some.inj hx)
    obtain rfl := Except.ok.inj (hd.symm.trans hdx)
    exact ⟨inc, opts, by rw [l.scope]⟩
  · rintro n h v h' v' - ⟨x, hx, -⟩
    simp [hlog] at hx
  · intro x hx y hy _
    rw [hlog, List.mem_singleton] at hx hy
    rw [hx, hy]

/-- A head replaces the one it was made from. -/
theorem LandedAs.updateHead (l : LandedAs s s' i f a) (inv : Inv s) {bytes : Bytes}
    {expected w : UpdateVersion} {stored : StoredObject} (hreq : f.req = .updateHead bytes expected)
    (hlast : s.headLog.getLast? = some stored) (hver : stored.version = expected)
    (hnew : NewVersion s bytes w) (hlog : s'.headLog = s.headLog ++ [⟨bytes, w⟩])
    (hobj : s'.objects = s.objects) (hcr : s'.created = s.created)
    (answer : s'.AnswerOK f.sent s.now f.req a) : Inv s' ∧ s.Le s' := by
  have ok := (inv.flights i f l.flight).req
  rw [hreq] at ok
  obtain ⟨n, h, c, h', hh, hd, hl, hr⟩ := ok
  -- the head it was made from is the last one
  have hn : n + 1 = s.now := by
    rw [List.getLast?_eq_getElem?] at hlast
    obtain ⟨g, hdg, -⟩ := inv.heads stored (List.mem_of_getElem? hlast)
    obtain ⟨rfl, -⟩ := inv.version_unique hh
      (⟨stored.bytes, hlast, hdg⟩ : s.HeadAt (s.headLog.length - 1) g stored.version)
      (.inl hver.symm)
    have := hh.lt
    unfold State.now at this ⊢
    omega
  have hat : ∀ {m g u}, s'.HeadAt m g u ↔
      s.HeadAt m g u ∨ (m = s.now ∧ u = w ∧ decodeHead bytes = .ok g) := headAt_append hlog
  have hbody : s'.body = s.body := by funext k; simp only [State.body, hcr]
  have hlisted : ∀ {g k}, s'.Listed g k ↔ s.Listed g k := by
    intro g k
    simp only [State.Listed, State.PlanAt, hbody]
  have hle : s.Le s' := by
    refine l.le (by rw [hlog]; exact List.prefix_append _ _) (fun k x h => by rw [hcr]; exact h)
      (fun k _ _ h => by rw [hobj]; exact h) ?_
    intro m g u hg e k he hp
    obtain ⟨m', g', u', hg', hge, hl'⟩ := hp
    have hl' := hlisted.1 hl'
    rcases hat.1 hg' with hg' | ⟨rfl, rfl, hdg⟩
    · exact ⟨m', g', u', hg', hge, hl'⟩
    · -- the new head has the plan of the one before it, unless its epoch is new
      obtain rfl := Except.ok.inj (hd.symm.trans hdg)
      have hmono := inv.epoch_mono (by have := hg.lt; omega) hg hh
      obtain ⟨-, e2, e3⟩ := hr.result.identity
      rcases hr.result.epoch with ⟨_, -, -, hep⟩ | ⟨hne, hep⟩
      · omega
      · obtain ⟨p, plan, hpa, ⟨b, hb, hdb⟩, hc⟩ := hl'
        rcases hr.result.activePlan with ⟨p', rfl, -⟩ | ⟨-, hpn⟩ | ⟨-, -, hps⟩
        · exact absurd rfl (hne p')
        · rw [hpn] at hpa; cases hpa
        · rw [e2] at hb
          rw [e3] at hdb
          exact ⟨n, h, expected, hh, by rw [← hep]; exact hge, p, plan, hps ▸ hpa,
            ⟨b, hb, hdb⟩, hc⟩
  refine ⟨l.inv_head inv hle hobj hcr answer ?_ ?_ ?_ ?_, hle⟩
  · intro st hst
    rw [hlog, List.mem_append, List.mem_singleton] at hst
    rcases hst with hst | rfl
    · exact inv.heads st hst
    · exact ⟨h', hd, by rw [hr.result.identity.2.2]; exact hl⟩
  · intro g u hg
    rw [l.scope]
    rcases hat.1 hg with hg | ⟨h0, -, -⟩
    · exact inv.first g u hg
    · omega
  · intro m g u g' u' hg hg'
    rcases hat.1 hg' with hg' | ⟨hm, rfl, hdg⟩
    · have : m + 1 < s.now := hg'.lt
      exact (inv.links m g u g' u' (hg.back hle (by omega)) hg').mono hle
    · obtain rfl : m = n := by omega
      obtain rfl := Except.ok.inj (hd.symm.trans hdg)
      obtain ⟨rfl, rfl⟩ := hg.unique (hh.mono hle)
      obtain ⟨f', hf', ht', hr', -⟩ := hle.flight l.flight
      refine ⟨i, f', bytes, c, hf', hr'.trans hreq, ?_, ?_⟩
      · rw [hlog, hn]
        simp [State.now]
      · rw [ht']
        exact hr.mono hle (by omega)
  · intro x hx y hy hxy
    rw [hlog, List.mem_append, List.mem_singleton] at hx hy
    rcases hx with hx | rfl <;> rcases hy with hy | rfl
    · exact inv.versions x hx y hy hxy
    · exact hnew x hx hxy
    · refine (hnew y hy ?_).symm
      rcases hxy with h | ⟨h1, h2⟩
      · exact .inl h.symm
      · exact .inr ⟨by rw [h2]; exact h1, h2.symm⟩
    · rfl

/-! ## A key -/

/-- The plan of a durable head is settled: more keys do not change it. -/
theorem State.Listed.back (inv : Inv s) (hb : s.body.Le s'.body) {n : Nat} {h : Head}
    {v : UpdateVersion} {k : ImmutableKey} (hh : s.HeadAt n h v) (hl : s'.Listed h k) :
    s.Listed h k := by
  obtain ⟨p, plan, hp, ⟨bytes, hbytes, hd⟩, hc⟩ := hl
  obtain ⟨m, g, plan', cr, o⟩ := inv.origin hh hp
  obtain ⟨u, hg⟩ := o.head
  obtain ⟨-, e2, -⟩ := inv.identity hh hg
  obtain ⟨bytes', hbytes', -⟩ := o.body.at'
  rw [e2] at hbytes'
  obtain rfl := Option.some.inj ((hb _ _ hbytes').symm.trans hbytes)
  exact ⟨p, plan, hp, ⟨_, hbytes', hd⟩, hc⟩

theorem planned_back (inv : Inv s) (hlog : s'.headLog = s.headLog) (hb : s.body.Le s'.body)
    {e : Nat} {k : ImmutableKey} (hp : s'.Planned e k) : s.Planned e k := by
  obtain ⟨n, h, v, hh, he, hl⟩ := hp
  have hh' : s.HeadAt n h v := by simpa only [State.HeadAt, hlog] using hh
  exact ⟨n, h, v, hh', he, State.Listed.back inv hb hh' hl⟩

/-- An object is created, or created again. -/
theorem LandedAs.create (l : LandedAs s s' i f a) (inv : Inv s) {key : ImmutableKey}
    {bytes : Bytes} (hreq : f.req = .create key bytes) (hnone : s.objects key = none)
    (hlog : s'.headLog = s.headLog)
    (hobj : s'.objects = Function.update s.objects key (some bytes))
    (hcr : s'.created = Function.update s.created key
      (some ((s.created key).getD (bytes, s.now))))
    (answer : s'.body key = some bytes → s'.AnswerOK f.sent s.now f.req a) :
    Inv s' ∧ s.Le s' := by
  have ok := (inv.flights i f l.flight).req
  rw [hreq] at ok
  obtain ⟨hdig, hown, hcommit⟩ := ok
  have hnew : key.kind ≠ .commit → s.created key = none :=
    fun hk => inv.uncreated i f key bytes hk l.flight hreq l.air
  have hcreated : ∀ k x, s.created k = some x → s'.created k = some x := by
    intro k x hx
    rw [hcr]
    by_cases hk : k = key
    · subst hk
      rw [Function.update_self, hx]
      rfl
    · rw [Function.update_of_ne hk, hx]
  have hbody : s.body.Le s'.body := by
    intro k b hb
    obtain ⟨m, hm⟩ := State.body_eq.1 hb
    exact State.body_eq.2 ⟨m, hcreated k _ hm⟩
  have hle : s.Le s' := by
    refine l.le (by rw [hlog]) hcreated ?_ (fun _ _ _ _ _ _ _ hp => planned_back inv hlog hbody hp)
    intro k hk hc ho
    rw [hobj]
    by_cases hkk : k = key
    · subst hkk
      rw [hnew hk] at hc
      cases hc
    · rw [Function.update_of_ne hkk, ho]
  -- a commit is only ever created with its one body
  have hsame : ∀ x, s.created key = some x → x.1 = bytes := by
    intro x hx
    have hk : key.kind = .commit := by
      by_contra hk
      rw [hnew hk] at hx
      cases hx
    obtain ⟨q, log, p, ref, hp, he, hkey⟩ := hcommit hk
    obtain ⟨q', log', p', ref', hp', he', hkey'⟩ := (inv.created key x.1 x.2 hx).commit hk
    have hid : ref'.storageId = ref.storageId := by
      have := hkey'.symm.trans hkey
      simp only [commitKey, ImmutableKey.mk.injEq] at this
      exact this.2.2.1
    exact (inv.prepared_bytes hp' hp he' he hid).2
  have hkeybody : s'.body key = some bytes := by
    rw [State.body_eq, hcr, Function.update_self]
    cases hx : s.created key with
    | none => exact ⟨s.now, rfl⟩
    | some x =>
        refine ⟨x.2, ?_⟩
        rw [← hsame x hx]
        rfl
  refine ⟨l.inv_keys inv hle hlog (answer hkeybody) ?_ ?_ ?_ ?_, hle⟩
  · intro k b m hc
    by_cases hk : k = key
    · subst hk
      cases hx : s.created k with
      | some x =>
          obtain rfl := Option.some.inj ((hcreated k x hx).symm.trans hc)
          exact (inv.created k b m hx).mono hle
      | none =>
          rw [hcr, Function.update_self, hx] at hc
          obtain ⟨rfl, rfl⟩ := Prod.mk.inj (Option.some.inj hc)
          have owner : ∃ q, (k.storageId, q) ∈ s.ids := by
            by_cases hk : k.kind = .commit
            · obtain ⟨q, log, p, ref, hp, he, hkey⟩ := hcommit hk
              refine ⟨q, ?_⟩
              rw [hkey, show (commitKey log.incarnation ref).storageId = p.storageId from
                (encodePrepared_ok he).2.2.2.2.1]
              exact hp.id
            · exact ⟨f.tid, hown hk⟩
          obtain ⟨q, hq⟩ := owner
          obtain ⟨y, hy, -⟩ := inv.ids _ _ hq
          obtain ⟨f', hf', -, hr', -⟩ := hle.flight l.flight
          refine ⟨hle.now, hdig, ⟨q, y, hle.id hq, hle.call hy, (inv.calls q y hy).heads⟩, ?_,
            i, f', hf', hr'.trans hreq⟩
          intro hk
          obtain ⟨q, log, p, ref, hp, he, hkey⟩ := hcommit hk
          exact ⟨q, log, p, ref, hp.mono hle, he, hkey⟩
    · rw [hcr, Function.update_of_ne hk] at hc
      exact (inv.created k b m hc).mono hle
  · intro k b ho
    by_cases hk : k = key
    · subst hk
      rw [hobj, Function.update_self] at ho
      obtain rfl := Option.some.inj ho
      exact hkeybody
    · rw [hobj, Function.update_of_ne hk] at ho
      exact hbody _ _ (inv.objects k b ho)
  · intro k hc ho
    by_cases hk : k = key
    · subst hk
      rw [hobj, Function.update_self] at ho
      cases ho
    · rw [hobj, Function.update_of_ne hk] at ho
      rw [hcr, Function.update_of_ne hk] at hc
      rcases inv.lost k hc ho with ⟨e, hp⟩ | hr
      · exact .inl ⟨e, hp.mono hle⟩
      · exact .inr (hr.mono hle)
  · intro j g k b hk hji hg hr hl
    by_cases hkk : k = key
    · subst hkk
      exact absurd (inv.creates j i g f k b bytes hk hg l.flight hr hreq) hji
    · rw [hcr, Function.update_of_ne hkk]
      exact inv.uncreated j g k b hk hg hr hl

/-- An object is deleted, or was already. -/
theorem LandedAs.delete (l : LandedAs s s' i f a) (inv : Inv s) {key : ImmutableKey}
    (hreq : f.req = .delete key) (hlog : s'.headLog = s.headLog)
    (hobj : s'.objects = Function.update s.objects key none) (hcr : s'.created = s.created)
    (answer : s'.objects key = none → s'.AnswerOK f.sent s.now f.req a) :
    Inv s' ∧ s.Le s' := by
  have ok := (inv.flights i f l.flight).req
  rw [hreq] at ok
  obtain ⟨hcreated, hwhy⟩ := ok
  have hgone : s'.objects key = none := by rw [hobj, Function.update_self]
  have hbody : s'.body = s.body := by funext k; simp only [State.body, hcr]
  have hle : s.Le s' := by
    refine l.le (by rw [hlog]) (fun k x h => by rw [hcr]; exact h) ?_
      (fun _ _ _ _ _ _ _ hp => planned_back inv hlog (by rw [hbody]; exact fun _ _ h => h) hp)
    intro k _ _ ho
    by_cases hk : k = key
    · rw [hk, hgone]
    · rw [hobj, Function.update_of_ne hk, ho]
  refine ⟨l.inv_keys inv hle hlog (answer hgone) ?_ ?_ ?_ ?_, hle⟩
  · intro k b m hc
    rw [hcr] at hc
    exact (inv.created k b m hc).mono hle
  · intro k b ho
    by_cases hk : k = key
    · rw [hk, hgone] at ho
      cases ho
    · rw [hobj, Function.update_of_ne hk] at ho
      rw [hbody]
      exact inv.objects k b ho
  · intro k hc ho
    by_cases hk : k = key
    · subst hk
      rcases hwhy with ⟨m, h, v, _, _, _, -, hh, hli, -⟩ | hr
      · exact .inl ⟨_, m, h, v, hh.mono hle, rfl, hli.mono hle⟩
      · exact .inr (hr.mono hle)
    · rw [hobj, Function.update_of_ne hk] at ho
      rw [hcr] at hc
      rcases inv.lost k hc ho with ⟨e, hp⟩ | hr
      · exact .inl ⟨e, hp.mono hle⟩
      · exact .inr (hr.mono hle)
  · intro j g k b hk _ hg hr hl
    rw [hcr]
    exact inv.uncreated j g k b hk hg hr hl

/-- **A landing keeps the invariant**, whatever the request and whenever it lands. -/
theorem Inv.land (inv : Inv s) {i : Nat} {f : Flight} {a : Answer f.req} {s₁ : State}
    (hf : s.flights[i]? = some f) (hn : f.landed = none) (hl : Lands s f.req a s₁) :
    let s' := setFlight s₁ i { f with landed := some (s.now, a) }
    Inv s' ∧ s.Le s' := by
  intro s'
  have hsent := (inv.flights i f hf).sent
  have hreq := (inv.flights i f hf).req
  obtain ⟨t, req, sent, landed, told⟩ := f
  -- a landing that leaves the store as it is
  have quiet : s₁ = s → s.AnswerOK sent s.now req a →
      (∀ key, req = .delete key → (s.created key).isSome) → Inv s' ∧ s.Le s' := by
    rintro rfl answer hdel
    have l : LandedAs s₁ s' i ⟨t, req, sent, landed, told⟩ a := ⟨hf, hn, rfl, rfl, rfl, rfl, rfl, rfl⟩
    exact l.same inv ⟨rfl, rfl, rfl, rfl, le_rfl⟩ answer hdel
  cases req with
  | getHead =>
      obtain ⟨rfl, he⟩ := hl
      refine quiet he ?_ (by simp)
      cases hlast : s.headLog.getLast? with
      | some stored => exact readAt_getLast hsent hlast
      | none => exact now_of_getLast_none hlast
  | getHeadIfChanged eTag =>
      obtain ⟨he, ha⟩ := hl
      refine quiet he ?_ (by simp)
      split at ha
      · subst ha
        exact now_of_getLast_none ‹_›
      · rename_i stored hlast
        by_cases ht : stored.version.eTag = some eTag
        · obtain rfl : a = ConditionalRead.notModified := ha.trans (if_pos ht)
          exact ⟨stored, readAt_getLast hsent hlast, ht⟩
        · obtain rfl : a = ConditionalRead.modified stored := ha.trans (if_neg ht)
          exact readAt_getLast hsent hlast
  | createHead bytes =>
      rcases hl with ⟨hempty, rfl, w, rfl⟩ | ⟨-, rfl, he⟩
      · have l : LandedAs s s' i ⟨t, .createHead bytes, sent, landed, told⟩ true :=
          ⟨hf, hn, rfl, rfl, rfl, rfl, rfl, rfl⟩
        have hlog : s'.headLog = [⟨bytes, w⟩] := by
          show s.headLog ++ _ = _
          rw [hempty]
          rfl
        exact l.createHead inv hempty hlog rfl rfl hreq fun _ => ⟨w, by rw [hlog]; rfl⟩
      · exact quiet he (fun h => by cases h) (by simp)
  | updateHead bytes expected =>
      rcases hl with ⟨stored, w, hlast, hver, hnew, rfl, rfl⟩ | ⟨-, rfl, he⟩
      · have l : LandedAs s s' i ⟨t, .updateHead bytes expected, sent, landed, told⟩ (some w) :=
          ⟨hf, hn, rfl, rfl, rfl, rfl, rfl, rfl⟩
        refine l.updateHead inv rfl hlast hver hnew rfl rfl rfl fun v hv => ?_
        obtain rfl := Option.some.inj hv
        have hpos : 0 < s.headLog.length := by
          cases hx : s.headLog with
          | nil => rw [hx] at hlast; cases hlast
          | cons => simp
        rw [List.getLast?_eq_getElem?] at hlast
        refine ⟨s.headLog.length - 1, stored, ?_, hver, ?_⟩
        · exact getElem?_of_isPrefix (List.prefix_append _ _) hlast
        · show (s.headLog ++ [_])[_]? = _
          rw [Nat.sub_add_cancel hpos]
          simp
      · exact quiet he (fun _ h => by cases h) (by simp)
  | get key =>
      obtain ⟨ha, he⟩ := hl
      refine quiet he ?_ (by simp)
      cases ho : s.objects key with
      | some bytes =>
          obtain rfl : a = some bytes := ha.trans ho
          exact ⟨inv.objects _ _ ho, inv.seen ho⟩
      | none =>
          obtain rfl : a = none := ha.trans ho
          exact inv.missed (inv.flights _ _ hf).sent ho
  | create key bytes =>
      rcases hl with ⟨hnone, rfl, rfl⟩ | ⟨-, rfl, he⟩
      · have l : LandedAs s s' i ⟨t, .create key bytes, sent, landed, told⟩ true :=
          ⟨hf, hn, rfl, rfl, rfl, rfl, rfl, rfl⟩
        exact l.create inv rfl hnone rfl rfl rfl fun hb _ => hb
      · exact quiet he (fun h => by cases h) (by simp)
  | delete key =>
      obtain rfl := hl
      have l : LandedAs s s' i ⟨t, .delete key, sent, landed, told⟩ a :=
        ⟨hf, hn, rfl, rfl, rfl, rfl, rfl, rfl⟩
      exact l.delete inv rfl rfl rfl rfl fun ho _ => ho

end ObjectLog
