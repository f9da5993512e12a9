import ObjectLog.Proof.Inv

/-!
# What is true of the system stays true

The facts the invariant is made of are kept by every step that extends the state.
-/

set_option linter.unusedSectionVars false

namespace ObjectLog

variable [Blake3] {s s' : State}

theorem State.HeadAt.back {i : Nat} {h : Head} {v : UpdateVersion} (hle : s.Le s')
    (hi : i < s.now) (hh : s'.HeadAt i h v) : s.HeadAt i h v := by
  obtain ⟨bytes, hb, hd⟩ := hh
  obtain ⟨st, hst⟩ : ∃ st, s.headLog[i]? = some st := ⟨_, List.getElem?_eq_getElem hi⟩
  have := (getElem?_of_isPrefix hle.heads hst).symm.trans hb
  exact ⟨bytes, hst.trans this, hd⟩

theorem State.Le.flight {j : Nat} {f : Flight} (hle : s.Le s') (hf : s.flights[j]? = some f) :
    ∃ f', s'.flights[j]? = some f' ∧ f'.tid = f.tid ∧ f'.req = f.req ∧ f'.sent = f.sent := by
  obtain ⟨f', hf', l⟩ := hle.flights j f hf
  exact ⟨f', hf', l.tid, l.req, l.sent⟩

theorem State.Prepared.mono {q : Nat} {log : Log} {p : PreparedCommit} (hle : s.Le s')
    (h : s.Prepared q log p) : s'.Prepared q log p := by
  obtain ⟨⟨b, objects, hb, hc, ho⟩, hid⟩ := h
  exact ⟨⟨b, objects, hle.call hb, hc, ho⟩, hle.id hid⟩

theorem State.DrawOK.mono {t : Nat} (hle : s.Le s') (h : s.DrawOK t) : s'.DrawOK t := by
  obtain ⟨b, hb, hc⟩ := h
  exact ⟨b, hle.call hb, hc⟩

theorem State.CheckpointProven.mono {h : Head} {e : Nat} {c : CheckpointRef} (hle : s.Le s')
    (hc : s.CheckpointProven h e c) : s'.CheckpointProven h e c := by
  obtain ⟨kind, avoids, ck, hb, ho⟩ := hc
  exact ⟨kind, avoids.mono hle, ck, hb.mono hle.body, fun o h => (ho o h).mono hle⟩

theorem State.CheckpointOf.mono {c : CheckpointRef} {through : CommitRef} {source : View}
    (hle : s.Le s') (h : s.CheckpointOf c through source) : s'.CheckpointOf c through source := by
  obtain ⟨q, b, log, snapshot, objects, hb, hcall, hid, hrest⟩ := h
  exact ⟨q, b, log, snapshot, objects, hle.call hb, hcall, hle.id hid, hrest⟩

theorem State.Publishes.mono {t : Nat} {c : CheckpointRef} (hle : s.Le s') (h : s.Publishes t c) :
    s'.Publishes t c := by
  rcases h with h | ⟨b, log, pending, hb, hrest⟩
  · exact .inl (hle.id h)
  · exact .inr ⟨b, log, pending, hle.call hb, hrest⟩

theorem State.CheckpointAttempt.mono {t i : Nat} {h : Head} {through : CommitRef}
    {c : CheckpointRef} (hle : s.Le s') (ha : s.CheckpointAttempt t i h through c) :
    s'.CheckpointAttempt t i h through c := by
  obtain ⟨hp, source, i₀, hof, hh, hrest⟩ := ha
  exact ⟨hp.mono hle, source, i₀, hof.mono hle, hh.mono hle, hrest⟩

theorem State.PlanBody.mono {h : Head} {p : CollectionPlanRef} {plan : CollectionPlan} {n : Nat}
    (hle : s.Le s') (hp : s.PlanBody h p plan n) : s'.PlanBody h p plan n := by
  obtain ⟨hat, ⟨bytes, hb, hl, hd⟩, hi⟩ := hp
  exact ⟨hat.mono hle, ⟨bytes, hle.created _ _ hb, hl, hd⟩, hi⟩

theorem State.Deleted.mono {t i L L' : Nat} {k : ImmutableKey} (hle : s.Le s') (hL : L ≤ L')
    (h : s.Deleted t i L k) : s'.Deleted t i L' k := by
  obtain ⟨j, sent, n, landed, hf, hi, hn⟩ := h
  obtain ⟨f', hf', landed', told', rfl, -, ht⟩ := hle.flights j _ hf
  have := ht _ rfl
  subst this
  exact ⟨j, sent, n, landed', hf', hi, hn.trans hL⟩

theorem State.Justified.mono {t L L' i : Nat} {h : Head} {c : Change} (hle : s.Le s')
    (hL : L ≤ L') (hj : s.Justified t L i h c) : s'.Justified t L' i h c := by
  cases c with
  | append ref =>
      obtain ⟨⟨b, hb, ht⟩, ha, q, log, p, hp, he, hs, hc, ho⟩ := hj
      exact ⟨⟨b, hle.call hb, ht⟩, ha.mono hle, q, log, p, hp.mono hle, he, hs, hc.mono hle.body,
        fun o h => (ho o h).mono hle⟩
  | checkpoint through object => exact ⟨hj.1.mono hle, hj.2.mono hle⟩
  | retention change => trivial
  | install p =>
      obtain ⟨hid, hs, plan, n, hp, hn, he, hc⟩ := hj
      refine ⟨hle.id hid, hs.mono hle.body, plan, n, hp.mono hle, hn, he, fun c hm => ?_⟩
      obtain ⟨⟨bytes, m, hb, hm'⟩, hr, hne⟩ := hc c hm
      exact ⟨⟨bytes, m, hle.created _ _ hb, hm'.trans hL⟩,
        fun hr' => hr (hr'.back hle.body hs), hne⟩
  | clear =>
      obtain ⟨b, log, view, p, plan, hb, hcall, hv, hp, hpl, i₀, h₀, v₀, hh, hp₀, hd⟩ := hj
      exact ⟨b, log, view, p, plan, hle.call hb, hcall, hv, hp, hpl.mono hle, i₀, h₀, v₀,
        hh.mono hle, hp₀, fun c hm => (hd c hm).mono hle hL⟩

theorem State.Replaces.mono {t L L' i : Nat} {h h' : Head} {c : Change} (hle : s.Le s')
    (hL : L ≤ L') (hr : s.Replaces t L i h h' c) : s'.Replaces t L' i h h' c :=
  ⟨hr.result, hr.guard, hr.justified.mono hle hL⟩

theorem State.UpdateOK.mono {t : Nat} {bytes : Bytes} {expected : UpdateVersion} (hle : s.Le s')
    (h : s.UpdateOK t bytes expected) : s'.UpdateOK t bytes expected := by
  obtain ⟨i, hd, c, h', hh, hb, hl, hr⟩ := h
  exact ⟨i, hd, c, h', hh.mono hle, hb, hl, hr.mono hle hle.now⟩

theorem State.Link.mono {i : Nat} {h h' : Head} {v v' : UpdateVersion} (hle : s.Le s')
    (hl : s.Link i h v h' v') : s'.Link i h v h' v' := by
  obtain ⟨j, f, bytes, c, hf, hr, hb, hrep⟩ := hl
  obtain ⟨f', hf', ht, hreq, -⟩ := hle.flight hf
  refine ⟨j, f', bytes, c, hf', hreq.trans hr, getElem?_of_isPrefix hle.heads hb, ?_⟩
  rw [ht]
  exact hrep.mono hle le_rfl

theorem State.InstallFlight.mono {j i : Nat} {k : ImmutableKey} (hle : s.Le s')
    (h : s.InstallFlight j i k) : s'.InstallFlight j i k := by
  obtain ⟨f, bytes, expected, hd, h', p, hf, hr, hh, hn, hb, hp, hk⟩ := h
  obtain ⟨f', hf', -, hreq, -⟩ := hle.flight hf
  exact ⟨f', bytes, expected, hd, h', p, hf', hreq.trans hr, hh.mono hle, hn, hb, hp, hk⟩

theorem State.Retired.mono {k : ImmutableKey} (hle : s.Le s') (h : s.Retired k) :
    s'.Retired k := by
  obtain ⟨hk, j, i, m, hd, v, hi, him, hh, hne⟩ := h
  exact ⟨hk, j, i, m, hd, v, hi.mono hle, him, hh.mono hle, hne⟩

theorem State.ReqOK.mono {t sent : Nat} {req : Req} (hle : s.Le s') (h : s.ReqOK t sent req) :
    s'.ReqOK t sent req := by
  cases req with
  | getHead => trivial
  | getHeadIfChanged => trivial
  | get => trivial
  | createHead bytes =>
      obtain ⟨inc, opts, he, hl⟩ := h
      refine ⟨inc, opts, ?_, hl⟩
      rw [hle.scope]
      exact he
  | updateHead bytes expected => exact State.UpdateOK.mono hle h
  | create key bytes =>
      obtain ⟨hd, hid, hc⟩ := h
      refine ⟨hd, fun hk => hle.id (hid hk), fun hk => ?_⟩
      obtain ⟨q, log, p, ref, hp, he, hkey⟩ := hc hk
      exact ⟨q, log, p, ref, hp.mono hle, he, hkey⟩
  | delete key =>
      obtain ⟨hc, hd⟩ := h
      refine ⟨hle.createdSome hc, ?_⟩
      rcases hd with ⟨i, hd, v, b, log, view, hi, hh, hl, hb, hcall, hp⟩ | hr
      · exact .inl ⟨i, hd, v, b, log, view, hi, hh.mono hle, hl.mono hle, hle.call hb, hcall, hp⟩
      · exact .inr (hr.mono hle)

theorem State.Seen.mono {L : Nat} {k : ImmutableKey} (hle : s.Le s') (hL : L ≤ s.now)
    (h : s.Seen L k) : s'.Seen L k := by
  intro hk i hd v hi hh hl
  have hh' := hh.back hle (Nat.lt_of_lt_of_le hi hL)
  exact (h hk i hd v hi hh' fun hl' => hl (hl'.mono hle)).mono hle

theorem State.Missed.mono {L : Nat} {k : ImmutableKey} (hle : s.Le s') (hL : L ≤ s.now)
    (hs : ∀ i h v, s.HeadAt i h v → HeadStored s.body h) (h : s.Missed L k) : s'.Missed L k := by
  refine ⟨fun i hd v hi hh hr => ?_, fun hpos => ?_⟩
  · have hh' := hh.back hle (Nat.lt_of_lt_of_le hi hL)
    obtain ⟨e, he, hp⟩ := h.reached i hd v hi hh' (hr.back hle.body (hs i hd v hh'))
    exact ⟨e, he, hp.mono hle⟩
  · obtain ⟨i, hd, v, hi, hh, hne⟩ := h.unnamed hpos
    exact ⟨i, hd, v, hi, hh.mono hle, hne⟩

theorem State.ReadAt.mono {L : Nat} {stored : StoredObject} (hle : s.Le s')
    (h : s.ReadAt L stored) : s'.ReadAt L stored := by
  obtain ⟨i, hi, hst⟩ := h
  exact ⟨i, hi, getElem?_of_isPrefix hle.heads hst⟩

theorem State.AnswerOK.mono {sent n : Nat} {req : Req} {a : Answer req} (hle : s.Le s')
    (hsent : sent ≤ s.now) (hs : ∀ i h v, s.HeadAt i h v → HeadStored s.body h)
    (hreq : ∀ key, req = .delete key → (s.created key).isSome)
    (h : s.AnswerOK sent n req a) : s'.AnswerOK sent n req a := by
  cases req with
  | getHead =>
      cases a with
      | none => exact h
      | some stored => exact State.ReadAt.mono hle h
  | getHeadIfChanged eTag =>
      cases a with
      | notModified =>
          obtain ⟨stored, hr, he⟩ := h
          exact ⟨stored, hr.mono hle, he⟩
      | modified stored => exact State.ReadAt.mono hle h
      | missing => exact h
  | createHead bytes =>
      intro ha
      obtain ⟨v, hv⟩ := h ha
      exact ⟨v, getElem?_of_isPrefix hle.heads hv⟩
  | updateHead bytes expected =>
      intro v hv
      obtain ⟨i, stored, h1, h2, h3⟩ := h v hv
      exact ⟨i, stored, getElem?_of_isPrefix hle.heads h1, h2, getElem?_of_isPrefix hle.heads h3⟩
  | get key =>
      cases a with
      | none => exact State.Missed.mono hle hsent hs h
      | some bytes => exact ⟨hle.body _ _ h.1, h.2.mono hle hsent⟩
  | create key bytes => exact fun ha => hle.body _ _ (h ha)
  | delete key => exact fun hk => hle.gone key hk (hreq key rfl) (h hk)

/-- A request that did not change keeps what is true of it. -/
theorem State.FlightOK.mono {f : Flight} (hle : s.Le s')
    (hs : ∀ i h v, s.HeadAt i h v → HeadStored s.body h) (h : s.FlightOK f) : s'.FlightOK f where
  sent := h.sent.trans hle.now
  req := h.req.mono hle
  landed := by
    intro n a ha
    obtain ⟨h1, h2, h3⟩ := h.landed n a ha
    refine ⟨h1, h2.trans hle.now, h3.mono hle h.sent hs ?_⟩
    intro key hkey
    have := h.req
    rw [hkey] at this
    exact this.1
  told := by
    intro n r hr
    obtain ⟨h1, h2⟩ := h.told n r hr
    exact ⟨h1.trans hle.now, h2⟩

theorem State.CreatedOK.mono {k : ImmutableKey} {bytes : Bytes} {n : Nat} (hle : s.Le s')
    (h : s.CreatedOK k bytes n) : s'.CreatedOK k bytes n where
  moment := h.moment.trans hle.now
  digest := h.digest
  owner := by
    obtain ⟨q, b, hid, hb, hn⟩ := h.owner
    exact ⟨q, b, hle.id hid, hle.call hb, hn⟩
  commit := by
    intro hk
    obtain ⟨q, log, p, ref, hp, he, hkey⟩ := h.commit hk
    exact ⟨q, log, p, ref, hp.mono hle, he, hkey⟩
  request := by
    obtain ⟨j, f, hf, hr⟩ := h.request
    obtain ⟨f', hf', -, hreq, -⟩ := hle.flight hf
    exact ⟨j, f', hf', hreq.trans hr⟩

/-! ## Items -/

theorem State.LogOK.mono {log : Log} (hle : s.Le s') (h : s.LogOK log) : s'.LogOK log := by
  obtain ⟨hs, hdom, hd, v, hh, hi, ho⟩ := h
  exact ⟨hs.trans hle.scope.symm, Nat.lt_of_lt_of_le hdom hle.domains, hd, v, hh.mono hle, hi, ho⟩

theorem State.ViewOK.mono {L L' : Nat} {view : View} (hle : s.Le s') (hL : L ≤ L')
    (h : s.ViewOK L view) : s'.ViewOK L' view := by
  obtain ⟨⟨i, hi, hh⟩, o, ho, e1, e2⟩ := h
  obtain ⟨o', ho', e3, e4⟩ := hle.views _ o ho
  exact ⟨⟨i, Nat.lt_of_lt_of_le hi hL, hh.mono hle⟩, o', ho', e3.trans e1, e4.trans e2⟩

theorem State.StagedOK.mono {staged : StagedObject} (hle : s.Le s') (h : s.StagedOK staged) :
    s'.StagedOK staged := by
  obtain ⟨hd, v, hh, hp⟩ := h
  exact ⟨hd, v, hh.mono hle, hp.mono hle⟩

theorem State.PreparedOK.mono {L L' : Nat} {p : PreparedCommit} (hle : s.Le s') (hL : L ≤ L')
    (h : s.PreparedOK L p) : s'.PreparedOK L' p := by
  obtain ⟨hv, q, log, p₀, hp, hrest⟩ := h
  exact ⟨hv.mono hle hL, q, log, p₀, hp.mono hle, hrest⟩

theorem State.TokenOK.mono {L L' : Nat} {token : Bytes} (hle : s.Le s') (hL : L ≤ L')
    (h : s.TokenOK L token) : s'.TokenOK L' token := by
  obtain ⟨p, hp, hrest⟩ := h
  exact ⟨p, hp.mono hle hL, hrest⟩

theorem State.Ensured.mono {ref : CommitRef} {p : PreparedCommit} (hle : s.Le s')
    (h : s.Ensured ref p) : s'.Ensured ref p := by
  obtain ⟨q, log, p₀, bytes, hp, hid, he, hb⟩ := h
  exact ⟨q, log, p₀, bytes, hp.mono hle, hid, he, hle.body _ _ hb⟩

theorem State.PendingCommitOK.mono {L L' : Nat} {p : PendingCommit} (hle : s.Le s')
    (hL : L ≤ L') (h : s.PendingCommitOK L p) : s'.PendingCommitOK L' p := by
  unfold State.PendingCommitOK at h ⊢
  cases hp : p.prepared with
  | some prepared =>
      rw [hp] at h
      exact ⟨h.1.mono hle hL, h.2.mono hle⟩
  | none =>
      rw [hp] at h
      obtain ⟨token, ht, hok⟩ := h
      exact ⟨token, ht, hok.mono hle hL⟩

theorem State.PendingCheckpointOK.mono {L L' : Nat} {p : PendingCheckpoint} (hle : s.Le s')
    (hL : L ≤ L') (h : s.PendingCheckpointOK L p) : s'.PendingCheckpointOK L' p := by
  obtain ⟨hv, hof, hth, hc⟩ := h
  exact ⟨hv.mono hle hL, hof.mono hle, hth, hc.mono hle⟩

theorem State.RecordOK.mono {h : Head} {c : CommitRef} {record : CommitRecord} (hle : s.Le s')
    (hr : s.RecordOK h c record) : s'.RecordOK h c record := by
  obtain ⟨commit, hb, he⟩ := hr
  exact ⟨commit, hb.mono hle.body, he⟩

theorem State.ReadyOK.mono {view : View} {index : Nat} {r : Except Error (Option CommitRecord)}
    (hle : s.Le s') (h : s.ReadyOK view index r) : s'.ReadyOK view index r := by
  rcases r with e | (_ | record)
  · exact h
  · obtain ⟨i, hd, v, hh, he⟩ := h
    exact ⟨i, hd, v, hh.mono hle, he⟩
  · obtain ⟨c, hc, hr⟩ := h
    exact ⟨c, hc, hr.mono hle⟩

theorem State.CursorOK.mono {L L' : Nat} {c : HistoryCursor} (hle : s.Le s') (hL : L ≤ L')
    (h : s.CursorOK L c) : s'.CursorOK L' c :=
  ⟨h.log.mono hle, h.view.mono hle hL, h.checked, fun j r hr => (h.ready j r hr).mono hle⟩

theorem State.ItemOK.mono {L L' : Nat} {item : Item} (hle : s.Le s') (hL : L ≤ L')
    (h : s.ItemOK L item) : s'.ItemOK L' item := by
  cases item with
  | log log => exact State.LogOK.mono hle h
  | view view => exact State.ViewOK.mono hle hL h
  | staged staged => exact State.StagedOK.mono hle h
  | prepared p => exact State.PreparedOK.mono hle hL h
  | pendingCommit p => exact State.PendingCommitOK.mono hle hL h
  | pendingCheckpoint p => exact State.PendingCheckpointOK.mono hle hL h
  | token token => exact State.TokenOK.mono hle hL h
  | cursor c => exact State.CursorOK.mono hle hL h
  | reader r => exact ⟨h.1.mono hle, h.2.1.mono hle hL, h.2.2⟩

theorem State.BegunOK.mono {b : Begun} (hle : s.Le s') (h : s.BegunOK b) : s'.BegunOK b :=
  ⟨h.heads.trans hle.now, h.flights.trans hle.flights_length,
    fun item hi => (h.args item hi).mono hle le_rfl⟩

end ObjectLog
