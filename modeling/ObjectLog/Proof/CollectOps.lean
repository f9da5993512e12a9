import ObjectLog.Proof.UpdateOps

/-!
# Collectors

A collector installs a plan of keys that the head it fences does not reach. The keys were
listed before the plan was created, and the identity of the plan is drawn after that, so a
plan never lists itself. Whoever clears the fence has been answered for every candidate, and
the object of a plan is only deleted when the plan is named no more.
-/

set_option linter.unusedSectionVars false

namespace ObjectLog

open Rely

variable [Blake3] {s s' u : State} {t L i j m : Nat} {A : Effect → Prop} {log : Log}
  {view current : View} {live : Visited} {e : Error} {b : Begun} {p : CollectionPlanRef}
  {k : ImmutableKey} {cs : List CollectionCandidate}

/-! ## How the live set can fail -/

/-- How marking the live set of a view can fail. -/
def State.LiveError (s : State) (t L : Nat) (view : View) (e : Error) : Prop :=
  s.ViewError view e ∨ e = .limitExceeded "collection live objects" ∨
    (e.Missing ∧ ∃ key, key.kind ≠ .commit ∧ Reaches s.body view.head key ∧ s.Lacks t L key)

/-- The graph of a view. -/
theorem Viewing.graphOK (hv : Viewing s log view) (g : Good s) :
    s.GraphOK log (Inside s.body view.head) := by
  obtain ⟨-, e2, e3⟩ := hv.same g.inv
  obtain ⟨i, hh⟩ := hv.head
  refine ⟨fun r hr => ?_, fun r bytes n c hr kind hb hd hc => ?_⟩
  · rw [← e2, ← e3]
    exact hr.stored (g.inv.headStored hh)
  · rw [← e2] at hb
    rw [← e3] at hd
    exact hr.child kind hb hd hc

/-- The dependencies of a commit of the view. -/
theorem State.RecordOK.inside {c : CommitRef} {record : CommitRecord}
    (h : s.RecordOK view.head c record) (hc : c ∈ view.head.tail) :
    ∀ o ∈ record.objects, Inside s.body view.head o := by
  obtain ⟨commit, b, rfl⟩ := h
  exact fun o ho => .commitObject hc b.stored b.decode ho (.self o)

theorem insertLive_error {len subtree : UInt64}
    (h : log.insertLive live k len subtree = .error e) :
    (∃ x, live.lookup k = some x ∧ x ≠ (len, subtree)) ∨
      e = .limitExceeded "collection live objects" := by
  rcases bind_error.1 h with hx | ⟨-, -, hx⟩
  · left
    cases hl : live.lookup k with
    | none =>
        rw [hl] at hx
        cases hx
    | some x =>
        refine ⟨x, rfl, fun heq => ?_⟩
        rw [hl, heq] at hx
        simp [ensure] at hx
  · right
    rcases bind_error.1 hx with hy | ⟨-, -, hy⟩
    · exact ensure_error hy
    · cases hy

theorem addRoots_error {roots objects : List ObjectRef}
    (h : log.addRoots roots objects = .error e) : e = .limitExceeded "collection live objects" := by
  rcases bind_error.1 h with hx | ⟨-, -, hx⟩
  · exact ensure_error hx
  · cases hx

/-- The live set knows of a key what some record says of it. -/
theorem markCommits_lookup {records : List CommitRecord} {st st' : LiveRoots} {x : UInt64 × UInt64}
    (h : records.foldlM log.markCommit st = .ok st') (hx : st'.1.lookup k = some x) :
    st.1.lookup k = some x ∨ ∃ record ∈ records,
      k = commitKey log.incarnation record.reference ∧ x = (record.reference.len, 0) := by
  induction records generalizing st with
  | nil =>
      obtain rfl : st = st' := by simpa [pure, Except.pure] using h
      exact .inl hx
  | cons record records ih =>
      rw [List.foldlM_cons, bind_ok] at h
      obtain ⟨st₁, h₁, h₂⟩ := h
      rcases ih h₂ with hold | ⟨r, hr, hrest⟩
      · simp only [Log.markCommit, bind_ok, pure, Except.pure, Except.ok.injEq] at h₁
        obtain ⟨live, hlive, roots, -, rfl⟩ := h₁
        simp only [Log.insertLive, bind_ok, ensure_ok, pure, Except.pure, Except.ok.injEq] at hlive
        obtain ⟨⟨⟩, -, ⟨⟩, -, rfl⟩ := hlive
        dsimp only at hold
        split at hold
        · exact .inl hold
        · rw [List.lookup_cons] at hold
          by_cases hk : k = commitKey log.incarnation record.reference
          · rw [beq_iff_eq.2 hk] at hold
            exact .inr ⟨record, by simp, hk, (Option.some.inj hold).symm⟩
          · rw [beq_false_of_ne hk] at hold
            exact .inl hold
      · exact .inr ⟨r, by simp [hr], hrest⟩

/-- One key has one length, so the records of a tail do not contradict each other. -/
theorem State.ConsumeError.marking (inv : Inv s) (hv : Viewing s log view)
    (h : s.ConsumeError view log.markCommit ([], []) e) :
    e = .limitExceeded "collection live objects" := by
  obtain ⟨records, st, record, hfold, herr, hok⟩ := h
  rcases bind_error.1 herr with hx | ⟨live, -, hx⟩
  · rcases insertLive_error hx with ⟨x, hl, hne⟩ | he
    · exfalso
      rcases markCommits_lookup hfold hl with hnil | ⟨r, hr, hk, rfl⟩
      · simp at hnil
      · obtain ⟨c, commit, hb, rfl⟩ := hok record (by simp)
        obtain ⟨c', commit', hb', rfl⟩ := hok r (by simp [hr])
        obtain ⟨-, e2, -⟩ := hv.same inv
        have hstored := hb.stored
        rw [e2, hk, ← e2, hb'.stored] at hstored
        have hlen : (encodeCommit commit').length = (encodeCommit commit).length :=
          congrArg List.length (Option.some.inj hstored)
        rw [hb.len, hb'.len] at hlen
        exact hne (by rw [UInt64.toNat_inj.1 hlen])
    · exact he
  · rcases bind_error.1 hx with hy | ⟨roots, -, hy⟩
    · exact addRoots_error hy
    · cases hy

theorem markCommits_roots {records : List CommitRecord} {st st' : LiveRoots}
    (h : records.foldlM log.markCommit st = .ok st') :
    ∀ o ∈ st'.2, o ∈ st.2 ∨ ∃ record ∈ records, o ∈ record.objects := by
  induction records generalizing st with
  | nil =>
      obtain rfl : st = st' := by simpa [pure, Except.pure] using h
      exact fun o ho => .inl ho
  | cons record records ih =>
      rw [List.foldlM_cons, bind_ok] at h
      obtain ⟨st₁, h₁, h₂⟩ := h
      simp only [Log.markCommit, bind_ok, pure, Except.pure, Except.ok.injEq] at h₁
      obtain ⟨live, -, roots, hroots, rfl⟩ := h₁
      obtain rfl := addRoots_ok hroots
      intro o ho
      rcases ih h₂ o ho with hold | ⟨r, hr, hmem⟩
      · rcases List.mem_append.1 hold with hold | hnew
        · exact .inl hold
        · exact .inr ⟨record, by simp, hnew⟩
      · exact .inr ⟨r, by simp [hr], hmem⟩

theorem forall₂_mem_right {α β : Type} {R : α → β → Prop} {xs : List α} {ys : List β}
    (h : List.Forall₂ R xs ys) {y : β} (hy : y ∈ ys) : ∃ x ∈ xs, R x y :=
  forall₂_mem h.flip hy

theorem Visited.Records.of {base : Visited} {G : ObjectRef → Prop} (h : base.Records) :
    base.Of log G := by
  intro k x hx hk
  obtain ⟨h1, h2⟩ := h k x hx
  rcases hk with hk | hk
  · exact absurd hk h1
  · exact absurd hk h2

/-- **Marking the live set of a view never meets a contradiction.** -/
theorem markLive_sound (hA : Reads ≤ A) (g : Good s) (hv : Viewing s log view) :
    Runs t A (log.markLive view) (fun r u => match r with
      | .ok _ => True
      | .error e => u.LiveError t s.now view e) s := by
  refine Runs.bind le_rfl g (tailRecords_runs hA g hv) ?_ ?_
  swap
  · rintro e u tr gu (h | h)
    · exact .inl h.1
    · exact .inr (.inl (h.marking gu.inv (hv.mono tr.le)))
  rintro ⟨live, roots⟩ u tr gu ⟨records, hrec, hfold⟩
  obtain ⟨-, hlr, -, hcommits⟩ := markCommits_ok hfold Visited.records_nil
  have hroots : ∀ o ∈ roots, Inside u.body view.head o := by
    intro o ho
    rcases markCommits_roots hfold o ho with hnil | ⟨record, hr, hmem⟩
    · cases hnil
    obtain ⟨c, hc, hok⟩ := forall₂_mem_right hrec hr
    exact hok.inside (List.mem_of_mem_drop hc) o hmem
  refine Runs.bind le_rfl gu (rememberTail_runs hA) ?_ nofun
  rintro - v tr₁ gv -
  have hle := tr.le.trans tr₁.le
  have hv₁ := hv.mono hle
  have walk : ∀ (roots : List ObjectRef) (base : Visited) (w : State), s.Le w → Good w →
      base.Records → (∀ o ∈ roots, Inside w.body view.head o) →
      Runs t A (log.markObjectGraph roots base none .reachability) (fun r u => match r with
        | .ok _ => True
        | .error e => u.LiveError t s.now view e) w := by
    intro roots base w hw gw hb hs
    refine (markObjectGraph_sound hA gw ((hv.mono hw).graphOK gw) hs hb.of).track.mono ?_
    rintro (e | _) x gx ⟨trx, h⟩
    · rcases h with h | (⟨-, r, -, hf⟩ | ⟨he, -⟩) | ⟨r, hr, hm, hl⟩
      · exact .inl (.inl h)
      · cases hf
      · exact .inr (.inl he)
      · -- without a fence only a read that found nothing is left
        obtain ⟨-, e2, -⟩ := (hv.mono hw).same gw.inv
        have hreach := hr.reaches.mono trx.le.body
        rw [e2] at hreach
        exact .inr (.inr ⟨hm, _, objectKey_kind _ _, hreach, hl.later hw.now⟩)
    · trivial
  cases hc : view.head.checkpoint with
  | none => exact walk roots live v hle gv hlr fun o ho => (hroots o ho).mono tr₁.le.body
  | some c =>
      obtain ⟨n, hh⟩ := hv₁.head
      have hkind := hh.valid.baseKind c hc
      refine Runs.liftBind (fun live₁ hins => ?_) fun e w he o _ => ?_
      swap
      · rcases insertLive_error he with ⟨x, hl, -⟩ | he
        · -- only commits are in the live set so far
          exfalso
          rcases markCommits_lookup hfold hl with hnil | ⟨r, -, hk, -⟩
          · simp at hnil
          · have := congrArg ImmutableKey.kind hk
            simp [objectKey, commitKey, hkind, ObjectKind.immutable] at this
        · exact .inr (.inl he)
      obtain ⟨-, -, hlr₁⟩ := insertLive_ok hins hlr
        (by simp [objectKey, hkind, ObjectKind.immutable])
      obtain ⟨ck, hbody⟩ := (gv.inv.headStored hh).checkpoint c hc
      obtain ⟨e1, e2, e3⟩ := hv₁.same gv.inv
      refine Runs.bind le_rfl gv (loadCheckpoint_runs hA gv hv₁.log c) ?_ ?_
      swap
      · intro e w tr₂ gw h
        rcases h n _ _ ck hh hbody with h | ⟨hm, hl⟩
        · exact .inl (.inl h)
        · have hreach : Reaches w.body view.head (objectKey view.head.incarnation c.object) :=
            .checkpoint hc
          rw [e2] at hreach
          exact .inr (.inr ⟨hm, _, objectKey_kind _ _, hreach, hl.later hle.now⟩)
      rintro ck' w tr₂ gw ⟨bytes, hbytes, hdec⟩
      have hstored := tr₂.le.body _ _ hbody.stored
      rw [e2] at hstored
      obtain rfl := Option.some.inj (hstored.symm.trans hbytes)
      obtain rfl := Except.ok.inj (hdec.symm.trans
        (decodeCheckpointReference_ok (hbody.decodeReference e1 e2 e3)))
      refine Runs.liftBind (fun roots' hadd => ?_) fun e x he _ _ =>
        .inr (.inl (addRoots_error he))
      obtain rfl := addRoots_ok hadd
      refine walk _ live₁ w (hle.trans tr₂.le) gw hlr₁ fun o ho => ?_
      rcases List.mem_append.1 ho with ho | ho
      · exact (hroots o ho).mono (tr₁.le.trans tr₂.le).body
      · exact .checkpointObject hc (tr₂.le.body _ _ hbody.stored) hbody.decode ho (.self o)

/-! ## The scan -/

/-- What a scan has found so far: keys that are not live, sorted, each with its size. -/
structure State.ScanOK (s : State) (live : Visited) (cs : List CollectionCandidate) : Prop where
  sorted : strictlySorted cs
  found : ∀ c ∈ cs, live.lookup c.key = none ∧
    ∃ bytes n, s.created c.key = some (bytes, n) ∧ c.bytes.toNat = bytes.length

theorem State.ScanOK.mono (hle : s.Le s') (h : s.ScanOK live cs) : s'.ScanOK live cs := by
  refine ⟨h.sorted, fun c hc => ?_⟩
  obtain ⟨hl, bytes, n, hcr, hlen⟩ := h.found c hc
  exact ⟨hl, bytes, n, hle.created _ _ hcr, hlen⟩

theorem strictlySorted_cons {c : CollectionCandidate} :
    strictlySorted (c :: cs) ↔ (∀ d ∈ cs, c.key < d.key) ∧ strictlySorted cs := by
  unfold strictlySorted
  rw [List.isChain_iff_pairwise, List.isChain_iff_pairwise, List.map_cons, List.pairwise_cons]
  simp

theorem insertCandidate_spec (c : CollectionCandidate) (hs : strictlySorted cs)
    (hsame : ∀ d ∈ cs, d.key = c.key → d.bytes = c.bytes) :
    ∃ cs', insertCandidate c cs = .ok cs' ∧ strictlySorted cs' ∧
      ∀ d, d ∈ cs' ↔ d = c ∨ d ∈ cs := by
  induction cs with
  | nil => exact ⟨[c], rfl, by simp [strictlySorted], by simp⟩
  | cons d rest ih =>
      obtain ⟨hd, hrest⟩ := strictlySorted_cons.1 hs
      unfold insertCandidate
      by_cases hlt : c.key < d.key
      · rw [if_pos hlt]
        refine ⟨_, rfl, strictlySorted_cons.2 ⟨fun x hx => ?_, hs⟩, by simp⟩
        rcases List.mem_cons.1 hx with rfl | hx
        · exact hlt
        · exact hlt.trans (hd x hx)
      rw [if_neg hlt]
      by_cases heq : c.key = d.key
      · have hbytes : c.bytes = d.bytes := (hsame d (by simp) heq.symm).symm
        have hcd : c = d := by
          cases c
          cases d
          simp_all
        rw [if_pos heq, if_pos hbytes]
        refine ⟨_, rfl, hs, fun x => ⟨.inr, ?_⟩⟩
        rintro (rfl | hx)
        · simp [hcd]
        · exact hx
      rw [if_neg heq]
      obtain ⟨cs', hins, hsorted, hmem⟩ := ih hrest fun x hx => hsame x (by simp [hx])
      refine ⟨d :: cs', by rw [hins]; rfl, strictlySorted_cons.2 ⟨fun x hx => ?_, hsorted⟩,
        fun x => ?_⟩
      · rcases (hmem x).1 hx with rfl | hx
        · exact lt_of_le_of_ne (not_lt.1 hlt) (Ne.symm heq)
        · exact hd x hx
      · rw [List.mem_cons, hmem, List.mem_cons]
        tauto

/-- A listing never contradicts itself, so an insertion never fails. -/
theorem State.ScanOK.insert {c : CollectionCandidate} {bytes : Bytes} {n : Nat}
    (h : s.ScanOK live cs) (hl : live.lookup c.key = none)
    (hc : s.created c.key = some (bytes, n)) (hlen : c.bytes.toNat = bytes.length) :
    ∃ cs', insertCandidate c cs = .ok cs' ∧ s.ScanOK live cs' := by
  have hsame : ∀ d ∈ cs, d.key = c.key → d.bytes = c.bytes := by
    intro d hd hk
    obtain ⟨-, bytes', n', hc', hlen'⟩ := h.found d hd
    rw [hk, hc] at hc'
    obtain ⟨rfl, rfl⟩ := Prod.mk.inj (Option.some.inj hc')
    exact UInt64.toNat_inj.1 (hlen'.trans hlen.symm)
  obtain ⟨cs', hins, hsorted, hmem⟩ := insertCandidate_spec c h.sorted hsame
  refine ⟨cs', hins, hsorted, fun d hd => ?_⟩
  rcases (hmem d).1 hd with rfl | hd
  · exact ⟨hl, bytes, n, hc, hlen⟩
  · exact h.found d hd

theorem listNext_runs (hA : Reads ≤ A) :
    Runs t A listNext (fun r u => ∃ x : Except StoreError (Option ListedObject), r = .ok x ∧
      ∀ item key, x = .ok (some item) → item.immutableKey = some key →
        ∃ bytes n, u.created key = some (bytes, n) ∧ item.size.toNat = bytes.length) s := by
  refine Runs.ask fun u o gu => ⟨⟨trivial, hA _ trivial⟩, fun x v hx gv v' o' g' => ⟨x, rfl, ?_⟩⟩
  obtain ⟨rfl, hitem⟩ := hx
  intro item key hok hkey
  obtain ⟨bytes, n, hc, hlen⟩ := hitem item key hok hkey
  exact ⟨bytes, n, o'.le.created _ _ hc, hlen⟩

theorem scanCandidates_runs {maxCandidates : Nat} (hA : Reads ≤ A) :
    ∀ (scanLimit : Nat) (cs : List CollectionCandidate) (s : State), Good s → s.ScanOK live cs →
      Runs t A (scanCandidates live maxCandidates scanLimit cs) (fun r u => match r with
        | .ok out => u.ScanOK live out.1
        | .error e => e.Unavailable) s
  | 0, cs, s, _, h => Runs.pure fun _ o _ => h.mono o.le
  | scanLimit + 1, cs, s, g, h => by
      refine Runs.bind le_rfl g (listNext_runs hA) ?_ nofun
      rintro x u tr gu ⟨x', hx', hitem⟩
      obtain rfl := Except.ok.inj hx'
      have hu := h.mono tr.le
      rcases x with error | (_ | item)
      · exact Runs.throw fun _ _ _ => .inr ⟨error, rfl⟩
      · exact Runs.pure fun _ o _ => hu.mono o.le
      cases hk : item.immutableKey with
      | none =>
          simp only [hk]
          exact scanCandidates_runs hA scanLimit cs u gu hu
      | some key =>
          simp only [hk]
          refine Runs.ite (fun _ => scanCandidates_runs hA scanLimit cs u gu hu) fun hlive => ?_
          obtain ⟨bytes, n, hc, hlen⟩ := hitem item key rfl hk
          obtain ⟨cs', hins, hok⟩ := hu.insert (c := ⟨key, item.size⟩)
            (Option.not_isSome_iff_eq_none.1 hlive) hc hlen
          refine Runs.liftBind (fun cs'' hcs => ?_) fun e v he _ _ => by rw [hins] at he; cases he
          obtain rfl := Except.ok.inj (hins.symm.trans hcs)
          refine Runs.ite (fun _ => Runs.pure fun _ o _ => hok.mono o.le) fun _ => ?_
          exact scanCandidates_runs hA scanLimit cs' u gu hok

/-! ## Retired plans -/

theorem planKey_inj {inc : Uuid} {p p' : CollectionPlanRef}
    (h : collectionPlanKey inc p = collectionPlanKey inc p') :
    p.storageId = p'.storageId ∧ p.digest = p'.digest := by
  injection h with _ _ h1 h2
  exact ⟨h1, h2⟩

/-- A plan object is free once a head after the one that names the plan does not. -/
theorem Inv.retired {h h' : Head} {v v' : UpdateVersion} (inv : Inv s) (hh : s.HeadAt i h v)
    (hp : h.activePlan = some p) (hh' : s.HeadAt m h' v') (him : i ≤ m)
    (hno : h'.activePlan.map (collectionPlanKey h'.incarnation) ≠
      some (collectionPlanKey h.incarnation p)) :
    May t s (.submit (.delete (collectionPlanKey h.incarnation p))) := by
  obtain ⟨n, hn, plan, created, o⟩ := inv.origin hh hp
  obtain ⟨w, hw⟩ := o.head
  obtain ⟨-, e2, -⟩ := inv.identity hw hh
  obtain ⟨j, hj⟩ := o.flight
  obtain ⟨bytes, hc, -⟩ := o.body.created
  have hlt := o.lt
  rw [← e2] at hj hc
  exact ⟨⟨by rw [hc]; rfl, .inr ⟨rfl, j, n, m, h', v', hj, by omega, hh', hno⟩⟩, trivial⟩

theorem cleanup_runs (hA : Deletes ≤ A) (g : Good s)
    (may : ∀ u, s.Le u → Good u → May t u (.submit (.delete k))) :
    Runs t A (cleanupCollectionPlan k) (fun r _ => r = .ok ()) s := by
  refine Runs.bind le_rfl g
    (evidence_runs g (deleteImmutableBatch_runs hA g fun k' hk u hle gu => ?_))
    (fun _ _ _ _ _ => Runs.pure fun _ _ _ => rfl) ?_
  · obtain rfl := List.mem_singleton.1 hk
    exact may u hle gu
  · rintro e u - - ⟨hno, h | h⟩
    · exact absurd h hno
    · simp [maxDeleteBatch] at h

/-! ## Installing a plan -/

/-- What a new plan object is. -/
structure State.FreshPlan (s : State) (t : Nat) (log : Log) (bytes : Bytes)
    (p : CollectionPlanRef) : Prop where
  digest : Digest.of bytes = p.digest
  len : bytes.length = p.len.toNat
  id : (p.storageId, t) ∈ s.ids
  stored : s.body (collectionPlanKey log.incarnation p) = some bytes

theorem State.FreshPlan.mono {bytes : Bytes} (hle : s.Le s') (h : s.FreshPlan t log bytes p) :
    s'.FreshPlan t log bytes p :=
  { h with id := hle.id h.id, stored := hle.body _ _ h.stored }

/-- The identity of a plan is drawn after the keys that exist by then. -/
theorem createPlanAttempts_runs {bytes : Bytes} {len : UInt64} (hA : Fresh ≤ A)
    (hlen : bytes.length = len.toNat) :
    ∀ (attempts : Nat) (s : State), Good s → s.DrawOK t →
      Runs t A (log.createPlanAttempts bytes len attempts) (fun r u => match r with
        | .ok p => u.FreshPlan t log bytes p ∧
            ∀ k x, s.created k = some x → k ≠ collectionPlanKey log.incarnation p
        | .error e => e.Unavailable ∨ ∃ what, e = .limitExceeded what) s
  | 0, s, _, _ => Runs.throw fun _ _ _ => .inr ⟨_, rfl⟩
  | attempts + 1, s, g, hd => by
      refine Runs.bind le_rfl g (newStorageId_runs (hA _ (.inr rfl)) hd) ?_ nofun
      rintro x u tr gu ⟨x', hx', hu⟩
      obtain rfl := Except.ok.inj hx'
      refine Runs.bind le_rfl gu (create_runs (reads_fresh.trans hA)
        (hA _ (.inl (.inr ⟨_, _, rfl⟩))) gu fun v tr' gv => ?_) ?_ ?_
      · exact (hu.track tr' gv.inv).may rfl nofun
      · rintro created v tr' gv h
        refine Runs.ite (fun hc => ?_) fun _ => ?_
        · rcases h with ⟨e, he, -⟩ | ⟨c, hc', hbody⟩
          · cases he
          obtain rfl := Except.ok.inj hc'
          refine Runs.pure fun w o _ => ⟨State.FreshPlan.mono o.le
            ⟨rfl, hlen, tr'.le.id hu.drawn, hbody hc⟩, fun k y hk hkey => ?_⟩
          -- an object of this identity would have been created before it was drawn
          obtain ⟨j, f, hf, hr⟩ := (gu.inv.created k y.1 y.2 (tr.le.created _ _ hk)).request
          exact hu.uncreated j f k y.1 hf hr (by rw [hkey]; exact nofun) (by rw [hkey]; rfl)
        · refine (createPlanAttempts_runs hA hlen attempts v gv
            (hd.mono (tr.le.trans tr'.le))).mono ?_
          rintro (e | p) w gw hw
          · exact hw
          · exact ⟨hw.1, fun k y hk => hw.2 k y ((tr.le.trans tr'.le).created _ _ hk)⟩
      · rintro e v - - (⟨e', he', hun⟩ | ⟨_, he', -⟩)
        · exact .inl (Except.error.inj he' ▸ hun)
        · cases he'

theorem candidateBytes_error {plan : CollectionPlan} (he : plan.candidateBytes = .error e) :
    ∃ what, e = .limitExceeded what := by
  have hfold : ∀ (cs : List CollectionCandidate) (total : UInt64),
      cs.foldlM (fun total candidate => okOr (checkedAdd total candidate.bytes)
        (.limitExceeded "collection candidate bytes")) total = .error e →
      e = .limitExceeded "collection candidate bytes" := by
    intro cs
    induction cs with
    | nil => exact fun _ h => by cases h
    | cons c rest ih =>
        intro total h
        rw [List.foldlM_cons] at h
        rcases bind_error.1 h with hx | ⟨n, -, hx⟩
        · exact okOr_error hx
        · exact ih n hx
  exact ⟨_, hfold plan.candidates 0 he⟩

/-- The plan of a scan is encoded, unless it is too large. -/
theorem encodeCollectionPlan_error {plan : CollectionPlan} {opts : Options}
    (hepoch : plan.collectionEpoch ≠ 0) (hne : plan.candidates ≠ [])
    (hs : strictlySorted plan.candidates) (he : encodeCollectionPlan plan opts = .error e) :
    ∃ what, e = .limitExceeded what := by
  rcases bind_error.1 he with hx | ⟨-, -, hx⟩
  · rcases bind_error.1 hx with hx | ⟨-, -, hx⟩
    · rw [show ensure _ _ = .ok () from ensure_ok.2 hepoch] at hx
      cases hx
    rcases bind_error.1 hx with hx | ⟨-, -, hx⟩
    · rw [show ensure _ _ = .ok () from ensure_ok.2 hne] at hx
      cases hx
    rcases bind_error.1 hx with hx | ⟨-, -, hx⟩
    · exact ⟨_, ensure_error hx⟩
    rcases bind_error.1 hx with hx | ⟨-, -, hx⟩
    · rw [show ensure _ _ = .ok () from ensure_ok.2 hs] at hx
      cases hx
    rcases bind_error.1 hx with hx | ⟨-, -, hx⟩
    · exact candidateBytes_error hx
    · cases hx
  · rcases bind_error.1 hx with hx | ⟨-, -, hx⟩
    · exact ⟨_, ensure_error hx⟩
    · cases hx

/-- What a collector has found out before it installs a plan. -/
structure State.Sweeping (s : State) (t i : Nat) (log : Log) (view : View)
    (cs : List CollectionCandidate) : Prop where
  log : s.LogOK log
  head : s.HeadAt i view.head view.version
  begun : ∃ b, s.calls[t]? = some b ∧ i < b.heads
  unfenced : view.head.activePlan = none
  unretained : view.head.retentionIds = ∅
  sorted : strictlySorted cs
  dead : ∀ c ∈ cs, (∃ x, s.created c.key = some x) ∧ ¬ Reaches s.body view.head c.key

theorem State.Sweeping.mono (hle : s.Le s') (inv : Inv s) (h : s.Sweeping t i log view cs) :
    s'.Sweeping t i log view cs := by
  obtain ⟨b, hb, hi⟩ := h.begun
  refine ⟨h.log.mono hle, h.head.mono hle, ⟨b, hle.call hb, hi⟩, h.unfenced, h.unretained,
    h.sorted, fun c hc => ?_⟩
  obtain ⟨⟨x, hx⟩, hno⟩ := h.dead c hc
  exact ⟨⟨x, hle.created _ _ hx⟩, fun hr => hno (hr.back hle.body (inv.headStored h.head))⟩

/-- **The plan of a collector may be installed.** -/
theorem State.FreshPlan.justified {bytes : Bytes} {plan : CollectionPlan}
    (hf : s.FreshPlan t log bytes p) (inv : Inv s) (hs : s.Sweeping t i log view plan.candidates)
    (he : encodeCollectionPlan plan log.options = .ok bytes) (hlog : plan.logId = log.logId)
    (hepoch : plan.collectionEpoch.toNat = view.head.collectionEpoch.toNat + 1)
    (hother : ∀ c ∈ plan.candidates, c.key ≠ collectionPlanKey log.incarnation p) :
    s.Justified t s.now i view.head (.install p) := by
  obtain ⟨e1, e2, e3⟩ := hs.log.head inv hs.head
  obtain ⟨b, hb, hi⟩ := hs.begun
  obtain ⟨n, hn⟩ := State.body_eq.1 hf.stored
  -- the call that drew the identity had begun by then
  obtain ⟨q, b', hq, hb', hle⟩ := (inv.created _ _ _ hn).owner
  obtain rfl := inv.owner _ _ _ hf.id hq
  obtain rfl := Option.some.inj (hb.symm.trans hb')
  refine ⟨hf.id, inv.headStored hs.head, plan, n, ⟨⟨bytes, e2 ▸ hf.stored, ?_⟩,
    ⟨bytes, e2 ▸ hn, hf.len, hf.digest⟩, hlog.trans e1.symm⟩, by omega, hepoch, fun c hc => ?_⟩
  · rw [e3]
    exact decodeCollectionPlan_encodeCollectionPlan he
  · obtain ⟨⟨x, hx⟩, hno⟩ := hs.dead c hc
    exact ⟨⟨x.1, x.2, hx, (inv.created _ _ _ hx).moment⟩, hno, e2 ▸ hother c hc⟩

/-- Only the call that drew the identity of a plan installs it. -/
theorem State.FreshPlan.uninstalled {bytes : Bytes} {i' : Nat} (hf : s.FreshPlan t log bytes p)
    (inv : Inv s) (clean : s.Clean t 0) :
    ¬ s.InstallFlight j i' (collectionPlanKey log.incarnation p) := by
  rintro ⟨f, bytes', expected, h, h', p', hfl, hr, hh, hnone, hd, hp', hk⟩
  obtain ⟨n, h₁, c, h₁', hh₁, hd₁, -, hrep⟩ := hr ▸ (inv.flights j f hfl).req
  obtain ⟨-, rfl⟩ := inv.version_unique hh₁ hh (.inl rfl)
  obtain rfl := Except.ok.inj (hd₁.symm.trans hd)
  have hid : (p'.storageId, f.tid) ∈ s.ids := by
    rcases hrep.result.activePlan with ⟨p'', rfl, hp''⟩ | ⟨-, hn⟩ | ⟨-, -, hn⟩
    · obtain rfl := Option.some.inj (hp''.symm.trans hp')
      exact hrep.justified.1
    · rw [hn] at hp'
      cases hp'
    · rw [hn, hnone] at hp'
      cases hp'
  have hsid : p'.storageId = p.storageId := congrArg ImmutableKey.storageId hk
  have htid : f.tid = t := inv.owner _ _ _ (hsid ▸ hid) hf.id
  obtain ⟨⟨n', -, hlt, -⟩, -⟩ := clean j f bytes' expected hfl htid hr
  omega

/-- How a collector can fail to start. -/
def State.StartError (s : State) (t L : Nat) (view : View) (e : Error) : Prop :=
  s.LiveError t L view e ∨ ∃ what, e = .limitExceeded what

/-- The views a collector hands out. -/
def State.StartOK (s : State) : CollectionStart → Prop
  | .installed w _ => s.ViewOK s.now w
  | .active w => s.ViewOK s.now w
  | .retained w => s.ViewOK s.now w
  | .conflict w => s.ViewOK s.now w
  | _ => True

theorem installPlan_runs (g : Good s) (hs : s.Sweeping t i log view cs) (hne : cs ≠ [])
    (hdraw : s.DrawOK t) (clean : s.Clean t 0) :
    Runs t Anything (log.installPlan view cs) (fun r u => match r with
      | .ok start => u.StartOK start
      | .error e => e.Unavailable ∨ ∃ what, e = .limitExceeded what) s := by
  refine Runs.liftBind (fun epoch hepoch => ?_) fun e _ he _ _ => .inr ⟨_, okOr_error he⟩
  have hadd := okOr_ok.1 hepoch
  have hnext : epoch.toNat = view.head.collectionEpoch.toNat + 1 := toNat_succ hadd
  refine Runs.liftBind (fun candidateBytes _ => ?_) fun e _ he _ _ => .inr (candidateBytes_error he)
  have hpos : epoch ≠ 0 := by
    rintro rfl
    simp at hnext
  refine Runs.bind (A := Fresh) (P := fun r u => match r with
      | .ok p => ∃ bytes, encodeCollectionPlan ⟨log.logId, epoch, cs⟩ log.options = .ok bytes ∧
          u.FreshPlan t log bytes p ∧
          ∀ k x, s.created k = some x → k ≠ collectionPlanKey log.incarnation p
      | .error e => e.Unavailable ∨ ∃ what, e = .limitExceeded what) le_anything g ?_ ?_
    fun _ _ _ _ h => h
  · refine Runs.liftBind (fun bytes hbytes => ?_) fun e _ he _ _ =>
      .inr (encodeCollectionPlan_error hpos hne hs.sorted he)
    refine Runs.liftBind (fun len hlen => ?_) fun e _ he _ _ => .inr ⟨_, okOr_error he⟩
    refine (createPlanAttempts_runs le_rfl (toU64_toNat (okOr_ok.1 hlen)).symm _ s g hdraw).mono ?_
    rintro (e | p) u _ h
    · exact h
    · exact ⟨bytes, hbytes, h.1, h.2⟩
  rintro p u tr gu ⟨bytes, hbytes, hfresh, hnew⟩
  have hsu := hs.mono tr.le g.inv
  have clean₁ : u.Clean t 0 := by
    refine clean.track tr ?_
    rintro _ _ ((h | ⟨_, _, h⟩) | h) <;> cases h
  obtain ⟨e1, e2, e3⟩ := hsu.log.head gu.inv hsu.head
  have hother : ∀ c ∈ cs, c.key ≠ collectionPlanKey log.incarnation p := by
    intro c hc
    obtain ⟨⟨x, hx⟩, -⟩ := hs.dead c hc
    exact hnew _ _ hx
  refine Runs.liftBind (fun candidate hcand => ?_) fun e v he _ _ => ?_
  swap
  · right
    rcases bind_error.1 he with hx | ⟨_, _, hx⟩
    · exact ⟨_, advanceGeneration_error hx⟩
    · cases hx
  have happly : (Change.install p).apply view.head = .ok candidate := by
    show (okOr (checkedAdd view.head.collectionEpoch 1) _ >>= fun epoch =>
      fenceHead view.head epoch p) = _
    rw [hadd]
    exact hcand
  have hres := Change.apply_result happly
  have hlen : p.len.toNat ≤ view.head.options.maxCollectionPlanBytes.toNat := by
    rw [← hfresh.len, e3]
    obtain ⟨⟨⟩, -, hx⟩ := bind_ok.1 hbytes
    obtain ⟨⟨⟩, hfits, hx⟩ := bind_ok.1 hx
    obtain rfl := Except.ok.inj hx
    exact ensure_ok.1 hfits
  refine Runs.attemptBind (A := Updates) le_anything gu (updateHead_runs le_rfl gu hsu.log hsu.head hres
    ⟨hsu.unfenced, hsu.unretained, hlen⟩ (hres.counted (hsu.head.counted gu.inv) (fun _ _ => nofun))
    (fun v tr' gv => ?_) ?_) ?_
  · exact (hfresh.mono tr'.le).justified gv.inv (hsu.mono tr'.le gu.inv) hbytes rfl hnext hother
  · intro p' hp' v tr' gv j i'
    obtain rfl := Change.install.inj hp'
    rw [e2]
    exact (hfresh.mono tr'.le).uninstalled gv.inv (clean₁.reads tr')
  rintro (e | (_ | next)) v tr' gv h
  · rcases h with ⟨x, rfl⟩ | ⟨-, rfl | ⟨what, rfl⟩⟩
    · exact Runs.pure fun _ _ _ => trivial
    · exact Runs.throw fun _ _ _ => .inl (.inl rfl)
    · exact Runs.throw fun _ _ _ => .inr ⟨what, rfl⟩
  · obtain ⟨j, bytes', hdec, ans, -⟩ := h
    refine Runs.attemptBind (A := Reads) le_anything gv
      (load_runs le_rfl gv (hsu.log.mono tr'.le)) ?_
    rintro (e | current) w tr₂ gw h
    · rcases h with rfl | ⟨x, rfl⟩
      · exact Runs.pure fun _ _ _ => trivial
      · exact Runs.pure fun _ _ _ => trivial
    have load : Loaded t v.now current w := h
    have hview := load.viewOK
    refine Runs.ite (fun _ => Runs.pure fun _ o _ => hview.mono o.le o.le.now) fun hother' => ?_
    refine Runs.ite (fun _ => Runs.pure fun _ _ _ => trivial) fun hchanged => ?_
    -- a newer head does not name the plan, so its installation cannot land any more
    have hle := tr'.le.trans tr₂.le
    have may : ∀ x, w.Le x → Good x →
        May t x (.submit (.delete (collectionPlanKey log.incarnation p))) := by
      intro x hx gx
      obtain ⟨m, hm, hhm⟩ := load.head
      have hh := hsu.head.mono (hle.trans hx)
      have hlt : i < m := by
        have : i < v.now := (hsu.head.mono tr'.le).lt
        rcases Nat.lt_or_ge i m with hlt | hge
        · exact hlt
        · obtain rfl : m = i := by omega
          exact absurd ((hhm.mono hx).unique hh) hchanged
      have hfresh' := hfresh.mono (hle.trans hx)
      obtain ⟨n, hn⟩ := State.body_eq.1 hfresh'.stored
      obtain ⟨sent, n', landed, hf, -⟩ := (ans.mono (tr₂.le.trans hx))
      have hplan : candidate.activePlan = some p := by
        rcases hres.activePlan with ⟨p', heq, hp'⟩ | ⟨heq, -⟩ | ⟨hne, -⟩
        · rw [hp', Change.install.inj heq]
        · cases heq
        · exact absurd rfl (hne p)
      have hinst : x.InstallFlight j i (collectionPlanKey log.incarnation p) := by
        refine ⟨_, bytes', _, view.head, candidate, p, hf, rfl, hh, hsu.unfenced, hdec, hplan, ?_⟩
        rw [hres.identity.2.1, e2]
      refine ⟨⟨by rw [hn]; rfl, .inr ⟨rfl, j, i, m, _, _, hinst, hlt, hhm.mono hx, ?_⟩⟩, trivial⟩
      intro hmap
      obtain ⟨p', hp', hkey⟩ := Option.map_eq_some_iff.1 hmap
      obtain ⟨bytes'', plan, hmatch⟩ := gx.inv.plan_body (hhm.mono hx) hp'
      rw [((hsu.log.mono (hle.trans hx)).head gx.inv (hhm.mono hx)).2.1] at hkey
      have hstored := hmatch.body
      rw [((hsu.log.mono (hle.trans hx)).head gx.inv (hhm.mono hx)).2.1, hkey,
        hfresh'.stored] at hstored
      obtain rfl := Option.some.inj hstored
      obtain ⟨h1, h2⟩ := planKey_inj hkey
      have hlen' : p'.len = p.len := UInt64.toNat_inj.1 (hmatch.len.symm.trans hfresh'.len)
      apply hother'
      rw [hp']
      cases p
      cases p'
      simp_all
    refine Runs.bind (A := Deletes) le_anything gw (cleanup_runs le_rfl gw may) ?_ nofun
    exact fun _ x tr₃ _ _ => Runs.pure fun y o _ =>
      hview.mono (tr₃.le.trans o.le) (tr₃.le.trans o.le).now
  · exact Runs.pure fun w o _ => h.2.2.mono o.le o.le.now

theorem scanLimitOf_error {maxCandidates : UInt64} (he : scanLimitOf live maxCandidates = .error e) :
    ∃ what, e = .limitExceeded what := by
  rcases bind_error.1 he with hx | ⟨_, _, hx⟩
  · exact ⟨_, okOr_error hx⟩
  rcases bind_error.1 hx with hx | ⟨_, _, hx⟩
  · exact ⟨_, okOr_error hx⟩
  rcases bind_error.1 hx with hx | ⟨_, _, hx⟩
  · exact ⟨_, okOr_error hx⟩
  · cases hx

theorem startCollectionWithLimit_runs {maxCandidates : UInt64} (g : Good s)
    (hb : s.calls[t]? = some b) (hl : s.LogOK log) (hvb : s.ViewOK b.heads view)
    (hdraw : s.DrawOK t) (clean : s.Clean t 0) :
    Runs t Anything (log.startCollectionWithLimit view maxCandidates) (fun r u => match r with
      | .ok start => u.StartOK start
      | .error e => u.StartError t s.now view e) s := by
  have hv : Viewing s log view := ⟨hl, hvb.mono (.refl s) (g.inv.calls t b hb).heads⟩
  obtain ⟨i, hi, hh⟩ := hvb.1
  have hview : ∀ u, s.Le u → u.ViewOK u.now view := fun u hle => (hv.mono hle).view
  refine Runs.ite (fun _ => Runs.throw fun _ _ _ => .inr ⟨_, rfl⟩) fun _ => ?_
  refine Runs.liftBind (fun _ _ => ?_) fun e _ he _ _ => by rw [hv.checked g.inv] at he; cases he
  refine Runs.ite (fun _ => Runs.pure fun u o _ => hview u o.le) fun hplan => ?_
  refine Runs.ite (fun _ => Runs.pure fun u o _ => hview u o.le) fun hret => ?_
  refine Runs.bind (A := Reads) le_anything g
    ((markLive_runs le_rfl g hv).and (markLive_sound le_rfl g hv)) ?_ fun e u _ _ h => .inl h.2
  rintro live u tr gu ⟨hcomplete, -⟩
  refine Runs.liftBind (fun scanLimit _ => ?_) fun e _ he _ _ => .inr (scanLimitOf_error he)
  refine Runs.bind (A := Reads) le_anything gu (admitRequest_runs le_rfl gu _) ?_ ?_
  swap
  · rintro e v - - (h | h)
    · cases h
    · exact .inl (.inl (.inl (.inl (Except.error.inj h))))
  rintro - v tr₁ gv -
  refine Runs.bind (A := Reads) le_anything gv
    (scanCandidates_runs le_rfl scanLimit [] v gv ⟨by simp [strictlySorted], nofun⟩) ?_
    fun e w _ _ h => .inl (.inl (.inl h))
  rintro ⟨cs, complete⟩ w tr₂ gw hscan
  refine Runs.ite (fun _ => Runs.throw fun _ _ _ => .inr ⟨_, rfl⟩) fun _ => ?_
  refine Runs.ite (fun _ => Runs.pure fun _ _ _ => trivial) fun hne => ?_
  have hle := (tr.le.trans tr₁.le).trans tr₂.le
  have hsweep : w.Sweeping t i log view cs := by
    refine ⟨hl.mono hle, hh.mono hle, ⟨b, hle.call hb, hi⟩, by simpa using hplan, by simpa using hret,
      hscan.sorted, fun c hc => ?_⟩
    obtain ⟨hdead, bytes, n, hcr, -⟩ := hscan.found c hc
    refine ⟨⟨_, hcr⟩, fun hr => ?_⟩
    -- what the view reaches was marked
    have hlive := hcomplete c.key
      (hr.back (tr₁.le.trans tr₂.le).body (gu.inv.headStored (hh.mono tr.le)))
    rw [hdead] at hlive
    cases hlive
  refine (installPlan_runs gw hsweep hne (hdraw.mono hle)
    (((clean.reads tr).reads tr₁).reads tr₂)).mono ?_
  rintro (e | start) x _ h
  · rcases h with h | h
    · exact .inl (.inl (.inl h))
    · exact .inr h
  · exact h

/-! ## Finishing a plan -/

theorem toChunks_go_flatten {α : Type} (n : Nat) (xs : List α) (acc₁ : Array α)
    (acc₂ : Array (List α)) :
    (List.toChunks.go n xs acc₁ acc₂).flatten = acc₂.toList.flatten ++ acc₁.toList ++ xs := by
  induction xs generalizing acc₁ acc₂ with
  | nil => simp [List.toChunks.go]
  | cons x xs ih =>
      unfold List.toChunks.go
      split
      · rw [ih]
        simp
      · rw [ih]
        simp

theorem toChunks_flatten {α : Type} (n : Nat) (xs : List α) : (xs.toChunks n).flatten = xs := by
  cases xs with
  | nil => simp [List.toChunks]
  | cons x xs =>
      cases n with
      | zero => simp [List.toChunks]
      | succ n =>
          rw [List.toChunks, toChunks_go_flatten]
          · simp
          · exact nofun

theorem mem_deleteBatches : k ∈ (deleteBatches cs).flatten ↔ ∃ c ∈ cs, c.key = k := by
  rw [deleteBatches, toChunks_flatten]
  simp

theorem deleteCandidates_runs (hA : Deletes ≤ A) :
    ∀ (batches : List (List ImmutableKey)) (report : CollectionReport) (s : State), Good s →
      (∀ k ∈ batches.flatten, ∀ u, s.Le u → Good u → May t u (.submit (.delete k))) →
      Runs t A (deleteCandidates batches report) (fun r u => match r with
        | .ok (.ok _) => ∀ k ∈ batches.flatten, u.Answered t (.delete k) s.now ()
        | _ => True) s
  | [], report, s, _, _ => Runs.pure fun _ _ _ => by simp
  | batch :: batches, report, s, g, may => by
      refine Runs.attemptBind le_rfl g (deleteImmutableBatch_runs hA g fun k hk =>
        may k (by simp [hk])) ?_
      rintro (e | _) u tr gu h
      · cases e with
        | requestDenied => exact Runs.pure fun _ _ _ => trivial
        | store x => exact Runs.pure fun _ _ _ => trivial
        | _ => exact Runs.throw fun _ _ _ => trivial
      · refine (deleteCandidates_runs hA batches _ u gu fun k hk v hv =>
          may k (List.mem_append_right _ hk) v (tr.le.trans hv)).track.mono ?_
        rintro (e | (r | r)) v gv ⟨tr', hrest⟩
        · trivial
        · trivial
        · intro k hk
          rcases List.mem_append.1 hk with hk | hk
          · exact (h k hk).mono tr'.le
          · exact (hrest k hk).later tr.le.now

/-- What call `t` needs to clear the plan `p`: it was begun on it and has been told of every
candidate. -/
structure State.Clearing (s : State) (t : Nat) (p : CollectionPlanRef) : Prop where
  call : ∃ b log view, s.calls[t]? = some b ∧ b.call = .resumeCollection log view ∧
    view.head.activePlan = some p
  deleted : ∃ i h v plan, s.HeadAt i h v ∧ h.activePlan = some p ∧ s.PlanAt h p plan ∧
    ∀ c ∈ plan.candidates, s.Deleted t i s.now c.key

theorem State.Clearing.mono (hle : s.Le s') (h : s.Clearing t p) : s'.Clearing t p := by
  obtain ⟨⟨b, log, view, hb, hcall⟩, i, hd, v, plan, hh, hp, hat, hall⟩ := h
  exact ⟨⟨b, log, view, hle.call hb, hcall⟩, i, hd, v, plan, hh.mono hle, hp, hat.mono hle,
    fun c hc => (hall c hc).mono hle hle.now⟩

theorem State.Clearing.justified {h : Head} {v : UpdateVersion} (hc : s.Clearing t p)
    (inv : Inv s) (hh : s.HeadAt i h v) (hp : h.activePlan = some p) :
    s.Justified t s.now i h .clear := by
  obtain ⟨⟨b, log, view, hb, hcall, hview⟩, n, hd, w, plan, hhn, hpn, ⟨bytes, hbody, hdec⟩, hall⟩ := hc
  obtain ⟨-, e2, e3⟩ := inv.identity hh hhn
  exact ⟨b, log, view, p, plan, hb, hcall, hview, hp, ⟨bytes, e2 ▸ hbody, e3 ▸ hdec⟩, n, hd, w, hhn,
    hpn, hall⟩

/-- The views a collector hands out at its end. -/
def State.FinishOK (s : State) : CollectionFinish → Prop
  | .complete w _ => s.ViewOK s.now w
  | .conflict w _ => s.ViewOK s.now w
  | .pending _ => True

/-- **One attempt to clear the fence.** -/
theorem clearAttempt_runs {report : CollectionReport} {again : View → Op CollectionFinish}
    (g : Good s) (hl : s.LogOK log) (hc : s.Clearing t p)
    (hh : s.HeadAt i current.head current.version) (hp : current.head.activePlan = some p)
    (hkey : k = collectionPlanKey log.incarnation p)
    (next : ∀ (w : View) (u : State) (m : Nat), s.Le u → Good u →
      u.HeadAt m w.head w.version → w.head.activePlan = some p → u.ViewOK u.now w →
      Runs t Anything (again w) (fun r u => match r with
        | .ok finish => u.FinishOK finish
        | .error _ => True) u) :
    Runs t Anything (log.clearAttempt p k report again current) (fun r u => match r with
      | .ok finish => u.FinishOK finish
      | .error _ => True) s := by
  have hinc := (hl.head g.inv hh).2.1
  -- the object of the plan goes when a newer head has no plan
  have cleanup : ∀ (w : View) (u : State) (m : Nat), s.Le u → Good u →
      u.HeadAt m w.head w.version → i ≤ m → w.head.activePlan = none → u.ViewOK u.now w →
      Runs t Anything (do cleanupCollectionPlan k; return CollectionFinish.complete w report)
        (fun r u => match r with
          | .ok finish => u.FinishOK finish
          | .error _ => True) u := by
    intro w u m hle gu hm him hnone hview
    refine Runs.bind (A := Deletes) le_anything gu (cleanup_runs le_rfl gu fun x hx gx => ?_) ?_
      fun _ _ _ _ _ => trivial
    · rw [hkey, ← hinc]
      refine gx.inv.retired (hh.mono (hle.trans hx)) hp (hm.mono hx) him ?_
      rw [hnone]
      exact nofun
    · exact fun _ x tr _ _ => Runs.pure fun y o _ =>
        hview.mono (tr.le.trans o.le) (tr.le.trans o.le).now
  refine Runs.liftBind (fun candidate hcand => ?_) fun _ _ _ _ _ => trivial
  have hres : Change.clear.Result current.head candidate := Change.apply_result hcand
  have hguard : Change.clear.Guard current.head := by
    show current.head.activePlan.isSome
    rw [hp]
    rfl
  refine Runs.attemptBind (A := Updates) le_anything g (updateHead_runs le_rfl g hl hh hres hguard
    (hres.counted (hh.counted g.inv) (fun _ _ => nofun))
    (fun u tr gu => (hc.mono tr.le).justified gu.inv (hh.mono tr.le) hp) (fun _ => nofun)) ?_
  rintro (e | (_ | updated)) u tr gu h
  · cases e with
    | store x => exact Runs.pure fun _ _ _ => trivial
    | requestDenied => exact Runs.pure fun _ _ _ => trivial
    | _ => exact Runs.throw fun _ _ _ => trivial
  · refine Runs.bind (A := Reads) le_anything gu
      (evidence_runs gu (load_runs le_rfl gu (hl.mono tr.le))) ?_ fun _ _ _ _ _ => trivial
    rintro (_ | w) v tr' gv hload
    · exact Runs.pure fun _ _ _ => trivial
    have load : Loaded t u.now w v := hload
    have hview := load.viewOK
    obtain ⟨m, hm, hhm⟩ := load.head
    have him : i ≤ m := by
      have := (hh.mono tr.le).lt
      omega
    refine Runs.ite (fun _ => Runs.pure fun _ _ _ => trivial) fun _ => ?_
    cases hw : w.head.activePlan with
    | none =>
        exact cleanup w v m (tr.le.trans tr'.le) gv hhm him hw hview
    | some active =>
        refine Runs.ite (fun _ => Runs.pure fun _ o _ => hview.mono o.le o.le.now) fun hsame => ?_
        refine Runs.ite (fun _ => Runs.throw fun _ _ _ => trivial) fun _ => ?_
        exact next w v m (tr.le.trans tr'.le) gv hhm (by rw [hw, not_not.1 hsame]) hview
  · obtain ⟨rfl, hnext, hview⟩ := h
    refine cleanup updated u (i + 1) tr.le gu hnext (by omega) ?_ hview
    rcases hres.activePlan with ⟨_, heq, -⟩ | ⟨-, hn⟩ | ⟨-, hne, -⟩
    · cases heq
    · exact hn
    · exact absurd rfl hne

theorem clearAttempts_runs {report : CollectionReport}
    (hkey : k = collectionPlanKey log.incarnation p) :
    ∀ (further : Nat) (current : View) (s : State) (i : Nat), Good s → s.LogOK log →
      s.Clearing t p → s.HeadAt i current.head current.version →
      current.head.activePlan = some p →
      Runs t Anything (log.clearAttempts p k report further current) (fun r u => match r with
        | .ok finish => u.FinishOK finish
        | .error _ => True) s
  | 0, current, s, i, g, hl, hc, hh, hp => by
      refine clearAttempt_runs g hl hc hh hp hkey fun w u m hle gu hm hw hview => ?_
      exact Runs.pure fun v o _ => hview.mono o.le o.le.now
  | further + 1, current, s, i, g, hl, hc, hh, hp => by
      refine clearAttempt_runs g hl hc hh hp hkey fun w u m hle gu hm hw hview => ?_
      exact clearAttempts_runs hkey further w u m gu (hl.mono hle) (hc.mono hle) hm hw

theorem resumeCollection_runs (g : Good s) (hb : s.calls[t]? = some b)
    (hcall : b.call = .resumeCollection log view) (hv : Viewing s log view) :
    Runs t Anything (log.resumeCollection view) (fun r u => match r with
      | .ok finish => u.FinishOK finish
      | .error _ => True) s := by
  obtain ⟨i, hi, hh⟩ := hv.view.1
  refine Runs.liftBind (fun _ _ => ?_) fun _ _ _ _ _ => trivial
  refine Runs.bind (A := Reads) le_anything g (load_runs le_rfl g hv.log) ?_
    fun _ _ _ _ _ => trivial
  intro current u tr gu load
  have hview := load.viewOK
  obtain ⟨m, hm, hhm⟩ := load.head
  have him : i ≤ m := by omega
  have hvc : Viewing u log current := ⟨hv.log.mono tr.le, hview⟩
  have hinc := (hvc.same gu.inv).2.1
  cases hc : current.head.activePlan with
  | none =>
      cases hp : view.head.activePlan with
      | none =>
          exact Runs.pure fun v o _ => hview.mono o.le o.le.now
      | some requested =>
          refine Runs.bind (A := Deletes) le_anything gu (cleanup_runs le_rfl gu fun x hx gx => ?_)
            ?_ fun _ _ _ _ _ => trivial
          · refine gx.inv.retired (hh.mono (tr.le.trans hx)) hp (hhm.mono hx) him ?_
            rw [hc]
            exact nofun
          · exact fun _ x tr' _ _ => Runs.pure fun y o _ =>
              hview.mono (tr'.le.trans o.le) (tr'.le.trans o.le).now
  | some p =>
      refine Runs.ite (fun _ => Runs.pure fun v o _ => hview.mono o.le o.le.now) fun hsame => ?_
      have hsame := not_not.1 hsame
      refine Runs.bind (A := Reads) le_anything gu (readCollectionPlan_runs le_rfl gu hvc hc) ?_
        fun _ _ _ _ _ => trivial
      intro plan v tr₁ gv hat
      refine Runs.liftBind (fun _ _ => ?_) fun _ _ _ _ _ => trivial
      have hhm₁ := hhm.mono tr₁.le
      have may : ∀ k ∈ (deleteBatches plan.candidates).flatten, ∀ w, v.Le w → Good w →
          May t w (.submit (.delete k)) := by
        intro k hk w hw gw
        obtain ⟨c, hcm, rfl⟩ := mem_deleteBatches.1 hk
        have hlisted : w.Listed current.head c.key := ⟨p, plan, hc, hat.mono hw, c, hcm, rfl⟩
        have hhw := hhm₁.mono hw
        -- what a plan lists was created before the plan
        obtain ⟨n, hn, plan', created, o⟩ := gw.inv.origin hhw hc
        obtain ⟨x, hx⟩ := o.head
        obtain ⟨-, e2, e3⟩ := gw.inv.identity hx hhw
        have hplan : plan = plan' := by
          obtain ⟨bytes, hbody, hdec⟩ := hat.mono hw
          exact State.PlanAt.unique ⟨bytes, e2 ▸ hbody, e3 ▸ hdec⟩ o.body.at'
        obtain ⟨⟨bytes, n', hcr, -⟩, -⟩ := o.candidates c (hplan ▸ hcm)
        refine ⟨⟨by rw [hcr]; rfl, .inl ⟨m, current.head, current.version, b, log, view, hhw.lt, hhw,
          hlisted, ((tr.le.trans tr₁.le).trans hw).call hb, hcall, hsame.trans hc.symm⟩⟩, trivial⟩
      refine Runs.bind (A := Deletes) le_anything gv
        (deleteCandidates_runs le_rfl _ _ v gv may) ?_ fun _ _ _ _ _ => trivial
      rintro (report | report) w tr₂ gw hdel
      · exact Runs.pure fun _ _ _ => trivial
      have hle := (tr.le.trans tr₁.le).trans tr₂.le
      have hclear : w.Clearing t p := by
        refine ⟨⟨b, log, view, hle.call hb, hcall, hsame⟩, m, current.head, current.version, plan,
          hhm₁.mono tr₂.le, hc, hat.mono tr₂.le, fun c hcm => ?_⟩
        obtain ⟨j, sent, n, landed, hf, hsent⟩ := hdel c.key (mem_deleteBatches.2 ⟨c, hcm, rfl⟩)
        have htold := ((gw.inv.flights j _ hf).told n (.ok ()) rfl).1
        exact ⟨j, sent, n, landed, hf, lt_of_lt_of_le hhm₁.lt hsent, htold⟩
      exact clearAttempts_runs (by rw [hinc]) _ current w m gw (hv.log.mono hle) hclear
        (hhm₁.mono tr₂.le) hc

end ObjectLog
