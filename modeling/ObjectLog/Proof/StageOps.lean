import ObjectLog.Proof.GraphOps

/-!
# Staging and preparing

A fresh identity belongs to the call that drew it, so a create under it is the only one.
What it creates is younger than every head the call could have been given, which puts it
out of reach of every plan up to the epoch of the call's view. A staged object is proven
up to the epoch it is stamped with, its children included.
-/

set_option linter.unusedSectionVars false

namespace ObjectLog

open Rely

variable [Blake3] {s s' u : State} {t : Nat} {A : Effect → Prop} {log : Log} {view : View}
  {b : Begun}

/-! ## Fresh identities -/

/-- Call `t` has drawn `x` and no object that is not a commit was created under it yet. -/
structure State.Unused (s : State) (t : Nat) (x : StorageId) : Prop where
  drawn : (x, t) ∈ s.ids
  uncreated : ∀ (j : Nat) (f : Flight) key bytes, s.flights[j]? = some f →
    f.req = .create key bytes → key.kind ≠ .commit → key.storageId ≠ x

/-- A create under an identity was sent by the call that drew it. -/
theorem Inv.create_owner (inv : Inv s) {j : Nat} {f : Flight} {key : ImmutableKey} {bytes : Bytes}
    (hf : s.flights[j]? = some f) (hr : f.req = .create key bytes) (hk : key.kind ≠ .commit)
    (hx : (key.storageId, t) ∈ s.ids) : f.tid = t := by
  have ok := (inv.flights j f hf).req
  rw [hr] at ok
  exact inv.owner _ _ _ (ok.2.1 hk) hx

/-- Reads leave an unused identity unused. -/
theorem State.Unused.track {x : StorageId} (h : s.Unused t x) (tr : Track t Reads s u)
    (inv : Inv u) : u.Unused t x where
  drawn := tr.le.id h.drawn
  uncreated := by
    rintro j f key bytes hf hr hk rfl
    have ht := inv.create_owner hf hr hk (tr.le.id h.drawn)
    rcases Nat.lt_or_ge j s.flights.length with hlt | hge
    · obtain ⟨g, hg⟩ : ∃ g, s.flights[j]? = some g := ⟨_, List.getElem?_eq_getElem hlt⟩
      obtain ⟨f', hf', -, hreq, -⟩ := tr.le.flight hg
      obtain rfl := Option.some.inj (hf'.symm.trans hf)
      exact h.uncreated j g key bytes hg (hreq.symm.trans hr) hk rfl
    · have := tr.flights j f hge hf ht
      rw [hr] at this
      exact this

theorem newStorageId_runs (hA : A .storageId) (hd : s.DrawOK t) :
    Runs t A newStorageId (fun r u => ∃ x, r = .ok x ∧ u.Unused t x) s := by
  refine Runs.ask fun u o g => ⟨⟨hd.mono o.le, hA⟩, fun x v hx gv w o' gw => ⟨x, rfl, ?_⟩⟩
  obtain ⟨hfresh, rfl⟩ := hx
  refine State.Unused.track ⟨?_, ?_⟩ o'.track gw.inv
  · simp [drawId]
  · rintro j f key bytes hf hr hk rfl
    have ok := (g.inv.flights j f hf).req
    rw [hr] at ok
    exact hfresh _ (ok.2.1 hk)

/-- A create under an unused identity. -/
theorem State.Unused.may {key : ImmutableKey} {bytes : Bytes} (h : s.Unused t key.storageId)
    (hd : Digest.of bytes = key.digest) (hk : key.kind ≠ .commit) :
    May t s (.submit (.create key bytes)) :=
  ⟨⟨hd, fun _ => h.drawn, fun hc => absurd hc hk⟩,
    fun _ j f bytes' hf hr => h.uncreated j f key bytes' hf hr hk rfl⟩

/-- **An object created under an identity of a call is in no plan up to the epoch of a view
the call was given.** -/
theorem Inv.created_avoids (inv : Inv s) (hb : s.calls[t]? = some b)
    (hv : s.ViewOK b.heads view) {k : ImmutableKey} {bytes : Bytes} (hid : (k.storageId, t) ∈ s.ids)
    (hk : s.body k = some bytes) : s.Avoids view.head.collectionEpoch.toNat k := by
  obtain ⟨n, hc⟩ := State.body_eq.1 hk
  obtain ⟨q, b', hq, hb', hn⟩ := (inv.created k bytes n hc).owner
  obtain rfl := inv.owner _ _ _ hq hid
  obtain rfl := Option.some.inj (hb'.symm.trans hb)
  obtain ⟨⟨i, hi, hh⟩, -⟩ := hv
  exact inv.fresh_avoids hh hc (by omega)

/-- What a new object is. -/
structure State.Fresh (s : State) (t : Nat) (log : Log) (kind : ObjectKind) (bytes : Bytes)
    (subtree : UInt64) (object : ObjectRef) : Prop where
  kind : object.kind = kind
  digest : Digest.of bytes = object.digest
  len : bytes.length = object.len.toNat
  subtree : object.subtreeObjects = subtree
  id : (object.storageId, t) ∈ s.ids
  stored : s.body (objectKey log.incarnation object) = some bytes

theorem State.Fresh.mono {kind : ObjectKind} {bytes : Bytes} {subtree : UInt64}
    {object : ObjectRef} (hle : s.Le s') (h : s.Fresh t log kind bytes subtree object) :
    s'.Fresh t log kind bytes subtree object :=
  { h with id := hle.id h.id, stored := hle.body _ _ h.stored }

theorem createFresh_runs {kind : ObjectKind} {bytes : Bytes} {len subtree : UInt64}
    {blocked : Option (List CollectionCandidate)} (hA : Fresh ≤ A)
    (hlen : bytes.length = len.toNat) :
    ∀ (attempts : Nat) (s : State), Good s → s.DrawOK t →
      Runs t A (log.createFresh kind bytes len subtree blocked attempts) (fun r u => match r with
        | .ok object => u.Fresh t log kind bytes subtree object
        | .error e => e.Unavailable ∨ ∃ what, e = .limitExceeded what) s
  | 0, s, _, _ => Runs.throw fun _ _ _ => .inr ⟨_, rfl⟩
  | attempts + 1, s, g, hd => by
      refine Runs.bind le_rfl g (newStorageId_runs (hA _ (.inr rfl)) hd) ?_ nofun
      rintro x u tr gu ⟨x', hx', hu⟩
      obtain rfl := Except.ok.inj hx'
      have again : ∀ v, Track t A u v → Good v →
          Runs t A (log.createFresh kind bytes len subtree blocked attempts) (fun r u => match r with
            | .ok object => u.Fresh t log kind bytes subtree object
            | .error e => e.Unavailable ∨ ∃ what, e = .limitExceeded what) v := fun v tr' gv =>
        createFresh_runs hA hlen attempts v gv (hd.mono (tr.le.trans tr'.le))
      refine Runs.ite (fun _ => again u (.refl t A u) gu) fun _ => ?_
      refine Runs.bind le_rfl gu (create_runs (reads_fresh.trans hA)
        (hA _ (.inl (.inr ⟨_, _, rfl⟩))) gu fun v tr' gv => ?_) ?_ ?_
      · exact (hu.track tr' gv.inv).may rfl (objectKey_kind _ _)
      · rintro created v tr' gv h
        refine Runs.ite (fun hc => ?_) fun _ => again v tr' gv
        rcases h with ⟨e, he, -⟩ | ⟨c, hc', hbody⟩
        · cases he
        · obtain rfl := Except.ok.inj hc'
          exact Runs.pure fun w o _ => State.Fresh.mono o.le
            ⟨rfl, rfl, hlen, rfl, tr'.le.id hu.drawn, hbody hc⟩
      · rintro e v - - (⟨e', he', hun⟩ | ⟨_, he', -⟩)
        · exact .inl (Except.error.inj he' ▸ hun)
        · cases he'

theorem createFreshObject_runs {kind : ObjectKind} {bytes : Bytes} {subtree : UInt64}
    {blocked : Option (List CollectionCandidate)} (hA : Fresh ≤ A) (g : Good s) (hd : s.DrawOK t) :
    Runs t A (log.createFreshObject kind bytes subtree blocked) (fun r u => match r with
      | .ok object => u.Fresh t log kind bytes subtree object
      | .error e => e.Unavailable ∨ ∃ what, e = .limitExceeded what) s := by
  refine Runs.liftBind (fun len hlen => ?_) fun e _ he _ _ => .inr ⟨_, okOr_error he⟩
  exact createFresh_runs hA (toU64_toNat (okOr_ok.1 hlen)).symm _ s g hd

/-! ## Staged objects -/

theorem validateStagedObject_ok {st : StagedObject} {v : Unit} :
    log.validateStagedObject view st = .ok v ↔
      st.domain = log.stagingDomain ∧ st.collectionEpoch = view.head.collectionEpoch := ensure_ok

theorem forM_ok {α : Type} {f : α → Except Error Unit} {xs : List α} {u : Unit} :
    xs.forM f = .ok u ↔ ∀ x ∈ xs, f x = .ok () := by
  induction xs with
  | nil => simp [pure, Except.pure]
  | cons x xs ih =>
      rw [show (x :: xs).forM f = (f x >>= fun _ => xs.forM f) from rfl, bind_ok]
      constructor
      · rintro ⟨⟨⟩, hx, hxs⟩ y hy
        rcases List.mem_cons.1 hy with rfl | hy
        · exact hx
        · exact ih.1 hxs y hy
      · exact fun h => ⟨(), h x (by simp), ih.2 fun y hy => h y (by simp [hy])⟩

theorem validateStagedObjects_ok {objects : List StagedObject} {v : Unit} :
    log.validateStagedObjects view objects = .ok v ↔ log.validateView view = .ok () ∧
      objects.length ≤ log.options.maxObjectRefs.toNat ∧
      ∀ st ∈ objects, st.domain = log.stagingDomain ∧
        st.collectionEpoch = view.head.collectionEpoch := by
  simp only [Log.validateStagedObjects, bind_ok, ensure_ok, exists_const, forM_ok,
    validateStagedObject_ok]
  constructor
  · rintro ⟨⟨⟩, h1, h2, h3⟩
    exact ⟨h1, h2, h3⟩
  · rintro ⟨h1, h2, h3⟩
    exact ⟨(), h1, h2, h3⟩

/-- A staged object of the epoch of a view is proven for the view. -/
theorem State.StagedOK.proven {st : StagedObject} (h : s.StagedOK st) (inv : Inv s)
    (hv : Viewing s log view) (he : st.collectionEpoch = view.head.collectionEpoch) :
    s.Proven view.head view.head.collectionEpoch.toNat st.object := by
  obtain ⟨h₀, v₀, hh₀, hp⟩ := h
  obtain ⟨i, hh⟩ := hv.head
  obtain ⟨-, e2, e3⟩ := inv.identity hh₀ hh
  rw [he] at hp
  exact hp.congr e2 e3

theorem State.Proven.staged {r : ObjectRef} (inv : Inv s) (hv : Viewing s log view)
    (hp : s.Proven view.head view.head.collectionEpoch.toNat r) :
    s.StagedOK (log.stagedObject view r) := by
  obtain ⟨i, hh⟩ := hv.head
  obtain ⟨h₀, v₀, hh₀⟩ := inv.headAt hv.log.pos
  obtain ⟨-, e2, e3⟩ := inv.identity hh hh₀
  exact ⟨h₀, v₀, hh₀, hp.congr e2 e3⟩

theorem counted_of_pos {r : ObjectRef} (hk : r.kind ≠ .blob) (hs : 0 < r.subtreeObjects.toNat) :
    r.Counted := by
  have h0 : r.subtreeObjects ≠ 0 := by
    intro h
    rw [h] at hs
    simp at hs
  simp [ObjectRef.Counted, ObjectRef.validateCount, hk, h0]

/-- A new blob is proven. -/
theorem State.Fresh.blob {bytes : Bytes} {object : ObjectRef}
    (h : s.Fresh t log .blob bytes 1 object) (inv : Inv s) (hb : s.calls[t]? = some b)
    (hv : Viewing s log view) (hvb : s.ViewOK b.heads view)
    (hfits : bytes.length ≤ log.options.maxObjectBytes.toNat) :
    s.Proven view.head view.head.collectionEpoch.toNat object := by
  obtain ⟨-, e2, e3⟩ := hv.same inv
  have hm : Matches s.body view.head.incarnation view.head.options object bytes := by
    refine ⟨e2 ▸ h.stored, h.digest, h.len, ?_, ?_⟩
    · simp [ObjectRef.Counted, ObjectRef.validateCount, h.kind, h.subtree]
    · rw [e3, UInt64.le_iff_toNat_le, ← h.len]
      exact hfits
  refine ⟨.blob h.kind hm, fun k hu => ?_⟩
  cases hu with
  | self => exact inv.created_avoids hb hvb h.id hm.stored
  | child kind => rw [h.kind] at kind; cases kind

/-- A new node over proven children is proven. -/
theorem State.Fresh.node {bytes : Bytes} {subtree : UInt64} {object : ObjectRef} {node : Node}
    (h : s.Fresh t log .node bytes subtree object) (inv : Inv s) (hb : s.calls[t]? = some b)
    (hv : Viewing s log view) (hvb : s.ViewOK b.heads view)
    (hs : subtreeObjects node.children = .ok subtree)
    (he : encodeNode node log.options = .ok bytes)
    (hc : ∀ c ∈ node.children, s.Proven view.head view.head.collectionEpoch.toNat c) :
    s.Proven view.head view.head.collectionEpoch.toNat object := by
  obtain ⟨-, e2, e3⟩ := hv.same inv
  have hsub : subtreeObjects node.children = .ok object.subtreeObjects := by rw [h.subtree, hs]
  have hdec : decodeNode bytes view.head.options = .ok node := by
    rw [e3]
    exact decodeNode_encodeNode he fun c hcm => e3 ▸ (hc c hcm).stored.childOk
  have hm : Matches s.body view.head.incarnation view.head.options object bytes := by
    refine ⟨e2 ▸ h.stored, h.digest, h.len, counted_of_pos (by simp [h.kind]) ?_, ?_⟩
    · have := (subtreeObjects_ok hsub).1
      omega
    · obtain ⟨rfl, -, -, hmax⟩ := encodeNode_eq he
      rw [e3, UInt64.le_iff_toNat_le, ← h.len]
      exact hmax
  refine ⟨.node h.kind hm hdec hsub fun c hcm => (hc c hcm).stored, fun k hu => ?_⟩
  cases hu with
  | self => exact inv.created_avoids hb hvb h.id hm.stored
  | child _ hbytes hd hcm hu' =>
      obtain rfl := Option.some.inj (hm.stored.symm.trans hbytes)
      obtain rfl := Except.ok.inj (hdec.symm.trans hd)
      exact (hc _ hcm).avoids k hu'

theorem putObject_runs {bytes : Bytes} (hA : Fresh ≤ A) (g : Good s) (hb : s.calls[t]? = some b)
    (hd : s.DrawOK t) (hl : s.LogOK log) (hvb : s.ViewOK b.heads view) :
    Runs t A (log.putObject view bytes) (fun r u => match r with
      | .ok st => u.StagedOK st
      | .error _ => True) s := by
  have hv : Viewing s log view := ⟨hl, hvb.mono (.refl s) (g.inv.calls t b hb).heads⟩
  refine Runs.liftBind (fun _ _ => ?_) fun _ _ _ _ _ => trivial
  refine Runs.liftBind (fun _ hfits => ?_) fun _ _ _ _ _ => trivial
  refine Runs.bind le_rfl g (activeCollectionCandidates_runs (reads_fresh.trans hA) g hv) ?_
    fun _ _ _ _ _ => trivial
  rintro blocked u tr gu -
  refine Runs.bind le_rfl gu (createFreshObject_runs hA gu (hd.mono tr.le)) ?_
    fun _ _ _ _ _ => trivial
  rintro object v tr' gv h
  have hle := tr.le.trans tr'.le
  refine Runs.pure fun w o gw => State.StagedOK.mono o.le ?_
  refine State.Proven.staged gv.inv (hv.mono hle) ?_
  exact State.Fresh.blob h gv.inv (hle.call hb) (hv.mono hle) (hvb.mono hle le_rfl)
    (ensure_ok.1 hfits)

theorem putNode_runs {payload : Bytes} {children : List StagedObject} (hA : Fresh ≤ A) (g : Good s)
    (hb : s.calls[t]? = some b) (hd : s.DrawOK t) (hl : s.LogOK log) (hvb : s.ViewOK b.heads view)
    (hc : ∀ c ∈ children, s.StagedOK c) :
    Runs t A (log.putNode view payload children) (fun r u => match r with
      | .ok st => u.StagedOK st
      | .error _ => True) s := by
  have hv : Viewing s log view := ⟨hl, hvb.mono (.refl s) (g.inv.calls t b hb).heads⟩
  refine Runs.liftBind (fun _ hval => ?_) fun _ _ _ _ _ => trivial
  obtain ⟨-, -, hst⟩ := validateStagedObjects_ok.1 hval
  refine Runs.liftBind (fun subtree hs => ?_) fun _ _ _ _ _ => trivial
  refine Runs.liftBind (fun bytes he => ?_) fun _ _ _ _ _ => trivial
  refine Runs.bind le_rfl g (activeCollectionCandidates_runs (reads_fresh.trans hA) g hv) ?_
    fun _ _ _ _ _ => trivial
  rintro blocked u tr gu -
  refine Runs.bind le_rfl gu (createFreshObject_runs hA gu (hd.mono tr.le)) ?_
    fun _ _ _ _ _ => trivial
  rintro object v tr' gv h
  have hle := tr.le.trans tr'.le
  refine Runs.pure fun w o gw => State.StagedOK.mono o.le ?_
  refine State.Proven.staged gv.inv (hv.mono hle) ?_
  refine State.Fresh.node h gv.inv (hle.call hb) (hv.mono hle) (hvb.mono hle le_rfl) hs he ?_
  intro c hcm
  obtain ⟨st, hm, rfl⟩ := List.mem_map.1 hcm
  exact State.StagedOK.proven ((hc st hm).mono hle) gv.inv (hv.mono hle) (hst st hm).2

theorem stageObjects_runs {objects : List ObjectRef} (hA : Reads ≤ A) (g : Good s)
    (hv : Viewing s log view) :
    Runs t A (log.stageObjects view objects) (fun r u => match r with
      | .ok sts => ∀ st ∈ sts, u.StagedOK st
      | .error _ => True) s := by
  refine Runs.liftBind (fun _ _ => ?_) fun _ _ _ _ _ => trivial
  refine Runs.liftBind (fun _ _ => ?_) fun _ _ _ _ _ => trivial
  refine Runs.bind le_rfl g (verifyPublicationDependencies_runs hA g hv) ?_
    fun _ _ _ _ _ => trivial
  rintro blocked u tr gu ⟨-, hp⟩
  refine Runs.pure fun v o gv st hst => ?_
  obtain ⟨object, ho, rfl⟩ := List.mem_map.1 hst
  exact ((hp object ho).staged gu.inv (hv.mono tr.le)).mono o.le

/-- The children of a staged node are staged. -/
theorem readStagedNode_runs {node : StagedObject} (hA : Reads ≤ A) (g : Good s)
    (hv : Viewing s log view) (hn : s.StagedOK node) :
    Runs t A (log.readStagedNode view node) (fun r u => match r with
      | .ok out => ∀ st ∈ out.2, u.StagedOK st
      | .error _ => True) s := by
  refine Runs.liftBind (fun _ _ => ?_) fun _ _ _ _ _ => trivial
  refine Runs.liftBind (fun _ hval => ?_) fun _ _ _ _ _ => trivial
  refine Runs.bind le_rfl g (readNode_runs hA g hv node.object) ?_ fun _ _ _ _ _ => trivial
  rintro n u tr gu ⟨hkind, bytes, hf, hd, -⟩
  refine Runs.pure fun v o gv st hst => ?_
  obtain ⟨c, hc, rfl⟩ := List.mem_map.1 hst
  have hv₁ := hv.mono tr.le
  obtain ⟨-, e2, e3⟩ := hv₁.same gu.inv
  have hp := (hn.mono tr.le).proven gu.inv hv₁ (validateStagedObject_ok.1 hval).2
  refine ((hp.child hkind ?_ (e3 ▸ hd) hc).staged gu.inv hv₁).mono o.le
  rw [e2]
  exact hf.1.stored

/-- The dependencies of a record of the view are staged. -/
theorem State.RecordOK.staged {c : CommitRef} {record : CommitRecord} (inv : Inv s)
    (hv : Viewing s log view) (hc : c ∈ view.head.tail) (hr : s.RecordOK view.head c record) :
    ∀ st ∈ log.recordProofs view record.objects, s.StagedOK st := by
  intro st hst
  obtain ⟨o, ho, rfl⟩ := List.mem_map.1 hst
  obtain ⟨commit, b, rfl⟩ := hr
  obtain ⟨i, hh⟩ := hv.head
  refine State.Proven.staged inv hv ⟨b.objects o ho, fun k hu => ?_⟩
  exact inv.reaches_avoids hh (.commitObject hc b.stored b.decode ho hu)

theorem checkpoint_staged {c : CheckpointRef} {ck : Checkpoint} (inv : Inv s)
    (hv : Viewing s log view) (hc : view.head.checkpoint = some c)
    (b : CheckpointBody s.body view.head c ck) :
    ∀ st ∈ log.recordProofs view ck.objects, s.StagedOK st := by
  intro st hst
  obtain ⟨o, ho, rfl⟩ := List.mem_map.1 hst
  obtain ⟨i, hh⟩ := hv.head
  refine State.Proven.staged inv hv ⟨b.objects o ho, fun k hu => ?_⟩
  exact inv.reaches_avoids hh (.checkpointObject hc b.stored b.decode ho hu)

theorem tailRecord_runs (hA : Reads ≤ A) (g : Good s) (hv : Viewing s log view) (index : Nat) :
    Runs t A (log.tailRecord view index) (fun r u => match r with
      | .ok item => (∃ c, view.head.tail[index]? = some c ∧ u.RecordOK view.head c item.record) ∧
          ∀ st ∈ item.proofs, u.StagedOK st
      | .error e => index < view.head.tail.length → u.ViewError view e) s := by
  refine Runs.bind le_rfl g (readTailRecord_runs hA g hv index) ?_ fun _ _ _ _ h => h
  rintro record u tr gu ⟨c, hc, hr⟩
  refine Runs.pure fun v o gv => ⟨⟨c, hc, hr.mono o.le⟩, fun st hst => ?_⟩
  exact (State.RecordOK.staged gu.inv (hv.mono tr.le) (List.mem_of_getElem? hc) hr st hst).mono o.le

/-! ## Preparing -/

theorem prepare_runs {transactionId : TransactionId} {operation result : Bytes}
    {objects : List StagedObject} (hA : Fresh ≤ A) (g : Good s) (hb : s.calls[t]? = some b)
    (hcall : b.call = .prepare log view transactionId operation result objects)
    (hvb : s.ViewOK b.heads view) :
    Runs t A (log.prepare view transactionId operation result objects) (fun r u => match r with
      | .ok p => u.PreparedOK u.now p
      | .error _ => True) s := by
  refine Runs.liftBind (fun _ h1 => ?_) fun _ _ _ _ _ => trivial
  refine Runs.liftBind (fun n h2 => ?_) fun _ _ _ _ _ => trivial
  refine Runs.liftBind (fun _ h3 => ?_) fun _ _ _ _ _ => trivial
  refine Runs.liftBind (fun _ h4 => ?_) fun _ _ _ _ _ => trivial
  have hd : s.DrawOK t := by
    refine ⟨b, hb, fun log' view' tx op res objs hc => ?_⟩
    rw [hcall] at hc
    obtain ⟨rfl, rfl, rfl, rfl, rfl, rfl⟩ := Call.prepare.inj hc
    exact ⟨h1, ⟨n, h2⟩, h3, h4⟩
  refine Runs.bind le_rfl g (newStorageId_runs (hA _ (.inr rfl)) hd) ?_ nofun
  rintro x u tr gu ⟨x', hx', hu⟩
  obtain rfl := Except.ok.inj hx'
  refine Runs.pure fun v o gv => ?_
  have hle := tr.le.trans o.le
  refine ⟨hvb.mono hle ((g.inv.calls t b hb).heads.trans hle.now), t, log, _,
    ⟨⟨b, objects, hle.call hb, hcall, rfl⟩, o.le.id hu.drawn⟩, rfl, rfl, rfl, rfl, rfl, .refl _⟩

end ObjectLog
