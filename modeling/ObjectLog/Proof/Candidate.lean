import ObjectLog.Proof.History
import ObjectLog.Proof.UpdateOps

/-!
# Candidates

A candidate is fixed when it is prepared: its identity is drawn once, so the reference, the
body and the publication base it was prepared on are functions of the identity. Whoever
publishes it later, from memory or from a token, appends the same reference on a head with
that base. All that is left to show at publication is that the body has been created.
-/

set_option linter.unusedSectionVars false

namespace ObjectLog

open Rely

variable [Blake3] {s s' u : State} {t L : Nat} {log : Log} {ref : CommitRef}
  {p p₀ : PreparedCommit} {h : Head} {v : UpdateVersion} {i : Nat}

/-! ## The checks of `prepare` -/

/-- The check of the dependencies looks at the limits of the handle only. -/
theorem validateDependencies_congr {log' : Log} (ho : log'.options = log.options)
    (objects : List ObjectRef) :
    log'.validateDependencies objects = log.validateDependencies objects := by
  unfold Log.validateDependencies Log.publicationObjects
  rw [ho]

theorem validateDependencies_ok {objects : List ObjectRef} {x : Unit} :
    log.validateDependencies objects = .ok x ↔
      objects.length ≤ log.options.maxObjectRefs.toNat ∧
      (∀ o ∈ objects, o.kind ≠ .checkpoint) ∧ ∃ n, log.publicationObjects objects = .ok n := by
  simp only [Log.validateDependencies, bind_ok, ensure_ok, pure, Except.pure]
  constructor
  · rintro ⟨⟨⟩, hlen, ⟨⟩, hkind, n, hn, -⟩
    exact ⟨hlen, hkind, n, hn⟩
  · rintro ⟨hlen, hkind, n, hn⟩
    exact ⟨(), hlen, (), hkind, n, hn, trivial⟩

theorem validateCommitPosition_ok {view : View} {id : TransactionId} {x : Unit} :
    log.validateCommitPosition view id = .ok x ↔
      view.head.tail.length < log.options.maxTailEntries.toNat ∧
      id ∉ view.head.transactionIds := by
  simp only [Log.validateCommitPosition, bind_ok, ensure_ok, Head.transactionIds]
  constructor
  · rintro ⟨⟨⟩, hlen, hid⟩
    refine ⟨hlen, fun hmem => ?_⟩
    obtain ⟨c, hc, he⟩ := List.mem_map.1 hmem
    refine hid c ?_ he
    simpa [or_comm] using hc
  · rintro ⟨hlen, hid⟩
    refine ⟨(), hlen, fun c hc he => hid (List.mem_map.2 ⟨c, ?_, he⟩)⟩
    simpa [or_comm] using hc

/-- What the call that prepared a candidate has been given and has checked. -/
structure State.PreparedBy (s : State) (q : Nat) (log : Log) (p : PreparedCommit) : Prop where
  handle : s.LogOK log
  begun : ∃ b, s.calls[q]? = some b ∧ s.ViewOK b.heads p.view
  proven : ∀ o ∈ p.objects, s.Proven p.view.head p.view.head.collectionEpoch.toNat o
  sizes : log.validatePreparedSizes p.operation p.result = .ok ()
  position : log.validateCommitPosition p.view p.transactionId = .ok ()
  dependencies : log.validateDependencies p.objects = .ok ()

theorem State.Prepared.preparedBy {q : Nat} (hp : s.Prepared q log p) (inv : Inv s) :
    s.PreparedBy q log p := by
  obtain ⟨⟨b, objects, hb, hcall, hobjs⟩, hid⟩ := hp
  have args := (inv.calls q b hb).args
  rw [hcall] at args
  have hlog : s.LogOK log := args (.log log) (by simp [Call.args])
  have hview : s.ViewOK b.heads p.view := args (.view p.view) (by simp [Call.args])
  have hstaged : ∀ st ∈ objects, s.StagedOK st := fun st hst =>
    args (.staged st) (by simp [Call.args, hst])
  obtain ⟨b', hb', checked⟩ := inv.ids _ _ hid
  obtain rfl := Option.some.inj (hb'.symm.trans hb)
  obtain ⟨hval, ⟨n, hn⟩, hsize, hpos⟩ := checked _ _ _ _ _ _ hcall
  obtain ⟨-, hlen, hst⟩ := validateStagedObjects_ok.1 hval
  have hv : Viewing s log p.view := ⟨hlog, hview.mono (.refl s) (inv.calls q _ hb).heads⟩
  have hproven : ∀ o ∈ p.objects, s.Proven p.view.head p.view.head.collectionEpoch.toNat o := by
    intro o ho
    rw [hobjs] at ho
    obtain ⟨st, hmem, rfl⟩ := List.mem_map.1 ho
    exact (hstaged st hmem).proven inv hv (hst st hmem).2
  refine ⟨hlog, ⟨_, hb, hview⟩, hproven, hsize, hpos, validateDependencies_ok.2 ⟨?_, ?_, ?_⟩⟩
  · rw [hobjs, List.length_map]
    exact hlen
  · exact fun o ho => (hproven o ho).stored.kind_ne
  · rw [hobjs]
    exact ⟨n, hn⟩

/-! ## Candidates -/

/-- `ref` is the reference of the candidate that was prepared as `p`. -/
def State.Candidate (s : State) (ref : CommitRef) (p : PreparedCommit) : Prop :=
  ∃ q log bytes, s.Prepared q log p ∧ log.encodePrepared p = .ok (ref, bytes)

theorem State.Candidate.mono (hle : s.Le s') (h : s.Candidate ref p) : s'.Candidate ref p := by
  obtain ⟨q, log, bytes, hp, he⟩ := h
  exact ⟨q, log, bytes, hp.mono hle, he⟩

/-- The view a candidate was prepared on is a function of its reference. -/
theorem State.Candidate.unique (inv : Inv s) (a : s.Candidate ref p) (b : s.Candidate ref p₀) :
    p.view = p₀.view := by
  obtain ⟨q, log, bytes, hp, he⟩ := a
  obtain ⟨q', log', bytes', hp', he'⟩ := b
  have hid : p.storageId = p₀.storageId := by
    rw [← (encodePrepared_ok he).2.2.2.2.1, ← (encodePrepared_ok he').2.2.2.2.1]
  exact (inv.prepared_unique hp hp' hid).2.2.1

theorem State.Candidate.head (h : s.Candidate ref p) (inv : Inv s) :
    (∃ i, s.HeadAt i p.view.head p.view.version) ∧ ref.sequence = p.view.head.nextSequence := by
  obtain ⟨q, log, bytes, hp, he⟩ := h
  obtain ⟨-, -, hseq, -⟩ := encodePrepared_ok he
  obtain ⟨b, -, ⟨i, -, hh⟩, -⟩ := (hp.preparedBy inv).begun
  exact ⟨⟨i, hh⟩, hseq⟩

/-- A handle computes for a candidate what the handle that prepared it would. -/
theorem encodePrepared_congr {log' : Log} {p' : PreparedCommit} (h1 : log'.logId = log.logId)
    (h2 : log'.incarnation = log.incarnation) (h3 : log'.options = log.options)
    (h4 : p'.transactionId = p.transactionId) (h5 : p'.storageId = p.storageId)
    (h6 : p'.operation = p.operation) (h7 : p'.result = p.result) (h8 : p'.objects = p.objects)
    (hs : SameBase p.view.head p'.view.head) :
    log'.encodePrepared p' = log.encodePrepared p ∧
      log'.preparedCommit p' = log.preparedCommit p := by
  have htip := hs.tip
  obtain ⟨-, -, -, hnext, -⟩ := sameBase_iff.1 hs
  have hc : log'.preparedCommit p' = log.preparedCommit p := by
    unfold Log.preparedCommit
    rw [h1, h2, h4, h6, h7, h8, htip]
  refine ⟨?_, hc⟩
  unfold Log.encodePrepared
  rw [hc, h3, h4, h5, hnext]

/-- What a holder of a candidate can compute. -/
theorem State.PreparedOK.candidate (hp : s.PreparedOK L p) (hl : s.LogOK log) (inv : Inv s) :
    ∃ q log₀ p₀, s.Prepared q log₀ p₀ ∧ SameBase p₀.view.head p.view.head ∧
      p.storageId = p₀.storageId ∧ p.objects = p₀.objects ∧
      log.incarnation = log₀.incarnation ∧
      log.encodePrepared p = log₀.encodePrepared p₀ ∧
      log.preparedCommit p = log₀.preparedCommit p₀ := by
  obtain ⟨⟨⟨i, hi, hh⟩, -⟩, q, log₀, p₀, hp₀, h1, h2, h3, h4, h5, hs⟩ := hp
  have e := hl.head inv hh
  have e₀ := (hp₀.preparedBy inv).handle.head inv hh
  have hid : log.logId = log₀.logId := e.1.symm.trans e₀.1
  have hinc : log.incarnation = log₀.incarnation := e.2.1.symm.trans e₀.2.1
  have hc := encodePrepared_congr hid hinc (e.2.2.symm.trans e₀.2.2) h1 h2 h3 h4 h5 hs
  exact ⟨q, log₀, p₀, hp₀, hs, h2, h5, hinc, hc⟩

/-! ## Publication of a candidate -/

/-- The body a candidate needs. -/
theorem State.Prepared.commitBody {q : Nat} {bytes : Bytes} (hp : s.Prepared q log p)
    (inv : Inv s) (he : log.encodePrepared p = .ok (ref, bytes))
    (hb : s.body (commitKey log.incarnation ref) = some bytes) (hh : s.HeadAt i h v) :
    CommitBody s.body h ref (log.preparedCommit p) := by
  have d := hp.preparedBy inv
  obtain ⟨b, hcall, ⟨k, hk, hhk⟩, -⟩ := d.begun
  obtain ⟨rfl, hfits, -, htx, -, hdig, hlen⟩ := encodePrepared_ok he
  obtain ⟨e1, e2, e3⟩ := d.handle.head inv hh
  obtain ⟨hop, hres⟩ := validatePreparedSizes_ok.1 d.sizes
  refine ⟨e2 ▸ hb, hdig.symm, hlen.symm, ?_, e1.symm, e2.symm, htx.symm, e3 ▸ hop, e3 ▸ hres, ?_, ?_⟩
  · rw [UInt64.le_iff_toNat_le, hlen, e3]
    exact hfits
  · intro log' ho
    rw [validateDependencies_congr (ho.trans e3)]
    exact d.dependencies
  · intro o hobj
    have hs := (d.proven o hobj).stored
    obtain ⟨-, f2, f3⟩ := inv.identity hhk hh
    rw [f2, f3]
    exact hs

/-- **A candidate whose body exists may be appended to every head with its base.** -/
theorem State.Prepared.ready {q : Nat} {bytes : Bytes} {b : Begun} (hp : s.Prepared q log p)
    (inv : Inv s) (he : log.encodePrepared p = .ok (ref, bytes))
    (hb : s.body (commitKey log.incarnation ref) = some bytes) (hh : s.HeadAt i h v)
    (hs : SameBase p.view.head h) (hcall : s.calls[t]? = some b)
    (htarget : b.call.target = some ref) (L : Nat) :
    (Change.append ref).Guard h ∧ s.Justified t L i h (.append ref) := by
  have d := hp.preparedBy inv
  obtain ⟨b₀, hb₀, hview⟩ := d.begun
  obtain ⟨rfl, hfits, hseq, htx, hid, -, -⟩ := encodePrepared_ok he
  obtain ⟨e1, e2, e3⟩ := d.handle.head inv hh
  obtain ⟨-, -, -, s4, s5, s6, s7, s8, -⟩ := sameBase_iff.1 hs
  obtain ⟨hroom, hnew⟩ := validateCommitPosition_ok.1 d.position
  have hbody := hp.commitBody inv he hb hh
  refine ⟨⟨?_, hseq.trans s4, ?_⟩, ⟨b, hcall, htarget⟩, ?_, q, log, p, hp, he, hs, hbody, ?_⟩
  · rw [← s6, e3]
    exact hroom
  · rw [htx]
    unfold Head.transactionIds at hnew ⊢
    rw [← s6, ← s7]
    exact hnew
  · -- the body is younger than the view
    have hdrawn : (ref.storageId, q) ∈ s.ids := hid ▸ hp.id
    rw [← s8, e2]
    exact inv.created_avoids hb₀ hview hdrawn hb
  · intro o ho
    obtain ⟨k, hk, hhk⟩ := hview.1
    obtain ⟨-, f2, f3⟩ := inv.identity hhk hh
    rw [← s8]
    exact (d.proven o ho).congr f2 f3

/-- The head that a candidate was appended to had its base. -/
theorem Inv.appended_base (inv : Inv s) {n : Nat} (hn : n < s.now) (hc : s.Candidate ref p)
    (hm : ref ∈ s.historyAt n) : ∃ i h v, i < n ∧ s.HeadAt i h v ∧ SameBase p.view.head h ∧
      ref ∈ s.historyAt (i + 1) := by
  obtain ⟨i, h, v, h', v', t, hi, hh, hh', hr⟩ := inv.appended_link hn hm
  obtain ⟨-, -, q, log, p', hp', he', hs, -⟩ := hr.justified
  refine ⟨i, h, v, hi, hh, ?_, inv.mem_history_append hh hh' hr.result⟩
  rw [hc.unique inv ⟨q, log, _, hp', he'⟩]
  exact hs

/-- **A candidate that is not published when its base is gone never is.** -/
theorem Inv.lost_base (inv : Inv s) (hc : s.Candidate ref p) {m i₀ : Nat} {w : UpdateVersion}
    (h₀ : s.HeadAt i₀ p.view.head w) (hm : s.HeadAt m h v) (hle : i₀ ≤ m)
    (hno : ¬ SameBase p.view.head h) (hmem : ref ∉ s.historyAt m) : ref ∉ s.history := by
  intro hin
  have hpos : 0 < s.now := Nat.zero_lt_of_lt hm.lt
  rw [inv.history_eq (i := s.now - 1) (by omega)] at hin
  obtain ⟨i, hd, vd, hi, hh, hs, hpub⟩ := inv.appended_base (by omega) hc hin
  rcases Nat.lt_or_ge i m with hlt | hge
  · exact hmem ((State.historyAt_mono hlt).subset hpub)
  · exact hno (inv.base_convex hle hge h₀ hm hh hs)

/-- A head with the base of a candidate does not have the candidate in its history. -/
theorem Inv.base_unpublished (inv : Inv s) (hc : s.Candidate ref p) (hh : s.HeadAt i h v)
    (hs : SameBase p.view.head h) : ref ∉ s.historyAt i := by
  obtain ⟨-, hseq⟩ := hc.head inv
  exact (inv.explains hh).not_mem_next (hseq.trans (sameBase_iff.1 hs).2.2.2.1)

/-- The position of a candidate is not ahead of a head after its view. -/
theorem Inv.nextSequence_mono (inv : Inv s) {j : Nat} {h' : Head} {v' : UpdateVersion}
    (hij : i ≤ j) (a : s.HeadAt i h v) (b : s.HeadAt j h' v') :
    h.nextSequence.toNat ≤ h'.nextSequence.toNat := by
  rw [(inv.explains a).next, (inv.explains b).next]
  exact (State.historyAt_mono hij).length_le

end ObjectLog
