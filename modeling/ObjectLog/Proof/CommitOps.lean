import ObjectLog.Proof.Token

/-!
# Publishing a candidate

What the answers of `commit`, `resolve` and `resume` stand on. A committed candidate is in
the history. A negative answer stands on a head that the call has read itself: one with
another publication base, or one with the same base after every attempt was answered as
rejected. An alarm stands on an object that the call did not find.
-/

set_option linter.unusedSectionVars false

namespace ObjectLog

open Rely

variable [Blake3] {s s' u : State} {t L m q : Nat} {A : Effect → Prop} {log log₀ : Log}
  {ref : CommitRef} {p p₀ prepared : PreparedCommit} {view current source : View} {bytes : Bytes}
  {b : Begun} {e : Error}

/-! ## Alarms -/

/-- The errors that speak of damage, or of a view that has been collected. -/
def Error.Alarm (e : Error) : Prop :=
  e = .corruptObject ∨ e = .viewExpired ∨ ∃ message, e = .invalidFormat message

/-- Call `t` may fail with `e`: an alarm only after a read that found nothing. -/
def State.Excused (s : State) (t : Nat) (e : Error) : Prop :=
  e.Alarm → e.Missing ∧ ∃ key L, s.Lacks t L key

theorem Error.Unavailable.excused (h : e.Unavailable) : s.Excused t e := by
  rintro (rfl | rfl | ⟨_, rfl⟩) <;> rcases h with h | ⟨_, h⟩ <;> cases h

theorem excused_limit {what : String} : s.Excused t (.limitExceeded what) := by
  rintro (h | h | ⟨_, h⟩) <;> cases h

theorem State.PublicationError.excused (h : s.PublicationError t L e) : s.Excused t e := by
  rcases h with rfl | (h | rfl | ⟨hm, key, -, hl⟩) | ⟨hm, key, hl⟩
  · rintro (h | h | ⟨_, h⟩) <;> cases h
  · exact h.excused
  · exact excused_limit
  · exact fun _ => ⟨hm, key, L, hl⟩
  · exact fun _ => ⟨hm, key, L, hl⟩

/-! ## Negative answers -/

/-- Call `t` has read a head, not before moment `L`, that does not have the publication base
of the candidate any more, and has no update in the air. -/
structure State.Changed (s : State) (t L m : Nat) (ref : CommitRef) (p : PreparedCommit)
    (current : View) : Prop where
  candidate : s.Candidate ref p
  loaded : Loaded t L current s
  head : s.HeadAt m current.head current.version
  after : ∃ i, i ≤ m ∧ s.HeadAt i p.view.head p.view.version
  moved : ¬ SameBase p.view.head current.head
  clean : s.Clean t m

/-- Every attempt of call `t` was answered as rejected, each on a newer head with the base of
the candidate. -/
structure State.Contention (s : State) (t L m : Nat) (p : PreparedCommit) (current : View) :
    Prop where
  same : SameBase p.view.head current.head
  late : L ≤ m
  attempts : ∃ is : List Nat, is.length = furtherAttempts + 1 ∧ is.Pairwise (· < ·) ∧
    ∀ i ∈ is, i < m ∧ s.Attempted t i

/-- **What a negative answer stands on.** -/
structure State.NegativeAt (s : State) (t L m : Nat) (ref : CommitRef) (p : PreparedCommit)
    (current : View) : Prop where
  candidate : s.Candidate ref p
  loaded : Loaded t L current s
  head : s.HeadAt m current.head current.version
  after : ∃ i, i ≤ m ∧ s.HeadAt i p.view.head p.view.version
  unpublished : ref ∉ s.historyAt m
  clean : s.Clean t m
  reason : ¬ SameBase p.view.head current.head ∨ s.Contention t L m p current

def State.Negative (s : State) (t L : Nat) (ref : CommitRef) (current : View) : Prop :=
  ∃ m p, s.NegativeAt t L m ref p current

theorem State.Contention.mono (hle : s.Le s') (h : s.Contention t L m p current) :
    s'.Contention t L m p current := by
  obtain ⟨hs, hL, is, hlen, hsort, hall⟩ := h
  exact ⟨hs, hL, is, hlen, hsort, fun i hi => ⟨(hall i hi).1, (hall i hi).2.mono hle⟩⟩

theorem State.Negative.others (inv : Inv s) (o : Others t s u)
    (h : s.Negative t L ref current) : u.Negative t L ref current := by
  obtain ⟨m, p, hn⟩ := h
  obtain ⟨i, hi, hh⟩ := hn.after
  refine ⟨m, p, hn.candidate.mono o.le, hn.loaded.mono o.le, hn.head.mono o.le,
    ⟨i, hi, hh.mono o.le⟩, ?_, hn.clean.others o, hn.reason.imp id (·.mono o.le)⟩
  rw [inv.historyAt_le o.le hn.head.lt]
  exact hn.unpublished

theorem State.Negative.later {L' : Nat} (hL : L' ≤ L) (h : s.Negative t L ref current) :
    s.Negative t L' ref current := by
  obtain ⟨m, p, hn⟩ := h
  refine ⟨m, p, { hn with loaded := hn.loaded.later hL, reason := hn.reason.imp id fun hc => ?_ }⟩
  exact { hc with late := hL.trans hc.late }

/-- **The classification of a head that has moved on.** It never fails. -/
theorem State.Changed.classify (h : s.Changed t L m ref p current) (inv : Inv s) :
    match classifyResolution ref current with
    | .ok .committed => ref ∈ s.history
    | .ok .notCommitted => s.Negative t L ref current
    | .ok .expired => True
    | .error _ => False := by
  have hcl := Explains.classify ref (inv.explains h.head)
  cases hc : classifyResolution ref current with
  | error e =>
      rw [hc] at hcl
      obtain ⟨i, hi, hh⟩ := h.after
      have hmono := inv.nextSequence_mono hi hh h.head
      have hlt := UInt64.lt_iff_toNat_lt.1 hcl
      rw [(h.candidate.head inv).2] at hlt
      omega
  | ok c =>
      rw [hc] at hcl
      cases c with
      | committed => exact (s.historyAt_history m).subset hcl
      | notCommitted =>
          exact ⟨m, p, h.candidate, h.loaded, h.head, h.after, hcl, h.clean, .inl h.moved⟩
      | expired => trivial

/-- **A negative answer about a base that is gone is final.** -/
theorem State.NegativeAt.final (h : s.NegativeAt t L m ref p current) (inv : Inv s)
    (hmoved : ¬ SameBase p.view.head current.head) : ref ∉ s.history := by
  obtain ⟨i, hi, hh⟩ := h.after
  exact inv.lost_base h.candidate hh h.head hi hmoved h.unpublished

/-- What is known of the updates of a call that failed: it has submitted none, or each was
on a head before one that still has the base of the candidate. -/
def State.Unissued (s : State) (t : Nat) (ref : CommitRef) : Prop :=
  s.Clean t 0 ∨ ∃ p m h v, s.Candidate ref p ∧ s.HeadAt m h v ∧ SameBase p.view.head h ∧
    s.Clean t m

theorem State.Unissued.others (o : Others t s u) (h : s.Unissued t ref) : u.Unissued t ref := by
  rcases h with h | ⟨p, m, hd, v, hc, hh, hs, hcl⟩
  · exact .inl (h.others o)
  · exact .inr ⟨p, m, hd, v, hc.mono o.le, hh.mono o.le, hs, hcl.others o⟩

/-! ## The body of a candidate -/

theorem Inv.commit_body (inv : Inv s) (hp : s.Prepared q log p)
    (he : log.encodePrepared p = .ok (ref, bytes)) {stored : Bytes}
    (hb : s.body (commitKey log.incarnation ref) = some stored) : stored = bytes := by
  obtain ⟨n, hn⟩ := State.body_eq.1 hb
  obtain ⟨q', log', p', ref', hp', he', hk⟩ := (inv.created _ _ _ hn).commit rfl
  have hid := congrArg ImmutableKey.storageId hk
  exact (inv.prepared_bytes hp' hp he' he hid.symm).2

/-- After a create that did not settle it, the stored body decides. -/
theorem checkStored_runs {v : State} {createError : Option Error} (hR : Reads ≤ A)
    (hp : s.Prepared q log p) (he : log.encodePrepared p = .ok (ref, bytes))
    (hce : ∀ e, createError = some e → e.Unavailable) (hle : s.Le v) (gv : Good v) :
    Runs t A (do
      match ← readKey (commitKey log.incarnation ref) bytes.length with
      | some stored => if stored = bytes then return () else throw .corruptObject
      | none => throw (createError.getD (invalid "an immutable object is missing")))
      (fun r u => match r with
        | .ok _ => u.body (commitKey log.incarnation ref) = some bytes
        | .error e => e.Unavailable ∨
            (e.Missing ∧ u.Lacks t s.now (commitKey log.incarnation ref))) v := by
  have found : ∀ {w : State} {stored : Bytes}, s.Le w → Good w →
      w.body (commitKey log.incarnation ref) = some stored → stored = bytes :=
    fun hle gw hb => gw.inv.commit_body (hp.mono hle) he hb
  refine Runs.bind le_rfl gv (readKey_runs hR gv _ _) ?_ ?_
  · rintro (_ | stored) w tr gw h
    · refine Runs.throw fun x o _ => ?_
      cases createError with
      | some e => exact .inl (hce e rfl)
      | none =>
          refine .inr ⟨.inr (.inr (.inr rfl)), ?_⟩
          exact (State.Lacks.mono o.le tr.le.now gw.inv h).later hle.now
    · obtain rfl := found (hle.trans tr.le) gw h.1
      exact Runs.ite (fun _ => Runs.pure fun x o _ => o.le.body _ _ h.1) fun hne => absurd rfl hne
  · rintro e w tr gw (h | ⟨-, stored, hb, hlt⟩)
    · exact .inl h
    · obtain rfl := found (hle.trans tr.le) gw hb
      omega

/-- **The body of a candidate is created, or found as it should be.** -/
theorem ensureImmutable_runs (hA : Creates ≤ A) (g : Good s) (hp : s.Prepared q log p)
    (he : log.encodePrepared p = .ok (ref, bytes)) :
    Runs t A (ensureImmutable (commitKey log.incarnation ref) bytes) (fun r u => match r with
      | .ok _ => u.body (commitKey log.incarnation ref) = some bytes
      | .error e => e.Unavailable ∨
          (e.Missing ∧ u.Lacks t s.now (commitKey log.incarnation ref))) s := by
  have hR : Reads ≤ A := reads_creates.trans hA
  obtain ⟨-, -, -, -, -, hdig, -⟩ := encodePrepared_ok he
  have hmay : ∀ u, Track t Reads s u → Good u →
      May t u (.submit (.create (commitKey log.incarnation ref) bytes)) := by
    intro u tr gu
    have hid : Digest.of bytes = ref.digest := hdig.symm
    exact ⟨⟨hid, fun hk => absurd rfl hk, fun _ => ⟨q, log, p, ref, hp.mono tr.le, he, rfl⟩⟩,
      fun hk => absurd rfl hk⟩
  refine Runs.attemptBind le_rfl g (create_runs hR (hA _ (.inr ⟨_, _, rfl⟩)) g hmay) ?_
  rintro (error | created) u tr gu h
  · refine checkStored_runs hR hp he ?_ tr.le gu
    rcases h with ⟨e, he, hu⟩ | ⟨_, hx, -⟩
    · obtain rfl := Except.error.inj he
      exact fun e' he' => Option.some.inj he' ▸ hu
    · cases hx
  · cases created with
    | false => exact checkStored_runs hR hp he (by simp) tr.le gu
    | true =>
        rcases h with ⟨_, hx, -⟩ | ⟨_, hx, hb⟩
        · cases hx
        · obtain rfl := Except.ok.inj hx
          exact Runs.pure fun v o _ => o.le.body _ _ (hb rfl)

/-! ## The publication of a candidate -/

/-- What the publication loop says about a candidate. -/
def State.Published (s : State) (t L : Nat) (ref : CommitRef) (p : PreparedCommit) :
    Except Error HeadPublication → Prop
  | .ok (.updated next) => ref ∈ s.history ∧ s.ViewOK s.now next
  | .ok (.changed current _) => ∃ m, s.Changed t L m ref p current
  | .ok (.contended current) => s.Negative t L ref current
  | .ok .pending => True
  | .error e => s.Unissued t ref ∧ (e = .requestDenied ∨ ∃ what, e = .limitExceeded what)

/-- **A candidate whose body is stored, against a head with its base.** -/
theorem publishCandidate_runs {i k : Nat} (source : View) (g : Good s) (hl : s.LogOK log)
    (hp : s.Prepared q log₀ p) (he : log₀.encodePrepared p = .ok (ref, bytes))
    (hbody : s.body (commitKey log₀.incarnation ref) = some bytes)
    (hk : s.HeadAt k p.view.head p.view.version) (hkL : k < L) (hL : L ≤ s.now)
    (hs : SameBase p.view.head source.head) (hh : s.HeadAt i source.head source.version)
    (hb : s.calls[t]? = some b) (htarget : b.call.target = some ref) (clean : s.Clean t 0) :
    Runs t Anything (log.publishHead source fun view => candidateHead view.head ref)
      (fun r u => u.Published t L ref p r) s := by
  have hready : Publishing s t log source Head.hasSamePublicationBase (.append ref) i := by
    refine ⟨hl, fun _ => nofun, fun u i' h v hle gu hh' _ hcomp => ?_, fun _ _ => nofun⟩
    have hs' : SameBase p.view.head h := hs.trans hcomp
    exact (hp.mono hle).ready gu.inv he (hle.body _ _ hbody) hh' hs' (hle.call hb) htarget u.now
  have hcand : s.Candidate ref p := ⟨q, log₀, bytes, hp, he⟩
  refine (publishAttempts_runs le_anything (fun _ => rfl) furtherAttempts i source s g hL hready
    hh (SameBase.refl _) (clean.le (Nat.zero_le i)) (clean.sends _)).track.mono ?_
  rintro (e | (next | ⟨current, generation⟩ | current | _)) u gu ⟨tr, h⟩
  · obtain ⟨⟨m, hd, v, -, hhm, hcomp, hcl⟩, herr⟩ := h
    refine ⟨.inr ⟨p, m, hd, v, hcand.mono tr.le, hhm, hs.trans hcomp, hcl⟩, ?_⟩
    rcases herr with herr | herr | ⟨_, _, _, hc, -⟩
    · exact .inl herr
    · exact .inr herr
    · cases hc
  · obtain ⟨i', hd, v, -, hhi, -, hnext, hres, hview⟩ := h
    exact ⟨(u.historyAt_history _).subset (gu.inv.mem_history_append hhi hnext hres), hview⟩
  · obtain ⟨load, hno, m, hm, hcl, -⟩ := h
    obtain ⟨m', hm', hhm'⟩ := load.head
    obtain rfl := gu.inv.head_unique hhm' hm
    exact ⟨m', hcand.mono tr.le, load, hm, ⟨k, by omega, hk.mono tr.le⟩,
      fun hbase => hno (hs.symm.trans hbase), hcl⟩
  · obtain ⟨load, hcomp, m, hm, hcl, -, hLm, is, hlen, hsort, hall⟩ := h
    obtain ⟨m', hm', hhm'⟩ := load.head
    obtain rfl := gu.inv.head_unique hhm' hm
    have hbase : SameBase p.view.head current.head := hs.trans hcomp
    have hcand' := hcand.mono tr.le
    have hlate : L ≤ m' := hLm (by decide)
    refine ⟨m', p, hcand', load, hm, ⟨k, by omega, hk.mono tr.le⟩,
      gu.inv.base_unpublished hcand' hm hbase, hcl, .inr ⟨hbase, hlate, is, hlen, hsort, ?_⟩⟩
    exact fun i hi => (hall i hi).2
  · trivial

/-! ## `commit` -/

/-- **What the answers of `commit` stand on.** -/
def State.CommitAnswer (s : State) (t L : Nat) (ref : CommitRef) : CommitStatus → Prop
  | .committed view => ref ∈ s.history ∧ s.ViewOK s.now view
  | .conflict view => s.Negative t L ref view
  | .pending pending => s.PendingCommitOK s.now pending

/-- A candidate with what its call finds at its beginning. -/
theorem State.PreparedOK.origin (hp : s.PreparedOK L p) (hl : s.LogOK log) (inv : Inv s)
    (he : log.encodePrepared p = .ok (ref, bytes)) :
    ∃ q log₀ p₀ k, s.Prepared q log₀ p₀ ∧ log₀.encodePrepared p₀ = .ok (ref, bytes) ∧
      SameBase p₀.view.head p.view.head ∧ p.storageId = p₀.storageId ∧
      log.incarnation = log₀.incarnation ∧ s.HeadAt k p₀.view.head p₀.view.version := by
  obtain ⟨q, log₀, p₀, hp₀, hs, hid, -, hinc, henc, -⟩ := hp.candidate hl inv
  rw [henc] at he
  obtain ⟨k, hk⟩ := (State.Candidate.head ⟨q, log₀, bytes, hp₀, he⟩ inv).1
  exact ⟨q, log₀, p₀, k, hp₀, he, hs, hid, hinc, hk⟩

theorem commit_target (he : log.encodePrepared p = .ok (ref, bytes)) :
    (Call.commit log p).target = some ref := by
  simp [Call.target, he, Except.toOption]

theorem State.PreparedOK.pending {d : Domain} {token : Option Bytes} (hp : s.PreparedOK L p)
    (hL : L ≤ s.now) (hens : s.Ensured ref p) :
    s.PendingCommitOK s.now ⟨some { p with stagingDomain := d }, ref, token⟩ := by
  obtain ⟨hv, hrest⟩ := hp
  exact ⟨⟨hv.mono (.refl s) hL, hrest⟩, hens⟩

theorem commit_runs (g : Good s) (hb : s.calls[t]? = some b)
    (hcall : b.call = .commit log prepared) (hl : s.LogOK log) (hp : s.PreparedOK L prepared)
    (hL : L = s.now) (clean : s.Clean t 0) :
    Runs t Anything (log.commit prepared) (fun r u => match r with
      | .ok status => ∃ ref, b.call.target = some ref ∧ u.CommitAnswer t L ref status
      | .error _ => ∀ ref, b.call.target = some ref → u.Unissued t ref) s := by
  refine Runs.liftBind (fun _ _ => ?_) fun _ u _ o _ _ _ => .inl (clean.others o)
  refine Runs.liftBind (fun x he => ?_) fun _ u _ o _ _ _ => .inl (clean.others o)
  obtain ⟨ref, bytes⟩ := x
  have htarget : b.call.target = some ref := by
    rw [hcall]
    exact commit_target he
  obtain ⟨q, log₀, p₀, k, hp₀, he₀, hs, hid, hinc, hk⟩ := hp.origin hl g.inv he
  obtain ⟨⟨⟨i, hiL, hh⟩, hobs⟩, -⟩ := id hp
  have hkL : k < L := hL ▸ hk.lt
  have hv : Viewing s log prepared.view := ⟨hl, ⟨⟨i, hL ▸ hiL, hh⟩, hobs⟩⟩
  refine Runs.bind (A := Reads) le_anything g (verifyPublication_runs le_rfl g hv) ?_ ?_
  swap
  · intro _ u tr _ _ _ _
    exact .inl (clean.reads tr)
  intro _ u tr gu _
  have clean₁ := clean.reads tr
  rw [hinc]
  refine Runs.bind (A := Creates) le_anything gu
    (ensureImmutable_runs le_rfl gu (hp₀.mono tr.le) he₀) ?_ ?_
  swap
  · intro _ v tr' _ _ _ _
    exact .inl (clean₁.track tr' (by rintro _ _ (h | ⟨_, _, h⟩) <;> cases h))
  intro _ v tr' gv hbody
  have hle := tr.le.trans tr'.le
  have clean₂ : v.Clean t 0 :=
    clean₁.track tr' (by rintro _ _ (h | ⟨_, _, h⟩) <;> cases h)
  have hens : v.Ensured ref prepared := ⟨q, log₀, p₀, bytes, hp₀.mono hle, hid.symm, he₀, hbody⟩
  have hprep : v.PreparedOK L prepared := hp.mono hle le_rfl
  refine Runs.bind le_rfl gv (publishCandidate_runs _ gv (hl.mono hle) (hp₀.mono hle) he₀ hbody
    (hk.mono hle) hkL (hL ▸ hle.now) hs (hh.mono hle) (hle.call hb) htarget
    clean₂) ?_ ?_
  swap
  · intro _ w _ _ h ref' href'
    obtain rfl := Option.some.inj (htarget.symm.trans href')
    exact h.1
  -- a pending answer carries the candidate, whose body is stored
  have pending : ∀ w x, v.Le w → Others t w x →
      x.CommitAnswer t L ref (.pending
        ⟨some { prepared with stagingDomain := log.stagingDomain }, ref, none⟩) :=
    fun w x hw o => (hprep.mono (hw.trans o.le) le_rfl).pending
      (by have := (hle.trans (hw.trans o.le)).now; omega) (hens.mono (hw.trans o.le))
  rintro (next | ⟨current, generation⟩ | current | _) w tr₂ gw h
  · obtain ⟨hmem, hview⟩ := h
    refine Runs.bind (A := Reads) le_anything gw (tailIsVerified_runs le_rfl gw) ?_ nofun
    intro verified x tr₃ gx _
    have answer : ∀ y, x.Le y → ∃ ref, b.call.target = some ref ∧
        y.CommitAnswer t L ref (.committed next) := fun y hy =>
      ⟨ref, htarget, (tr₃.le.trans hy).history.subset hmem,
        hview.mono (tr₃.le.trans hy) (tr₃.le.trans hy).now⟩
    refine Runs.ite (fun _ => ?_) fun _ => Runs.pure fun y o _ => answer y o.le
    refine Runs.bind (A := Reads) le_anything gx (rememberTail_runs le_rfl) ?_ nofun
    exact fun _ y tr₄ _ _ => Runs.pure fun z o _ => answer z (tr₄.le.trans o.le)
  · obtain ⟨m, hch⟩ := h
    have hcl := hch.classify gw.inv
    refine Runs.liftBind (fun c hc => ?_) fun _ _ hc _ _ => by rw [hc] at hcl; exact hcl.elim
    rw [hc] at hcl
    cases c with
    | committed => exact Runs.pure fun x o _ => ⟨ref, htarget, o.le.history.subset hcl,
        hch.loaded.viewOK.mono o.le o.le.now⟩
    | notCommitted => exact Runs.pure fun x o _ => ⟨ref, htarget, hcl.others gw.inv o⟩
    | expired => exact Runs.pure fun x o _ => ⟨ref, htarget, pending w x tr₂.le o⟩
  · exact Runs.pure fun x o _ => ⟨ref, htarget, h.others gw.inv o⟩
  · exact Runs.pure fun x o _ => ⟨ref, htarget, pending w x tr₂.le o⟩

/-! ## `resolve` -/

/-- **What the answers of `resolve` and `resume` stand on.** A candidate that is handed back
is only good for another call if its body is stored. -/
def State.ResolutionAnswer (s : State) (t L : Nat) (ref : CommitRef) (ensured : Prop) :
    Except Error Resolution → Prop
  | .ok (.committed view) => ref ∈ s.history ∧ s.ViewOK s.now view
  | .ok (.notCommitted view) => s.Negative t L ref view
  | .ok (.stillPending pending) => ensured → s.PendingCommitOK s.now pending
  | .ok (.expired view) => s.ViewOK s.now view
  | .error e => s.Excused t e

theorem State.Changed.resolution {c : Classification} {ensured : Prop}
    (h : s.Changed t L m ref p current) (inv : Inv s) (o : Others t s u)
    (hc : classifyResolution ref current = .ok c) :
    u.ResolutionAnswer t L ref ensured (.ok (c.resolution current)) := by
  have hcl := h.classify inv
  rw [hc] at hcl
  have hview := h.loaded.viewOK.mono o.le o.le.now
  cases c with
  | committed => exact ⟨o.le.history.subset hcl, hview⟩
  | notCommitted => exact hcl.others inv o
  | expired => exact hview

theorem State.Changed.mono_reads {A : Effect → Prop} (h : s.Changed t L m ref p current)
    (tr : Track t A s u) (hA : ∀ bytes expected, ¬ A (.submit (.updateHead bytes expected))) :
    u.Changed t L m ref p current := by
  obtain ⟨i, hi, hh⟩ := h.after
  exact ⟨h.candidate.mono tr.le, h.loaded.mono tr.le, h.head.mono tr.le, ⟨i, hi, hh.mono tr.le⟩,
    h.moved, h.clean.track tr hA⟩

/-- The head of a later moment, against the one that was observed. -/
theorem compatiblePublicationView_eq (compatible : Head → Head → Bool) {i : Nat} (inv : Inv s)
    (hh : s.HeadAt i source.head source.version)
    (hm : s.HeadAt m current.head current.version) (him : i ≤ m)
    (hrefl : compatible source.head source.head = true) :
    compatiblePublicationView source current compatible =
      .ok (if compatible source.head current.head = true then some current else none) := by
  unfold compatiblePublicationView
  by_cases heq : current.head = source.head ∧ current.version = source.version
  · rw [if_pos heq, heq.1, if_pos hrefl]
  · rw [if_neg heq]
    by_cases hcomp : compatible source.head current.head = true
    · have hlt : i < m := by
        rcases Nat.lt_or_ge i m with hlt | hge
        · exact hlt
        · obtain rfl : m = i := by omega
          exact absurd (hm.unique hh) heq
      have hgen : ¬ current.head.generation ≤ source.head.generation := by
        rw [UInt64.le_iff_toNat_le, inv.generation hm, inv.generation hh]
        omega
      rw [if_neg (not_not.2 hcomp), if_neg hgen, if_pos hcomp]
    · rw [if_pos hcomp, if_neg hcomp]

theorem State.Ensured.body (h : s.Ensured ref prepared) (inv : Inv s) (hp : s.Prepared q log p)
    (hid : prepared.storageId = p.storageId) (he : log.encodePrepared p = .ok (ref, bytes)) :
    s.body (commitKey log.incarnation ref) = some bytes := by
  obtain ⟨q', log', p', bytes', hp', hid', he', hb⟩ := h
  obtain ⟨-, rfl, -⟩ := inv.prepared_unique hp hp' (hid.symm.trans hid'.symm)
  rw [(inv.prepared_bytes hp hp' he he' rfl).2]
  exact hb

theorem creates_no_update (bytes : Bytes) (expected : UpdateVersion) :
    ¬ Creates (.submit (.updateHead bytes expected)) := by
  rintro (h | ⟨_, _, h⟩) <;> cases h

theorem reads_no_update (bytes : Bytes) (expected : UpdateVersion) :
    ¬ Reads (.submit (.updateHead bytes expected)) := id

/-- A candidate in memory passes the checks of `resolve`. -/
theorem State.PreparedOK.validatePending (hp : s.PreparedOK L prepared) (hl : s.LogOK log)
    (inv : Inv s) (he : log.encodePrepared prepared = .ok (ref, bytes)) :
    log.validatePending prepared ref = .ok () := by
  obtain ⟨-, hsizes, hdeps, htail⟩ := hp.stored hl inv
  obtain ⟨⟨i, -, hh⟩, -⟩ := hp.1
  have hview := validateView_ok.2 (hl.head inv hh)
  refine bind_ok.2 ⟨(), hview, bind_ok.2 ⟨(), hsizes, bind_ok.2 ⟨(), hdeps, ?_⟩⟩⟩
  exact bind_ok.2 ⟨(), ensure_ok.2 htail, bind_ok.2 ⟨_, he, ensure_ok.2 rfl⟩⟩

theorem tailContains_iff : tailContains current ref = true ↔ ref ∈ current.head.tail := by
  simp [tailContains]

/-- The check of a commit that is in the tail of a head that was just loaded. -/
theorem verifyEvidence_runs {c : Classification} {pending : PendingCommit} {ensured : Prop}
    (g : Good s) (hv : Viewing s log current) (hmem : ref ∈ current.head.tail)
    (hch : s.Changed t L m ref p current) (hc : classifyResolution ref current = .ok c)
    (hpend : ∀ v, s.Le v → ensured → v.PendingCommitOK v.now pending) :
    Runs t Anything (do
      match ← publicationEvidence (log.verifyPublishedCommit ref) with
      | none => return Resolution.stillPending pending
      | some _ => return c.resolution current)
      (fun r u => u.ResolutionAnswer t L ref ensured r) s := by
  refine Runs.bind (A := Reads) le_anything g
    (evidence_runs g (verifyPublishedCommit_runs le_rfl g hv hmem)) ?_ ?_
  · rintro (_ | _) u tr gu _
    · exact Runs.pure fun v o _ hens => hpend v (tr.le.trans o.le) hens
    · exact Runs.pure fun v o _ =>
        (hch.mono_reads tr reads_no_update).resolution gu.inv o hc
  · exact fun e u _ _ h => h.2.excused

/-- Another publication of a candidate, and what `resolve` makes of it. -/
theorem retryCandidate_runs {pending : PendingCommit} {ensured : Prop} (g : Good s)
    (pub : Runs t Anything (log.publishHead current fun view => candidateHead view.head ref)
      (fun r u => u.Published t L ref p r) s)
    (hpend : ∀ v, s.Le v → v.PendingCommitOK v.now pending) :
    Runs t Anything (do
      match ← (log.publishHead current (fun view => candidateHead view.head ref)).attempt with
      | .ok (.updated view) => return Resolution.committed view
      | .ok .pending => return .stillPending pending
      | .error (.store _) => return .stillPending pending
      | .error .requestDenied => return .stillPending pending
      | .ok (.contended current) => return .notCommitted current
      | .error error => throw error
      | .ok (.changed current _) =>
          return (← Prog.lift (classifyResolution ref current)).resolution current)
      (fun r u => u.ResolutionAnswer t L ref ensured r) s := by
  refine Runs.attemptBind le_rfl g pub ?_
  rintro (e | (next | ⟨current', generation⟩ | current' | _)) u tr gu h
  · obtain ⟨-, rfl | ⟨what, rfl⟩⟩ := h
    · exact Runs.pure fun v o _ _ => hpend v (tr.le.trans o.le)
    · exact Runs.throw fun v _ _ => excused_limit
  · exact Runs.pure fun v o _ => ⟨o.le.history.subset h.1, h.2.mono o.le o.le.now⟩
  · obtain ⟨m, hch⟩ := h
    have hcl := hch.classify gu.inv
    refine Runs.liftBind (fun c hc => ?_) fun e v hc _ _ => by rw [hc] at hcl; exact hcl.elim
    exact Runs.pure fun v o _ => hch.resolution gu.inv o hc
  · exact Runs.pure fun v o _ => State.Negative.others gu.inv o h
  · exact Runs.pure fun v o _ _ => hpend v (tr.le.trans o.le)

theorem resolvePrepared_runs {token : Option Bytes} (g : Good s) (hl : s.LogOK log)
    (hp : s.PreparedOK L prepared) (hL : L ≤ s.now)
    (he : log.encodePrepared prepared = .ok (ref, bytes)) (hb : s.calls[t]? = some b)
    (htarget : b.call.target = some ref) (clean : s.Clean t 0)
    (hens : log.proofMatches prepared.stagingDomain = true → s.Ensured ref prepared) :
    Runs t Anything (log.resolvePrepared prepared ref token)
      (fun r u => u.ResolutionAnswer t s.now ref (s.Ensured ref prepared) r) s := by
  obtain ⟨q, log₀, p₀, k, hp₀, he₀, hs, hid, hinc, hk⟩ := hp.origin hl g.inv he
  obtain ⟨⟨i, hiL, hh⟩, hobs⟩ := id hp.1
  have hv : Viewing s log prepared.view := ⟨hl, ⟨⟨i, by omega, hh⟩, hobs⟩⟩
  have hcand : s.Candidate ref p₀ := ⟨q, log₀, bytes, hp₀, he₀⟩
  have hpend : ∀ (d : Domain) v, s.Le v → v.Ensured ref prepared → v.PendingCommitOK v.now
      ⟨some { prepared with stagingDomain := d }, ref, token⟩ :=
    fun d v hle hv => (hp.mono hle le_rfl).pending (hL.trans hle.now) hv
  have hvalid := hp.validatePending hl g.inv he
  refine Runs.liftBind (fun _ _ => ?_) fun e u h _ _ => by rw [hvalid] at h; cases h
  refine Runs.bind (A := Reads) le_anything g (evidence_runs g (load_runs le_rfl g hl)) ?_
    fun e u _ _ h => absurd h.2 h.1
  rintro (_ | current) u tr gu h
  · exact Runs.pure fun v o _ hens => hpend _ v (tr.le.trans o.le) (hens.mono (tr.le.trans o.le))
  have load : Loaded t s.now current u := h
  obtain ⟨m, hm, hhm⟩ := load.head
  have hkm : k ≤ m := by have := hk.lt; omega
  have him : i ≤ m := by have := hh.lt; omega
  have hcompat := compatiblePublicationView_eq Head.hasSamePublicationBase gu.inv
    (hh.mono tr.le) hhm him (SameBase.refl _)
  refine Runs.liftBind (fun found hfound => ?_) fun e v h _ _ => by rw [hcompat] at h; cases h
  rw [hcompat] at hfound
  have hfound := Except.ok.inj hfound
  have hvc : Viewing u log current := ⟨hl.mono tr.le, load.viewOK⟩
  have clean₁ : u.Clean t 0 := clean.reads tr
  by_cases hbase : prepared.view.head.hasSamePublicationBase current.head = true
  swap
  · -- the head has another base: it says what became of the candidate
    rw [if_neg hbase] at hfound
    subst hfound
    have hch : u.Changed t s.now m ref p₀ current := ⟨hcand.mono tr.le, load, hhm,
      ⟨k, hkm, hk.mono tr.le⟩, fun hsb => hbase (hs.symm.trans hsb), clean₁.le (Nat.zero_le _)⟩
    have hcl := hch.classify gu.inv
    refine Runs.liftBind (fun c hc => ?_) fun e v hc _ _ => by rw [hc] at hcl; exact hcl.elim
    refine Runs.ite (fun hcond => ?_) fun _ => Runs.pure fun v o _ => hch.resolution gu.inv o hc
    refine verifyEvidence_runs gu hvc (tailContains_iff.1 hcond.2.1) hch hc ?_
    exact fun v hle hens => hpend _ v (tr.le.trans hle) (hens.mono (tr.le.trans hle))
  -- the head still has the base of the candidate
  rw [if_pos hbase] at hfound
  subst hfound
  refine Runs.liftBind (fun x hx => ?_) fun e v h _ _ => by rw [he] at h; cases h
  obtain rfl := Except.ok.inj (he.symm.trans hx)
  have hstored := fun o ho => ((hp.stored hl g.inv).1 o ho).mono tr.le.body
  refine Runs.bind (A := Reads) le_anything gu (evidence_runs gu
    (verifyPublication_sound le_rfl gu (hv.mono tr.le) hstored)) ?_
    fun e v _ _ h => h.2.excused
  rintro (_ | _) v tr₁ gv -
  · exact Runs.pure fun w o _ hens =>
      hpend _ w ((tr.le.trans tr₁.le).trans o.le) (hens.mono ((tr.le.trans tr₁.le).trans o.le))
  have hle := tr.le.trans tr₁.le
  have clean₂ : v.Clean t 0 := clean₁.reads tr₁
  -- with the body stored, the candidate is published again
  have ready : ∀ w, Track t Creates v w → Good w →
      w.body (commitKey log₀.incarnation ref) = some bytes →
      Runs t Anything (log.publishHead current fun view => candidateHead view.head ref)
        (fun r u => u.Published t s.now ref p₀ r) w ∧
      ∀ x, w.Le x → x.PendingCommitOK x.now
        ⟨some { prepared with stagingDomain := log.stagingDomain }, ref, token⟩ := by
    intro w tr₂ gw hbody
    have hle₂ := hle.trans tr₂.le
    have hensured : w.Ensured ref prepared :=
      ⟨q, log₀, p₀, bytes, hp₀.mono hle₂, hid.symm, he₀, hbody⟩
    have clean₃ : w.Clean t 0 := clean₂.track tr₂ creates_no_update
    refine ⟨publishCandidate_runs current gw (hl.mono hle₂) (hp₀.mono hle₂) he₀ hbody
      (hk.mono hle₂) hk.lt hle₂.now (hs.trans hbase) (hhm.mono (tr₁.le.trans tr₂.le))
      (hle₂.call hb) htarget clean₃, fun x hx => ?_⟩
    exact hpend log.stagingDomain x (hle₂.trans hx) (hensured.mono hx)
  refine Runs.ite (fun hm => ?_) fun _ => ?_
  · obtain ⟨pub, hpend'⟩ := ready v (.refl _ _ _) gv
      (((hens hm).mono hle).body gv.inv (hp₀.mono hle) hid he₀)
    exact retryCandidate_runs gv pub hpend'
  · rw [hinc]
    refine Runs.bind (A := Creates) le_anything gv
      (evidence_runs gv (ensureImmutable_runs le_rfl gv (hp₀.mono hle) he₀)) ?_ ?_
    · rintro (_ | _) w tr₂ gw h
      · exact Runs.pure fun x o _ hens => hpend _ x ((hle.trans tr₂.le).trans o.le)
          (hens.mono ((hle.trans tr₂.le).trans o.le))
      · obtain ⟨pub, hpend'⟩ := ready w tr₂ gw h
        exact retryCandidate_runs gw pub hpend'
    · rintro e w - - ⟨hno, h | h⟩
      · exact absurd h hno
      · exact fun _ => ⟨h.1, _, _, h.2⟩

/-! ## `resume` -/

/-- A new staging domain is none that a handle has. -/
theorem newStagingDomain_runs (hA : Reads ≤ A) : Runs t A newStagingDomain (fun r u =>
    ∃ d, r = .ok d ∧ s.domains ≤ d ∧ d < u.domains) s := by
  refine Runs.ask fun u o _ => ⟨⟨trivial, hA _ trivial⟩, fun d v hx _ w o' _ => ?_⟩
  obtain ⟨rfl, rfl⟩ := hx
  exact ⟨_, rfl, o.le.domains, o'.le.domains⟩

theorem encodePrepared_error (h : log.encodePrepared p = .error e) :
    ∃ what, e = .limitExceeded what := by
  unfold Log.encodePrepared at h
  simp only [ensure] at h
  by_cases hfits : (encodeCommit (log.preparedCommit p)).length ≤ log.options.maxCommitBytes.toNat
  · rw [if_pos hfits] at h
    cases hlen : toU64 (encodeCommit (log.preparedCommit p)).length with
    | none =>
        simp only [commitReference, hlen, okOr, bind, Except.bind, Except.error.injEq] at h
        exact ⟨_, h.symm⟩
    | some len => simp [commitReference, hlen, okOr, bind, Except.bind, pure, Except.pure] at h
  · rw [if_neg hfits] at h
    simp only [bind, Except.bind, Except.error.injEq] at h
    exact ⟨_, h.symm⟩

/-- The head of a token, against a head of the run: the same digest, the same base. -/
theorem Good.baseDigest_eq {i j : Nat} {h h' : Head} {v v' : UpdateVersion} {base : Bytes}
    (g : Good s) (hh : s.HeadAt i h v) (hh' : s.HeadAt j h' v')
    (hbase : encodeHead (publicationBase h) = .ok base) {d : Digest}
    (hd : publicationBaseDigest h' = .ok d) : d = Digest.of base ↔ SameBase h h' := by
  obtain ⟨base', hbase', hd'⟩ := publicationBaseDigest_ok hh'.valid
  obtain rfl := Except.ok.inj (hd'.symm.trans hd)
  constructor
  · exact fun heq => (g.sameBase hh' hh hbase' hbase heq).symm
  · intro hs
    rw [sameBase_iff_publicationBase.1 hs] at hbase
    rw [Except.ok.inj (hbase.symm.trans hbase')]

/-- What a call that resumes a candidate returns. -/
def State.Resumed (s : State) (t L : Nat) (b : Begun) (r : Except Error Resolution) : Prop :=
  match r with
  | .ok _ => ∃ ref, b.call.target = some ref ∧ s.ResolutionAnswer t L ref True r
  | .error e => s.Excused t e

theorem State.ResolutionAnswer.resumed {r : Except Error Resolution}
    (htarget : b.call.target = some ref) (h : s.ResolutionAnswer t L ref True r) :
    s.Resumed t L b r := by
  cases r with
  | ok res => exact ⟨ref, htarget, h⟩
  | error e => exact h

/-- The candidate of a token is published again on a head with its base, as its own handle
would. -/
theorem retryRecovered_runs {d d' : Digest} {pending : PendingCommit} (g : Good s)
    (hl : s.LogOK log) (hp : s.PreparedOK L p) (hL : L ≤ s.now)
    (he : log.encodePrepared p = .ok (ref, bytes)) (hb : s.calls[t]? = some b)
    (htarget : b.call.target = some ref) (clean : s.Clean t 0) (load : Loaded t m current s)
    (hbase : SameBase p.view.head current.head)
    (hpend : ∀ v, s.Le v → v.PendingCommitOK v.now pending) :
    Runs t Anything (do
      Prog.lift (ensure (current.head.nextSequence = (p.toToken d d').nextSequence ∧
        current.head.tip = (p.toToken d d').tip) (invalid "recovery token source fields disagree"))
      let stagingDomain ← newStagingDomain
      let prepared : PreparedCommit :=
        { view := current, stagingDomain, transactionId := (p.toToken d d').transactionId,
          storageId := (p.toToken d d').storageId, operation := (p.toToken d d').operation,
          result := (p.toToken d d').result, objects := (p.toToken d d').objects }
      let (recomputed, _) ← Prog.lift (log.encodePrepared prepared)
      Prog.lift (ensure (recomputed = ref)
        (invalid "recovery token candidate disagrees with source"))
      match ← log.resolvePrepared prepared ref none with
      | .stillPending _ => return Resolution.stillPending pending
      | other => return other)
      (fun r u => u.ResolutionAnswer t L ref True r) s := by
  have hnext := (sameBase_iff.1 hbase).2.2.2.1
  have hsource : ensure (current.head.nextSequence = (p.toToken d d').nextSequence ∧
      current.head.tip = (p.toToken d d').tip) (invalid "recovery token source fields disagree") =
      .ok () := ensure_ok.2 ⟨hnext.symm, hbase.tip.symm⟩
  refine Runs.liftBind (fun _ _ => ?_) fun e u h _ _ => by rw [hsource] at h; cases h
  refine Runs.bind (A := Reads) le_anything g (newStagingDomain_runs le_rfl) ?_ nofun
  rintro domain u tr gu ⟨domain', hd', hdom, -⟩
  obtain rfl := Except.ok.inj hd'
  -- the candidate, as prepared on the head that was loaded
  have hprep : u.PreparedOK u.now { p with view := current, stagingDomain := domain } := by
    obtain ⟨-, q', log', p', hp', h1, h2, h3, h4, h5, hs'⟩ := hp
    exact ⟨load.viewOK.mono tr.le tr.le.now, q', log', p', hp'.mono tr.le, h1, h2, h3, h4, h5,
      hs'.trans hbase⟩
  have he' : log.encodePrepared { p with view := current, stagingDomain := domain } =
      .ok (ref, bytes) := by
    have hb' : SameBase p.view.head
        ({ p with view := current, stagingDomain := domain } : PreparedCommit).view.head := hbase
    refine (encodePrepared_congr ?_ ?_ ?_ ?_ ?_ ?_ ?_ ?_ hb').1.trans he <;> rfl
  have hfresh : ¬ log.proofMatches domain = true := by
    simp only [Log.proofMatches, beq_iff_eq]
    exact Nat.ne_of_gt (Nat.lt_of_lt_of_le hl.2.1 hdom)
  refine Runs.liftBind (fun x hx => ?_) fun e v h _ _ => ?_
  swap
  · exact absurd (he'.symm.trans h) nofun
  obtain rfl := Except.ok.inj (he'.symm.trans hx)
  have hagree : ensure (ref = ref) (invalid "recovery token candidate disagrees with source") =
      .ok () := ensure_ok.2 rfl
  refine Runs.liftBind (fun _ _ => ?_) fun e v h _ _ => by rw [hagree] at h; cases h
  refine Runs.bind le_rfl gu (resolvePrepared_runs gu (hl.mono tr.le) hprep le_rfl he'
    (tr.le.call hb) htarget (clean.reads tr) fun hm => absurd hm hfresh) ?_ fun e v _ _ h => h
  have hLu : L ≤ u.now := hL.trans tr.le.now
  rintro (view | view | handed | view) v tr₁ gv h
  · exact Runs.pure fun w o _ => ⟨o.le.history.subset h.1, h.2.mono o.le o.le.now⟩
  · exact Runs.pure fun w o _ => (State.Negative.others gv.inv o h).later hLu
  · exact Runs.pure fun w o _ _ => hpend w ((tr.le.trans tr₁.le).trans o.le)
  · exact Runs.pure fun w o _ => State.ViewOK.mono o.le o.le.now h

theorem resume_runs {token : Bytes} (g : Good s) (hl : s.LogOK log) (hp : s.TokenOK L token)
    (hL : L ≤ s.now) (hb : s.calls[t]? = some b)
    (htarget : b.call.target = (Call.resume log token).target) (clean : s.Clean t 0) :
    Runs t Anything (log.resume token) (fun r u => u.Resumed t L b r) s := by
  obtain ⟨p, encoded, base, hprep, henc, hbase, hdec⟩ := hp.decode hl g.inv
  obtain ⟨hstored, hsizes, hdeps, htail⟩ := hprep.stored hl g.inv
  obtain ⟨⟨i, hiL, hh⟩, hobs⟩ := id hprep.1
  have hrec := recoveredCommitRef_toToken (Digest.of encoded) (Digest.of base)
    (validateView_ok.2 (hl.head g.inv hh)) hsizes hdeps
  refine Runs.liftBind (fun recovered hr => ?_) fun e u h _ _ => by rw [hdec] at h; cases h
  obtain rfl := Except.ok.inj (hdec.symm.trans hr)
  cases he : log.encodePrepared p with
  | error e =>
      -- the candidate does not fit the options, and neither does what the token says
      obtain ⟨what, rfl⟩ := encodePrepared_error he
      rw [he] at hrec
      refine Runs.liftBind (fun x hx => ?_) fun e u h _ _ => ?_
      · rw [hrec] at hx
        cases hx
      · rw [hrec] at h
        obtain rfl := Except.error.inj h
        exact excused_limit
  | ok x =>
  obtain ⟨ref, bytes⟩ := x
  rw [he] at hrec
  have htarget : b.call.target = some ref := by
    rw [htarget]
    simp [Call.target, hdec, hrec, Except.toOption, Except.map]
  refine Runs.liftBind (fun x hx => ?_) fun e u h _ _ => by rw [hrec] at h; cases h
  obtain rfl := Except.ok.inj (hrec.symm.trans hx)
  obtain ⟨q, log₀, p₀, k, hp₀, he₀, hs, hid, hinc, hk⟩ := hprep.origin hl g.inv he
  have hpend : ∀ v, s.Le v → v.PendingCommitOK v.now ⟨none, ref, some token⟩ :=
    fun v hle => ⟨token, rfl, hp.mono hle (hL.trans hle.now)⟩
  refine Runs.bind (A := Reads) le_anything g (evidence_runs g (load_runs le_rfl g hl)) ?_
    fun e u _ _ h => absurd h.2 h.1
  rintro (_ | current) u tr gu h
  · exact Runs.pure fun v o _ => ⟨ref, htarget, fun _ => hpend v (tr.le.trans o.le)⟩
  have load : Loaded t s.now current u := h
  obtain ⟨m, hm, hhm⟩ := load.head
  have him : i ≤ m := by have := hh.lt; omega
  have hkm : k ≤ m := by have := hk.lt; omega
  have hh₁ := hh.mono tr.le
  have clean₁ : u.Clean t 0 := clean.reads tr
  obtain ⟨encoded', henc'⟩ := encodeHead_of_valid hhm.valid
  refine Runs.liftBind (fun full hfull => ?_) fun e v h _ _ => by rw [henc'] at h; cases h
  obtain ⟨base', -, hdig'⟩ := publicationBaseDigest_ok hhm.valid
  refine Runs.liftBind (fun d hd => ?_) fun e v h _ _ => by rw [hdig'] at h; cases h
  have hsame : d = Digest.of base ↔ SameBase p.view.head current.head :=
    gu.baseDigest_eq hh₁ hhm hbase hd
  -- a head that is not newer and has the base of the candidate is the head of the candidate
  have exact_of_same : current.head.generation ≤ p.view.head.generation →
      current.head = p.view.head ∧ current.version = p.view.version := by
    intro hgen
    have := UInt64.le_iff_toNat_le.1 hgen
    rw [gu.inv.generation hhm, gu.inv.generation hh₁] at this
    obtain rfl : m = i := by omega
    exact hhm.unique hh₁
  refine Runs.ite (fun hretry => ?_) fun hno => ?_
  · have hbase' : SameBase p.view.head current.head := by
      rcases hretry with ⟨hver, -, -⟩ | ⟨heq, -⟩
      · rw [(gu.inv.version_unique hh₁ hhm (.inl hver.symm)).2]
        exact SameBase.refl _
      · exact hsame.1 heq
    refine (retryRecovered_runs gu (hl.mono tr.le) (hprep.mono tr.le le_rfl)
      (hL.trans tr.le.now) he (tr.le.call hb) htarget clean₁ load hbase'
      fun v hle => hpend v (tr.le.trans hle)).mono ?_
    exact fun r v _ h => h.resumed htarget
  -- a head with this base that is not newer is the exact source, which was excluded
  refine Runs.ite (fun hbad => ?_) fun hother => ?_
  · obtain ⟨heq, hver⟩ := exact_of_same hbad.2
    refine absurd (.inl ⟨hver, ?_, ?_⟩) hno
    · rw [heq]
      rfl
    · rw [heq] at hfull
      rw [Except.ok.inj (hfull.symm.trans henc)]
      rfl
  have hmoved : ¬ SameBase p₀.view.head current.head := by
    intro hsb
    have hd' : d = Digest.of base := hsame.2 (hs.symm.trans hsb)
    by_cases hgen : current.head.generation ≤ p.view.head.generation
    · exact hother ⟨hd', hgen⟩
    · exact hno (.inr ⟨hd', UInt64.not_le.1 hgen⟩)
  have hch : u.Changed t L m ref p₀ current :=
    ⟨State.Candidate.mono tr.le ⟨q, log₀, bytes, hp₀, he₀⟩, load.later hL, hhm,
      ⟨k, hkm, hk.mono tr.le⟩, hmoved, clean₁.le (Nat.zero_le _)⟩
  have hcl := hch.classify gu.inv
  refine Runs.liftBind (fun c hc => ?_) fun e v hc _ _ => by rw [hc] at hcl; exact hcl.elim
  refine Runs.ite (fun hcond => ?_) fun _ => Runs.pure fun v o _ =>
    (hch.resolution gu.inv o hc).resumed htarget
  have hvc : Viewing u log current := ⟨hl.mono tr.le, load.viewOK⟩
  have hpend' : ∀ v, u.Le v → True → v.PendingCommitOK v.now ⟨none, ref, some token⟩ :=
    fun v hle _ => hpend v (tr.le.trans hle)
  refine (verifyEvidence_runs gu hvc (tailContains_iff.1 hcond.2) hch hc hpend').mono ?_
  exact fun r v _ h => h.resumed htarget

/-- **`resolve`.** -/
theorem resolve_runs {pending : PendingCommit} (g : Good s) (hb : s.calls[t]? = some b)
    (hcall : b.call = .resolve log pending) (hl : s.LogOK log) (hp : s.PendingCommitOK L pending)
    (hL : L ≤ s.now) (clean : s.Clean t 0) :
    Runs t Anything (log.resolve pending) (fun r u => u.Resumed t L b r) s := by
  unfold State.PendingCommitOK at hp
  unfold Log.resolve
  cases hpr : pending.prepared with
  | some prepared =>
      rw [hpr] at hp
      obtain ⟨hprep, hens⟩ := hp
      have htarget : b.call.target = some pending.commitRef := by
        rw [hcall]
        simp [Call.target, hpr]
      -- the reference of the candidate is the one its body was stored under
      obtain ⟨q, log₀, p₀, hp₀, hs, hid, -, -, henc, -⟩ := hprep.candidate hl g.inv
      obtain ⟨q', log', p', bytes, hp', hid', he', -⟩ := id hens
      obtain ⟨-, rfl, e1, e2, e3, e4, e5⟩ := g.inv.prepared_unique hp₀ hp'
        (hid.symm.trans hid'.symm)
      have hview : SameBase p₀.view.head p'.view.head := e1 ▸ SameBase.refl _
      have hcong : log₀.encodePrepared p' = log₀.encodePrepared p₀ :=
        (encodePrepared_congr rfl rfl rfl e2.symm (hid'.trans hid) e3.symm
        e4.symm e5.symm hview).1
      have he : log.encodePrepared prepared = .ok (pending.commitRef, bytes) := by
        rw [henc, ← hcong, he']
      refine (resolvePrepared_runs g hl hprep hL he hb htarget clean fun _ => hens).mono ?_
      rintro (e | (view | view | pending' | view)) u gu h
      · exact h
      · exact ⟨_, htarget, h⟩
      · exact ⟨_, htarget, State.Negative.later hL h⟩
      · exact ⟨_, htarget, fun _ => h hens⟩
      · exact ⟨_, htarget, h⟩
  | none =>
      rw [hpr] at hp
      obtain ⟨token, htok, hok⟩ := hp
      have hrt : pending.recoveryToken = .ok token := by
        simp [PendingCommit.recoveryToken, hpr, htok]
      refine Runs.liftBind (fun x hx => ?_) fun e u h _ _ => by rw [hrt] at h; cases h
      obtain rfl := Except.ok.inj (hrt.symm.trans hx)
      refine resume_runs g hl hok hL hb ?_ clean
      rw [hcall]
      simp [Call.target, hpr, hrt, Except.toOption]

end ObjectLog
