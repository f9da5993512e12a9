import ObjectLog.Proof.ReadOps

/-!
# Reading the commits of a view

The commits of a tail are read ahead: requests for later ones are in the air while an
earlier one is taken. Each request was sent after the view was observed, which is all that
its answer is worth depends on.
-/

set_option linter.unusedSectionVars false

namespace ObjectLog

open Rely

variable [Blake3] {s s' u : State} {t : Nat} {A : Effect → Prop} {log : Log} {view : View}

/-! ## One commit -/

theorem validatePreparedSizes_ok {operation result : Bytes} :
    log.validatePreparedSizes operation result = .ok () ↔
      operation.length ≤ log.options.maxInlineOperationBytes.toNat ∧
      result.length ≤ log.options.maxInlineResultBytes.toNat := by
  simp [Log.validatePreparedSizes, bind_ok]

/-- The record of a stored commit. -/
theorem CommitBody.commitRecord {body : Bodies} {h : Head} {c : CommitRef} {commit : Commit}
    (b : CommitBody body h c commit) (e1 : h.logId = log.logId)
    (e2 : h.incarnation = log.incarnation) (e3 : h.options = log.options) :
    log.commitRecord c (encodeCommit commit) = .ok
      { reference := c, expectedTip := commit.expectedTip, operation := commit.operation,
        result := commit.result, objects := commit.objects } := by
  have hlen : toU64 (encodeCommit commit).length = some c.len := by
    rw [b.len, toU64_eq_some (UInt64.toNat_lt _), UInt64.ofNat_toNat]
  have hsize : log.validatePreparedSizes commit.operation commit.result = .ok () :=
    validatePreparedSizes_ok.2 ⟨e3 ▸ b.operation, e3 ▸ b.result⟩
  refine bind_ok.2 ⟨c.len, okOr_ok.2 hlen, ?_⟩
  refine bind_ok.2 ⟨(), ensure_ok.2 ⟨rfl, b.digest⟩, ?_⟩
  refine bind_ok.2 ⟨commit, b.decode, ?_⟩
  refine bind_ok.2 ⟨(), hsize, ?_⟩
  refine bind_ok.2 ⟨(), b.dependencies log e3.symm, ?_⟩
  exact bind_ok.2 ⟨(), ensure_ok.2 ⟨b.logId.trans e1, b.incarnation.trans e2, b.transactionId⟩, rfl⟩

theorem CommitBody.collectCommit {body : Bodies} {h : Head} {c : CommitRef} {commit : Commit}
    (b : CommitBody body h c commit) (e1 : h.logId = log.logId)
    (e2 : h.incarnation = log.incarnation) (e3 : h.options = log.options) :
    log.collectCommit c (some (encodeCommit commit)) = .ok (some
      { reference := c, expectedTip := commit.expectedTip, operation := commit.operation,
        result := commit.result, objects := commit.objects }) := by
  refine bind_ok.2 ⟨(), ensure_ok.2 (le_of_eq b.len), ?_⟩
  exact bind_ok.2 ⟨_, b.commitRecord e1 e2 e3, rfl⟩

/-- A read of a commit body that has been started, or refused. -/
def State.CommitStarted (s : State) (t L : Nat) (log : Log) (c : CommitRef)
    (x : Except Error FlightId) : Prop :=
  x = .error .requestDenied ∨ ∃ j, x = .ok j ∧
    s.Asked t (.get (commitKey log.incarnation c)) L j

theorem State.CommitStarted.mono {L : Nat} {c : CommitRef} {x : Except Error FlightId}
    (hle : s.Le s') (h : s.CommitStarted t L log c x) : s'.CommitStarted t L log c x :=
  h.imp id fun ⟨j, hj, ask⟩ => ⟨j, hj, ask.mono hle⟩

/-- The view was observed before moment `L`. -/
def State.Before (s : State) (L : Nat) (view : View) : Prop :=
  L ≤ s.now ∧ ∃ i, i < L ∧ s.HeadAt i view.head view.version

theorem State.Before.mono {L : Nat} (hle : s.Le s') (h : s.Before L view) : s'.Before L view := by
  obtain ⟨hL, i, hi, hh⟩ := h
  exact ⟨hL.trans hle.now, i, hi, hh.mono hle⟩

theorem Viewing.before (h : Viewing s log view) : s.Before s.now view :=
  ⟨le_rfl, h.view.1⟩

/-- A commit of the tail of a durable view has its body. -/
theorem Viewing.commitBody (h : Viewing s log view) (g : Good s) {c : CommitRef}
    (hc : c ∈ view.head.tail) : ∃ commit, CommitBody s.body view.head c commit := by
  obtain ⟨i, hh⟩ := h.head
  exact (g.inv.headStored hh).commits c hc

theorem startCommit_runs {L : Nat} {c : CommitRef} (hA : Reads ≤ A) (g : Good s)
    (hv : Viewing s log view) (hL : L ≤ s.now) (hc : c ∈ view.head.tail) :
    Runs t A (log.startCommit c) (fun r u => ∃ x, r = .ok x ∧ u.CommitStarted t L log c x) s := by
  obtain ⟨commit, b⟩ := hv.commitBody g hc
  obtain ⟨-, e2, e3⟩ := hv.same g.inv
  refine Runs.ite (fun hlt => ?_) fun _ => ?_
  · have := b.fits
    rw [e3] at this
    exact absurd hlt (UInt64.not_lt.2 this)
  · have hr : Reads (.submit (.get (commitKey log.incarnation c))) := trivial
    refine (startRead_runs hA hr g _).mono ?_
    rintro r u gu (rfl | ⟨j, rfl, sent, landed, told, hf, hs⟩)
    · exact ⟨_, rfl, .inl rfl⟩
    · exact ⟨_, rfl, .inr ⟨j, rfl, sent, landed, told, hf, hL.trans hs⟩⟩

/-- The second half of a read of a commit of the tail. -/
theorem finishCommit_runs {L : Nat} {c : CommitRef} {x : Except Error FlightId} (hA : Reads ≤ A)
    (g : Good s) (hv : Viewing s log view) (hb : s.Before L view) (hc : c ∈ view.head.tail)
    (hx : s.CommitStarted t L log c x) :
    Runs t A (log.finishCommit c x) (fun r u => match r with
      | .ok (some record) => u.RecordOK view.head c record
      | .ok none => u.Expired view ∧ u.Lacks t L (commitKey log.incarnation c)
      | .error e => e.Unavailable) s := by
  obtain ⟨commit, b⟩ := hv.commitBody g hc
  obtain ⟨e1, e2, e3⟩ := hv.same g.inv
  obtain ⟨hL, i, hi, hh⟩ := hb
  have hr : Reads (.submit (.get (commitKey log.incarnation c))) := trivial
  refine (finishRead_runs hA hr _ furtherReads s x g hL ?_).track.mono ?_
  · rintro j rfl
    rcases hx with hx | ⟨j', hj', ask⟩
    · cases hx
    · obtain rfl := Except.ok.inj hj'
      exact ask
  · rintro r u gu ⟨tr, ⟨e, rfl, rfl⟩ | h⟩
    · rcases hx with hx | ⟨j', hj', -⟩
      · obtain rfl := Except.error.inj hx
        exact .inl rfl
      · cases hj'
    · have hbody := tr.le.body _ _ b.stored
      rw [e2] at hbody
      cases r with
      | error e =>
          rcases h with h | ⟨ans, hans, hcol⟩
          · exact h
          · have := hans.get gu.inv
            cases ans with
            | none => cases hcol
            | some bytes =>
                obtain rfl := Option.some.inj (hbody.symm.trans this.1)
                rw [b.collectCommit e1 e2 e3] at hcol
                cases hcol
      | ok a =>
          obtain ⟨ans, hans, hcol⟩ := h
          have := hans.get gu.inv
          cases ans with
          | none =>
              obtain rfl := Except.ok.inj hcol
              have hre : Reaches u.body view.head (commitKey log.incarnation c) := by
                rw [← e2]
                exact .commit hc
              exact ⟨State.Missed.expired this hi (hh.mono tr.le) hre, this, hans⟩
          | some bytes =>
              obtain rfl := Option.some.inj (hbody.symm.trans this.1)
              rw [b.collectCommit e1 e2 e3] at hcol
              obtain rfl := Except.ok.inj hcol
              exact ⟨commit, b.mono tr.le.body, rfl⟩

theorem readCommit_runs {c : CommitRef} (hA : Reads ≤ A) (g : Good s) (hv : Viewing s log view)
    (hc : c ∈ view.head.tail) :
    Runs t A (log.readCommit c) (fun r u => match r with
      | .ok record => u.RecordOK view.head c record
      | .error e => e.Unavailable ∨
          (e.Missing ∧ u.Lacks t s.now (commitKey log.incarnation c))) s := by
  unfold Log.readCommit Log.readCommitOptional
  refine Runs.bind (P := fun r u => match r with
      | .ok (some record) => u.RecordOK view.head c record
      | .ok none => u.Lacks t s.now (commitKey log.incarnation c)
      | .error e => e.Unavailable) le_rfl g ?_ ?_ fun e u _ _ h => .inl h
  · refine Runs.bind le_rfl g (startCommit_runs hA g hv le_rfl hc) ?_ nofun
    rintro x u tr gu ⟨x', hx', hst⟩
    obtain rfl := Except.ok.inj hx'
    refine (finishCommit_runs hA gu (hv.mono tr.le) (hv.before.mono tr.le) hc hst).mono ?_
    rintro (e | (_ | record)) v gv h
    · exact h
    · exact h.2
    · exact h
  · rintro (_ | record) u tr gu h
    · exact Runs.throw fun v o _ =>
        .inr ⟨.inr (.inr (.inl rfl)), h.mono o.le tr.le.now gu.inv⟩
    · exact Runs.pure fun v o _ => State.RecordOK.mono o.le h

/-! ## The tail -/

/-- A record of the tail names the parent that the tail says. -/
theorem State.RecordOK.checkParent {k : Nat} {c : CommitRef} {record : CommitRecord}
    (hr : s.RecordOK view.head c record) (g : Good s) (hv : Viewing s log view)
    (hk : view.head.tail[k]? = some c) : checkParent (view.head.parentAt k) record = .ok () := by
  obtain ⟨commit, b, rfl⟩ := hr
  obtain ⟨i, hh⟩ := hv.head
  exact ensure_ok.2 (g.inv.chain hh hk b)

theorem finishTailRecord_runs {L k : Nat} {c : CommitRef} {x : Except Error FlightId}
    (hA : Reads ≤ A) (g : Good s) (hv : Viewing s log view) (hb : s.Before L view)
    (hk : view.head.tail[k]? = some c) (hx : s.CommitStarted t L log c x) :
    Runs t A (log.finishTailRecord view k c x) (fun r u => match r with
      | .ok (some record) => u.RecordOK view.head c record
      | .ok none => u.Expired view
      | .error e => e.Unavailable) s := by
  refine Runs.bind le_rfl g (finishCommit_runs hA g hv hb (List.mem_of_getElem? hk) hx) ?_
    fun _ _ _ _ h => h
  rintro (_ | record) u tr gu h
  · exact Runs.pure fun v o _ => State.Expired.mono o.le h.1
  · have hp := State.RecordOK.checkParent h gu (hv.mono tr.le) hk
    rw [← View.expectedTipAt_eq] at hp
    refine Runs.liftBind (fun _ _ => ?_) fun e v he _ _ => ?_
    · exact Runs.pure fun v o _ => State.RecordOK.mono o.le h
    · rw [hp] at he
      cases he

/-- The records of the tail from `k` on. -/
def State.TailRecords (s : State) (view : View) (k : Nat) (records : List CommitRecord) : Prop :=
  List.Forall₂ (fun c record => s.RecordOK view.head c record) (view.head.tail.drop k) records

theorem State.TailRecords.mono {k : Nat} {records : List CommitRecord} (hle : s.Le s')
    (h : s.TailRecords view k records) : s'.TailRecords view k records :=
  List.Forall₂.imp (fun _ _ hr => State.RecordOK.mono hle hr) h

theorem forall₂_getElem? {α β : Type} {R : α → β → Prop} {xs : List α} {ys : List β}
    (h : List.Forall₂ R xs ys) {j : Nat} {y : β} (hj : ys[j]? = some y) :
    ∃ x, xs[j]? = some x ∧ R x y := by
  induction h generalizing j with
  | nil => simp at hj
  | @cons a b _ _ hab _ ih =>
      cases j with
      | zero =>
          obtain rfl : b = y := by simpa using hj
          exact ⟨a, rfl, hab⟩
      | succ j => exact ih (by simpa using hj)

/-- The reads in progress belong to the next references. -/
def State.AheadOK (s : State) (t L : Nat) (log : Log) (references : List CommitRef)
    (started : List (Except Error FlightId)) : Prop :=
  started.length ≤ references.length ∧ ∀ (j : Nat) x, started[j]? = some x →
    ∃ c, references[j]? = some c ∧ s.CommitStarted t L log c x

theorem State.AheadOK.mono {L : Nat} {references : List CommitRef}
    {started : List (Except Error FlightId)} (hle : s.Le s')
    (h : s.AheadOK t L log references started) : s'.AheadOK t L log references started := by
  refine ⟨h.1, fun j x hj => ?_⟩
  obtain ⟨c, hc, hst⟩ := h.2 j x hj
  exact ⟨c, hc, hst.mono hle⟩

theorem readAhead_runs {L room : Nat} {references : List CommitRef}
    {ahead : List (Except Error FlightId)} (hA : Reads ≤ A) (g : Good s) (hv : Viewing s log view)
    (hL : L ≤ s.now) (hsub : ∀ c ∈ references, c ∈ view.head.tail)
    (ha : s.AheadOK t L log references ahead) :
    Runs t A (log.readAhead room references ahead) (fun r u => ∃ xs, r = .ok xs ∧
      u.AheadOK t L log references xs) s := by
  refine Runs.bind le_rfl g (Runs.mapM (R := fun c x u => u.CommitStarted t L log c x)
    (fun _ _ _ _ _ hle h => h.mono hle) _ s g fun c hc u hu gu => ?_) ?_ nofun
  · exact startCommit_runs hA gu (hv.mono hu) (hL.trans hu.now)
      (hsub c (List.mem_of_mem_drop (List.mem_of_mem_take hc)))
  · rintro xs u tr gu ⟨xs', hxs, hall⟩
    obtain rfl := Except.ok.inj hxs
    refine Runs.pure fun v o _ => ⟨_, rfl, State.AheadOK.mono o.le ?_⟩
    have hlen := hall.length_eq
    simp only [List.length_take, List.length_drop] at hlen
    refine ⟨by have := ha.1; simp only [List.length_append]; omega, fun j x hj => ?_⟩
    rcases Nat.lt_or_ge j ahead.length with hlt | hge
    · rw [List.getElem?_append_left hlt] at hj
      exact (ha.mono tr.le).2 j x hj
    · rw [List.getElem?_append_right hge] at hj
      obtain ⟨c, hc, hst⟩ := forall₂_getElem? hall hj
      refine ⟨c, ?_, hst⟩
      obtain ⟨hlt, -⟩ := List.getElem?_eq_some_iff.1 hc
      rw [List.length_take] at hlt
      rwa [List.getElem?_take_of_lt (by omega), List.getElem?_drop,
        Nat.add_sub_cancel' hge] at hc

/-- A read of the tail of a view failed: the store refused, or a commit was missing and the
view has expired. -/
def State.TailError (s : State) (t : Nat) (view : View) (e : Error) : Prop :=
  s.ViewError view e ∧ (e.Unavailable ∨ ∃ key L, key.kind = .commit ∧ s.Lacks t L key)

/-- The tail was read up to a record that the caller did not take. -/
def State.ConsumeError {σ : Type} (s : State) (view : View)
    (consume : σ → CommitRecord → Except Error σ) (st : σ) (e : Error) : Prop :=
  ∃ (records : List CommitRecord) (st₁ : σ) (record : CommitRecord),
    records.foldlM consume st = .ok st₁ ∧ consume st₁ record = .error e ∧
    ∀ x ∈ record :: records, ∃ c, s.RecordOK view.head c x

/-- **The tail of a view, record by record.** -/
theorem consumeTail_runs {σ : Type} {consume : σ → CommitRecord → Except Error σ} {L window : Nat}
    (hA : Reads ≤ A) :
    ∀ (references : List CommitRef) (k : Nat) (started : List (Except Error FlightId)) (st : σ)
      (s : State), Good s → Viewing s log view → s.Before L view →
      references = view.head.tail.drop k → s.AheadOK t L log references started →
      Runs t A (log.consumeTail view window consume references started (view.head.parentAt k) st)
        (fun r u => match r with
          | .ok st' => ∃ records, u.TailRecords view k records ∧
              records.foldlM consume st = .ok st'
          | .error e => u.TailError t view e ∨ u.ConsumeError view consume st e) s
  | [], k, started, st, s, g, hv, hb, href, ha => by
      refine Runs.pure fun u o gu => ⟨[], ?_, rfl⟩
      rw [State.TailRecords, ← href]
      exact .nil
  | c :: references, k, started, st, s, g, hv, hb, href, ha => by
      have hk : view.head.tail[k]? = some c := by
        have := congrArg (·[0]?) href
        simpa [List.getElem?_drop] using this.symm
      have hrest : references = view.head.tail.drop (k + 1) := by
        have := congrArg List.tail href
        simpa [List.tail_drop] using this
      have hsub : ∀ d ∈ c :: references, d ∈ view.head.tail := by
        intro d hd
        rw [href] at hd
        exact List.mem_of_mem_drop hd
      rw [Log.consumeTail]
      -- the read in front is started now if it was not before
      refine Runs.bind (P := fun r u => ∃ x ahead, r = .ok (x, ahead) ∧
        u.CommitStarted t L log c x ∧ u.AheadOK t L log references ahead) le_rfl g ?_ ?_ nofun
      · cases started with
        | nil =>
            refine Runs.bind le_rfl g (startCommit_runs hA g hv hb.1 (hsub c (by simp))) ?_ nofun
            rintro x u tr gu ⟨x', hx', hst⟩
            obtain rfl := Except.ok.inj hx'
            exact Runs.pure fun v o _ =>
              ⟨x, [], rfl, hst.mono o.le, by simp, fun j y hj => by simp at hj⟩
        | cons x ahead =>
            refine Runs.pure fun v o _ => ⟨x, ahead, rfl, ?_, ?_⟩
            · obtain ⟨d, hd, hst⟩ := ha.2 0 x rfl
              obtain rfl : c = d := by simpa using hd
              exact hst.mono o.le
            · refine ⟨by have := ha.1; simpa using this, fun j y hj => ?_⟩
              obtain ⟨d, hd, hst⟩ := ha.2 (j + 1) y (by simpa using hj)
              exact ⟨d, by simpa using hd, hst.mono o.le⟩
      rintro ⟨x, ahead⟩ u tr gu ⟨x', ahead', hxa, hst, hahead⟩
      obtain ⟨rfl, rfl⟩ := Prod.mk.inj (Except.ok.inj hxa)
      refine Runs.bind le_rfl gu (readAhead_runs hA gu (hv.mono tr.le) (hb.mono tr.le).1
        (fun d hd => hsub d (by simp [hd])) hahead) ?_ nofun
      rintro ahead₁ v tr₁ gv ⟨_, ha₁, hahead₁⟩
      obtain rfl := Except.ok.inj ha₁
      have hle := tr.le.trans tr₁.le
      refine Runs.bind le_rfl gv (finishCommit_runs hA gv (hv.mono hle) (hb.mono hle)
        (hsub c (by simp)) (hst.mono tr₁.le)) ?_ fun e w tr₂ gw h => .inl ⟨.inl h, .inl h⟩
      rintro (_ | record) w tr₂ gw h
      · refine (missingReadError_runs hA gw (hv.log.mono (hle.trans tr₂.le))).track.mono ?_
        rintro r x gx ⟨tr₃, e, rfl, he⟩
        have hL := (hb.mono (hle.trans tr₂.le)).1
        exact .inl ⟨he h.1, .inr ⟨_, L, rfl, h.2.mono tr₃.le hL gw.inv⟩⟩
      · have hle₂ := hle.trans tr₂.le
        have hp := State.RecordOK.checkParent h gw (hv.mono hle₂) hk
        refine Runs.liftBind (fun _ _ => ?_) fun e _ he _ _ => by rw [hp] at he; cases he
        refine Runs.liftBind (fun st' hst' => ?_) fun e y he o _ => ?_
        rotate_left
        · refine .inr ⟨[], st, record, rfl, he, fun x hx => ⟨c, ?_⟩⟩
          rw [List.mem_singleton.1 hx]
          exact State.RecordOK.mono o.le h
        have hnext : some record.reference.digest = view.head.parentAt (k + 1) := by
          obtain ⟨commit, -, rfl⟩ := h
          simp [Head.parentAt, hk]
        rw [hnext]
        refine (consumeTail_runs hA references (k + 1) ahead₁ st' w gw (hv.mono hle₂)
          (hb.mono hle₂) hrest (hahead₁.mono tr₂.le)).track.mono ?_
        rintro (e | st'') y gy ⟨tr₃, h'⟩
        · rcases h' with h' | ⟨records, st₁, rec', hf, hc, hall⟩
          · exact .inl h'
          · refine .inr ⟨record :: records, st₁, rec',
              by simp [List.foldlM_cons, hst', hf, bind, Except.bind], hc, fun x hx => ?_⟩
            by_cases hxr : x = record
            · rw [hxr]
              exact ⟨c, State.RecordOK.mono tr₃.le h⟩
            · refine hall x ?_
              simp only [List.mem_cons, hxr, false_or] at hx ⊢
              exact hx
        · obtain ⟨records, hrec, hf⟩ := h'
          refine ⟨record :: records, ?_, by simp [List.foldlM_cons, hst', hf, bind, Except.bind]⟩
          rw [State.TailRecords, ← href]
          refine .cons (State.RecordOK.mono tr₃.le h) ?_
          rw [hrest]
          exact hrec

theorem tailRecords_runs {σ : Type} {consume : σ → CommitRecord → Except Error σ} {st : σ}
    (hA : Reads ≤ A) (g : Good s) (hv : Viewing s log view) :
    Runs t A (log.tailRecords view consume st) (fun r u => match r with
      | .ok st' => ∃ records, u.TailRecords view 0 records ∧ records.foldlM consume st = .ok st'
      | .error e => u.TailError t view e ∨ u.ConsumeError view consume st e) s := by
  refine Runs.liftBind (fun _ _ => ?_) fun e _ he _ _ => by rw [hv.checked g.inv] at he; cases he
  exact consumeTail_runs hA view.head.tail 0 [] st s g hv hv.before rfl
    ⟨by simp, fun j x hj => by simp at hj⟩

theorem rememberTail_runs (hA : Reads ≤ A) : Runs t A (log.rememberTail view)
    (fun r _ => r = .ok ()) s :=
  Runs.ask fun _ _ _ => ⟨⟨trivial, hA _ trivial⟩, fun _ _ _ _ _ _ _ => rfl⟩

theorem tailIsVerified_runs (hA : Reads ≤ A) (g : Good s) : Runs t A (log.tailIsVerified view)
    (fun r _ => ∃ b, r = .ok b) s := by
  refine Runs.bind (P := fun r _ => ∃ b, r = .ok b) le_rfl g ?_
    (fun b _ _ _ _ => Runs.pure fun _ _ _ => ⟨_, rfl⟩) nofun
  exact Runs.ask fun _ _ _ => ⟨⟨trivial, hA _ trivial⟩, fun a _ _ _ _ _ _ => ⟨a, rfl⟩⟩

theorem readTail_runs (hA : Reads ≤ A) (g : Good s) (hv : Viewing s log view) :
    Runs t A (log.readTail view) (fun r u => match r with
      | .ok records => u.TailRecords view 0 records
      | .error e => u.ViewError view e) s := by
  refine Runs.bind le_rfl g (tailRecords_runs hA g hv) ?_ ?_
  · rintro out u tr gu ⟨records, hrec, hf⟩
    -- the consumer collects what it is given
    have hout : ∀ (xs acc : List CommitRecord), xs.foldlM (fun records record =>
        (.ok (records ++ [record]) : Except Error (List CommitRecord))) acc = .ok (acc ++ xs) := by
      intro xs
      induction xs with
      | nil => intro acc; simp [pure, Except.pure]
      | cons x xs ih => intro acc; simp [List.foldlM_cons, bind, Except.bind, ih]
    rw [hout] at hf
    obtain rfl : records = out := by simpa using hf
    refine Runs.bind le_rfl gu (rememberTail_runs hA) ?_ nofun
    rintro _ v tr' gv _
    exact Runs.pure fun w o _ => hrec.mono (tr'.le.trans o.le)
  · rintro e u tr gu (h | ⟨_, _, _, -, h, -⟩)
    · exact h.1
    · cases h

theorem verifyTail_runs (hA : Reads ≤ A) (g : Good s) (hv : Viewing s log view) :
    Runs t A (log.verifyTail view) (fun r u => match r with
      | .ok _ => True
      | .error e => u.TailError t view e) s := by
  refine Runs.liftBind (fun _ _ => ?_) fun e _ he _ _ => by rw [hv.checked g.inv] at he; cases he
  refine Runs.bind le_rfl g (tailIsVerified_runs hA g) ?_ nofun
  rintro b u tr gu -
  refine Runs.ite (fun _ => Runs.pure fun _ _ _ => trivial) fun _ => ?_
  refine Runs.bind le_rfl gu (tailRecords_runs hA gu (hv.mono tr.le)) ?_ ?_
  · rintro - v tr' gv -
    refine (rememberTail_runs hA).mono ?_
    rintro r w gw rfl
    trivial
  · rintro e v tr' gv (h | ⟨_, _, _, -, h, -⟩)
    · exact h
    · cases h

theorem readTailRecord_runs (hA : Reads ≤ A) (g : Good s) (hv : Viewing s log view) (index : Nat) :
    Runs t A (log.readTailRecord view index) (fun r u => match r with
      | .ok record => ∃ c, view.head.tail[index]? = some c ∧ u.RecordOK view.head c record
      | .error e => index < view.head.tail.length → u.ViewError view e) s := by
  unfold Log.readTailRecord Log.readTailRecordOptional
  refine Runs.bind (P := fun r u => match r with
      | .ok (some record) => ∃ c, view.head.tail[index]? = some c ∧ u.RecordOK view.head c record
      | .ok none => u.Expired view
      | .error e => index < view.head.tail.length → e.Unavailable) le_rfl g ?_ ?_
      fun e u tr gu h hi => .inl (h hi)
  · refine Runs.liftBind (fun _ _ => ?_)
      fun e _ he _ _ => by rw [hv.checked g.inv] at he; cases he
    cases hk : view.head.tail[index]? with
    | none =>
        refine Runs.throw fun _ _ _ hlt => ?_
        rw [List.getElem?_eq_none_iff] at hk
        omega
    | some c =>
        have hc := List.mem_of_getElem? hk
        refine Runs.bind le_rfl g (startCommit_runs hA g hv le_rfl hc) ?_ nofun
        rintro x u tr gu ⟨x', hx', hst⟩
        obtain rfl := Except.ok.inj hx'
        refine (finishTailRecord_runs hA gu (hv.mono tr.le) (hv.before.mono tr.le) hk hst).mono ?_
        rintro (e | (_ | record)) v gv h
        · exact fun _ => h
        · exact h
        · exact ⟨c, rfl, h⟩
  · rintro (_ | record) u tr gu h
    · refine (missingReadError_runs hA gu (hv.log.mono tr.le)).mono ?_
      rintro r v gv ⟨e, rfl, he⟩ -
      exact he h
    · obtain ⟨c, hc, hr⟩ := h
      exact Runs.pure fun v o _ => ⟨c, hc, hr.mono o.le⟩

/-! ## Checkpoints -/

theorem decodeCheckpointReference_ok {c : CheckpointRef} {bytes : Bytes} {ck : Checkpoint}
    (h : log.decodeCheckpointReference c bytes = .ok ck) : decodeCheckpoint bytes = .ok ck := by
  simp only [Log.decodeCheckpointReference, bind_ok, pure, Except.pure, Except.ok.injEq] at h
  obtain ⟨ck', hd, _, _, _, _, _, _, _, _, rfl⟩ := h
  exact hd

/-- The checkpoint of a head decodes against its reference. -/
theorem CheckpointBody.decodeReference {body : Bodies} {h : Head} {c : CheckpointRef}
    {ck : Checkpoint} (b : CheckpointBody body h c ck) (e1 : h.logId = log.logId)
    (e2 : h.incarnation = log.incarnation) (e3 : h.options = log.options) :
    log.decodeCheckpointReference c (encodeCheckpoint ck) = .ok ck := by
  refine bind_ok.2 ⟨ck, b.decode, ?_⟩
  refine bind_ok.2 ⟨(), b.dependencies log e3.symm, ?_⟩
  refine bind_ok.2 ⟨_, b.subtree, ?_⟩
  refine bind_ok.2 ⟨(), ensure_ok.2 rfl, ?_⟩
  exact bind_ok.2 ⟨(), ensure_ok.2 ⟨b.logId.trans e1, b.incarnation.trans e2, b.throughSequence,
    b.throughCommit⟩, rfl⟩

/-- The object behind a checkpoint reference matches it. -/
theorem CheckpointBody.matches {body : Bodies} {h : Head} {c : CheckpointRef} {ck : Checkpoint}
    (b : CheckpointBody body h c ck) (e2 : h.incarnation = log.incarnation)
    (e3 : h.options = log.options) :
    Matches body log.incarnation log.options c.object (encodeCheckpoint ck) :=
  ⟨e2 ▸ b.stored, b.digest, b.len, b.counted, e3 ▸ b.fits.2⟩

theorem loadCheckpoint_runs (hA : Reads ≤ A) (g : Good s) (hl : s.LogOK log) (c : CheckpointRef) :
    Runs t A (log.loadCheckpoint c) (fun r u => match r with
      | .ok ck => ∃ bytes, u.body (objectKey log.incarnation c.object) = some bytes ∧
          decodeCheckpoint bytes = .ok ck
      | .error e => ∀ i h v ck, s.HeadAt i h v → CheckpointBody s.body h c ck →
          e.Unavailable ∨
            (e.Missing ∧ u.Lacks t s.now (objectKey log.incarnation c.object))) s := by
  refine Runs.bind le_rfl g (readImmutable_runs hA g _) ?_ ?_
  swap
  · intro e u tr gu h i hd v ck hh b
    obtain ⟨-, e2, e3⟩ := hl.head g.inv hh
    exact h ⟨_, b.matches e2 e3⟩
  rintro bytes u tr gu h
  refine Runs.lift fun v o _ => ?_
  cases hd : log.decodeCheckpointReference c bytes with
  | error e =>
      intro i hd' v' ck hh b
      obtain ⟨e1, e2, e3⟩ := hl.head g.inv hh
      -- what was read is the body, and the body decodes
      have hb := tr.le.body _ _ (b.matches e2 e3).stored
      obtain rfl := Option.some.inj (hb.symm.trans h.1.stored)
      rw [b.decodeReference e1 e2 e3] at hd
      cases hd
  | ok ck => exact ⟨bytes, o.le.body _ _ h.1.stored, decodeCheckpointReference_ok hd⟩

theorem readCheckpoint_runs (hA : Reads ≤ A) (g : Good s) (hv : Viewing s log view) :
    Runs t A (log.readCheckpoint view) (fun r u => match r with
      | .ok none => True
      | .ok (some record) => ∃ c ck, view.head.checkpoint = some c ∧
          CheckpointBody u.body view.head c ck ∧
          record = { snapshot := ck.snapshot, objects := ck.objects }
      | .error e => u.ViewError view e) s := by
  refine Runs.liftBind (fun _ _ => ?_) fun e _ he _ _ => by rw [hv.checked g.inv] at he; cases he
  cases hc : view.head.checkpoint with
  | none => exact Runs.pure fun _ _ _ => trivial
  | some c =>
      obtain ⟨i, hh⟩ := hv.head
      obtain ⟨e1, e2, e3⟩ := hv.same g.inv
      obtain ⟨ck, b⟩ := (g.inv.headStored hh).checkpoint c hc
      have hkey : Reaches s.body view.head (objectKey log.incarnation c.object) := by
        rw [← e2]
        exact .checkpoint hc
      have hm := b.matches e2 e3
      have hlen : log.validateCheckpointBytes c.object.len.toNat = .ok () := by
        have := b.fits
        rw [e3] at this
        refine bind_ok.2 ⟨(), ensure_ok.2 (UInt64.le_iff_toNat_le.1 this.1), ?_⟩
        exact ensure_ok.2 (UInt64.le_iff_toNat_le.1 this.2)
      refine Runs.liftBind (fun _ _ => ?_) fun e _ he _ _ => by rw [hlen] at he; cases he
      refine Runs.bind (P := fun r u => match r with
        | .ok ck' => ck' = ck
        | .error e => u.ViewError view e) le_rfl g ?_ ?_ fun _ _ _ _ h => h
      · refine Runs.bind le_rfl g (readImmutableForView_runs hA g hv c.object) ?_
          fun e u _ _ h => h ⟨_, hm⟩ hkey
        rintro bytes u tr gu h
        obtain rfl := Option.some.inj ((tr.le.body _ _ hm.stored).symm.trans h.1.stored)
        exact Runs.lift fun v o _ => by rw [b.decodeReference e1 e2 e3]
      · rintro ck' u tr gu rfl
        exact Runs.pure fun v o _ => ⟨c, ck', rfl, b.mono (tr.le.trans o.le).body, rfl⟩

end ObjectLog
