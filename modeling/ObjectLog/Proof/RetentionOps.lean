import ObjectLog.Proof.UpdateOps

/-!
# Retentions

An acquisition is only confirmed by a head of the epoch of the view that has the retention.
-/

set_option linter.unusedSectionVars false

namespace ObjectLog

open Rely

variable [Blake3] {s u : State} {t i : Nat} {A : Effect → Prop} {log : Log}
  {view current : View} {change : RetentionChange} {h h' : Head}

/-- **What the answers of a change of the retentions stand on.** -/
def RetentionOK (view : View) (change : RetentionChange) (r : Except Error RetentionStatus)
    (u : State) : Prop :=
  match r with
  | .ok (.applied w) => u.ViewOK u.now w ∧ change.classify w.head = .applied ∧
      (change.isAcquire → w.head.collectionEpoch = view.head.collectionEpoch)
  | .ok (.activeCollection w) => u.ViewOK u.now w
  | .ok (.conflict w) => u.ViewOK u.now w
  | .ok .pending => True
  | .error _ => True

/-- A change that is in conflict with a head is a change of that head, if there is room. -/
theorem RetentionChange.guard (hc : change.classify h = .conflict)
    (hroom : ¬ (change.isAcquire ∧ h.options.maxRetentionIds.toNat ≤ h.retentionIds.card)) :
    (Change.retention change).Guard h := by
  cases change with
  | acquire id =>
      simp only [RetentionChange.classify] at hc
      by_cases hid : id ∈ h.retentionIds
      · rw [if_pos hid] at hc
        cases hc
      rw [if_neg hid] at hc
      by_cases hplan : h.activePlan.isSome = true
      · rw [if_pos hplan] at hc
        cases hc
      refine ⟨hid, by simpa using hplan, ?_⟩
      by_contra hfull
      exact hroom ⟨rfl, by omega⟩
  | release id =>
      show id ∈ h.retentionIds
      by_contra hid
      simp only [RetentionChange.classify] at hc
      rw [if_pos hid] at hc
      cases hc
  | clearAfterDrain =>
      intro hempty
      simp only [RetentionChange.classify] at hc
      rw [if_pos hempty] at hc
      cases hc

/-- The result of a change has it applied. -/
theorem RetentionChange.classify_result (hr : (Change.retention change).Result h h') :
    change.classify h' = .applied ∧ h'.collectionEpoch = h.collectionEpoch := by
  cases hr with
  | retention hg =>
      cases change <;> simp [RetentionChange.classify, RetentionChange.apply]

theorem retentionStatus_ok {state : RetentionHeadState} {w : View} (hw : u.ViewOK u.now w)
    (hs : change.classify w.head = state)
    (he : change.isAcquire → w.head.collectionEpoch = view.head.collectionEpoch) :
    RetentionOK view change (.ok (retentionStatus state w)) u := by
  cases state with
  | applied => exact ⟨hw, hs, he⟩
  | activeCollection => exact hw
  | conflict => exact hw

/-- **One attempt.** An acquisition goes on from a strictly newer head of the same epoch. -/
theorem retentionAttempt_runs {again : Option (View → Op RetentionStatus)} (hA : Updates ≤ A)
    (g : Good s) (hl : s.LogOK log) (hh : s.HeadAt i current.head current.version)
    (hc : change.classify current.head = .conflict)
    (he : change.isAcquire → current.head.collectionEpoch = view.head.collectionEpoch)
    (next : ∀ f, again = some f → ∀ (w : View) (u : State) (m : Nat), s.Le u → Good u →
      u.HeadAt m w.head w.version → change.classify w.head = .conflict →
      (change.isAcquire → w.head.collectionEpoch = view.head.collectionEpoch) →
      Runs t A (f w) (RetentionOK view change) u) :
    Runs t A (log.retentionAttempt view change again current) (RetentionOK view change) s := by
  have hR : Reads ≤ A := reads_updates.trans hA
  have hopts := (hl.head g.inv hh).2.2
  refine Runs.ite (fun _ => Runs.throw fun _ _ _ => trivial) fun hroom => ?_
  rw [← hopts] at hroom
  have hguard := RetentionChange.guard hc hroom
  refine Runs.liftBind (fun candidate hcand => ?_) fun _ _ _ _ _ => trivial
  have hres : (Change.retention change).Result current.head candidate :=
    Change.apply_result hcand
  have hcount := hres.counted (hh.counted g.inv) (fun _ _ => nofun)
  refine Runs.attemptBind le_rfl g (updateHead_runs hA g hl hh hres hguard hcount
    (fun _ _ _ => trivial) (fun _ => nofun)) ?_
  rintro (e | (_ | updated)) u tr gu hout
  · cases e with
    | store x => exact Runs.pure fun _ _ _ => trivial
    | _ => exact Runs.throw fun _ _ _ => trivial
  · refine Runs.bind hR gu (evidence_runs gu (load_runs le_rfl gu (hl.mono tr.le))) ?_
      fun _ _ _ _ _ => trivial
    rintro (_ | w) v tr' gv hload
    · exact Runs.pure fun _ _ _ => trivial
    have load : Loaded t u.now w v := hload
    have hview : v.ViewOK v.now w := load.viewOK
    obtain ⟨m, hm, hhm⟩ := load.head
    refine Runs.ite (fun _ => Runs.pure fun _ _ _ => trivial) fun hne => ?_
    refine Runs.ite (fun _ => Runs.pure fun x o _ => hview.mono o.le o.le.now) fun hepoch => ?_
    have he' : change.isAcquire → w.head.collectionEpoch = view.head.collectionEpoch := by
      intro ha
      by_contra hno
      exact hepoch ⟨ha, hno⟩
    -- every branch that does not try again answers with the state of the head
    have answer : ∀ state, change.classify w.head = state →
        Runs t A (pure (retentionStatus state w)) (RetentionOK view change) v :=
      fun state hs => Runs.pure fun x o _ =>
        retentionStatus_ok (hview.mono o.le o.le.now) hs he'
    cases again with
    | none => exact answer _ rfl
    | some f =>
        cases ha : change.isAcquire with
        | false => exact answer _ rfl
        | true =>
            cases hs : change.classify w.head with
            | applied => exact answer _ hs
            | activeCollection => exact answer _ hs
            | conflict =>
                refine Runs.ite (fun _ => Runs.throw fun _ _ _ => trivial) fun _ => ?_
                exact next f rfl w v m (tr.le.trans tr'.le) gv hhm hs he'
  · obtain ⟨rfl, hnext, hview⟩ := hout
    obtain ⟨hs, hepoch⟩ := RetentionChange.classify_result hres
    exact Runs.pure fun v o _ => ⟨hview.mono o.le o.le.now, hs, fun ha => hepoch.trans (he ha)⟩

theorem retentionAttempts_runs (hA : Updates ≤ A) :
    ∀ (further : Nat) (current : View) (s : State) (i : Nat), Good s → s.LogOK log →
      s.HeadAt i current.head current.version → change.classify current.head = .conflict →
      (change.isAcquire → current.head.collectionEpoch = view.head.collectionEpoch) →
      Runs t A (log.retentionAttempts view change further current) (RetentionOK view change) s
  | 0, current, s, i, g, hl, hh, hc, he => retentionAttempt_runs hA g hl hh hc he nofun
  | further + 1, current, s, i, g, hl, hh, hc, he => by
      refine retentionAttempt_runs hA g hl hh hc he ?_
      intro f hf w u m hle gu hm hw hew
      obtain rfl := Option.some.inj hf
      exact retentionAttempts_runs hA further w u m gu (hl.mono hle) hm hw hew

theorem changeRetention_runs (hA : Updates ≤ A) (g : Good s) (hv : Viewing s log view) :
    Runs t A (log.changeRetention view change) (RetentionOK view change) s := by
  have hR : Reads ≤ A := reads_updates.trans hA
  obtain ⟨i, hh⟩ := hv.head
  refine Runs.liftBind (fun _ _ => ?_) fun _ _ _ _ _ => trivial
  refine Runs.ite (fun hc => ?_) fun _ => ?_
  · exact retentionAttempts_runs hA _ view s i g hv.log hh hc fun _ => rfl
  refine Runs.bind hR g (refresh_runs le_rfl g hv) ?_ fun _ _ _ _ _ => trivial
  rintro (_ | current) u tr gu hr
  · have hview := (hv.mono tr.le).view
    exact Runs.pure fun v o _ =>
      retentionStatus_ok (hview.mono o.le o.le.now) rfl fun _ => rfl
  · obtain ⟨-, hview⟩ := hr
    refine Runs.ite (fun _ => Runs.pure fun v o _ => hview.mono o.le o.le.now) fun hepoch => ?_
    refine Runs.pure fun v o _ => retentionStatus_ok (hview.mono o.le o.le.now) rfl fun ha => ?_
    by_contra hno
    exact hepoch ⟨ha, hno⟩

end ObjectLog
