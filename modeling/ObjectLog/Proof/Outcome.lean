import ObjectLog.Proof.CheckpointOps
import ObjectLog.Proof.RetentionOps
import ObjectLog.Proof.CollectOps
import ObjectLog.Proof.SessionOps

/-!
# What the outcome of a call stands on

One postcondition for every public operation: the handles it returns are genuine, and
its answer has the evidence that the specification of the operation gives. `b.heads` is
the moment at which the call began. The theorem of this module is that every call,
begun with genuine handles, runs to this postcondition whatever the others do.
-/

set_option linter.unusedSectionVars false

namespace ObjectLog

open Rely

variable [Blake3] {s s' u : State} {t : Nat} {b : Begun} {log : Log} {view : View}

/-- What the answer of call `b` stands on. -/
def State.Outcome (s : State) (t : Nat) (b : Begun) (r : Except Error Value) : Prop :=
  match b.call with
  | .changeRetention _ view change => match r with
      | .ok (.retention status) => RetentionOK view change (.ok status) s
      | _ => True
  | .startCollectionWithLimit _ view _ => match r with
      | .error e => s.StartError t b.heads view e
      | _ => True
  | .readObject _ view object => match r with
      | .error e => Inside s.body view.head object → object.kind = .blob → s.ViewError view e
      | _ => True
  | .readNode _ view object => match r with
      | .error e => Inside s.body view.head object → object.kind = .node → s.ViewError view e
      | _ => True
  | .commit _ _ => match r with
      | .ok (.commit status) =>
          ∃ ref, b.call.target = some ref ∧ s.CommitAnswer t b.heads ref status
      | .error _ => ∀ ref, b.call.target = some ref → s.Unissued t ref
      | _ => True
  | .resolve _ _ | .resume _ _ => match r with
      | .ok (.resolution resolution) => s.Resumed t b.heads b (.ok resolution)
      | .error e => s.Resumed t b.heads b (.error e)
      | _ => True
  | .readTail _ view => match r with
      | .error e => s.ViewError view e
      | _ => True
  | .tailRecord _ view index => match r with
      | .error e => index < view.head.tail.length → s.ViewError view e
      | _ => True
  | .historyNext cursor => match r with
      | .ok (.history _ (.error e)) => s.ViewError cursor.view e
      | .error _ => False
      | _ => True
  | .readCheckpoint _ view => match r with
      | .error e => s.ViewError view e
      | _ => True
  | .publishCheckpoint _ _ through _ _ => match r with
      | .ok (.checkpoint status) => s.CheckpointAnswer t b.heads through (.ok status)
      | .error e => s.CheckpointAnswer t b.heads through (.error e)
      | _ => True
  | .resolveCheckpoint _ pending => match r with
      | .ok (.checkpointResolution resolution) =>
          s.CheckpointResolved t b.heads pending (.ok resolution)
      | .error e => s.CheckpointResolved t b.heads pending (.error e)
      | _ => True
  | .openBytes log view root => match r with
      | .error e => Inside s.body view.head root → s.StreamError log view root e
      | _ => True
  | .readAt reader offset _ => match r with
      | .ok (.readAt _ (.error e)) => ∀ child,
          reader.children[offset / reader.chunkBytes]? = some child →
          Inside s.body reader.view.head child → s.ViewError reader.view e
      | .error _ => False
      | _ => True
  | _ => True

/-- **What holds when a call has returned.** -/
structure State.Returned (s : State) (t : Nat) (b : Begun) (r : Except Error Value) : Prop where
  items : ∀ v, r = .ok v → ∀ item ∈ v.items, s.ItemOK s.now item
  outcome : s.Outcome t b r

/-- How a call begins: no request and no identity is its own yet. -/
structure State.Begins (s : State) (t : Nat) (b : Begun) : Prop where
  call : s.calls[t]? = some b
  heads : b.heads = s.now
  flights : ∀ (j : Nat) (f : Flight), s.flights[j]? = some f → f.tid ≠ t

theorem State.Begins.clean (h : s.Begins t b) : s.Clean t 0 :=
  fun j f _ _ hf ht _ => absurd ht (h.flights j f hf)

theorem State.Begins.drawOK (h : s.Begins t b)
    (hno : ∀ log view transactionId operation result objects,
      b.call ≠ .prepare log view transactionId operation result objects) : s.DrawOK t :=
  ⟨b, h.call, fun log view transactionId operation result objects he =>
    absurd he (hno log view transactionId operation result objects)⟩

theorem State.Begins.arg {item : Item} (h : s.Begins t b) (inv : Inv s)
    (hi : item ∈ b.call.args) : s.ItemOK s.now item :=
  h.heads ▸ (inv.calls t b h.call).args item hi

/-- A value and its handles. -/
theorem State.Returned.of {v : Value} (hi : ∀ item ∈ v.items, s.ItemOK s.now item)
    (h : s.Outcome t b (.ok v)) : s.Returned t b (.ok v) where
  items := by
    intro v' hv
    rw [← Except.ok.inj hv]
    exact hi
  outcome := h

theorem State.Returned.plain {v : Value} (hv : v.items = []) (h : s.Outcome t b (.ok v)) :
    s.Returned t b (.ok v) :=
  .of (by rw [hv]; simp) h

theorem State.Returned.one {v : Value} {item : Item} (hv : v.items = [item])
    (hi : s.ItemOK s.now item) (h : s.Outcome t b (.ok v)) : s.Returned t b (.ok v) :=
  .of (by rw [hv]; simpa using hi) h

theorem State.Returned.staged {sts : List StagedObject} (hi : ∀ st ∈ sts, s.StagedOK st)
    (h : s.Outcome t b (.ok (.staged sts))) : s.Returned t b (.ok (.staged sts)) := by
  refine .of (fun item hitem => ?_) h
  obtain ⟨st, hst, rfl⟩ := List.mem_map.1 hitem
  exact hi st hst

theorem State.Returned.failed {e : Error} (h : s.Outcome t b (.error e)) :
    s.Returned t b (.error e) where
  items := by
    intro v hv
    cases hv
  outcome := h

/-! ## The handles in the answers -/

theorem State.Negative.viewOK {L : Nat} {ref : CommitRef} (h : s.Negative t L ref view) :
    s.ViewOK s.now view := by
  obtain ⟨m, p, h⟩ := h
  exact h.loaded.viewOK

theorem State.Refused.viewOK {L : Nat} {through : CommitRef} {c : CheckpointRef}
    (h : s.Refused t L through c view) : s.ViewOK s.now view := by
  obtain ⟨m, source, h⟩ := h
  exact h.loaded.viewOK

theorem State.CommitAnswer.items {L : Nat} {ref : CommitRef} {status : CommitStatus}
    (h : s.CommitAnswer t L ref status) :
    ∀ item ∈ (Value.commit status).items, s.ItemOK s.now item := by
  intro item hi
  cases status with
  | committed view =>
      obtain rfl := List.mem_singleton.1 hi
      exact h.2
  | conflict view =>
      obtain rfl := List.mem_singleton.1 hi
      exact State.Negative.viewOK h
  | pending p =>
      obtain rfl := List.mem_singleton.1 hi
      exact h

theorem State.Resumed.items {L : Nat} {resolution : Resolution}
    (h : s.Resumed t L b (.ok resolution)) :
    ∀ item ∈ (Value.resolution resolution).items, s.ItemOK s.now item := by
  obtain ⟨ref, -, h⟩ := h
  intro item hi
  cases resolution with
  | committed view =>
      obtain rfl := List.mem_singleton.1 hi
      exact h.2
  | notCommitted view =>
      obtain rfl := List.mem_singleton.1 hi
      exact State.Negative.viewOK h
  | stillPending p =>
      obtain rfl := List.mem_singleton.1 hi
      exact h trivial
  | expired view =>
      obtain rfl := List.mem_singleton.1 hi
      exact h

theorem State.CheckpointAnswer.items {L : Nat} {through : CommitRef} {status : CheckpointStatus}
    (h : s.CheckpointAnswer t L through (.ok status)) :
    ∀ item ∈ (Value.checkpoint status).items, s.ItemOK s.now item := by
  intro item hi
  cases status with
  | published view =>
      obtain rfl := List.mem_singleton.1 hi
      exact h.1
  | conflict view =>
      obtain rfl := List.mem_singleton.1 hi
      obtain ⟨c, -, h⟩ := h
      exact h.viewOK
  | pending p =>
      obtain rfl := List.mem_singleton.1 hi
      exact h.2

theorem State.CheckpointResolved.items {L : Nat} {pending : PendingCheckpoint}
    {resolution : CheckpointResolution} (h : s.CheckpointResolved t L pending (.ok resolution)) :
    ∀ item ∈ (Value.checkpointResolution resolution).items, s.ItemOK s.now item := by
  intro item hi
  cases resolution with
  | published view =>
      obtain rfl := List.mem_singleton.1 hi
      exact h.1
  | notPublished view =>
      obtain rfl := List.mem_singleton.1 hi
      exact State.Refused.viewOK h
  | stillPending p =>
      obtain rfl := List.mem_singleton.1 hi
      exact h.2
  | expired view =>
      obtain rfl := List.mem_singleton.1 hi
      exact h

theorem RetentionOK.items {change : RetentionChange} {status : RetentionStatus}
    (h : RetentionOK view change (.ok status) s) :
    ∀ item ∈ (Value.retention status).items, s.ItemOK s.now item := by
  intro item hi
  cases status with
  | applied w =>
      obtain rfl := List.mem_singleton.1 hi
      exact h.1
  | activeCollection w =>
      obtain rfl := List.mem_singleton.1 hi
      exact h
  | conflict w =>
      obtain rfl := List.mem_singleton.1 hi
      exact h
  | pending => cases hi

theorem State.StartOK.items {start : CollectionStart} (h : s.StartOK start) :
    ∀ item ∈ (Value.collectionStart start).items, s.ItemOK s.now item := by
  intro item hi
  cases start with
  | installed w n =>
      obtain rfl := List.mem_singleton.1 hi
      exact h
  | active w =>
      obtain rfl := List.mem_singleton.1 hi
      exact h
  | retained w =>
      obtain rfl := List.mem_singleton.1 hi
      exact h
  | conflict w =>
      obtain rfl := List.mem_singleton.1 hi
      exact h
  | _ => cases hi

theorem State.FinishOK.items {finish : CollectionFinish} (h : s.FinishOK finish) :
    ∀ item ∈ (Value.collectionFinish finish).items, s.ItemOK s.now item := by
  intro item hi
  cases finish with
  | complete w report =>
      obtain rfl := List.mem_singleton.1 hi
      exact h
  | conflict w report =>
      obtain rfl := List.mem_singleton.1 hi
      exact h
  | pending report => cases hi

theorem State.HistoryOK.items {cursor : HistoryCursor} {result : Except Error (Option HistoryItem)}
    (h : s.HistoryOK view (cursor, result)) :
    ∀ item ∈ (Value.history cursor result).items, s.ItemOK s.now item := by
  intro item hi
  rcases result with e | (_ | item' | item')
  · obtain rfl := List.mem_singleton.1 hi
    exact h.1
  · obtain rfl := List.mem_singleton.1 hi
    exact h
  all_goals
    rcases List.mem_cons.1 hi with rfl | hi
    · exact h.1
    · obtain ⟨st, hst, rfl⟩ := List.mem_map.1 hi
      exact h.2 st hst

/-! ## Every call -/

/-- The graph of a head that was stored when the call began. -/
theorem Good.insideBack {i : Nat} {h : Head} {v : UpdateVersion} {object : ObjectRef} (g : Good s)
    (hle : s.Le u) (hh : s.HeadAt i h v) (hin : Inside u.body h object) :
    Inside s.body h object :=
  hin.back hle.body (g.inv.headStored hh)

/-- **Every call runs to its postcondition.** -/
theorem Call.runs (g : Good s) (hb : s.Begins t b) :
    Runs t Anything (b.call.run s.scope) (fun r u => u.Returned t b r) s := by
  obtain ⟨call, flights, heads⟩ := b
  have arg : ∀ item ∈ call.args, s.ItemOK s.now item := fun item hi => hb.arg g.inv hi
  have viewing : ∀ {log view}, .log log ∈ call.args → .view view ∈ call.args →
      Viewing s log view := fun hl hv => ⟨arg _ hl, arg _ hv⟩
  obtain rfl : heads = s.now := hb.heads
  cases call with
  | «open» options =>
      refine Runs.returns g (open_runs g rfl) ?_ fun _ _ _ _ _ => .failed trivial
      exact fun log u _ _ h => .one rfl h trivial
  | openExistingWithView options =>
      refine Runs.returns g (openExistingWithView_runs g rfl) ?_ fun _ _ _ _ _ => .failed trivial
      rintro ⟨log, view⟩ u _ _ ⟨hl, hv⟩
      refine .of (fun item hi => ?_) trivial
      rcases List.mem_cons.1 hi with rfl | hi
      · exact hl
      · obtain rfl := List.mem_singleton.1 hi
        exact hv
  | load log =>
      refine Runs.returns g (load_runs le_anything g (arg (.log log) (by simp [Call.args]))) ?_
        fun _ _ _ _ _ => .failed trivial
      exact fun view u _ _ h => .one rfl h.viewOK trivial
  | refresh log view =>
      have hv : Viewing s log view := viewing (by simp [Call.args]) (by simp [Call.args])
      refine Runs.returns g (refresh_runs le_anything g hv) ?_ fun _ _ _ _ _ => .failed trivial
      rintro (_ | next) u _ _ h
      · exact .plain rfl trivial
      · exact .one rfl h.2 trivial
  | changeRetention log view change =>
      have hv : Viewing s log view := viewing (by simp [Call.args]) (by simp [Call.args])
      refine Runs.returns g (changeRetention_runs le_anything g hv) ?_
        fun _ _ _ _ _ => .failed trivial
      exact fun status u _ _ h => .of h.items h
  | startCollectionWithLimit log view maxCandidates =>
      refine Runs.returns g (startCollectionWithLimit_runs g hb.call
        (arg (.log log) (by simp [Call.args])) (arg (.view view) (by simp [Call.args]))
        (hb.drawOK (by simp)) hb.clean) ?_ fun _ _ _ _ h => .failed h
      exact fun start u _ _ h => .of h.items trivial
  | resumeCollection log view =>
      have hv : Viewing s log view := viewing (by simp [Call.args]) (by simp [Call.args])
      refine Runs.returns g (resumeCollection_runs g hb.call rfl hv) ?_
        fun _ _ _ _ _ => .failed trivial
      exact fun finish u _ _ h => .of h.items trivial
  | putObject log view bytes =>
      refine Runs.returns g (putObject_runs le_anything g hb.call (hb.drawOK (by simp))
        (arg (.log log) (by simp [Call.args])) (arg (.view view) (by simp [Call.args]))) ?_
        fun _ _ _ _ _ => .failed trivial
      exact fun st u _ _ h => .one rfl h trivial
  | putNode log view payload children =>
      refine Runs.returns g (putNode_runs le_anything g hb.call (hb.drawOK (by simp))
        (arg (.log log) (by simp [Call.args])) (arg (.view view) (by simp [Call.args]))
        fun c hc => arg (.staged c) (by simp [Call.args, hc])) ?_ fun _ _ _ _ _ => .failed trivial
      exact fun st u _ _ h => .one rfl h trivial
  | stageObjects log view objects =>
      have hv : Viewing s log view := viewing (by simp [Call.args]) (by simp [Call.args])
      refine Runs.returns g (stageObjects_runs le_anything g hv) ?_
        fun _ _ _ _ _ => .failed trivial
      exact fun sts u _ _ h => .staged h trivial
  | readObject log view object =>
      have hv : Viewing s log view := viewing (by simp [Call.args]) (by simp [Call.args])
      obtain ⟨i, hh⟩ := hv.head
      refine Runs.returns g (readObject_runs le_anything g hv object)
        (fun _ _ _ _ _ => .plain rfl trivial) fun e u hle _ h => .failed fun hin hk => ?_
      exact h (g.insideBack hle hh hin) hk
  | readNode log view object =>
      have hv : Viewing s log view := viewing (by simp [Call.args]) (by simp [Call.args])
      obtain ⟨i, hh⟩ := hv.head
      refine Runs.returns g (readNode_runs le_anything g hv object)
        (fun _ _ _ _ _ => .plain rfl trivial) fun e u hle _ h => .failed fun hin hk => ?_
      exact h (g.insideBack hle hh hin) hk
  | readStagedNode log view node =>
      have hv : Viewing s log view := viewing (by simp [Call.args]) (by simp [Call.args])
      refine Runs.returns g (readStagedNode_runs le_anything g hv
        (arg (.staged node) (by simp [Call.args]))) ?_ fun _ _ _ _ _ => .failed trivial
      exact fun out u _ _ h => .staged h trivial
  | prepare log view transactionId operation result objects =>
      refine Runs.returns g (prepare_runs le_anything g hb.call rfl
        (arg (.view view) (by simp [Call.args]))) ?_ fun _ _ _ _ _ => .failed trivial
      exact fun p u _ _ h => .one rfl h trivial
  | commit log prepared =>
      refine Runs.returns g (commit_runs g hb.call rfl (arg (.log log) (by simp [Call.args]))
        (arg (.prepared prepared) (by simp [Call.args])) rfl hb.clean) ?_ fun _ _ _ _ h => .failed h
      rintro status u _ _ ⟨ref, htarget, h⟩
      exact .of h.items ⟨ref, htarget, h⟩
  | resolve log pending =>
      refine Runs.returns g (resolve_runs g hb.call rfl (arg (.log log) (by simp [Call.args]))
        (arg (.pendingCommit pending) (by simp [Call.args])) le_rfl hb.clean) ?_
        fun _ _ _ _ h => .failed h
      exact fun resolution u _ _ h => .of h.items h
  | resume log token =>
      refine Runs.returns g (resume_runs g (arg (.log log) (by simp [Call.args]))
        (arg (.token token) (by simp [Call.args])) le_rfl hb.call rfl hb.clean) ?_
        fun _ _ _ _ h => .failed h
      exact fun resolution u _ _ h => .of h.items h
  | readTail log view =>
      have hv : Viewing s log view := viewing (by simp [Call.args]) (by simp [Call.args])
      exact Runs.returns g (readTail_runs le_anything g hv)
        (fun _ _ _ _ _ => .plain rfl trivial) fun _ _ _ _ h => .failed h
  | tailRecord log view index =>
      have hv : Viewing s log view := viewing (by simp [Call.args]) (by simp [Call.args])
      refine Runs.returns g (tailRecord_runs le_anything g hv index) ?_ fun _ _ _ _ h => .failed h
      rintro record u _ _ ⟨-, h⟩
      refine .of (fun item hi => ?_) trivial
      obtain ⟨st, hst, rfl⟩ := List.mem_map.1 hi
      exact h st hst
  | historyNext cursor =>
      refine Runs.returns g (next_runs le_anything g (arg (.cursor cursor) (by simp [Call.args])))
        ?_ fun _ _ _ _ h => by obtain ⟨_, h, -⟩ := h; cases h
      rintro ⟨next, result⟩ u _ _ ⟨out, hout, h⟩
      obtain rfl := Except.ok.inj hout
      refine .of h.items ?_
      rcases result with e | item
      · exact h.2
      · trivial
  | readCheckpoint log view =>
      have hv : Viewing s log view := viewing (by simp [Call.args]) (by simp [Call.args])
      exact Runs.returns g (readCheckpoint_runs le_anything g hv)
        (fun _ _ _ _ _ => .plain rfl trivial) fun _ _ _ _ h => .failed h
  | publishCheckpoint log view through snapshot objects =>
      refine Runs.returns g (publishCheckpoint_runs g hb.call rfl
        (arg (.log log) (by simp [Call.args])) (arg (.view view) (by simp [Call.args]))
        (fun st hst => arg (.staged st) (by simp [Call.args, hst])) le_rfl hb.clean) ?_
        fun _ _ _ _ h => .failed h
      exact fun status u _ _ h => .of h.items h
  | resolveCheckpoint log pending =>
      refine Runs.returns g (resolveCheckpoint_runs g hb.call rfl
        (arg (.log log) (by simp [Call.args])) (arg (.pendingCheckpoint pending)
          (by simp [Call.args])) hb.clean) ?_ fun _ _ _ _ h => .failed h
      exact fun resolution u _ _ h => .of h.items h
  | openBytes log view root =>
      have hv : Viewing s log view := viewing (by simp [Call.args]) (by simp [Call.args])
      obtain ⟨i, hh⟩ := hv.head
      refine Runs.returns g (openBytes_runs le_anything g hv) ?_ fun e u hle _ h =>
        .failed fun hin => h (g.insideBack hle hh hin)
      exact fun reader u _ _ h => .one rfl ⟨h.1, h.2.1, h.2.2.2⟩ trivial
  | readAt reader offset maxLen =>
      have hr := arg (.reader reader) (by simp [Call.args])
      obtain ⟨i, -, hh⟩ := hr.2.1.1
      refine Runs.returns g (readAt_runs le_anything g hr.1 hr.2.1 hr.2.2) ?_
        fun _ _ _ _ h => by obtain ⟨_, _, h, -⟩ := h; cases h
      rintro ⟨next, result⟩ u hle gu ⟨reader', result', hout, h1, h2, h3, herr⟩
      obtain ⟨rfl, rfl⟩ := Prod.mk.inj (Except.ok.inj hout)
      refine .one rfl ⟨?_, ?_, ?_⟩ ?_
      · exact h1 ▸ hr.1.mono hle
      · exact h2 ▸ State.ViewOK.mono hle hle.now hr.2.1
      · exact h3 ▸ hr.2.2
      · rcases result with e | bytes
        · exact fun child hc hin => herr e child rfl hc (g.insideBack hle hh hin)
        · trivial

end ObjectLog
