import ObjectLog.Proof.CommitOps
import ObjectLog.Proof.AppendBase

/-!
# Publishing a checkpoint

What the answers of `publish_checkpoint` and `resolve_checkpoint` stand on. A published
checkpoint has been put on a head. A negative answer stands on a head that the call has read
itself and up to which the checkpoint was on no head.
-/

set_option linter.unusedSectionVars false

namespace ObjectLog

open Rely

variable [Blake3] {s s' u : State} {t L m i i₀ : Nat} {A : Effect → Prop} {log : Log}
  {view current source : View} {through : CommitRef} {c : CheckpointRef} {object : ObjectRef}
  {b : Begun} {e : Error} {h : Head} {v : UpdateVersion} {pending : PendingCheckpoint}

/-! ## Answers -/

theorem State.Unshown.mono (hle : s.Le s') (hm : m < s.now) (hu : s.Unshown m c) :
    s'.Unshown m c :=
  fun j h v hj hh => hu j h v hj (hh.back hle (by omega))

/-- **What a negative answer about a checkpoint stands on.** -/
structure State.RefusedAt (s : State) (t L m : Nat) (through : CommitRef) (c : CheckpointRef)
    (source current : View) : Prop where
  origin : s.CheckpointOf c through source
  loaded : Loaded t L current s
  head : s.HeadAt m current.head current.version
  after : ∃ i, i ≤ m ∧ s.HeadAt i source.head source.version
  unshown : s.Unshown m c
  clean : s.Clean t m
  sends : s.Sends t (.checkpoint through c.object)
  reason : ¬ AppendBase source.head current.head ∨
    (AppendBase source.head current.head ∧ L ≤ m)

def State.Refused (s : State) (t L : Nat) (through : CommitRef) (c : CheckpointRef)
    (current : View) : Prop :=
  ∃ m source, s.RefusedAt t L m through c source current

theorem State.Refused.others (o : Others t s u) (h : s.Refused t L through c current) :
    u.Refused t L through c current := by
  obtain ⟨m, source, hr⟩ := h
  obtain ⟨i, hi, hh⟩ := hr.after
  exact ⟨m, source, hr.origin.mono o.le, hr.loaded.mono o.le, hr.head.mono o.le,
    ⟨i, hi, hh.mono o.le⟩, hr.unshown.mono o.le hr.head.lt, hr.clean.others o, hr.sends.others o,
    hr.reason⟩

/-- **A negative answer about a base that is gone is final.** -/
theorem State.RefusedAt.final {n : Nat} (h : s.RefusedAt t L m through c source current)
    (inv : Inv s) (hmoved : ¬ AppendBase source.head current.head) : s.Unshown n c := by
  obtain ⟨i, hi, hh⟩ := h.after
  exact inv.lost_append h.origin hh hi h.head hmoved h.unshown

/-- Call `t` has read a head that does not have the base of the checkpoint any more, after
moment `i`, where it still had. -/
structure State.Overtaken (s : State) (t L m i : Nat) (through : CommitRef) (c : CheckpointRef)
    (source current : View) : Prop where
  origin : s.CheckpointOf c through source
  loaded : Loaded t L current s
  head : s.HeadAt m current.head current.version
  after : ∃ i₀, i₀ ≤ i ∧ s.HeadAt i₀ source.head source.version
  last : i < m ∧ ∃ h v, s.HeadAt i h v ∧ AppendBase source.head h
  moved : ¬ AppendBase source.head current.head
  clean : s.Clean t m
  sends : s.Sends t (.checkpoint through c.object)

theorem State.Overtaken.reads (h : s.Overtaken t L m i through c source current)
    (tr : Track t Reads s u) : u.Overtaken t L m i through c source current := by
  obtain ⟨i₀, hi₀, hh₀⟩ := h.after
  obtain ⟨hlt, hd, w, hh, hb⟩ := h.last
  exact ⟨h.origin.mono tr.le, h.loaded.mono tr.le, h.head.mono tr.le, ⟨i₀, hi₀, hh₀.mono tr.le⟩,
    ⟨hlt, hd, w, hh.mono tr.le, hb⟩, h.moved, h.clean.reads tr, h.sends.reads tr⟩

/-- What the head that overtook a checkpoint says about it. -/
def State.EvidenceOK (s : State) (t L : Nat) (through : CommitRef) (c : CheckpointRef)
    (current : View) : CheckpointEvidence → Prop
  | .published view => view = current ∧ s.Shown through c
  | .notPublished view => view = current ∧ s.Refused t L through c current
  | .expired view => view = current

/-- **The classification of a checkpoint never fails.** Generations number the heads, so the
head that overtook the checkpoint comes after the attempt. -/
theorem State.Overtaken.classify (pending : PendingCheckpoint) (inv : Inv s) (hi : s.HeadAt i h v)
    (ho : s.Overtaken t L m i through pending.checkpoint source current) :
    ∃ evidence, classifyCheckpoint pending current h.generation = .ok evidence ∧
      s.EvidenceOK t L through pending.checkpoint current evidence := by
  obtain ⟨him, hd, w, hh, hb⟩ := ho.last
  obtain ⟨rfl, rfl⟩ := hi.unique hh
  have hgen := inv.generation hi
  have hgenm := inv.generation ho.head
  have hunshown : s.Unshown i pending.checkpoint := inv.append_unshown ho.origin hi hb
  unfold classifyCheckpoint
  by_cases hc : current.head.checkpoint = some pending.checkpoint
  · rw [if_pos hc]
    exact ⟨_, rfl, rfl, inv.shown ho.origin ho.head hc⟩
  rw [if_neg hc]
  have hlt := UInt64.toNat_lt current.head.generation
  have h1 : (1 : UInt64).toNat = 1 := rfl
  have hadd : checkedAdd h.generation 1 = some (h.generation + 1) :=
    checkedAdd_eq_some (by omega)
  have hnext : (h.generation + 1).toNat = i + 1 := by
    rw [checkedAdd_toNat hadd, hgen, h1]
  rw [hadd]
  change ∃ evidence, (if current.head.generation < h.generation + 1 then _ else _) = _ ∧ _
  have hnot : ¬ current.head.generation < h.generation + 1 := by
    rw [UInt64.lt_iff_toNat_lt, hgenm, hnext]
    omega
  rw [if_neg hnot]
  by_cases heq : current.head.generation = h.generation + 1
  · rw [if_pos heq]
    obtain rfl : m = i + 1 := by rw [← hgenm, heq, hnext]
    obtain ⟨i₀, hi₀, hh₀⟩ := ho.after
    refine ⟨_, rfl, rfl, i + 1, source, ho.origin, ho.loaded, ho.head, ⟨i₀, by omega, hh₀⟩, ?_,
      ho.clean, ho.sends, .inl ho.moved⟩
    intro j hd w hj hhj
    rcases Nat.lt_or_ge i j with hlt | hge
    · obtain rfl : j = i + 1 := by omega
      rw [(hhj.unique ho.head).1]
      exact hc
    · exact hunshown j hd w hge hhj
  · rw [if_neg heq]
    exact ⟨_, rfl, rfl⟩

/-! ## The publication of a checkpoint -/

/-- What the publication loop says about a checkpoint. -/
def State.CheckpointPublished (s : State) (t L : Nat) (through : CommitRef) (c : CheckpointRef)
    (source : View) : Except Error HeadPublication → Prop
  | .ok (.updated next) => s.Shown through c ∧ s.ViewOK s.now next
  | .ok (.changed current generation) => ∃ m i h v, s.HeadAt i h v ∧ generation = h.generation ∧
      s.Overtaken t L m i through c source current
  | .ok (.contended current) => s.Refused t L through c current
  | .ok .pending => True
  | .error e => e = .requestDenied ∨ ∃ what, e = .limitExceeded what

theorem State.CheckpointOf.eta (h : s.CheckpointOf c through source) :
    c = { throughSequence := through.sequence, throughCommit := through.digest,
          object := c.object } := by
  obtain ⟨_, _, _, _, _, -, -, -, h1, h2⟩ := h
  rw [← h1, ← h2]

theorem State.CheckpointProven.congr {h' : Head} (h1 : h.logId = h'.logId)
    (h2 : h.incarnation = h'.incarnation) (h3 : h.options = h'.options) {n : Nat}
    (hc : s.CheckpointProven h n c) : s.CheckpointProven h' n c := by
  obtain ⟨ck, hb, ho⟩ := hc.body
  refine ⟨hc.kind, h2 ▸ hc.avoids, ck, ?_, fun o hm => (ho o hm).congr h2.symm h3.symm⟩
  exact ⟨h2 ▸ hb.stored, hb.digest, hb.len, h3 ▸ hb.fits, hb.counted, hb.subtree, h1 ▸ hb.logId,
    h2 ▸ hb.incarnation, hb.throughSequence, hb.throughCommit, h3 ▸ hb.dependencies,
    fun o hm => h2 ▸ h3 ▸ hb.objects o hm⟩

/-- **A checkpoint whose body is stored, against a head with its base.** -/
theorem publishCheckpointHead_runs (view : View) (g : Good s) (hl : s.LogOK log)
    (ho : s.CheckpointOf c through source) (hs : s.HeadAt i₀ source.head source.version)
    (hproven : s.CheckpointProven source.head source.head.collectionEpoch.toNat c)
    (hth : through ∈ source.head.tail) (hpub : s.Publishes t c)
    (hh : s.HeadAt i view.head view.version) (hi : i₀ ≤ i)
    (hb : AppendBase source.head view.head) (hL : L ≤ s.now) (clean : s.Clean t 0) :
    Runs t Anything (log.publishCheckpointHead view fun v => checkpointHead v.head through c.object)
      (fun r u => u.CheckpointPublished t L through c source r) s := by
  have hready : Publishing s t log view Head.hasCheckpointAppendBase
      (.checkpoint through c.object) i := by
    refine ⟨hl, fun _ => nofun, fun u i' h v hle gu hh' hi' hcomp => ?_, ?_⟩
    · have hbase : AppendBase source.head h := hb.trans hcomp
      obtain ⟨-, h2, h3, h4, -, -, h7, -, -⟩ := appendBase_iff.1 hbase
      refine ⟨hproven.kind, ?_⟩
      show u.CheckpointAttempt t i' h through _ ∧ u.CheckpointProven h _ _
      rw [← ho.eta]
      refine ⟨⟨hpub.mono hle, source, i₀, ho.mono hle, hs.mono hle, by omega, hbase⟩, ?_⟩
      rw [← h7]
      exact (hproven.mono hle).congr h2 h3 h4
    · intro through' object' heq
      obtain ⟨-, rfl⟩ := Change.checkpoint.inj heq
      obtain ⟨ck, hbody, -⟩ := hproven.body
      exact hbody.counted
  refine (publishAttempts_runs le_anything (fun _ => rfl) furtherAttempts i view s g hL hready
    hh (AppendBase.refl _) (clean.le (Nat.zero_le i)) (clean.sends _)).track.mono ?_
  rintro (e | (next | ⟨current, generation⟩ | current | _)) u gu ⟨tr, hr⟩
  · obtain ⟨-, herr⟩ := hr
    rcases herr with herr | herr | ⟨through', object', h, heq, hcomp, hno, -⟩
    · exact .inl herr
    · exact .inr herr
    · -- the entry stays in the tail of every head with the base
      obtain ⟨rfl, -⟩ := Change.checkpoint.inj heq
      have hbase : AppendBase source.head h := hb.trans hcomp
      exact absurd ((appendBase_iff.1 hbase).1.subset hth) hno
  · obtain ⟨i', hd, w, -, hhi, -, hnext, hres, hview⟩ := hr
    refine ⟨⟨i', hd, w, next.head, next.version, hhi, hnext, hres, ?_⟩, hview⟩
    rcases hres.records with ⟨_, heq, -⟩ | ⟨_, _, _, heq, -, -, hck⟩ | ⟨-, hne, -⟩
    · cases heq
    · obtain ⟨rfl, rfl⟩ := Change.checkpoint.inj heq
      rw [hck]
      exact congrArg some ho.eta.symm
    · exact absurd rfl (hne _ _)
  · obtain ⟨load, hno, m, hm, hcl, hsends, i', hd, w, hi', him, hhi, hcomp, hgen⟩ := hr
    refine ⟨m, i', hd, w, hhi, hgen, ho.mono tr.le, load, hm, ⟨i₀, by omega, hs.mono tr.le⟩,
      ⟨him, hd, w, hhi, hb.trans hcomp⟩, fun hbase => ?_, hcl, hsends⟩
    -- a head with the base of the checkpoint has that of the view in between, too
    have hframe := hb.frame
    have hframe' := hbase.frame
    rcases gu.inv.frame_mono (by omega : i ≤ m) (hh.mono tr.le) hm with ⟨hyes, -⟩ | hlt
    · exact hno hyes
    · omega
  · obtain ⟨load, hcomp, m, hm, hcl, hsends, hLm, is, hlen, -, hall⟩ := hr
    have hbase : AppendBase source.head current.head := hb.trans hcomp
    have ho' := ho.mono tr.le
    obtain ⟨x, hx⟩ := List.exists_mem_of_length_pos (by rw [hlen]; decide : 0 < is.length)
    have hxm := hall x hx
    exact ⟨m, source, ho', load, hm, ⟨i₀, by omega, hs.mono tr.le⟩,
      gu.inv.append_unshown ho' hm hbase, hcl, hsends, .inr ⟨hbase, hLm (by decide)⟩⟩
  · trivial

/-! ## `publish_checkpoint` -/

/-- A new checkpoint over proven objects is proven. -/
theorem State.Fresh.checkpoint {bytes : Bytes} {subtree : UInt64} {ck : Checkpoint}
    (hf : s.Fresh t log .checkpoint bytes subtree object) (inv : Inv s)
    (hb : s.calls[t]? = some b) (hv : Viewing s log view) (hvb : s.ViewOK b.heads view)
    (hbytes : bytes = encodeCheckpoint ck) (hlog : ck.logId = log.logId)
    (hinc : ck.incarnation = log.incarnation)
    (hfits : log.validateCheckpointBytes bytes.length = .ok ())
    (hsub : log.publicationObjects ck.objects = .ok subtree)
    (hrefs : ck.objects.length ≤ log.options.maxObjectRefs.toNat)
    (hc : ∀ o ∈ ck.objects, s.Proven view.head view.head.collectionEpoch.toNat o) :
    s.CheckpointProven view.head view.head.collectionEpoch.toNat
      ⟨ck.throughSequence, ck.throughCommit, object⟩ := by
  subst hbytes
  obtain ⟨e1, e2, e3⟩ := hv.same inv
  obtain ⟨⟨⟩, hfit₁, hfit₂⟩ := bind_ok.1 hfits
  have hcount : subtreeObjects ck.objects = .ok subtree := by
    obtain ⟨n, hn, hrest⟩ := bind_ok.1 hsub
    obtain ⟨-, -, hn'⟩ := bind_ok.1 hrest
    obtain rfl := Except.ok.inj hn'
    exact hn
  have hstored : s.body (objectKey view.head.incarnation object) = some (encodeCheckpoint ck) :=
    e2 ▸ hf.stored
  refine ⟨hf.kind, inv.created_avoids hb hvb hf.id hstored, ck, ?_, hc⟩
  refine ⟨hstored, hf.digest, hf.len, ⟨?_, ?_⟩, counted_of_pos (by simp [hf.kind]) ?_, ?_,
    hlog.trans e1.symm, hinc.trans e2.symm, rfl, rfl, ?_, fun o ho => (hc o ho).stored⟩
  · rw [UInt64.le_iff_toNat_le, ← hf.len, e3]
    exact ensure_ok.1 hfit₁
  · rw [UInt64.le_iff_toNat_le, ← hf.len, e3]
    exact ensure_ok.1 hfit₂
  · have := (subtreeObjects_ok hcount).1
    rw [hf.subtree]
    omega
  · rw [hf.subtree]
    exact hcount
  · intro log' ho
    rw [validateDependencies_congr (ho.trans e3)]
    exact validateDependencies_ok.2 ⟨hrefs, fun o hm => (hc o hm).stored.kind_ne, subtree, hsub⟩

/-- The errors that say that the heads are out of order. -/
def Error.Disorder (e : Error) : Prop :=
  e = invalid "the head precedes pending checkpoint evidence" ∨
    e = invalid "head version changed without a monotonic head change"

theorem State.Excused.order (h : s.Excused t e) : ¬ e.Disorder := by
  intro hd
  have halarm : e.Alarm := by
    rcases hd with rfl | rfl <;> exact .inr (.inr ⟨_, rfl⟩)
  obtain ⟨hmiss, -⟩ := h halarm
  rcases hd with rfl | rfl <;> rcases hmiss with hm | hm | hm | hm <;>
    simp [invalid] at hm

/-- Call `t` has made the checkpoint `c`: it drew the identity, and the body is as asked. -/
def State.Made (s : State) (t : Nat) (c : CheckpointRef) : Prop :=
  ∃ (b : Begun) (log : Log) (source : View) (through : CommitRef) (snapshot : Bytes)
    (objects : List StagedObject), s.calls[t]? = some b ∧
    b.call = .publishCheckpoint log source through snapshot objects ∧
    (c.object.storageId, t) ∈ s.ids ∧ c.throughSequence = through.sequence ∧
    c.throughCommit = through.digest ∧
    s.body (objectKey log.incarnation c.object) = some (encodeCheckpoint
      { logId := log.logId, incarnation := log.incarnation, throughSequence := through.sequence,
        throughCommit := through.digest, snapshot, objects := objects.map StagedObject.object })

theorem State.Made.mono (hle : s.Le s') (h : s.Made t c) : s'.Made t c := by
  obtain ⟨b, log, source, through, snapshot, objects, hb, hcall, hid, h1, h2, hbody⟩ := h
  exact ⟨b, log, source, through, snapshot, objects, hle.call hb, hcall, hle.id hid, h1, h2,
    hle.body _ _ hbody⟩

/-- **What the answers of `publish_checkpoint` stand on.** -/
def State.CheckpointAnswer (s : State) (t L : Nat) (through : CommitRef) :
    Except Error CheckpointStatus → Prop
  | .ok (.published view) => s.ViewOK s.now view ∧ ∃ c, s.Made t c ∧ s.Shown through c
  | .ok (.conflict view) => ∃ c, s.Made t c ∧ s.Refused t L through c view
  | .ok (.pending pending) => s.Made t pending.checkpoint ∧ s.PendingCheckpointOK s.now pending
  | .error e => ¬ e.Disorder

theorem forM_error {α : Type} {f : α → Except Error Unit} {xs : List α}
    (he : xs.forM f = .error e) : ∃ x, f x = .error e := by
  induction xs with
  | nil => cases he
  | cons x rest ih =>
      rcases bind_error.1 he with hx | ⟨-, -, hrest⟩
      · exact ⟨x, hx⟩
      · exact ih hrest

theorem validateStagedObjects_error {objects : List StagedObject}
    (hv : log.validateView view = .ok ()) (he : log.validateStagedObjects view objects = .error e) :
    e = .limitExceeded "object references" ∨ e = .invalidStagedObject := by
  rcases bind_error.1 he with hx | ⟨-, -, he⟩
  · rw [hv] at hx
    cases hx
  rcases bind_error.1 he with hx | ⟨-, -, he⟩
  · exact .inl (ensure_error hx)
  · right
    obtain ⟨st, hst⟩ := forM_error he
    exact ensure_error hst

theorem publicationObjects_error {objects : List ObjectRef} (hc : ∀ o ∈ objects, o.Counted)
    (he : log.publicationObjects objects = .error e) : ∃ what, e = .limitExceeded what := by
  rcases bind_error.1 he with hx | ⟨n, -, he⟩
  · -- the counts themselves are checked, so only the sum can overflow
    have hfold : ∀ (objects : List ObjectRef) (total : UInt64), (∀ o ∈ objects, o.Counted) →
        objects.foldlM (fun total child => do
          child.validateCount
          okOr (checkedAdd total child.subtreeObjects) (.limitExceeded "subtree objects")) total =
          .error e → e = .limitExceeded "subtree objects" := by
      intro objects
      induction objects with
      | nil => exact fun _ _ h => by cases h
      | cons o rest ih =>
          intro total hcount h
          rw [List.foldlM_cons] at h
          rcases bind_error.1 h with hx | ⟨n, -, hrest⟩
          · rcases bind_error.1 hx with hy | ⟨-, -, hy⟩
            · rw [show o.validateCount = .ok () from hcount o (by simp)] at hy
              cases hy
            · exact okOr_error hy
          · exact ih n (fun x hx => hcount x (by simp [hx])) hrest
    exact ⟨_, hfold objects 1 hc hx⟩
  · rcases bind_error.1 he with hx | ⟨-, -, hx⟩
    · exact ⟨_, ensure_error hx⟩
    · cases hx

theorem validateCheckpointBytes_error {n : Nat} (he : log.validateCheckpointBytes n = .error e) :
    ∃ what, e = .limitExceeded what := by
  rcases bind_error.1 he with hx | ⟨-, -, hx⟩
  · exact ⟨_, ensure_error hx⟩
  · exact ⟨_, ensure_error hx⟩

theorem State.Excused.of_limit (h : ∃ what, e = .limitExceeded what) : s.Excused t e := by
  obtain ⟨what, rfl⟩ := h
  exact excused_limit

theorem State.TailError.excused (h : s.TailError t view e) : s.Excused t e := by
  obtain ⟨hv, hl⟩ := h
  rcases hv with hu | ⟨rfl, -⟩
  · exact hu.excused
  · rcases hl with hu | ⟨key, L, -, hl⟩
    · exact hu.excused
    · exact fun _ => ⟨.inl rfl, key, L, hl⟩

/-- What `publish_checkpoint` makes of a checkpoint that it has created. -/
theorem finishCheckpoint_runs (g : Good s) (hl : s.LogOK log) (hmade : s.Made t c)
    (ho : s.CheckpointOf c through view) (hid : (c.object.storageId, t) ∈ s.ids)
    (hview : s.ViewOK s.now view)
    (hproven : s.CheckpointProven view.head view.head.collectionEpoch.toNat c) (hL : L ≤ s.now)
    (clean : s.Clean t 0) (hc : c = ⟨through.sequence, through.digest, object⟩) :
    Runs t Anything (do
      let pending : PendingCheckpoint :=
        { view, stagingDomain := log.stagingDomain, through,
          checkpoint := { throughSequence := through.sequence, throughCommit := through.digest,
                          object } }
      match ← log.publishCheckpointHead view (fun v => checkpointHead v.head through object) with
      | .updated next =>
          if next.head.nextSequence = view.head.nextSequence then log.rememberTail next
          return CheckpointStatus.published next
      | .changed current attemptedGeneration =>
          match ← Prog.lift (classifyCheckpoint pending current attemptedGeneration) with
          | .published view => return .published view
          | .notPublished view => return .conflict view
          | .expired _ => return .pending pending
      | .contended current => return .conflict current
      | .pending => return .pending pending)
      (fun r u => u.CheckpointAnswer t L through r) s := by
  obtain rfl : object = c.object := by rw [hc]
  rw [← hc]
  obtain ⟨i, -, hh⟩ := hview.1
  by_cases hth : through ∈ view.head.tail
  swap
  · -- the first candidate cannot be built
    have hcand : checkpointHead view.head through c.object =
        .error (invalid "the checkpoint entry is not in the active tail") := by
      rw [← List.idxOf?_eq_none_iff] at hth
      simp [checkpointHead, hth, okOr, bind, Except.bind]
    refine Runs.bind (P := fun r _ =>
      r = .error (invalid "the checkpoint entry is not in the active tail")) le_rfl g ?_
      (fun _ _ _ _ h => by cases h) ?_
    · refine Runs.liftBind (fun head hhead => ?_) fun e u he _ _ => ?_
      · cases hcand.symm.trans hhead
      · exact congrArg _ (Except.error.inj (hcand.symm.trans he)).symm
    · intro e u _ _ he
      obtain rfl := Except.error.inj he
      rintro (h | h) <;> simp [invalid] at h
  refine Runs.bind le_rfl g (publishCheckpointHead_runs view g hl ho hh hproven hth (.inl hid) hh
    le_rfl (.refl _) hL clean) ?_ ?_
  swap
  · rintro e u - - (rfl | hlim)
    · rintro (h | h) <;> cases h
    · exact (State.Excused.of_limit (s := u) (t := t) hlim).order
  have pending : ∀ w, s.Le w → w.CheckpointAnswer t L through (.ok (.pending
      ⟨view, log.stagingDomain, through, c⟩)) := fun w hw =>
    ⟨hmade.mono hw, hview.mono hw hw.now, ho.mono hw, hth, hproven.mono hw⟩
  rintro (next | ⟨current, generation⟩ | current | _) w tr gw h
  · obtain ⟨hshown, hnext⟩ := h
    have answer : ∀ y, w.Le y → y.CheckpointAnswer t L through (.ok (.published next)) :=
      fun y hy => ⟨hnext.mono hy hy.now, c, hmade.mono (tr.le.trans hy), hshown.mono hy⟩
    refine Runs.ite (fun _ => ?_) fun _ => Runs.pure fun y o _ => answer y o.le
    refine Runs.bind (A := Reads) le_anything gw (rememberTail_runs le_rfl) ?_
      (fun _ _ _ _ h => by cases h)
    exact fun _ y tr₄ _ _ => Runs.pure fun z o _ => answer z (tr₄.le.trans o.le)
  · obtain ⟨m, i', hd, w', hhi, rfl, hover⟩ := h
    obtain ⟨evidence, hev, hok⟩ :=
      State.Overtaken.classify ⟨view, log.stagingDomain, through, c⟩ gw.inv hhi hover
    refine Runs.liftBind (fun x hx => ?_) fun e u he _ _ => by rw [hev] at he; cases he
    obtain rfl := Except.ok.inj (hev.symm.trans hx)
    cases evidence with
    | published view' =>
        obtain ⟨rfl, hshown⟩ := hok
        exact Runs.pure fun y o _ => ⟨hover.loaded.viewOK.mono o.le o.le.now, c,
          hmade.mono (tr.le.trans o.le), hshown.mono o.le⟩
    | notPublished view' =>
        obtain ⟨rfl, href⟩ := hok
        exact Runs.pure fun y o _ => ⟨c, hmade.mono (tr.le.trans o.le), href.others o⟩
    | expired view' => exact Runs.pure fun y o _ => pending y (tr.le.trans o.le)
  · exact Runs.pure fun y o _ => ⟨c, hmade.mono (tr.le.trans o.le), State.Refused.others o h⟩
  · exact Runs.pure fun y o _ => pending y (tr.le.trans o.le)

theorem publishCheckpoint_runs {snapshot : Bytes} {objects : List StagedObject} (g : Good s)
    (hb : s.calls[t]? = some b)
    (hcall : b.call = .publishCheckpoint log view through snapshot objects) (hl : s.LogOK log)
    (hvb : s.ViewOK b.heads view) (hst : ∀ st ∈ objects, s.StagedOK st) (hL : L ≤ s.now)
    (clean : s.Clean t 0) :
    Runs t Anything (log.publishCheckpoint view through snapshot objects)
      (fun r u => u.CheckpointAnswer t L through r) s := by
  have hv : Viewing s log view := ⟨hl, hvb.mono (.refl s) (g.inv.calls t b hb).heads⟩
  obtain ⟨i, hi, hh⟩ := hvb.1
  have fine : ∀ {u : State} {e : Error}, u.Excused t e →
      u.CheckpointAnswer t L through (.error e) := fun h => h.order
  refine Runs.liftBind (fun _ hvalid => ?_) fun e u he _ _ => ?_
  swap
  · rcases validateStagedObjects_error (hv.checked g.inv) he with rfl | rfl
    · exact fine (u := u) excused_limit
    · exact nofun
  obtain ⟨-, hrefs, hdomain⟩ := validateStagedObjects_ok.1 hvalid
  have hproven : ∀ o ∈ objects.map StagedObject.object,
      s.Proven view.head view.head.collectionEpoch.toNat o := by
    intro o ho
    obtain ⟨st, hst', rfl⟩ := List.mem_map.1 ho
    exact (hst st hst').proven g.inv hv (hdomain st hst').2
  refine Runs.liftBind (fun subtree hsub => ?_) fun e u he _ _ => ?_
  swap
  · exact fine (u := u) (.of_limit (publicationObjects_error
      (fun o ho => (hproven o ho).stored.matches.choose_spec.counted) he))
  refine Runs.bind (A := Reads) le_anything g (verifyTail_runs le_rfl g hv) ?_
    fun e u _ _ h => fine h.excused
  intro _ u₁ tr₁ g₁ _
  refine Runs.liftBind (fun _ hbytes => ?_) fun e u he _ _ => ?_
  swap
  · exact fine (u := u) (.of_limit (validateCheckpointBytes_error he))
  refine Runs.bind (A := Reads) le_anything g₁
    (activeCollectionCandidates_runs le_rfl g₁ (hv.mono tr₁.le)) ?_
    fun e u _ _ h => fine h.publication.excused
  intro blocked u₂ tr₂ g₂ _
  have hle₂ := tr₁.le.trans tr₂.le
  have hdraw : s.DrawOK t := ⟨b, hb, fun _ _ _ _ _ _ hp => by rw [hcall] at hp; cases hp⟩
  refine Runs.bind (A := Fresh) le_anything g₂ (createFreshObject_runs le_rfl g₂
    (hdraw.mono hle₂)) ?_ ?_
  swap
  · rintro e u - - (h | h)
    · exact fine (h.excused (s := u))
    · exact fine (u := u) (.of_limit h)
  intro object u₃ tr₃ g₃ hfresh
  have hle := hle₂.trans tr₃.le
  -- the new checkpoint, and what is known of it from now on
  have hmade : u₃.Made t ⟨through.sequence, through.digest, object⟩ := ⟨b, log, view, through,
    snapshot, objects, hle.call hb, hcall, hfresh.id, rfl, rfl, hfresh.stored⟩
  have hof : u₃.CheckpointOf ⟨through.sequence, through.digest, object⟩ through view :=
    ⟨t, b, log, snapshot, objects, hle.call hb, hcall, hfresh.id, rfl, rfl⟩
  have hck : u₃.CheckpointProven view.head view.head.collectionEpoch.toNat
      ⟨through.sequence, through.digest, object⟩ := by
    refine State.Fresh.checkpoint hfresh g₃.inv (hle.call hb) (hv.mono hle)
      (hvb.mono hle le_rfl) rfl ?_ ?_ hbytes hsub ?_ fun o ho => (hproven o ho).mono hle
    · rfl
    · rfl
    · simpa using hrefs
  have clean₃ : u₃.Clean t 0 := by
    refine ((clean.reads tr₁).reads tr₂).track tr₃ ?_
    rintro _ _ ((h | ⟨_, _, h⟩) | h) <;> cases h
  exact finishCheckpoint_runs g₃ (hl.mono hle) hmade hof hfresh.id (hv.mono hle).view hck
    (hL.trans hle.now) clean₃ rfl

/-! ## `resolve_checkpoint` -/

/-- **What the answers of `resolve_checkpoint` stand on.** -/
def State.CheckpointResolved (s : State) (t L : Nat) (pending : PendingCheckpoint) :
    Except Error CheckpointResolution → Prop
  | .ok (.published view) => s.ViewOK s.now view ∧ s.Shown pending.through pending.checkpoint
  | .ok (.notPublished view) => s.Refused t L pending.through pending.checkpoint view
  | .ok (.stillPending p) => p.checkpoint = pending.checkpoint ∧ s.PendingCheckpointOK s.now p
  | .ok (.expired view) => s.ViewOK s.now view
  | .error e => s.Excused t e

/-- The checks that a checkpoint and its dependencies are complete. -/
theorem verifyCheckpointPublication_runs (g : Good s) (hl : s.LogOK log)
    (hp : s.PendingCheckpointOK s.now pending) :
    Runs t Reads (log.verifyCheckpointPublication pending) (fun r u => match r with
      | .ok _ => True
      | .error e => u.Excused t e) s := by
  obtain ⟨hview, -, -, hproven⟩ := hp
  have hv : Viewing s log pending.view := ⟨hl, hview⟩
  obtain ⟨i, hh⟩ := hv.head
  obtain ⟨-, e2, e3⟩ := hv.same g.inv
  obtain ⟨ck, hbody, hobjects⟩ := hproven.body
  refine Runs.ite (fun _ => ?_) fun _ => ?_
  · refine (verifyPublication_sound le_rfl g hv fun o ho => ?_).mono ?_
    · cases ho
    rintro (e | _) u _ h
    · exact h.excused
    · trivial
  refine Runs.bind le_rfl g (loadCheckpoint_runs le_rfl g hl pending.checkpoint) ?_ ?_
  · rintro checkpoint u tr gu ⟨bytes, hb, hdec⟩
    -- what was loaded is the checkpoint that was made
    have hstored := tr.le.body _ _ hbody.stored
    rw [e2] at hstored
    obtain rfl := Option.some.inj (hstored.symm.trans hb)
    have hdec' := hbody.decodeReference (hv.same g.inv).1 e2 e3
    obtain rfl := Except.ok.inj (hdec.symm.trans (decodeCheckpointReference_ok hdec'))
    refine (verifyPublication_sound le_rfl gu (hv.mono tr.le) fun o ho => ?_).mono ?_
    · rw [← e2, ← e3]
      exact (hobjects o ho).stored.mono tr.le.body
    · rintro (e | _) w _ h
      · exact h.excused
      · trivial
  · intro e u _ _ h
    rcases h i _ _ ck hh hbody with h | ⟨hm, hl⟩
    · exact h.excused
    · exact fun _ => ⟨hm, _, _, hl⟩

/-- Another publication of a checkpoint, and what `resolve_checkpoint` makes of it. -/
theorem retryCheckpoint_runs (g : Good s) (hp : s.PendingCheckpointOK s.now pending)
    (pub : Runs t Anything (log.publishCheckpointHead current fun v =>
        checkpointHead v.head pending.through pending.checkpoint.object)
      (fun r u => u.CheckpointPublished t L pending.through pending.checkpoint pending.view r) s) :
    Runs t Anything (do
      let pending := { pending with stagingDomain := log.stagingDomain }
      match ← (log.publishCheckpointHead current (fun v =>
          checkpointHead v.head pending.through pending.checkpoint.object)).attempt with
      | .ok (.updated view) => return CheckpointResolution.published view
      | .ok .pending => return .stillPending pending
      | .error (.store _) => return .stillPending pending
      | .error .requestDenied => return .stillPending pending
      | .ok (.contended current) => return .notPublished current
      | .error error => throw error
      | .ok (.changed current attemptedGeneration) =>
          return (← Prog.lift (classifyCheckpoint pending current attemptedGeneration)).resolution)
      (fun r u => u.CheckpointResolved t L pending r) s := by
  have still : ∀ w, s.Le w → w.CheckpointResolved t L pending
      (.ok (.stillPending { pending with stagingDomain := log.stagingDomain })) :=
    fun w hw => ⟨rfl, hp.mono hw hw.now⟩
  refine Runs.attemptBind le_rfl g pub ?_
  rintro (e | (next | ⟨current', generation⟩ | current' | _)) u tr gu h
  · obtain rfl | ⟨what, rfl⟩ := h
    · exact Runs.pure fun w o _ => still w (tr.le.trans o.le)
    · exact Runs.throw fun w _ _ => excused_limit
  · exact Runs.pure fun w o _ => ⟨h.2.mono o.le o.le.now, h.1.mono o.le⟩
  · obtain ⟨m, i, hd, w, hhi, rfl, hover⟩ := h
    obtain ⟨evidence, hev, hok⟩ := State.Overtaken.classify
      { pending with stagingDomain := log.stagingDomain } gu.inv hhi hover
    refine Runs.liftBind (fun x hx => ?_) fun e u he _ _ => by rw [hev] at he; cases he
    obtain rfl := Except.ok.inj (hev.symm.trans hx)
    have hview := hover.loaded.viewOK
    cases evidence with
    | published view =>
        obtain ⟨rfl, hshown⟩ := hok
        exact Runs.pure fun y o _ => ⟨hview.mono o.le o.le.now, hshown.mono o.le⟩
    | notPublished view =>
        obtain ⟨rfl, href⟩ := hok
        exact Runs.pure fun y o _ => href.others o
    | expired view =>
        obtain rfl := hok
        exact Runs.pure fun y o _ => hview.mono o.le o.le.now
  · exact Runs.pure fun w o _ => State.Refused.others o h
  · exact Runs.pure fun w o _ => still w (tr.le.trans o.le)

theorem resolveCheckpoint_runs (g : Good s) (hb : s.calls[t]? = some b)
    (hcall : b.call = .resolveCheckpoint log pending) (hl : s.LogOK log)
    (hp : s.PendingCheckpointOK s.now pending) (clean : s.Clean t 0) :
    Runs t Anything (log.resolveCheckpoint pending)
      (fun r u => u.CheckpointResolved t s.now pending r) s := by
  obtain ⟨hview, hof, hth, hproven⟩ := id hp
  have hv : Viewing s log pending.view := ⟨hl, hview⟩
  obtain ⟨i, hi, hh⟩ := hview.1
  have hvalid := hv.checked g.inv
  refine Runs.liftBind (fun _ _ => ?_) fun e u he _ _ => by rw [hvalid] at he; cases he
  refine Runs.liftBind (fun original horiginal => ?_) fun e u he _ _ => ?_
  swap
  · rcases Change.apply_error (c := .checkpoint pending.through pending.checkpoint.object) he with
      hlim | ⟨_, _, heq, hno, -⟩
    · exact .of_limit hlim
    · obtain ⟨rfl, -⟩ := Change.checkpoint.inj heq
      exact absurd hth hno
  have hres : (Change.checkpoint pending.through pending.checkpoint.object).Result
      pending.view.head original := Change.apply_result horiginal
  have hsame : original.checkpoint = some pending.checkpoint := by
    rcases hres.records with ⟨_, heq, -⟩ | ⟨_, _, _, heq, -, -, hck⟩ | ⟨-, hne, -⟩
    · cases heq
    · obtain ⟨rfl, rfl⟩ := Change.checkpoint.inj heq
      rw [hck]
      exact congrArg some hof.eta.symm
    · exact absurd rfl (hne _ _)
  refine Runs.liftBind (fun _ _ => ?_) fun e u he _ _ => ?_
  swap
  · rw [show ensure _ _ = .ok () from ensure_ok.2 hsame] at he
    cases he
  have still : ∀ w, s.Le w → w.CheckpointResolved t s.now pending (.ok (.stillPending pending)) :=
    fun w hw => ⟨rfl, hp.mono hw hw.now⟩
  refine Runs.bind (A := Reads) le_anything g (evidence_runs g (load_runs le_rfl g hl)) ?_
    fun e u _ _ h => absurd h.2 h.1
  rintro (_ | current) u tr gu h
  · exact Runs.pure fun w o _ => still w (tr.le.trans o.le)
  have load : Loaded t s.now current u := h
  obtain ⟨m, hm, hhm⟩ := load.head
  have him : i ≤ m := by omega
  have hcompat := compatiblePublicationView_eq Head.hasCheckpointAppendBase gu.inv
    (hh.mono tr.le) hhm him (AppendBase.refl _)
  refine Runs.liftBind (fun found hfound => ?_) fun e w h _ _ => by rw [hcompat] at h; cases h
  rw [hcompat] at hfound
  have hfound := Except.ok.inj hfound
  have clean₁ : u.Clean t 0 := clean.reads tr
  by_cases hbase : pending.view.head.hasCheckpointAppendBase current.head = true
  swap
  · -- the head has another base: it says what became of the checkpoint
    rw [if_neg hbase] at hfound
    subst hfound
    have hlt : i < m := by
      rcases Nat.lt_or_ge i m with hlt | hge
      · exact hlt
      · obtain rfl : m = i := by omega
        rw [((hh.mono tr.le).unique hhm).1] at hbase
        exact absurd (AppendBase.refl _) hbase
    have hover : u.Overtaken t s.now m i pending.through pending.checkpoint pending.view current :=
      ⟨hof.mono tr.le, load, hhm, ⟨i, le_rfl, hh.mono tr.le⟩,
        ⟨hlt, _, _, hh.mono tr.le, .refl _⟩, hbase, clean₁.le (Nat.zero_le _), clean₁.sends _⟩
    obtain ⟨evidence, hev, hok⟩ := State.Overtaken.classify pending gu.inv (hh.mono tr.le) hover
    refine Runs.liftBind (fun x hx => ?_) fun e u he _ _ => by rw [hev] at he; cases he
    obtain rfl := Except.ok.inj (hev.symm.trans hx)
    cases evidence with
    | published view =>
        obtain ⟨rfl, hshown⟩ := hok
        have answer : ∀ w, u.Le w →
            w.CheckpointResolved t s.now pending (.ok (.published view)) := fun w hw =>
          ⟨load.viewOK.mono hw hw.now, hshown.mono hw⟩
        refine Runs.ite (fun _ => Runs.pure fun w o _ => answer w o.le) fun _ => ?_
        obtain ⟨ck, hbody, -⟩ := (hproven.mono tr.le).body
        refine Runs.bind (A := Reads) le_anything gu (evidence_runs gu
          (verifyCheckpoint_runs le_rfl gu (hl.mono tr.le) (hh.mono tr.le) hbody)) ?_ ?_
        · rintro (_ | _) w tr' gw _
          · exact Runs.pure fun x o _ => still x ((tr.le.trans tr'.le).trans o.le)
          · exact Runs.pure fun x o _ => answer x (tr'.le.trans o.le)
        · intro e w _ _ h
          exact State.PublicationError.excused (.inr (.inl h.2))
    | notPublished view =>
        obtain ⟨rfl, href⟩ := hok
        exact Runs.pure fun w o _ => href.others o
    | expired view =>
        obtain rfl := hok
        exact Runs.pure fun w o _ => load.viewOK.mono o.le o.le.now
  -- the head still has the base of the checkpoint
  rw [if_pos hbase] at hfound
  subst hfound
  refine Runs.bind (A := Reads) le_anything gu
    (evidence_runs gu (verifyTail_runs le_rfl gu (hv.mono tr.le))) ?_
    fun e w _ _ h => h.2.excused
  rintro (_ | _) u₁ tr₁ g₁ -
  · exact Runs.pure fun w o _ => still w ((tr.le.trans tr₁.le).trans o.le)
  have hle₁ := tr.le.trans tr₁.le
  refine Runs.bind (A := Reads) le_anything g₁ (evidence_runs g₁
    (verifyCheckpointPublication_runs g₁ (hl.mono hle₁) (hp.mono hle₁ hle₁.now))) ?_
    fun e w _ _ h => h.2
  rintro (_ | _) u₂ tr₂ g₂ -
  · exact Runs.pure fun w o _ => still w ((hle₁.trans tr₂.le).trans o.le)
  have hle := hle₁.trans tr₂.le
  have hpub : u₂.Publishes t pending.checkpoint := .inr ⟨b, log, pending, hle.call hb, hcall, rfl⟩
  have clean₂ : u₂.Clean t 0 := (clean₁.reads tr₁).reads tr₂
  exact retryCheckpoint_runs g₂ (hp.mono hle hle.now) (publishCheckpointHead_runs current g₂
    (hl.mono hle) (hof.mono hle) (hh.mono hle) (hproven.mono hle) hth hpub
    (hhm.mono (tr₁.le.trans tr₂.le)) him hbase hle.now clean₂)

end ObjectLog
