import ObjectLog.Results.Commits

/-!
# The outcome of a checkpoint

What a caller may conclude from the answer of `publish_checkpoint` and `resolve_checkpoint`.
As with a commit, a request names the version of the head it replaces, so it is dead as soon
as that head is no longer the durable one; unlike a commit, a checkpoint may be put on a head
with more commits than the one it was made for.
-/

set_option linter.unusedSectionVars false

namespace ObjectLog

section

variable [Blake3] {w w' : World} {s s' : State} {scope : LogId} {i j k m n t tid : Nat}
  {h h' : Head} {v v' : UpdateVersion} {c : CheckpointRef} {through : CommitRef} {b : Begun}
  {source current : View}

/-! ## Requests for a checkpoint -/

/-- Request `j` of call `tid` would put `c` on the head of moment `i`. -/
def State.CheckpointFlight (s : State) (j i : Nat) (c : CheckpointRef) (tid : Nat) : Prop :=
  ∃ f bytes expected h h', s.flights[j]? = some f ∧ f.tid = tid ∧
    f.req = .updateHead bytes expected ∧ s.HeadAt i h expected ∧ decodeHead bytes = .ok h' ∧
    h.checkpoint ≠ some c ∧ h'.checkpoint = some c

/-- A change that puts a checkpoint on a head is its installation. -/
theorem Change.Result.installs {change : Change} (hr : change.Result h h')
    (hno : h.checkpoint ≠ some c) (hc : h'.checkpoint = some c) :
    ∃ through, change = .checkpoint through c.object ∧
      c = ⟨through.sequence, through.digest, c.object⟩ := by
  rcases hr.records with ⟨-, -, -, he⟩ | ⟨through, object, -, rfl, -, -, he⟩ | ⟨-, -, -, he⟩
  · exact absurd (he.symm.trans hc) hno
  · obtain rfl := Option.some.inj (he.symm.trans hc)
    exact ⟨through, rfl, rfl⟩
  · exact absurd (he.symm.trans hc) hno

/-- A request for a checkpoint is sent by a call on it, for a head with its base. -/
theorem State.CheckpointFlight.attempt (inv : Inv s) (hf : s.CheckpointFlight j i c tid) :
    s.Publishes tid c ∧ ∃ through source i₀ h v, s.CheckpointOf c through source ∧
      s.HeadAt i₀ source.head source.version ∧ i₀ ≤ i ∧ s.HeadAt i h v ∧
      AppendBase source.head h := by
  obtain ⟨f, bytes, expected, h, h', hf, rfl, hreq, hh, hd, hno, hc⟩ := hf
  have hok := (inv.flights j f hf).req
  rw [hreq] at hok
  obtain ⟨i₁, h₁, change, h₁', hh₁, hd₁, -, hrep⟩ := hok
  obtain ⟨rfl, rfl⟩ := inv.version_unique hh hh₁ (.inl rfl)
  obtain rfl := Except.ok.inj (hd.symm.trans hd₁)
  obtain ⟨through, rfl, hce⟩ := hrep.result.installs hno hc
  obtain ⟨⟨hpub, source, i₀, hof, hs, hi, hb⟩, -⟩ := hrep.justified
  rw [← hce] at hpub hof
  exact ⟨hpub, through, source, i₀, h, expected, hof, hs, hi, hh, hb⟩

/-- A published checkpoint was published by a request for it. -/
theorem Inv.checkpoint_flight (inv : Inv s) (ho : s.CheckpointOf c through source)
    (hk : s.HeadAt k h v) (hc : h.checkpoint = some c) :
    ∃ j i tid h' v', s.CheckpointFlight j i c tid ∧ s.HeadAt (i + 1) h' v' ∧
      h'.checkpoint = some c := by
  obtain ⟨-, i, h₀, v₀, h', v', -, -, -, hh₀, hb, hh', -, hc'⟩ := inv.checkpoint_base ho hk hc
  have hno : h₀.checkpoint ≠ some c := inv.append_unshown ho hh₀ hb i h₀ v₀ le_rfl hh₀
  obtain ⟨j, f, bytes, -, hf, hreq, hstored, -⟩ := inv.links i h₀ v₀ h' v' hh₀ hh'
  have hd : decodeHead bytes = .ok h' := by
    obtain ⟨bytes', hb', hd'⟩ := id hh'
    rw [hstored] at hb'
    cases hb'
    exact hd'
  exact ⟨j, i, f.tid, h', v', ⟨f, bytes, v₀, h₀, h', hf, rfl, hreq, hh₀, hd, hno, hc'⟩, hh', hc'⟩

/-- A request that took effect is the reason of the next head. -/
theorem State.CheckpointFlight.applied (inv' : Inv s') (hle : s.Le s')
    (hf : s.CheckpointFlight j i c tid) (happ : s'.Applied j) :
    ∃ h' v', s'.HeadAt (i + 1) h' v' ∧ h'.checkpoint = some c := by
  obtain ⟨f, bytes, expected, h, h', hf, -, hreq, hh, hd, -, hc⟩ := hf
  obtain ⟨tid', bytes', expected', sent, n, v, told, hf'⟩ := happ
  obtain ⟨f'', hf'', -, hreq', -⟩ := hle.flight hf
  rw [hf'] at hf''
  obtain rfl := Option.some.inj hf''
  rw [hreq] at hreq'
  obtain ⟨rfl, rfl⟩ := Req.updateHead.inj hreq'
  obtain ⟨-, -, hans⟩ := (inv'.flights j _ hf').landed n (some v) rfl
  obtain ⟨i', stored, hi', hver, hnext⟩ := hans v rfl
  -- the version names the head, so the request replaced the head it was made for
  obtain ⟨g, hg⟩ : ∃ g, s'.HeadAt i' g expected' := by
    obtain ⟨g, hg, -⟩ := inv'.heads _ (List.mem_of_getElem? hi')
    exact ⟨g, stored.bytes, by rw [hi', ← hver], hg⟩
  obtain ⟨rfl, -⟩ := inv'.version_unique (hh.mono hle) hg (.inl rfl)
  exact ⟨h', _, ⟨bytes', hnext, hd⟩, hc⟩

/-- **A checkpoint is settled** as soon as a head is durable up to which it was on no head and
that is newer than every head it was requested for. -/
theorem Inv.checkpoint_settled (inv : Inv s) (ho : s.CheckpointOf c through source)
    (hm : s.HeadAt m h v) (hun : s.Unshown m c)
    (hall : ∀ j i tid, s.CheckpointFlight j i c tid → i < m) :
    (∀ n, s.Unshown n c) ∧ ∀ s', s.Le s' → Inv s' → ∀ j i tid, s.CheckpointFlight j i c tid →
      ¬ s'.Applied j := by
  constructor
  · intro n k g u _ hk hc
    obtain ⟨j, i, tid, h', v', hf, hh', hc'⟩ := inv.checkpoint_flight ho hk hc
    exact hun (i + 1) h' v' (hall j i tid hf) hh' hc'
  · intro s' hle inv' j i tid hf happ
    obtain ⟨h', v', hh', hc'⟩ := hf.applied inv' hle happ
    have hlt := hall j i tid hf
    exact hun (i + 1) h' v' hlt (hh'.back hle (lt_of_le_of_lt hlt hm.lt)) hc'

/-- An update of the head that was sent before a call began is for a head of that time. -/
theorem Reachable.sentBefore {f : Flight} {bytes : Bytes} (hr : Reachable scope w)
    (nc : w.state.NoCollision) (hb : w.state.calls[t]? = some b)
    (hf : w.state.flights[j]? = some f) (hreq : f.req = .updateHead bytes v)
    (hh : w.state.HeadAt i h v) (hj : j < b.flights) : i < b.heads := by
  have inv := (hr.ok nc).good.inv
  obtain ⟨w₀, hr₀, hsteps, hflights, hheads, -, hk⟩ := hr.begun hb
  have hr₁ : Reachable scope (w₀.begin b.call) := hr₀.step (.begin b.call hk)
  obtain ⟨-, hle⟩ := (hr₁.ok (nc.back hsteps.headLog)).steps hsteps nc
  have inv₁ := (hr₁.ok (nc.back hsteps.headLog)).good.inv
  obtain ⟨f₀, hf₀⟩ : ∃ f₀, (w₀.begin b.call).state.flights[j]? = some f₀ :=
    ⟨_, List.getElem?_eq_getElem (show j < w₀.state.flights.length by omega)⟩
  obtain ⟨f', hf', -, hreq', -⟩ := hle.flight hf₀
  obtain rfl := Option.some.inj (hf.symm.trans hf')
  have hok := (inv₁.flights j f₀ hf₀).req
  rw [← hreq', hreq] at hok
  obtain ⟨i₀, h₀, -, -, hh₀, -⟩ := hok
  obtain ⟨rfl, -⟩ := inv.version_unique hh (hh₀.mono hle) (.inl rfl)
  have hlt : i < w₀.state.now := hh₀.lt
  omega

/-! ## One holder -/

/-- What the answer of a call says about its checkpoint: it was published, it was not, or
neither. -/
def Call.checkpointVerdict : Call → Except Error Value → Option Bool
  | .publishCheckpoint _ _ _ _ _, .ok (.checkpoint (.published _)) => some true
  | .publishCheckpoint _ _ _ _ _, .ok (.checkpoint (.conflict _)) => some false
  | .resolveCheckpoint _ _, .ok (.checkpointResolution (.published _)) => some true
  | .resolveCheckpoint _ _, .ok (.checkpointResolution (.notPublished _)) => some false
  | _, _ => none

/-- Call `t` asks for the checkpoint `c` of the tail up to `through`: it has made it, or it was
given it. -/
def State.AsksFor (s : State) (t : Nat) (through : CommitRef) (c : CheckpointRef) : Call → Prop
  | .publishCheckpoint _ _ through' _ _ => through' = through ∧ s.Made t c
  | .resolveCheckpoint _ pending => pending.through = through ∧ pending.checkpoint = c
  | _ => False

/-- The calls on a checkpoint do not overlap: each had sent all its requests when the next
one began. -/
def State.SerialOn (s : State) (c : CheckpointRef) : Prop :=
  ∀ (t t' : Nat) (b' : Begun), s.Publishes t c → s.Publishes t' c → s.calls[t']? = some b' →
    t < t' → ∀ (j : Nat) (f : Flight), s.flights[j]? = some f → f.tid = t → j < b'.flights

/-- **A negative answer is newer than every request for the checkpoint.** -/
theorem refused_newest (hr : Reachable scope w) (nc : w.state.NoCollision)
    (hserial : w.state.SerialOn c) (hlast : ∀ t', t < t' → ¬ w.state.Publishes t' c)
    (hb : w.state.calls[t]? = some b) (hpub : w.state.Publishes t c)
    (hn : w.state.RefusedAt t b.heads m through c source current)
    (hf : w.state.CheckpointFlight j i c tid) : i < m := by
  have inv := (hr.ok nc).good.inv
  obtain ⟨hpub', through', source', i₀, h, v, hof, hs, hi₀, hh, hbase⟩ := hf.attempt inv
  obtain ⟨rfl, rfl⟩ := hn.origin.unique inv hof
  by_contra hge
  rcases hn.reason with hmoved | ⟨-, hlate⟩
  · -- the base is gone, so no head after it is one to put the checkpoint on
    obtain ⟨i₁, hi₁, hh₁⟩ := hn.after
    exact hmoved (inv.append_convex hi₁ (by omega) hh₁ hn.head hh hbase)
  · -- the base is still there, so the request is told from the others by its call
    obtain ⟨f, bytes, expected, h₁, -, hf, htid, hreq, hh₁, -⟩ := hf
    rcases Nat.lt_trichotomy tid t with hlt | rfl | hgt
    · have hsent := hserial tid t b hpub' hpub hb hlt j f hf htid
      have := hr.sentBefore nc hb hf hreq hh₁ hsent
      omega
    · obtain ⟨⟨i', h', hi', hh'⟩, -⟩ := hn.clean j f bytes expected hf htid hreq
      obtain ⟨rfl, -⟩ := inv.version_unique hh₁ hh' (.inl rfl)
      omega
    · exact hlast tid hgt hpub'

/-- Where a checkpoint is shown, its record was cut off the tail and the rest was kept. -/
theorem State.Shown.cuts (hs : s.Shown through c) :
    ∃ i h v h' v' before after, s.HeadAt i h v ∧ s.HeadAt (i + 1) h' v' ∧
      h'.checkpoint = some c ∧ c.throughSequence = through.sequence ∧
      c.throughCommit = through.digest ∧ h.tail = before ++ through :: after ∧
      h'.tail = after := by
  obtain ⟨i, h, v, h', v', hh, hh', hres, hc⟩ := hs
  rcases hres.records with ⟨_, heq, -⟩ | ⟨_, _, k, heq, hget, htail, hck⟩ | ⟨-, hne, -⟩
  · cases heq
  · obtain ⟨rfl, -⟩ := Change.checkpoint.inj heq
    obtain rfl := Option.some.inj (hc.symm.trans hck)
    obtain ⟨hlt, hget⟩ := List.getElem?_eq_some_iff.1 hget
    refine ⟨i, h, v, h', v', h.tail.take k, h.tail.drop (k + 1), hh, hh', hc, rfl, rfl, ?_, htail⟩
    rw [← hget, ← List.drop_eq_getElem_cons hlt, List.take_append_drop]
  · exact absurd rfl (hne _ _)

theorem State.Made.publishes (hm : s.Made t c) : s.Publishes t c := by
  obtain ⟨-, -, -, -, -, -, -, -, hid, -⟩ := hm
  exact .inl hid

theorem World.OK.checkpointed {r : Except Error Value} (ok : w.OK)
    (hb : w.state.calls[t]? = some b) (ht : w.threads[t]? = some (.done r))
    (hv : b.call.checkpointVerdict r = some true) :
    ∃ through c, w.state.AsksFor t through c b.call ∧ w.state.Shown through c := by
  have hout := (ok.returned ht hb).outcome
  unfold Call.checkpointVerdict at hv
  split at hv
  case h_1 hcall =>
    simp only [State.Outcome, hcall] at hout
    obtain ⟨-, c, hmade, hshown⟩ := hout
    rw [hcall]
    exact ⟨_, c, ⟨rfl, hmade⟩, hshown⟩
  case h_3 hcall =>
    simp only [State.Outcome, hcall] at hout
    rw [hcall]
    exact ⟨_, _, ⟨rfl, rfl⟩, hout.2⟩
  all_goals cases hv

theorem World.OK.refused {r : Except Error Value} (ok : w.OK)
    (hb : w.state.calls[t]? = some b) (ht : w.threads[t]? = some (.done r))
    (hv : b.call.checkpointVerdict r = some false) :
    ∃ through c m source current, w.state.AsksFor t through c b.call ∧
      w.state.Publishes t c ∧ w.state.RefusedAt t b.heads m through c source current := by
  have hout := (ok.returned ht hb).outcome
  unfold Call.checkpointVerdict at hv
  split at hv
  case h_2 hcall =>
    simp only [State.Outcome, hcall] at hout
    obtain ⟨c, hmade, m, source, href⟩ := hout
    rw [hcall]
    exact ⟨_, c, m, source, _, ⟨rfl, hmade⟩, hmade.publishes, href⟩
  case h_4 log pending view hcall =>
    simp only [State.Outcome, hcall] at hout
    obtain ⟨m, source, href⟩ := hout
    rw [hcall]
    exact ⟨_, _, m, source, _, ⟨rfl, rfl⟩, .inr ⟨b, log, pending, hb, hcall, rfl⟩, href⟩
  all_goals cases hv

/-- **The answers about a checkpoint are sound.** Published: it was put on a head, which kept
all that follows the record it covers. Conflict or not published: it was on no head, and of the
requests that were sent for it none takes effect any more, if the calls on it do not overlap and
this is the last. And no call finds the heads out of order. -/
theorem checkpoint_outcomes_sound {r : Except Error Value} (hr : Reachable scope w)
    (nc : w.state.NoCollision) (hb : w.state.calls[t]? = some b)
    (ht : w.threads[t]? = some (.done r)) :
    (b.call.checkpointVerdict r = some true →
      ∃ through c, w.state.AsksFor t through c b.call ∧ ∃ i h v h' v' before after,
        w.state.HeadAt i h v ∧ w.state.HeadAt (i + 1) h' v' ∧ h'.checkpoint = some c ∧
        c.throughSequence = through.sequence ∧ c.throughCommit = through.digest ∧
        h.tail = before ++ through :: after ∧ h'.tail = after) ∧
    (b.call.checkpointVerdict r = some false →
      ∃ through c, w.state.AsksFor t through c b.call ∧
        (w.state.SerialOn c → (∀ t', t < t' → ¬ w.state.Publishes t' c) →
          (∀ i h v, w.state.HeadAt i h v → h.checkpoint ≠ some c) ∧
          ∀ w', Steps w w' → w'.state.NoCollision →
            ∀ j i tid, w.state.CheckpointFlight j i c tid → ¬ w'.state.Applied j)) ∧
    ((∃ log source through snapshot objects,
        b.call = .publishCheckpoint log source through snapshot objects) ∨
      (∃ log pending, b.call = .resolveCheckpoint log pending) →
      ∀ e, r = .error e → ¬ e.Disorder) := by
  have ok := hr.ok nc
  have inv := ok.good.inv
  refine ⟨fun hv => ?_, fun hv => ?_, fun hcall e he => ?_⟩
  · obtain ⟨through, c, hasks, hshown⟩ := ok.checkpointed hb ht hv
    exact ⟨through, c, hasks, hshown.cuts⟩
  · obtain ⟨through, c, m, source, current, hasks, hpub, href⟩ := ok.refused hb ht hv
    refine ⟨through, c, hasks, fun hserial hlast => ?_⟩
    obtain ⟨hnever, hdead⟩ := inv.checkpoint_settled href.origin href.head href.unshown
      fun j i tid hf => refused_newest hr nc hserial hlast hb hpub href hf
    refine ⟨fun i h v hh => hnever i i h v le_rfl hh, fun w' hs nc' j i tid hf => ?_⟩
    obtain ⟨ok', hle⟩ := ok.steps hs nc'
    exact hdead w'.state hle ok'.good.inv j i tid hf
  · have hout := (ok.returned ht hb).outcome
    rw [he] at hout
    rcases hcall with ⟨log, source, through, snapshot, objects, hcall⟩ | ⟨log, pending, hcall⟩
    · simp only [State.Outcome, hcall] at hout
      exact hout
    · simp only [State.Outcome, hcall] at hout
      exact State.Excused.order hout

end

section

attribute [local instance] sampleHash

/-- A second checkpoint from the view that the first one was made for. -/
def rivalCheckpoint : List Action :=
  firstCheckpoint ++
  alone 8 (fun w => do
    let view ← w.viewAt 6
    return .publishCheckpoint (← w.logAt 0) view (← view.head.tail.head?) [8] [])

/-- Call 8 answers that its checkpoint is not published, and nobody resolves one. -/
def rivalCheckpointFacts (w : World) : Bool :=
  w.state.calls.all (fun b => match b.call with
    | .resolveCheckpoint _ _ => false
    | _ => true) &&
  match w.outcomeAt 8 with
  | some (⟨.publishCheckpoint log view through snapshot objects, _, _⟩, r) =>
      Call.checkpointVerdict (.publishCheckpoint log view through snapshot objects) r == some false
  | _ => false

theorem rivalCheckpoint_ends : ends rivalCheckpoint rivalCheckpointFacts = true := by
  decide +kernel

theorem checkpoint_outcomes_sound_rivalCheckpoint :
    ∃ c, (sample rivalCheckpoint).state.Made 8 c ∧
      (∀ i h v, (sample rivalCheckpoint).state.HeadAt i h v → h.checkpoint ≠ some c) ∧
      ∀ w', Steps (sample rivalCheckpoint) w' → w'.state.NoCollision → ∀ j i tid,
        (sample rivalCheckpoint).state.CheckpointFlight j i c tid → ¬ w'.state.Applied j := by
  obtain ⟨hr, nc, hf⟩ := ends_ok rivalCheckpoint_ends
  generalize sample rivalCheckpoint = w at hr nc hf ⊢
  rw [rivalCheckpointFacts, Bool.and_eq_true] at hf
  obtain ⟨hnone, hf⟩ := hf
  split at hf
  · rename_i log view through snapshot objects flights heads r hout
    obtain ⟨hb, ht⟩ := World.outcomeAt_ok hout
    obtain ⟨through, c, ⟨rfl, hmade⟩, hnever⟩ :=
      (checkpoint_outcomes_sound hr nc hb ht).2.1 (beq_iff_eq.1 hf)
    -- only the call that drew its identity is on the checkpoint
    have only : ∀ t, w.state.Publishes t c → t = 8 := by
      rintro t (hid | ⟨b, log, pending, hb, hcall, -⟩)
      · obtain ⟨-, -, -, -, -, -, -, -, hid', -⟩ := hmade
        exact (hr.ok nc).good.inv.owner _ _ _ hid hid'
      · have := List.all_eq_true.1 hnone b (List.mem_of_getElem? hb)
        rw [hcall] at this
        cases this
    refine ⟨c, hmade, hnever (fun t t' _ hp hp' _ hlt => ?_) fun t' hlt hp => ?_⟩
    · have := only t hp
      have := only t' hp'
      omega
    · have := only t' hp
      omega
  · cases hf

end

end ObjectLog
