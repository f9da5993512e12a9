import ObjectLog.Proof.World
import ObjectLog.Replay

/-!
# The outcome of a commit

What a caller may conclude from the answer of `commit`, `resolve` and `resume`. A request
that would append the candidate names the version of the head it replaces, so it is dead as
soon as that head is no longer the durable one. An answer is final when every request that
was sent for the candidate is dead.
-/

set_option linter.unusedSectionVars false

namespace ObjectLog

variable {w w' : World} {s s' : State} {scope : LogId} {i j m n t tid : Nat} {h h' : Head}
  {v v' : UpdateVersion} {ref : CommitRef} {p : PreparedCommit} {b : Begun}

/-! ## Requests for a candidate -/

/-- Request `j` of call `tid` would append `ref` to the head of moment `i`. -/
def State.AppendFlight [Blake3] (s : State) (j i : Nat) (ref : CommitRef) (tid : Nat) : Prop :=
  ∃ f bytes expected h h', s.flights[j]? = some f ∧ f.tid = tid ∧
    f.req = .updateHead bytes expected ∧ s.HeadAt i h expected ∧ decodeHead bytes = .ok h' ∧
    (Change.append ref).Result h h'

/-- Request `j`, an update of the head, has taken effect. -/
def State.Applied [Blake3] (s : State) (j : Nat) : Prop :=
  ∃ (tid : Nat) (bytes : Bytes) (expected : UpdateVersion) (sent n : Nat) (v : UpdateVersion)
    (told : Option (Nat × Except StoreError (Answer (.updateHead bytes expected)))),
    s.flights[j]? = some ⟨tid, .updateHead bytes expected, sent, some (n, some v), told⟩

/-- A change that appends a commit is that append. -/
theorem Change.Result.append_unique {c : Change} (hr : c.Result h h')
    (ha : (Change.append ref).Result h h') : c = .append ref := by
  have htail : h'.tail = h.tail ++ [ref] := by
    cases ha
    rfl
  have hlen := congrArg List.length htail
  rw [List.length_append, List.length_singleton] at hlen
  cases hr with
  | append =>
      rename_i commit g n hg hn
      have hlast : commit = ref := by simpa using htail
      rw [hlast]
  | checkpoint =>
      simp only [List.length_drop] at hlen
      omega
  | retention =>
      rename_i change g hg
      have : ({ change.apply h with generation := g } : Head).tail = h.tail := by
        cases change <;> rfl
      rw [this] at hlen
      omega
  | install => simp at hlen
  | clear => simp at hlen

/-- A request for a candidate is sent by a call on it, for a head with its base. -/
theorem State.AppendFlight.attempt [Blake3] (inv : Inv s) (ha : s.AppendFlight j i ref tid) :
    (∃ b, s.calls[tid]? = some b ∧ b.call.target = some ref) ∧
    ∃ p h v, s.HeadAt i h v ∧ s.Candidate ref p ∧ SameBase p.view.head h := by
  obtain ⟨f, bytes, expected, h, h', hf, rfl, hreq, hh, hd, hres⟩ := ha
  have hok := (inv.flights j f hf).req
  rw [hreq] at hok
  obtain ⟨i₁, h₁, c, h₁', hh₁, hd₁, -, hrep⟩ := hok
  obtain ⟨rfl, rfl⟩ := inv.version_unique hh hh₁ (.inl rfl)
  obtain rfl := Except.ok.inj (hd.symm.trans hd₁)
  obtain rfl := hrep.result.append_unique hres
  obtain ⟨htarget, -, q, log, p, hp, he, hs, -⟩ := hrep.justified
  exact ⟨htarget, p, h, expected, hh, ⟨q, log, _, hp, he⟩, hs⟩

/-- A published commit was published by a request for it. -/
theorem Inv.appended_flight [Blake3] (inv : Inv s) (hn : n < s.now) (hm : ref ∈ s.historyAt n) :
    ∃ j i tid, s.AppendFlight j i ref tid ∧ i < n ∧ ref ∈ s.historyAt (i + 1) := by
  obtain ⟨i, h, v, h', v', t, hi, hh, hh', hrep⟩ := inv.appended_link hn hm
  obtain ⟨j, f, bytes, c, hf, hreq, hstored, -⟩ := inv.links i h v h' v' hh hh'
  have hd : decodeHead bytes = .ok h' := by
    obtain ⟨bytes', hb', hd'⟩ := hh'
    rw [hstored] at hb'
    cases hb'
    exact hd'
  exact ⟨j, i, f.tid, ⟨f, bytes, v, h, h', hf, rfl, hreq, hh, hd, hrep.result⟩, hi,
    inv.mem_history_append hh hh' hrep.result⟩

/-- A request that took effect is the reason of the next head. -/
theorem State.AppendFlight.applied [Blake3] (inv' : Inv s') (hle : s.Le s')
    (ha : s.AppendFlight j i ref tid) (happ : s'.Applied j) : ref ∈ s'.historyAt (i + 1) := by
  obtain ⟨f, bytes, expected, h, h', hf, -, hreq, hh, hd, hres⟩ := ha
  obtain ⟨tid', bytes', expected', sent, n, v, told, hf'⟩ := happ
  obtain ⟨f'', hf'', -, hreq', -⟩ := hle.flight hf
  rw [hf'] at hf''
  obtain rfl := Option.some.inj hf''
  rw [hreq] at hreq'
  obtain ⟨rfl, rfl⟩ := Req.updateHead.inj hreq'
  obtain ⟨-, -, hans⟩ := (inv'.flights j _ hf').landed n (some v) rfl
  obtain ⟨i', stored, hi', hver, hnext⟩ := hans v rfl
  -- the version names the head, so the request replaced the head it was made for
  obtain ⟨g, hg⟩ : ∃ g, s'.HeadAt i' g expected' := by
    obtain ⟨g, hg, -⟩ := inv'.heads _ (List.mem_of_getElem? hi')
    exact ⟨g, stored.bytes, by rw [hi', ← hver], hg⟩
  obtain ⟨rfl, rfl⟩ := inv'.version_unique (hh.mono hle) hg (.inl rfl)
  exact inv'.mem_history_append hg ⟨bytes', hnext, hd⟩ hres

/-- **A candidate is settled** as soon as a head is durable that does not show it and that is
newer than every head it was requested for. -/
theorem Inv.settled [Blake3] (inv : Inv s) (hm : s.HeadAt m h v) (hno : ref ∉ s.historyAt m)
    (hall : ∀ j i tid, s.AppendFlight j i ref tid → i < m) :
    ref ∉ s.history ∧ ∀ s', s.Le s' → Inv s' → ∀ j i tid, s.AppendFlight j i ref tid →
      ¬ s'.Applied j := by
  constructor
  · intro hin
    have hpos : 0 < s.now := Nat.zero_lt_of_lt hm.lt
    rw [inv.history_eq (i := s.now - 1) (by omega)] at hin
    obtain ⟨j, i, tid, ha, -, hpub⟩ := inv.appended_flight (by omega) hin
    exact hno ((State.historyAt_mono (hall j i tid ha)).subset hpub)
  · intro s' hle inv' j i tid ha happ
    have hpub := ha.applied inv' hle happ
    have hlt := hall j i tid ha
    rw [inv.historyAt_le hle (lt_of_le_of_lt hlt hm.lt)] at hpub
    exact hno ((State.historyAt_mono hlt).subset hpub)

/-! ## One holder -/

/-- What the answer of a call says about its candidate: it was published, it was not, or
neither. -/
def Call.verdict : Call → Except Error Value → Option Bool
  | .commit _ _, .ok (.commit (.committed _)) => some true
  | .commit _ _, .ok (.commit (.conflict _)) => some false
  | .resolve _ _, .ok (.resolution (.committed _)) => some true
  | .resolve _ _, .ok (.resolution (.notCommitted _)) => some false
  | .resume _ _, .ok (.resolution (.committed _)) => some true
  | .resume _ _, .ok (.resolution (.notCommitted _)) => some false
  | _, _ => none

/-- The calls on a candidate do not overlap: each had sent all its requests when the next
one began. -/
def State.Serial [Blake3] (s : State) (ref : CommitRef) : Prop :=
  ∀ (t t' : Nat) (b b' : Begun), s.calls[t]? = some b → s.calls[t']? = some b' →
    b.call.target = some ref → b'.call.target = some ref → t < t' →
    ∀ (j : Nat) (f : Flight), s.flights[j]? = some f → f.tid = t → j < b'.flights

def State.FirstOn [Blake3] (s : State) (t : Nat) (ref : CommitRef) : Prop :=
  ∀ (t' : Nat) (b' : Begun), t' < t → s.calls[t']? = some b' → b'.call.target ≠ some ref

def State.LastOn [Blake3] (s : State) (t : Nat) (ref : CommitRef) : Prop :=
  ∀ (t' : Nat) (b' : Begun), t < t' → s.calls[t']? = some b' → b'.call.target ≠ some ref

theorem World.OK.committed [Blake3] {r : Except Error Value} (ok : w.OK)
    (hb : w.state.calls[t]? = some b) (ht : w.threads[t]? = some (.done r))
    (htarget : b.call.target = some ref) (hv : b.call.verdict r = some true) :
    ref ∈ w.state.history := by
  have hout := (ok.returned ht hb).outcome
  unfold Call.verdict at hv
  split at hv
  case h_1 hcall =>
    simp only [State.Outcome, hcall] at hout
    obtain ⟨ref', href, hans⟩ := hout
    obtain rfl := Option.some.inj (htarget.symm.trans (hcall ▸ href))
    exact hans.1
  case h_3 hcall | h_5 hcall =>
    simp only [State.Outcome, State.Resumed, hcall] at hout
    obtain ⟨ref', href, hans⟩ := hout
    obtain rfl := Option.some.inj (htarget.symm.trans (hcall ▸ href))
    exact hans.1
  all_goals cases hv

theorem World.OK.negative [Blake3] {r : Except Error Value} (ok : w.OK)
    (hb : w.state.calls[t]? = some b) (ht : w.threads[t]? = some (.done r))
    (htarget : b.call.target = some ref) (hv : b.call.verdict r = some false) :
    ∃ m p current, w.state.NegativeAt t b.heads m ref p current := by
  have hout := (ok.returned ht hb).outcome
  unfold Call.verdict at hv
  split at hv
  case h_2 hcall =>
    simp only [State.Outcome, hcall] at hout
    obtain ⟨ref', href, m, p, hans⟩ := hout
    obtain rfl := Option.some.inj (htarget.symm.trans (hcall ▸ href))
    exact ⟨m, p, _, hans⟩
  case h_4 hcall | h_6 hcall =>
    simp only [State.Outcome, State.Resumed, hcall] at hout
    obtain ⟨ref', href, m, p, hans⟩ := hout
    obtain rfl := Option.some.inj (htarget.symm.trans (hcall ▸ href))
    exact ⟨m, p, _, hans⟩
  all_goals cases hv

/-- A request that was sent before a call began is for a head of that time. -/
theorem Reachable.requested [Blake3] (hr : Reachable scope w) (nc : w.state.NoCollision)
    (hb : w.state.calls[t]? = some b) (ha : w.state.AppendFlight j i ref tid)
    (hj : j < b.flights) : i < b.heads := by
  have inv := (hr.ok nc).good.inv
  obtain ⟨w₀, hr₀, hsteps, hflights, hheads, -, hk⟩ := hr.begun hb
  have hr₁ : Reachable scope (w₀.begin b.call) := hr₀.step (.begin b.call hk)
  obtain ⟨-, hle⟩ := (hr₁.ok (nc.back hsteps.headLog)).steps hsteps nc
  have inv₁ := (hr₁.ok (nc.back hsteps.headLog)).good.inv
  obtain ⟨f, bytes, expected, h, h', hf, -, hreq, hh, -⟩ := ha
  obtain ⟨f₀, hf₀⟩ : ∃ f₀, (w₀.begin b.call).state.flights[j]? = some f₀ :=
    ⟨_, List.getElem?_eq_getElem (show j < w₀.state.flights.length by omega)⟩
  obtain ⟨f', hf', -, hreq', -⟩ := hle.flight hf₀
  obtain rfl := Option.some.inj (hf.symm.trans hf')
  have hok := (inv₁.flights j f₀ hf₀).req
  rw [← hreq', hreq] at hok
  obtain ⟨i₀, h₀, -, -, hh₀, -⟩ := hok
  obtain ⟨rfl, -⟩ := inv.version_unique hh (hh₀.mono hle) (.inl rfl)
  have hlt : i < w₀.state.now := hh₀.lt
  omega

/-- **A negative answer is newer than every request for the candidate.** -/
theorem negative_newest [Blake3] {current : View} (hr : Reachable scope w)
    (nc : w.state.NoCollision) (hserial : w.state.Serial ref) (hlast : w.state.LastOn t ref)
    (hb : w.state.calls[t]? = some b) (htarget : b.call.target = some ref)
    (hn : w.state.NegativeAt t b.heads m ref p current)
    (ha : w.state.AppendFlight j i ref tid) : i < m := by
  have inv := (hr.ok nc).good.inv
  obtain ⟨⟨b', hb', htarget'⟩, p', h, v, hh, hc, hs⟩ := ha.attempt inv
  rw [hc.unique inv hn.candidate] at hs
  by_contra hge
  obtain ⟨i₀, hi₀, hh₀⟩ := hn.after
  have hsame := inv.base_convex hi₀ (by omega) hh₀ hn.head hh hs
  rcases hn.reason with hmoved | hcont
  · exact hmoved hsame
  · -- the base is unchanged, so the request is told from the others by its call
    rcases Nat.lt_trichotomy tid t with hlt | rfl | hgt
    · obtain ⟨f, bytes, expected, -, -, hf, htid, -⟩ := id ha
      have := hr.requested nc hb ha (hserial tid t b' b hb' hb htarget' htarget hlt j f hf htid)
      have := hcont.late
      omega
    · obtain ⟨f, bytes, expected, h₁, -, hf, htid, hreq, hh₁, -⟩ := ha
      obtain ⟨⟨i', h', hi', hh'⟩, -⟩ := hn.clean j f bytes expected hf htid hreq
      obtain ⟨rfl, -⟩ := inv.version_unique hh₁ hh' (.inl rfl)
      omega
    · exact hlast tid b' hgt hb' htarget'

/-- **The answers to one holder are sound.** -/
theorem commit_outcomes_sound [Blake3] {r : Except Error Value} (hr : Reachable scope w)
    (nc : w.state.NoCollision) (hserial : w.state.Serial ref) (hb : w.state.calls[t]? = some b)
    (htarget : b.call.target = some ref) (ht : w.threads[t]? = some (.done r)) :
    (b.call.verdict r = some true → w.state.history.count ref = 1) ∧
    (w.state.LastOn t ref → (b.call.verdict r = some false ∨
        (w.state.FirstOn t ref ∧ ∃ log prepared e, b.call = .commit log prepared ∧ r = .error e)) →
      ref ∉ w.state.history ∧ ∀ w', Steps w w' → w'.state.NoCollision →
        ∀ j i tid, w.state.AppendFlight j i ref tid → ¬ w'.state.Applied j) ∧
    (b.call.verdict r = some false → ∃ m p current, Loaded t b.heads current w.state ∧
      w.state.HeadAt m current.head current.version ∧ ref ∉ w.state.historyAt m ∧
      w.state.Candidate ref p ∧ (¬ SameBase p.view.head current.head ∨
        ∃ is : List Nat, is.length = furtherAttempts + 1 ∧ is.Pairwise (· < ·) ∧
          ∀ i ∈ is, w.state.Attempted t i)) := by
  have ok := hr.ok nc
  have inv := ok.good.inv
  refine ⟨fun hv => ?_, fun hlast hneg => ?_, fun hv => ?_⟩
  · have hmem := ok.committed hb ht htarget hv
    have hpos : 0 < w.state.now := by
      rcases Nat.eq_zero_or_pos w.state.now with h0 | h0
      · simp [State.history, State.heads, List.length_eq_zero_iff.1 h0, historyOf] at hmem
      · exact h0
    obtain ⟨h, v, hh⟩ := inv.headAt (i := w.state.now - 1) (by omega)
    rw [inv.history_eq (i := w.state.now - 1) (by omega)] at hmem ⊢
    exact List.count_eq_one_of_mem (inv.explains hh).nodup hmem
  · -- some head does not show the candidate and is newer than all that was requested
    have hsettled : ∃ m h v, w.state.HeadAt m h v ∧ ref ∉ w.state.historyAt m ∧
        ∀ j i tid, w.state.AppendFlight j i ref tid → i < m := by
      rcases hneg with hv | ⟨hfirst, log, prepared, e, hcall, rfl⟩
      · obtain ⟨m, p, current, hn⟩ := ok.negative hb ht htarget hv
        exact ⟨m, _, _, hn.head, hn.unpublished,
          fun j i tid ha => negative_newest hr nc hserial hlast hb htarget hn ha⟩
      · have hout := (ok.returned ht hb).outcome
        simp only [State.Outcome, hcall] at hout
        rw [hcall] at htarget
        have own : ∀ {m j i tid}, w.state.Clean t m → w.state.AppendFlight j i ref tid → i < m := by
          intro m j i tid hclean ha
          obtain ⟨⟨b', hb', htarget'⟩, -⟩ := ha.attempt inv
          have htid : tid = t := by
            rcases Nat.lt_trichotomy tid t with hlt | heq | hgt
            · exact absurd htarget' (hfirst tid b' hlt hb')
            · exact heq
            · exact absurd htarget' (hlast tid b' hgt hb')
          obtain ⟨f, bytes, expected, h₁, -, hf, hft, hreq, hh₁, -⟩ := ha
          obtain ⟨⟨i', h', hi', hh'⟩, -⟩ := hclean j f bytes expected hf (hft.trans htid) hreq
          obtain ⟨rfl, -⟩ := inv.version_unique hh₁ hh' (.inl rfl)
          exact hi'
        rcases hout ref htarget with hclean | ⟨p, m, h, v, hc, hh, hs, hclean⟩
        · have hargs := (inv.calls t b hb).args (.log log) (by rw [hcall]; simp [Call.args])
          obtain ⟨-, -, h, v, hh, -⟩ := hargs
          refine ⟨0, h, v, hh, ?_, fun j i tid ha => own hclean ha⟩
          rw [inv.historyAt_zero hh]
          simp
        · exact ⟨m, h, v, hh, inv.base_unpublished hc hh hs, fun j i tid ha => own hclean ha⟩
    obtain ⟨m, h, v, hh, hno, hall⟩ := hsettled
    obtain ⟨hout, hdead⟩ := inv.settled hh hno hall
    refine ⟨hout, fun w' hs nc' j i tid ha => ?_⟩
    obtain ⟨ok', hle⟩ := ok.steps hs nc'
    exact hdead w'.state hle ok'.good.inv j i tid ha
  · obtain ⟨m, p, current, hn⟩ := ok.negative hb ht htarget hv
    refine ⟨m, p, current, hn.loaded, hn.head, hn.unpublished, hn.candidate, ?_⟩
    refine hn.reason.imp id fun hcont => ?_
    obtain ⟨is, hlen, hsort, hall⟩ := hcont.attempts
    exact ⟨is, hlen, hsort, fun i hi => (hall i hi).2⟩

section

attribute [local instance] sampleHash

/-- Call 4 is the only one on a candidate, and it answers that the commit is published. -/
def firstCommitFacts (w : World) : Bool :=
  w.state.calls.zipIdx.all (fun x => x.2 == 4 || x.1.call.target.isNone) &&
  match w.outcomeAt 4 with
  | some (b, r) => b.call.target.isSome && b.call.verdict r == some true
  | none => false

theorem firstCommit_ends : ends firstCommit firstCommitFacts = true := by
  decide +kernel

theorem commit_outcomes_sound_firstCommit :
    ∃ ref, (sample firstCommit).state.history.count ref = 1 := by
  obtain ⟨hr, nc, hf⟩ := ends_ok firstCommit_ends
  generalize sample firstCommit = w at hr nc hf ⊢
  rw [firstCommitFacts, Bool.and_eq_true] at hf
  obtain ⟨honly, hf⟩ := hf
  split at hf
  · rename_i b r hout
    rw [Bool.and_eq_true, beq_iff_eq] at hf
    obtain ⟨ref, htarget⟩ := Option.isSome_iff_exists.1 hf.1
    obtain ⟨hb, ht⟩ := World.outcomeAt_ok hout
    have only : ∀ (t : Nat) (b' : Begun), w.state.calls[t]? = some b' →
        b'.call.target = some ref → t = 4 := by
      intro t b' hb' htarget'
      have := List.all_eq_true.1 honly (b', t) (List.mem_zipIdx_iff_getElem?.2 hb')
      simpa [htarget'] using this
    refine ⟨ref, (commit_outcomes_sound hr nc ?_ hb htarget ht).1 hf.2⟩
    intro t t' b₁ b₂ hb₁ hb₂ h₁ h₂ hlt
    have := only t b₁ hb₁ h₁
    have := only t' b₂ hb₂ h₂
    omega
  · cases hf

end

/-! ## Several holders -/

section

attribute [local instance] sampleHash

/-- A reader is registered just before an update of call 3 lands. -/
def race (k : Nat) : List Action :=
  alone (4 + k) (fun w => do
    let view ← w.viewAt (if k = 0 then 1 else 3 + k)
    return .changeRetention (← w.logAt 0) view (.acquire ⟨Fin.ofNat _ k⟩)) ++
  [.run 3 7 fun _ => []]

/-- Call 3 commits a candidate and loses sixteen such races. Then the candidate is committed
again. -/
def contended : List Action :=
  alone 0 (fun _ => some (.open .default)) ++
  alone 1 (fun w => return .load (← w.logAt 0)) ++
  alone 2 (fun w => return .prepare (← w.logAt 0) (← w.viewAt 1) ⟨1⟩ [] [] []) ++
  [.call (fun w => return .commit (← w.logAt 0) (← w.preparedAt 2)), .run 3 5 fun _ => []] ++
  (List.range 16).flatMap race ++
  alone 20 (fun w => return .commit (← w.logAt 0) (← w.preparedAt 2))

end

end ObjectLog
