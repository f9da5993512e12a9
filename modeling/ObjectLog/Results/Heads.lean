import ObjectLog.Proof.World
import ObjectLog.Replay

/-!
# The durable head

The head is created once, every handle belongs to that incarnation, and from then on it
changes by one of seven changes at a time, each applied to the very head that it replaces.
So nothing another client did is ever dropped, and every stored head can be read back by
every handle.
-/

set_option linter.unusedSectionVars false

namespace ObjectLog

open Rely

variable {w w' : World} {s s' : State} {scope : LogId} {i j t : Nat} {h h' : Head}
  {v v' : UpdateVersion}

/-! ## The head is created once -/

/-- The request that created the head. -/
def State.CreatedHead (s : State) (j : Nat) : Prop :=
  ∃ (tid : Nat) (bytes : Bytes) (sent n : Nat)
    (told : Option (Nat × Except StoreError (Answer (.createHead bytes)))),
    s.flights[j]? = some ⟨tid, .createHead bytes, sent, some (n, true), told⟩

/-- There is at most one such request, and none before there is a head. -/
structure State.CreatedOnce (s : State) : Prop where
  unique : ∀ j j', s.CreatedHead j → s.CreatedHead j' → j = j'
  stored : ∀ j, s.CreatedHead j → s.headLog ≠ []

/-- No request lands by what a call does. -/
theorem Exec.createdHead [Blake3] {e : Effect} {a : Reply e} (hx : Exec t s e a s')
    (hc : s'.CreatedHead j) : s.CreatedHead j := by
  have same : s'.flights = s.flights → s.CreatedHead j := by
    intro hf
    unfold State.CreatedHead at hc ⊢
    rwa [hf] at hc
  cases e with
  | submit req =>
      obtain ⟨-, rfl⟩ := hx
      obtain ⟨tid, bytes, sent, n, told, hf⟩ := hc
      rcases Nat.lt_or_ge j s.flights.length with hlt | hge
      · exact ⟨tid, bytes, sent, n, told, by rwa [List.getElem?_append_left hlt] at hf⟩
      · rw [List.getElem?_append_right hge, List.getElem?_singleton] at hf
        split at hf <;> cases hf
  | await req k =>
      obtain ⟨sent, landed, hk, -, rfl⟩ := hx
      obtain ⟨tid, bytes, sent', n, told, hf⟩ := hc
      change (s.flights.set k _)[j]? = _ at hf
      by_cases hjk : k = j
      · subst hjk
        have hlt := (List.getElem?_eq_some_iff.1 hk).1
        rw [List.getElem?_set_self hlt] at hf
        cases hf
        exact ⟨t, bytes, sent, n, none, hk⟩
      · rw [List.getElem?_set_ne hjk] at hf
        exact ⟨tid, bytes, sent', n, told, hf⟩
  | admission _ => cases hx; exact same rfl
  | listNext => obtain ⟨rfl, -⟩ := hx; exact same rfl
  | storageId => obtain ⟨-, rfl⟩ := hx; exact same rfl
  | uuid => cases hx; exact same rfl
  | stagingDomain => obtain ⟨-, rfl⟩ := hx; exact same rfl
  | observe head version => obtain ⟨-, rfl⟩ := hx; exact same rfl
  | verifiedTail id => obtain ⟨rfl, -⟩ := hx; exact same rfl
  | setVerifiedTail id domain => cases hx; exact same rfl
  | collectionCandidates id => obtain ⟨rfl, -⟩ := hx; exact same rfl
  | initCollectionCandidates id cs => obtain ⟨-, rfl⟩ := hx; exact same rfl
  | choose n => cases hx; exact same rfl

theorem Reachable.createdOnce [Blake3] (hr : Reachable scope w) : w.state.CreatedOnce := by
  induction hr with
  | init =>
      have none : ∀ j, ¬ (World.init scope).state.CreatedHead j := by
        rintro j ⟨tid, bytes, sent, n, told, hf⟩
        simp [World.init, State.init] at hf
      exact ⟨fun j j' hj => absurd hj (none j), fun j hj => absurd hj (none j)⟩
  | @step w w' _ hs ih =>
      cases hs with
      | begin call _ => exact ⟨fun j j' => ih.unique j j', fun j => ih.stored j⟩
      | act _ hx =>
          refine ⟨fun j j' hj hj' => ih.unique j j' (hx.createdHead hj) (hx.createdHead hj'),
            fun j hj => ?_⟩
          rw [hx.same.1]
          exact ih.stored j (hx.createdHead hj)
      | @land k f a s₁ hf hn hl =>
          have hlt := (List.getElem?_eq_some_iff.1 hf).1
          -- a request other than the one that landed had landed before
          have old : ∀ j, (setFlight s₁ k { f with landed := some (w.state.now, a) }).CreatedHead j →
              j ≠ k → w.state.CreatedHead j := by
            rintro j ⟨tid, bytes, sent, n, told, hj⟩ hjk
            change (s₁.flights.set k _)[j]? = _ at hj
            rw [List.getElem?_set_ne (Ne.symm hjk), hl.same.2.1] at hj
            exact ⟨tid, bytes, sent, n, told, hj⟩
          -- and the one that landed now found no head
          have new : (setFlight s₁ k { f with landed := some (w.state.now, a) }).CreatedHead k →
              w.state.headLog = [] ∧ s₁.headLog ≠ [] := by
            rintro ⟨tid, bytes, sent, n, told, hk⟩
            change (s₁.flights.set k _)[k]? = _ at hk
            rw [List.getElem?_set_self (by rw [hl.same.2.1]; exact hlt)] at hk
            obtain ⟨tid', req, sent', landed, told'⟩ := f
            cases hk
            obtain ⟨hempty, -, version, rfl⟩ | ⟨-, ha, -⟩ := hl
            · exact ⟨hempty, by simp [putHead]⟩
            · cases ha
          refine ⟨fun j j' hj hj' => ?_, fun j hj => ?_⟩
          · by_cases hjk : j = k <;> by_cases hjk' : j' = k
            · rw [hjk, hjk']
            · subst hjk
              exact absurd (new hj).1 (ih.stored j' (old j' hj' hjk'))
            · subst hjk'
              exact absurd (new hj').1 (ih.stored j (old j hj hjk))
            · exact ih.unique j j' (old j hj hjk) (old j' hj' hjk')
          · by_cases hjk : j = k
            · subst hjk
              exact (new hj).2
            · intro hnil
              have hpre := hl.same.1
              change s₁.headLog = [] at hnil
              rw [hnil, List.prefix_nil] at hpre
              exact ih.stored j (old j hj hjk) hpre

/-! ## No update is lost -/

/-- **Every durable head is the one before it with one change.** The head is created once,
the handles agree on its incarnation, and no two durable heads are stored alike. -/
theorem heads_change_one_at_a_time [Blake3] (hr : Reachable scope w) (nc : w.state.NoCollision) :
    (∀ j j', w.state.CreatedHead j → w.state.CreatedHead j' → j = j') ∧
    (∀ h v, w.state.HeadAt 0 h v → ∃ inc opts, h = Head.empty scope inc opts) ∧
    (∀ log log', Known w (.log log) → Known w (.log log') → log.incarnation = log'.incarnation) ∧
    (∀ log i h v, Known w (.log log) → w.state.HeadAt i h v → h.incarnation = log.incarnation) ∧
    (∀ i h v h' v', w.state.HeadAt i h v → w.state.HeadAt (i + 1) h' v' →
      h'.generation.toNat = h.generation.toNat + 1 ∧
      ∃ change : Change, change.Guard h ∧ change.Result h h') ∧
    (∀ i, i < w.state.now → ∃ h v, w.state.HeadAt i h v) ∧
    ∀ (i j : Nat) a b, w.state.headLog[i]? = some a → w.state.headLog[j]? = some b →
      a.bytes = b.bytes → i = j := by
  have ok := hr.ok nc
  have inv := ok.good.inv
  have identity : ∀ log i h v, Known w (.log log) → w.state.HeadAt i h v →
      h.incarnation = log.incarnation := by
    intro log i h v hl hh
    have hlog : w.state.LogOK log := hl.ok ok
    exact (hlog.head inv hh).2.1
  refine ⟨hr.createdOnce.unique, ?_, ?_, identity, ?_, fun i hi => inv.headAt hi, ?_⟩
  · intro h v hh
    obtain ⟨inc, opts, rfl⟩ := inv.first h v hh
    exact ⟨inc, opts, by rw [hr.scope_eq nc]⟩
  · intro log log' hl hl'
    have hlog : w.state.LogOK log := hl.ok ok
    obtain ⟨-, -, h, v, hh, hinc, -⟩ := hlog
    rw [← hinc, identity log' 0 h v hl' hh]
  · intro i h v h' v' hh hh'
    obtain ⟨t, change, hrep⟩ := inv.replaces hh hh'
    exact ⟨hrep.result.generation, change, hrep.guard, hrep.result⟩
  · rintro i j ⟨bytes, va⟩ ⟨bytes', vb⟩ ha hb hbytes
    obtain ⟨h, hd, -⟩ := inv.heads _ (List.mem_of_getElem? ha)
    obtain rfl : bytes = bytes' := hbytes
    exact inv.head_unique ⟨bytes, ha, hd⟩ ⟨bytes, hb, hd⟩

section

attribute [local instance] sampleHash

theorem heads_change_one_at_a_time_firstCheckpoint : ∃ h v h' v',
    (sample firstCheckpoint).state.HeadAt 2 h v ∧ (sample firstCheckpoint).state.HeadAt 3 h' v' ∧
    ∃ change : Change, change.Guard h ∧ change.Result h h' := by
  obtain ⟨hr, nc, h', v', hh', -⟩ := firstCheckpoint_durable
  have one := heads_change_one_at_a_time hr nc
  obtain ⟨h, v, hh⟩ := one.2.2.2.2.2.1 2 (Nat.lt_of_succ_lt hh'.lt)
  exact ⟨h, v, h', v', hh, hh', (one.2.2.2.2.1 2 h v h' v' hh hh').2⟩

end

/-! ## Every candidate can be stored, every stored head can be read -/

/-- A candidate that `encode_head` accepts, or a limit that was met before. -/
def Accepted [Blake3] (candidate : Except Error Head) : Prop :=
  match candidate with
  | .ok head => ∃ bytes, encodeHead head = .ok bytes
  | .error e => ∃ what, e = .limitExceeded what

theorem Change.accepted [Blake3] (change : Change) (hv : h.Valid) (hg : change.Guard h)
    (hin : ∀ through object, change = .checkpoint through object → through ∈ h.tail) :
    Accepted (change.apply h) := by
  cases hc : change.apply h with
  | ok h' => exact encodeHead_of_valid ((Change.apply_result hc).valid hv hg)
  | error e =>
      rcases Change.apply_error hc with hwhat | ⟨through, object, hch, hno, -⟩
      · exact hwhat
      · exact absurd (hin through object hch) hno

section

attribute [local instance] sampleHash

end

end ObjectLog
