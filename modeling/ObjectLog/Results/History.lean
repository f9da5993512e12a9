import ObjectLog.Proof.World
import ObjectLog.Replay

/-!
# One history of published commits

Every durable head is a window on one list of published commits that only grows at its
end: the tail is its end, the outcomes are the end of what was compacted before it, and
the bodies are the ones that were asked for, each naming the one before it. From this
follow the two facts that recovery rests on: how far apart two commits of one transaction
are, and what a head still says about a candidate.
-/

set_option linter.unusedSectionVars false

namespace ObjectLog

variable {w w' : World} {s : State} {scope : LogId} {i j n : Nat} {h h' : Head}
  {v v' : UpdateVersion} {c : CommitRef}

/-! ## The checkpoint only moves forward -/

theorem Head.start_some {base : CheckpointRef} (hc : h.checkpoint = some base) :
    h.start = base.throughSequence.toNat + 1 := by
  rw [Head.start, hc]

theorem Head.start_none (hc : h.checkpoint = none) : h.start = 0 := by
  rw [Head.start, hc]

theorem Change.Result.start_le {change : Change} (hv : h.Valid) (hr : change.Result h h') :
    h.start ≤ h'.start := by
  cases hr with
  | @checkpoint through object g k hg hk =>
      have hseq := hv.tail k through hk
      show h.start ≤ through.sequence.toNat + 1
      omega
  | retention hg => rename_i change g; cases change <;> exact le_rfl
  | append hg hn => exact le_rfl
  | install hg he => exact le_rfl
  | clear hg => exact le_rfl

theorem Inv.start_mono [Blake3] (inv : Inv s) (hij : i ≤ j) (a : s.HeadAt i h v) (b : s.HeadAt j h' v') :
    h.start ≤ h'.start := by
  induction hij generalizing h' v' with
  | refl =>
      obtain ⟨rfl, -⟩ := a.unique b
      exact le_rfl
  | @step j hij ih =>
      obtain ⟨h₁, v₁, hh₁⟩ := inv.headAt (i := j) (Nat.lt_of_succ_lt b.lt)
      obtain ⟨t, change, hrep⟩ := inv.replaces hh₁ b
      exact (ih hh₁).trans (hrep.result.start_le hh₁.valid)

/-! ## The bodies of the published commits -/

/-- The commit at a position of the history, and where it was published. -/
theorem Inv.published [Blake3] (inv : Inv s) (hh : s.HeadAt i h v) (hc : (s.historyAt i)[n]? = some c) :
    ∃ k h₀ v₀ t, k < i ∧ s.HeadAt k h₀ v₀ ∧ s.historyAt k = (s.historyAt i).take n ∧
      (Change.append c).Guard h₀ ∧ s.Justified t (k + 1) k h₀ (.append c) := by
  obtain ⟨k, h₀, v₀, h₁, v₁, t, hk, hh₀, hh₁, hrep⟩ :=
    inv.appended_link hh.lt (List.mem_of_getElem? hc)
  have hseq := (inv.explains hh).sequence n c hc
  have hnext := (inv.explains hh₀).next
  refine ⟨k, h₀, v₀, t, hk, hh₀, ?_, hrep.guard, hrep.justified⟩
  have hlen : (s.historyAt k).length = n := by rw [← hnext, ← hrep.guard.2.1, hseq]
  have hpre := List.prefix_iff_eq_take.1 (s.historyAt_mono (i := k) (j := i) (by omega))
  rw [hlen] at hpre
  exact hpre

theorem getLast?_take {α : Type} (xs : List α) (hn : n < xs.length) :
    (xs.take n).getLast? = if n = 0 then none else xs[n - 1]? := by
  cases n with
  | zero => simp
  | succ n =>
      rw [if_neg (Nat.succ_ne_zero n), List.getLast?_take, if_neg (Nat.succ_ne_zero n),
        Nat.add_sub_cancel]
      rw [List.getElem?_eq_getElem (by omega)]
      rfl

/-- **The body of a published commit** is the one that `prepare` was asked for, and it names
the commit before it. -/
theorem Inv.published_body [Blake3] (inv : Inv s) (hh : s.HeadAt i h v)
    (hc : (s.historyAt i)[n]? = some c) :
    ∃ q log p commit, s.Prepared q log p ∧ c.storageId = p.storageId ∧
      s.body (commitKey h.incarnation c) = some (encodeCommit commit) ∧
      Digest.of (encodeCommit commit) = c.digest ∧
      commit.transactionId = p.transactionId ∧ c.transactionId = p.transactionId ∧
      commit.operation = p.operation ∧ commit.result = p.result ∧ commit.objects = p.objects ∧
      commit.expectedTip =
        if n = 0 then none else ((s.historyAt i)[n - 1]?).map CommitRef.digest := by
  obtain ⟨k, h₀, v₀, t, hk, hh₀, htake, -, -, -, q, log, p, hp, he, hbase, hbody, -⟩ :=
    inv.published hh hc
  obtain ⟨-, -, -, htx, hid, -, -⟩ := encodePrepared_ok he
  obtain ⟨-, hinc, -⟩ := inv.identity hh₀ hh
  refine ⟨q, log, p, log.preparedCommit p, hp, hid, hinc ▸ hbody.stored, hbody.digest, rfl, htx,
    rfl, rfl, rfl, ?_⟩
  have hlt := (List.getElem?_eq_some_iff.1 hc).1
  calc (log.preparedCommit p).expectedTip = h₀.tip := hbase.tip
    _ = (s.historyAt k).getLast?.map CommitRef.digest := (inv.explains hh₀).tip
    _ = _ := by
      rw [htake, getLast?_take _ hlt]
      split <;> rfl

/-! ## The durable head -/

/-- The last `k` elements. -/
def lastOf {α : Type} (k : Nat) (xs : List α) : List α := xs.drop (xs.length - k)

/-- **Every durable head is explained by one history**, which only grows at its end. -/
theorem durable_head_explained [Blake3] (hr : Reachable scope w) (nc : w.state.NoCollision)
    (hd : w.state.Durable h) :
    (∀ (n : Nat) (c : CommitRef), w.state.history[n]? = some c → c.sequence.toNat = n) ∧
    h.nextSequence.toNat = w.state.history.length ∧
    (h.checkpoint = none → h.tail = w.state.history ∧ h.recentOutcomes = []) ∧
    (∀ base, h.checkpoint = some base →
      h.tail = w.state.history.drop (base.throughSequence.toNat + 1) ∧
      h.recentOutcomes =
        lastOf (min h.options.resolutionWindow.toNat (base.throughSequence.toNat + 1))
          (w.state.history.take (base.throughSequence.toNat + 1)) ∧
      ∃ x, w.state.history[base.throughSequence.toNat]? = some x ∧ base.throughCommit = x.digest) ∧
    (∀ (n : Nat) (c : CommitRef), w.state.history[n]? = some c →
      ∃ q log p commit, w.state.Prepared q log p ∧
      c.storageId = p.storageId ∧
      w.state.body (commitKey h.incarnation c) = some (encodeCommit commit) ∧
      Digest.of (encodeCommit commit) = c.digest ∧
      commit.transactionId = p.transactionId ∧ c.transactionId = p.transactionId ∧
      commit.operation = p.operation ∧ commit.result = p.result ∧ commit.objects = p.objects ∧
      commit.expectedTip =
        if n = 0 then none else (w.state.history[n - 1]?).map CommitRef.digest) ∧
    ∀ w' h', Steps w w' → w'.state.NoCollision → w'.state.Durable h' →
      w.state.history <+: w'.state.history ∧
      ∀ base, h.checkpoint = some base →
        ∃ base', h'.checkpoint = some base' ∧ base.throughSequence ≤ base'.throughSequence := by
  have ok := hr.ok nc
  have inv := ok.good.inv
  obtain ⟨i, v, hh, hlast⟩ := hd
  have e := inv.explains hh
  rw [inv.history_eq hlast]
  refine ⟨e.sequence, e.next, ?_, ?_, fun n c hc => inv.published_body hh hc, ?_⟩
  · intro hnone
    have hstart := Head.start_none hnone
    refine ⟨by rw [e.tail, hstart, List.drop_zero], ?_⟩
    rw [e.outcomes, hstart, List.take_zero]
    exact List.drop_nil
  · intro base hbase
    have hstart := Head.start_some hbase
    obtain ⟨x, hx, hdx⟩ := e.through base hbase
    refine ⟨hstart ▸ e.tail, ?_, x, hx, hdx.symm⟩
    rw [e.outcomes, hstart, boundOutcomes, lastOf]
    congr 1
    have := e.start
    rw [List.length_take]
    omega
  · rintro w' h' hs nc' ⟨j, v', hh', hlast'⟩
    obtain ⟨ok', hle⟩ := ok.steps hs nc'
    have inv' := ok'.good.inv
    refine ⟨inv.history_eq hlast ▸ hle.history, fun base hbase => ?_⟩
    have hij : i ≤ j := by
      have := hle.now
      omega
    have hstart := inv'.start_mono hij (hh.mono hle) hh'
    rw [Head.start_some hbase] at hstart
    cases hbase' : h'.checkpoint with
    | none =>
        rw [Head.start_none hbase'] at hstart
        omega
    | some base' =>
        rw [Head.start_some hbase'] at hstart
        exact ⟨base', rfl, UInt64.le_iff_toNat_le.2 (by omega)⟩

section

attribute [local instance] sampleHash

theorem durable_head_explained_firstCheckpoint :
    ∃ h, (sample firstCheckpoint).state.Durable h ∧
      h.nextSequence.toNat = (sample firstCheckpoint).state.history.length := by
  obtain ⟨hr, nc, h, v, -, hd⟩ := firstCheckpoint_durable
  exact ⟨h, hd, (durable_head_explained hr nc hd).2.1⟩

end

/-! ## Transactions -/

/-- **Two commits of one transaction are further apart than the resolution window**, so no
head shows a transaction twice. -/
theorem transaction_window [Blake3] (hr : Reachable scope w) (nc : w.state.NoCollision)
    (hh : w.state.HeadAt i h v) :
    (∀ (m n : Nat) (a b : CommitRef), w.state.history[m]? = some a →
      w.state.history[n]? = some b → m < n → a.transactionId = b.transactionId →
      h.options.resolutionWindow.toNat < n - m) ∧
    ((h.tail ++ h.recentOutcomes).map CommitRef.transactionId).Nodup := by
  have inv := (hr.ok nc).good.inv
  refine ⟨fun m n a b ha hb hmn htx => ?_, hh.valid.distinct⟩
  obtain ⟨i₁, hlast⟩ : ∃ i₁, i₁ + 1 = w.state.now := ⟨w.state.now - 1, by have := hh.lt; omega⟩
  obtain ⟨h₁, v₁, hh₁⟩ := inv.headAt (i := i₁) (by omega)
  rw [inv.history_eq hlast] at ha hb
  obtain ⟨k, h₀, v₀, t, -, hh₀, htake, hguard, -⟩ := inv.published hh₁ hb
  -- the earlier commit is part of the history that the later one was appended to
  have ha₀ : (w.state.historyAt k)[m]? = some a := by
    rw [htake, List.getElem?_take, if_pos hmn, ha]
  have hlen : (w.state.historyAt k).length = n := by
    have hlt := (List.getElem?_eq_some_iff.1 hb).1
    rw [htake, List.length_take]
    omega
  by_contra hclose
  -- had it been within the window, the head would have shown it
  have e := inv.explains hh₀
  have hstart := e.start
  obtain ⟨-, -, hopts⟩ := inv.identity hh hh₀
  have hshown := e.shown ha₀ (by rw [hopts]; omega)
  exact hguard.2.2 (htx ▸ List.mem_map_of_mem hshown)

section

attribute [local instance] sampleHash

theorem transaction_window_firstCheckpoint : ∃ h, (sample firstCheckpoint).state.Durable h ∧
    ((h.tail ++ h.recentOutcomes).map CommitRef.transactionId).Nodup := by
  obtain ⟨hr, nc, h, v, hh, hd⟩ := firstCheckpoint_durable
  exact ⟨h, hd, (transaction_window hr nc hh).2⟩

end

/-! ## Evidence -/

/-- **What a head says about a candidate.** It never claims to be too old, it gives up only
when the checkpoint has passed the candidate by the whole window, and otherwise it tells
whether the candidate was published. -/
theorem resolution_evidence [Blake3] {log : Log} {p : PreparedCommit} {ref : CommitRef} {bytes : Bytes}
    {view : View} {k : Nat} (hr : Reachable scope w) (nc : w.state.NoCollision)
    (he : log.encodePrepared p = .ok (ref, bytes))
    (hk : w.state.HeadAt k p.view.head p.view.version) (hkn : k ≤ n)
    (hn : w.state.HeadAt n view.head view.version) :
    (∃ base, classifyResolution ref view = .ok .expired ∧ view.head.checkpoint = some base ∧
      ref.sequence.toNat + view.head.options.resolutionWindow.toNat ≤
        base.throughSequence.toNat) ∨
    (classifyResolution ref view = .ok .committed ∧ ref ∈ w.state.historyAt n) ∨
    (classifyResolution ref view = .ok .notCommitted ∧ ref ∉ w.state.historyAt n) := by
  have inv := (hr.ok nc).good.inv
  have hseq : ref.sequence = p.view.head.nextSequence := (encodePrepared_ok he).2.2.1
  have hmono := inv.nextSequence_mono hkn hk hn
  have hclass := (inv.explains hn).classify ref
  cases hc : classifyResolution ref view with
  | error e =>
      rw [hc] at hclass
      have := UInt64.lt_iff_toNat_lt.1 hclass
      rw [hseq] at this
      omega
  | ok classification =>
      rw [hc] at hclass
      cases classification with
      | committed => exact .inr (.inl ⟨rfl, hclass⟩)
      | notCommitted => exact .inr (.inr ⟨rfl, hclass⟩)
      | expired =>
          left
          change _ < view.head.start at hclass
          cases hbase : view.head.checkpoint with
          | none =>
              rw [Head.start_none hbase] at hclass
              omega
          | some base =>
              rw [Head.start_some hbase] at hclass
              exact ⟨base, rfl, rfl, by omega⟩

section

attribute [local instance] sampleHash

/-- The second commit of the sample, seen from the checkpoint after it. -/
theorem resolution_evidence_firstCheckpoint : ∃ ref view n,
    (sample firstCheckpoint).state.HeadAt n view.head view.version ∧
    ((∃ base, classifyResolution ref view = .ok .expired ∧ view.head.checkpoint = some base ∧
      ref.sequence.toNat + view.head.options.resolutionWindow.toNat ≤
        base.throughSequence.toNat) ∨
    (classifyResolution ref view = .ok .committed ∧
      ref ∈ (sample firstCheckpoint).state.historyAt n) ∨
    (classifyResolution ref view = .ok .notCommitted ∧
      ref ∉ (sample firstCheckpoint).state.historyAt n)) := by
  obtain ⟨hr, nc, hf⟩ := ends_ok firstCheckpoint_ends
  have ok := hr.ok nc
  rw [firstCheckpointFacts, Bool.and_eq_true] at hf
  obtain ⟨-, hf⟩ := hf
  split at hf
  · rename_i log p view hlog hp hview
    rw [Bool.and_eq_true, decide_eq_true_eq, Option.isSome_iff_exists] at hf
    obtain ⟨⟨⟨ref, bytes⟩, he⟩, hgen⟩ := hf
    obtain ⟨⟨k, -, hk⟩, -⟩ := ((World.preparedAt_known hp).ok ok).1
    obtain ⟨⟨n, -, hn⟩, -⟩ := (World.viewAt_known hview).ok ok
    have hkn : k ≤ n := by
      have := UInt64.le_iff_toNat_le.1 hgen
      rwa [ok.good.inv.generation hk, ok.good.inv.generation hn] at this
    have he' : log.encodePrepared p = .ok (ref, bytes) := by
      cases hx : log.encodePrepared p with
      | ok x => rw [hx] at he; exact congrArg Except.ok (Option.some.inj he)
      | error e => rw [hx] at he; cases he
    exact ⟨ref, view, n, hn, resolution_evidence hr nc he' hk hkn hn⟩
  · cases hf

end

end ObjectLog
