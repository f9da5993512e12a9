import ObjectLog.Head

/-!
# What a valid head is

`Head.validate` is a sequence of checks that stops at the first failure. Its
meaning is collected here once, as a structure of plain facts about natural
numbers, and the two are shown to be the same. No later proof looks inside
`Head.validate` again.
-/

namespace ObjectLog

/-- The commits carry the sequences `start`, `start + 1`, ... -/
def Contiguous (start : Nat) (commits : List CommitRef) : Prop :=
  ∀ i c, commits[i]? = some c → c.sequence.toNat = start + i

theorem Contiguous.nil (start : Nat) : Contiguous start [] := by
  intro i c h; simp at h

theorem contiguous_cons {start : Nat} {c : CommitRef} {rest : List CommitRef} :
    Contiguous start (c :: rest) ↔ c.sequence.toNat = start ∧ Contiguous (start + 1) rest := by
  constructor
  · intro h
    refine ⟨by simpa using h 0 c rfl, fun i d hd => ?_⟩
    have := h (i + 1) d (by simpa using hd)
    omega
  · rintro ⟨h0, h⟩ i d hd
    cases i with
    | zero => obtain rfl : c = d := by simpa using hd
              omega
    | succ i => have := h i d (by simpa using hd)
                omega

theorem contiguous_append {start : Nat} {xs ys : List CommitRef} :
    Contiguous start (xs ++ ys) ↔ Contiguous start xs ∧ Contiguous (start + xs.length) ys := by
  induction xs generalizing start with
  | nil => simp [Contiguous.nil]
  | cons x xs ih =>
      simp only [List.cons_append, contiguous_cons, ih, List.length_cons, and_assoc]
      rw [show start + 1 + xs.length = start + (xs.length + 1) by omega]

theorem Contiguous.take {start : Nat} {xs : List CommitRef} (h : Contiguous start xs) (n : Nat) :
    Contiguous start (xs.take n) := by
  rw [← List.take_append_drop n xs, contiguous_append] at h
  exact h.1

theorem Contiguous.drop {start : Nat} {xs : List CommitRef} (h : Contiguous start xs) {n : Nat}
    (hn : n ≤ xs.length) : Contiguous (start + n) (xs.drop n) := by
  rw [← List.take_append_drop n xs, contiguous_append] at h
  simpa [Nat.min_eq_left hn] using h.2

/-- The first sequence of the tail. -/
def Head.start (h : Head) : Nat :=
  match h.checkpoint with
  | some checkpoint => checkpoint.throughSequence.toNat + 1
  | none => 0

/-- The transaction IDs a head can still tell apart. -/
def Head.transactionIds (h : Head) : List TransactionId :=
  (h.tail ++ h.recentOutcomes).map CommitRef.transactionId

/-- **A valid head.** Everything `Head::validate` checks, and nothing more. -/
structure Head.Valid (h : Head) : Prop where
  tailLen : h.tail.length ≤ h.options.maxTailEntries.toNat
  outcomesLen : h.recentOutcomes.length ≤ h.options.resolutionWindow.toNat
  generation : h.nextSequence.toNat ≤ h.generation.toNat
  epoch : h.collectionEpoch.toNat ≤ h.generation.toNat
  retentions : h.retentionIds.card ≤ h.options.maxRetentionIds.toNat
  fence : h.activePlan.isSome → h.retentionIds = ∅
  planEpoch : h.activePlan.isSome → h.collectionEpoch ≠ 0
  planLen : ∀ plan, h.activePlan = some plan →
    plan.len.toNat ≤ h.options.maxCollectionPlanBytes.toNat
  baseKind : ∀ c, h.checkpoint = some c → c.object.kind = .checkpoint
  start : h.start < 2 ^ 64
  tail : Contiguous h.start h.tail
  next : h.nextSequence.toNat = h.start + h.tail.length
  outcomesCount : h.recentOutcomes.length = min h.start h.options.resolutionWindow.toNat
  outcomes : Contiguous (h.start - h.recentOutcomes.length) h.recentOutcomes
  anchor : ∀ c, h.checkpoint = some c →
    ∀ last, h.recentOutcomes.getLast? = some last → last.digest = c.throughCommit
  distinct : h.transactionIds.Nodup

/-! ## The checks one by one -/

/-- One pass over a list of commits: it ends well exactly when the sequences are
contiguous and no transaction ID was seen before. -/
theorem validateCommitSequence_ok {start : UInt64} {commits : List CommitRef} {offset : Nat}
    {seen ids : List TransactionId} :
    validateCommitSequence start commits offset seen = .ok ids ↔
      Contiguous (start.toNat + offset) commits ∧
      (commits.map CommitRef.transactionId).Nodup ∧
      (∀ c ∈ commits, c.transactionId ∉ seen) ∧
      ids = (commits.map CommitRef.transactionId).reverse ++ seen := by
  induction commits generalizing offset seen with
  | nil => simp [validateCommitSequence, Contiguous.nil, eq_comm]
  | cons c rest ih =>
      simp only [validateCommitSequence, bind_ok, okOr_ok, ensure_ok, ih, contiguous_cons,
        List.map_cons, List.nodup_cons, List.mem_map, not_exists, not_and, List.mem_cons,
        forall_eq_or_imp, List.reverse_cons, List.append_assoc, List.singleton_append, not_or]
      constructor
      · rintro ⟨o, ho, e, he, -, rfl, -, hs, hc, hn, hd, rfl⟩
        have h1 := checkedAdd_toNat he
        have h2 := toU64_toNat ho
        refine ⟨⟨by omega, hc⟩, ⟨fun d hd' heq => (hd d hd').1 heq, hn⟩, ⟨hs, fun d hd' =>
          (hd d hd').2⟩, rfl⟩
      · rintro ⟨⟨h0, hc⟩, ⟨hne, hn⟩, ⟨hs, hd⟩, rfl⟩
        -- the sequence is a machine integer, so neither conversion can fail
        have hlt : start.toNat + offset < 2 ^ 64 := h0 ▸ c.sequence.toNat_lt
        have ho : (UInt64.ofNat offset).toNat = offset :=
          UInt64.toNat_ofNat_of_lt' (show offset < 2 ^ 64 by omega)
        refine ⟨_, toU64_eq_some (by omega), _, checkedAdd_eq_some (by omega), (), ?_, (), hs, hc,
          hn, fun d hd' => ⟨hne d hd', hd d hd'⟩, rfl⟩
        rw [← UInt64.toNat_inj, UInt64.toNat_add, Nat.mod_eq_of_lt (by omega)]
        omega

theorem validateCollectionState_ok {h : Head} {u : Unit} :
    h.validateCollectionState = .ok u ↔
      h.collectionEpoch.toNat ≤ h.generation.toNat ∧
      h.retentionIds.card ≤ h.options.maxRetentionIds.toNat ∧
      (h.activePlan.isSome → h.retentionIds = ∅) ∧
      (h.activePlan.isSome → h.collectionEpoch ≠ 0) ∧
      (∀ plan, h.activePlan = some plan →
        plan.len.toNat ≤ h.options.maxCollectionPlanBytes.toNat) := by
  unfold Head.validateCollectionState
  cases hp : h.activePlan with
  | none => simp [bind_ok, UInt64.le_iff_toNat_le]
  | some plan =>
      simp [bind_ok, UInt64.le_iff_toNat_le]

theorem expectedStart_ok {h : Head} {start : UInt64} :
    h.expectedStart = .ok start ↔
      (∀ c, h.checkpoint = some c → c.object.kind = .checkpoint) ∧ start.toNat = h.start := by
  unfold Head.expectedStart Head.start
  cases hc : h.checkpoint with
  | none =>
      simp only [Except.ok.injEq, reduceCtorEq, false_implies, implies_true, true_and]
      rw [← UInt64.toNat_inj]
      exact eq_comm
  | some c =>
      simp only [bind_ok, ensure_ok, okOr_ok, Option.some.injEq, forall_eq']
      constructor
      · rintro ⟨_, hk, hs⟩
        exact ⟨hk, by simpa using checkedAdd_toNat hs⟩
      · rintro ⟨hk, hs⟩
        have hlt := start.toNat_lt
        refine ⟨(), hk, ?_⟩
        rw [checkedAdd_eq_some (by simp; omega), Option.some.injEq, ← UInt64.toNat_inj,
          UInt64.toNat_add]
        simp only [UInt64.reduceToNat]
        rw [Nat.mod_eq_of_lt (by omega), hs]

/-- The outcomes check, given the start of the tail. -/
theorem expectedOutcomeStart_ok {h : Head} {available start : UInt64}
    (ha : available.toNat = h.start) :
    h.expectedOutcomeStart available = .ok start ↔
      h.recentOutcomes.length = min h.start h.options.resolutionWindow.toNat ∧
      (∀ c, h.checkpoint = some c →
        ∀ last, h.recentOutcomes.getLast? = some last → last.digest = c.throughCommit) ∧
      start.toNat = h.start - h.recentOutcomes.length := by
  unfold Head.expectedOutcomeStart
  cases hc : h.checkpoint with
  | none =>
      have h0 : h.start = 0 := by simp [Head.start, hc]
      simp only [bind_ok, ensure_ok, pure, Except.pure, Except.ok.injEq, exists_const, h0,
        Nat.zero_min, List.length_eq_zero_iff, reduceCtorEq, false_implies, implies_true,
        true_and, Nat.zero_sub, ← UInt64.toNat_inj, eq_comm (a := start.toNat)]
      rfl
  | some c =>
      have hw := h.options.resolutionWindow.toNat_lt
      have hmin : (min available h.options.resolutionWindow).toNat =
          min h.start h.options.resolutionWindow.toNat := by
        rw [← ha]
        change (if available ≤ h.options.resolutionWindow then available
          else h.options.resolutionWindow).toNat = _
        simp only [apply_ite UInt64.toNat, UInt64.le_iff_toNat_le, min_def]
      simp only [bind_ok, ensure_ok, okOr_ok, exists_const, pure, Except.pure, Except.ok.injEq,
        Option.mem_def, Option.some.injEq, forall_eq']
      constructor
      · rintro ⟨r, hr, hlen, hlast, rfl⟩
        have hr' := toU64_toNat hr
        rw [← UInt64.toNat_inj, hmin] at hlen
        refine ⟨by omega, hlast, ?_⟩
        rw [UInt64.toNat_sub_of_le _ _ (by rw [UInt64.le_iff_toNat_le]; omega)]
        omega
      · rintro ⟨hlen, hlast, hs⟩
        have hr : (UInt64.ofNat h.recentOutcomes.length).toNat = h.recentOutcomes.length :=
          UInt64.toNat_ofNat_of_lt' (show h.recentOutcomes.length < 2 ^ 64 by omega)
        refine ⟨_, toU64_eq_some (by omega), ?_, hlast, ?_⟩
        · rw [← UInt64.toNat_inj, hmin]
          omega
        · rw [← UInt64.toNat_inj,
            UInt64.toNat_sub_of_le _ _ (by rw [UInt64.le_iff_toNat_le]; omega)]
          omega

/-- **`Head::validate` accepts exactly the valid heads.** -/
theorem validate_ok {h : Head} : h.validate = .ok () ↔ h.Valid := by
  unfold Head.validate
  simp only [bind_ok, ensure_ok, okOr_ok, exists_const, validateCollectionState_ok,
    expectedStart_ok, validateCommitSequence_ok, pure, Except.pure, and_true]
  constructor
  · rintro ⟨htl, hol, hgen, ⟨hep, hret, hf, hpe, hpl⟩, start, ⟨hk, hs⟩, ids,
      ⟨htail, hnd, -, rfl⟩, len, hlen, next, hnext, rfl, ostart, ho, _, hoc, hond, hdis, rfl⟩
    obtain ⟨hcount, hanchor, hos⟩ := (expectedOutcomeStart_ok hs).1 ho
    have h1 := checkedAdd_toNat hnext
    have h2 := toU64_toNat hlen
    have h3 := start.toNat_lt
    refine ⟨htl, hol, UInt64.le_iff_toNat_le.1 hgen, hep, hret, hf, hpe, hpl, hk, by omega,
      by simpa [hs] using htail, by omega, hcount, by simpa [hos] using hoc, hanchor, ?_⟩
    rw [Head.transactionIds, List.map_append, List.nodup_append']
    refine ⟨hnd, hond, fun t ht ht' => ?_⟩
    obtain ⟨c, hc, rfl⟩ := List.mem_map.1 ht'
    exact hdis c hc (by simpa using ht)
  · intro v
    have hst : (UInt64.ofNat h.start).toNat = h.start := UInt64.toNat_ofNat_of_lt' v.start
    have hnlt := h.nextSequence.toNat_lt
    have hnext := v.next
    have hlen : (UInt64.ofNat h.tail.length).toNat = h.tail.length :=
      UInt64.toNat_ofNat_of_lt' (show h.tail.length < 2 ^ 64 by omega)
    have hout : (UInt64.ofNat (h.start - h.recentOutcomes.length)).toNat =
        h.start - h.recentOutcomes.length :=
      UInt64.toNat_ofNat_of_lt' (show h.start - h.recentOutcomes.length < 2 ^ 64 by
        have := v.start; omega)
    have hd := v.distinct
    rw [Head.transactionIds, List.map_append, List.nodup_append'] at hd
    refine ⟨v.tailLen, v.outcomesLen, UInt64.le_iff_toNat_le.2 v.generation,
      ⟨v.epoch, v.retentions, v.fence, v.planEpoch, v.planLen⟩, _, ⟨v.baseKind, hst⟩, _,
      ⟨by simpa [hst] using v.tail, hd.1, by simp, rfl⟩, _, toU64_eq_some (by omega), _,
      checkedAdd_eq_some (by omega), ?_, UInt64.ofNat (h.start - h.recentOutcomes.length),
      (expectedOutcomeStart_ok hst).2 ⟨v.outcomesCount, v.anchor, hout⟩, _,
      by simpa [hout] using v.outcomes, hd.2.1, fun c hc ht => ?_, rfl⟩
    · rw [← UInt64.toNat_inj, UInt64.toNat_add, Nat.mod_eq_of_lt (by omega)]
      omega
    · exact hd.2.2 (by simpa using ht) (List.mem_map_of_mem hc)

end ObjectLog
