import ObjectLog.Proof.HeadValid

/-!
# The seven changes of a head

Every update of the head that any operation ever submits is one of seven changes,
applied to the head the update replaces. A change comes with the guard the code has
checked before it builds the candidate; under that guard the candidate is valid
again or a durable limit refuses it, so `encode_head` never meets an invalid head.
-/

namespace ObjectLog

inductive Change
  | append (commit : CommitRef)
  | checkpoint (through : CommitRef) (object : ObjectRef)
  | retention (change : RetentionChange)
  | install (plan : CollectionPlanRef)
  | clear
  deriving DecidableEq

/-- The candidate an operation builds from the head it observed. -/
def Change.apply (h : Head) : Change → Except Error Head
  | .append commit => candidateHead h commit
  | .checkpoint through object => checkpointHead h through object
  | .retention change => retentionHead h change
  | .install plan => do
      let epoch ← okOr (checkedAdd h.collectionEpoch 1) (.limitExceeded "collection epoch")
      fenceHead h epoch plan
  | .clear => clearHead h

/-- What the operation has checked on the head it observed. -/
def Change.Guard (h : Head) : Change → Prop
  | .append commit => h.tail.length < h.options.maxTailEntries.toNat ∧
      commit.sequence = h.nextSequence ∧ commit.transactionId ∉ h.transactionIds
  | .checkpoint _ object => object.kind = .checkpoint
  | .retention (.acquire id) => id ∉ h.retentionIds ∧ h.activePlan = none ∧
      h.retentionIds.card < h.options.maxRetentionIds.toNat
  | .retention (.release id) => id ∈ h.retentionIds
  | .retention .clearAfterDrain => h.retentionIds ≠ ∅
  | .install plan => h.activePlan = none ∧ h.retentionIds = ∅ ∧
      plan.len.toNat ≤ h.options.maxCollectionPlanBytes.toNat
  | .clear => h.activePlan.isSome

/-! ## What a change leaves alone -/

theorem advanceGeneration_ok {h h' : Head} (e : h.advanceGeneration = .ok h') :
    ∃ g, checkedAdd h.generation 1 = some g ∧ h' = { h with generation := g } := by
  simp only [Head.advanceGeneration, bind_ok, okOr_ok, pure, Except.pure, Except.ok.injEq] at e
  obtain ⟨g, hg, rfl⟩ := e
  exact ⟨g, hg, rfl⟩

theorem advanceGeneration_error {h : Head} {e : Error} (he : h.advanceGeneration = .error e) :
    e = .limitExceeded "head generation" := by
  unfold Head.advanceGeneration okOr at he
  split at he
  · cases he
  · exact (Except.error.inj he).symm

/-- What happened to the fields of a head, change by change. Fields that are not
mentioned are those of the head that was replaced. -/
inductive Change.Result (h : Head) : Change → Head → Prop
  | append {commit : CommitRef} {g n : UInt64}
      (hg : checkedAdd h.generation 1 = some g) (hn : checkedAdd h.nextSequence 1 = some n) :
      Change.Result h (.append commit)
        { h with generation := g, nextSequence := n, tail := h.tail ++ [commit] }
  | checkpoint {through : CommitRef} {object : ObjectRef} {g : UInt64} {i : Nat}
      (hg : checkedAdd h.generation 1 = some g) (hi : h.tail[i]? = some through) :
      Change.Result h (.checkpoint through object)
        { h with
          generation := g
          tail := h.tail.drop (i + 1)
          recentOutcomes := boundOutcomes h.options.resolutionWindow.toNat
            (h.recentOutcomes ++ h.tail.take (i + 1))
          checkpoint := some
            { throughSequence := through.sequence, throughCommit := through.digest, object } }
  | retention {change : RetentionChange} {g : UInt64}
      (hg : checkedAdd h.generation 1 = some g) :
      Change.Result h (.retention change) { change.apply h with generation := g }
  | install {plan : CollectionPlanRef} {g e : UInt64}
      (hg : checkedAdd h.generation 1 = some g) (he : checkedAdd h.collectionEpoch 1 = some e) :
      Change.Result h (.install plan)
        { h with generation := g, collectionEpoch := e, activePlan := some plan }
  | clear {g : UInt64} (hg : checkedAdd h.generation 1 = some g) :
      Change.Result h .clear { h with generation := g, activePlan := none }

theorem RetentionChange.apply_generation (change : RetentionChange) (h : Head) :
    (change.apply h).generation = h.generation := by
  cases change <;> rfl

/-- The candidate of a change is its result. -/
theorem Change.apply_result {h h' : Head} {c : Change} (e : c.apply h = .ok h') :
    c.Result h h' := by
  cases c with
  | append commit =>
      simp only [Change.apply, candidateHead, bind_ok, okOr_ok, pure, Except.pure,
        Except.ok.injEq] at e
      obtain ⟨k, hk, n, hn, rfl⟩ := e
      obtain ⟨g, hg, rfl⟩ := advanceGeneration_ok hk
      exact .append hg hn
  | checkpoint through object =>
      simp only [Change.apply, checkpointHead, bind_ok, okOr_ok] at e
      obtain ⟨i, hi, hk⟩ := e
      obtain ⟨g, hg, rfl⟩ := advanceGeneration_ok hk
      refine .checkpoint hg ?_
      obtain ⟨hlt, hget, -⟩ := List.idxOf?_eq_some_iff.1 hi
      simp [hget, hlt]
  | retention change =>
      obtain ⟨g, hg, rfl⟩ := advanceGeneration_ok e
      rw [RetentionChange.apply_generation] at hg
      exact .retention hg
  | install plan =>
      simp only [Change.apply, fenceHead, bind_ok, okOr_ok, pure, Except.pure,
        Except.ok.injEq] at e
      obtain ⟨ep, hep, k, hk, rfl⟩ := e
      obtain ⟨g, hg, rfl⟩ := advanceGeneration_ok hk
      exact .install hg hep
  | clear =>
      obtain ⟨g, hg, rfl⟩ := advanceGeneration_ok e
      exact .clear hg

/-- A change that went through moved the generation by one. -/
theorem Change.Result.generation {h h' : Head} {c : Change} (r : c.Result h h') :
    h'.generation.toNat = h.generation.toNat + 1 := by
  cases r with
  | append hg _ | checkpoint hg _ | retention hg | install hg _ | clear hg =>
      simpa using checkedAdd_toNat hg

/-! ## Changes keep a head valid -/

theorem boundOutcomes_length (window : Nat) (xs : List CommitRef) :
    (boundOutcomes window xs).length = min xs.length window := by
  simp only [boundOutcomes, List.length_drop]
  omega

theorem boundOutcomes_contiguous (window : Nat) {start : Nat} {xs : List CommitRef}
    (h : Contiguous start xs) :
    Contiguous (start + xs.length - (boundOutcomes window xs).length) (boundOutcomes window xs) := by
  have hd := h.drop (n := xs.length - window) (by omega)
  rw [boundOutcomes_length]
  rwa [show start + xs.length - min xs.length window = start + (xs.length - window) by omega]

theorem boundOutcomes_last {window : Nat} {xs : List CommitRef} {x last : CommitRef}
    (h : (boundOutcomes window (xs ++ [x])).getLast? = some last) : last = x := by
  rw [boundOutcomes, List.getLast?_drop] at h
  split at h
  · cases h
  · simpa [eq_comm] using h

/-- The tail up to a covered entry ends with that entry. -/
theorem take_succ_eq {xs : List CommitRef} {i : Nat} {x : CommitRef} (h : xs[i]? = some x) :
    xs.take (i + 1) = xs.take i ++ [x] := by
  rw [List.take_add_one, h]; rfl

theorem Change.valid_append {h : Head} {commit : CommitRef} {g n : UInt64} (v : h.Valid)
    (hlen : h.tail.length < h.options.maxTailEntries.toNat)
    (hseq : commit.sequence = h.nextSequence) (hid : commit.transactionId ∉ h.transactionIds)
    (hg : checkedAdd h.generation 1 = some g) (hn : checkedAdd h.nextSequence 1 = some n) :
    ({ h with generation := g, nextSequence := n, tail := h.tail ++ [commit] } : Head).Valid := by
  have hg' : g.toNat = h.generation.toNat + 1 := by simpa using checkedAdd_toNat hg
  have hn' : n.toNat = h.nextSequence.toNat + 1 := by simpa using checkedAdd_toNat hn
  have h1 := v.generation
  have h2 := v.epoch
  have h3 := v.next
  exact
    { v with
      tailLen := by simp only [List.length_append, List.length_singleton]; omega
      generation := by simp only; omega
      epoch := by simp only; omega
      start := v.start
      tail := by
        refine contiguous_append.2 ⟨v.tail, contiguous_cons.2 ⟨?_, Contiguous.nil _⟩⟩
        rw [hseq]; exact v.next
      next := by
        change n.toNat = h.start + _
        simp only [List.length_append, List.length_singleton]; omega
      outcomesCount := v.outcomesCount
      outcomes := v.outcomes
      distinct := by
        have hd := v.distinct
        simp only [Head.transactionIds, List.append_assoc, List.singleton_append, List.map_append,
          List.map_cons] at hd hid ⊢
        rw [List.nodup_middle]
        exact List.nodup_cons.2 ⟨hid, hd⟩ }

theorem Change.valid_checkpoint {h : Head} {through : CommitRef} {object : ObjectRef}
    {g : UInt64} {i : Nat} (v : h.Valid) (hkind : object.kind = .checkpoint)
    (hg : checkedAdd h.generation 1 = some g) (hi : h.tail[i]? = some through) :
    ({ h with
        generation := g
        tail := h.tail.drop (i + 1)
        recentOutcomes := boundOutcomes h.options.resolutionWindow.toNat
          (h.recentOutcomes ++ h.tail.take (i + 1))
        checkpoint := some
          { throughSequence := through.sequence, throughCommit := through.digest, object } } :
      Head).Valid := by
  have hg' : g.toNat = h.generation.toNat + 1 := by simpa using checkedAdd_toNat hg
  have hlt : i < h.tail.length := (List.getElem?_eq_some_iff.1 hi).1
  have hseq : through.sequence.toNat = h.start + i := v.tail i through hi
  have hnext := v.next
  have hnlt := h.nextSequence.toNat_lt
  have hcount := v.outcomesCount
  have hgen := v.generation
  have hep := v.epoch
  -- the covered prefix continues the retained outcomes
  have hall : Contiguous (h.start - h.recentOutcomes.length)
      (h.recentOutcomes ++ h.tail.take (i + 1)) := by
    refine contiguous_append.2 ⟨v.outcomes, ?_⟩
    rw [show h.start - h.recentOutcomes.length + h.recentOutcomes.length = h.start by omega]
    exact v.tail.take _
  have hlen : (h.recentOutcomes ++ h.tail.take (i + 1)).length =
      h.recentOutcomes.length + (i + 1) := by
    simp only [List.length_append, List.length_take]; omega
  exact
    { v with
      tailLen := by
        have := v.tailLen
        simp only [List.length_drop]; omega
      outcomesLen := by simp only [boundOutcomes_length]; omega
      generation := by simp only; omega
      epoch := by simp only; omega
      baseKind := by rintro c ⟨⟩; exact hkind
      start := by simp only [Head.start]; omega
      tail := by
        have := v.tail.drop (n := i + 1) (by omega)
        simp only [Head.start]
        rwa [hseq, show h.start + i + 1 = h.start + (i + 1) by omega]
      next := by simp only [Head.start, List.length_drop]; omega
      outcomesCount := by simp only [Head.start, boundOutcomes_length, hlen]; omega
      outcomes := by
        have := boundOutcomes_contiguous h.options.resolutionWindow.toNat hall
        simp only [Head.start]
        rwa [hlen, show h.start - h.recentOutcomes.length + (h.recentOutcomes.length + (i + 1)) =
          through.sequence.toNat + 1 by omega] at this
      anchor := by
        rintro c ⟨⟩ last hlast
        rw [take_succ_eq hi, ← List.append_assoc] at hlast
        rw [boundOutcomes_last hlast]
      distinct := by
        have hd := v.distinct
        rw [Head.transactionIds] at hd ⊢
        refine List.Nodup.sublist (List.Sublist.map _
          (List.Sublist.append_left (List.drop_sublist _ _) _)) ?_
        refine (List.Perm.nodup_iff (List.Perm.map _ ?_)).1 hd
        -- the covered prefix only changes its place
        conv_lhs => rw [← List.take_append_drop (i + 1) h.tail]
        rw [List.append_assoc]
        refine List.perm_append_comm.trans ?_
        rw [List.append_assoc] }

theorem Change.valid_retention {h : Head} {change : RetentionChange} {g : UInt64} (v : h.Valid)
    (hc : (Change.retention change).Guard h) (hg : checkedAdd h.generation 1 = some g) :
    ({ change.apply h with generation := g } : Head).Valid := by
  have hg' : g.toNat = h.generation.toNat + 1 := by simpa using checkedAdd_toNat hg
  have hgen := v.generation
  have hep := v.epoch
  -- whatever the set of retentions becomes, only the two checks on it are at stake
  have key : ∀ ids : Finset RetentionId, ids.card ≤ h.options.maxRetentionIds.toNat →
      (h.activePlan.isSome → ids = ∅) →
      ({ h with retentionIds := ids, generation := g } : Head).Valid := by
    intro ids hcard hfence
    exact
      { v with
        generation := by simp only; omega
        epoch := by simp only; omega
        retentions := hcard
        fence := hfence
        start := v.start
        tail := v.tail
        next := v.next
        outcomesCount := v.outcomesCount
        outcomes := v.outcomes
        distinct := v.distinct }
  cases change with
  | acquire id =>
      obtain ⟨hid, hplan, hcard⟩ := hc
      refine key (insert id h.retentionIds) ?_ (by simp [hplan])
      rw [Finset.card_insert_of_notMem hid]
      omega
  | release id =>
      refine key (h.retentionIds.erase id) (Finset.card_erase_le.trans v.retentions) fun hp => ?_
      rw [v.fence hp, Finset.erase_empty]
  | clearAfterDrain => exact key ∅ (by simp) fun _ => rfl

theorem Change.valid_install {h : Head} {plan : CollectionPlanRef} {g e : UInt64} (v : h.Valid)
    (hret : h.retentionIds = ∅) (hlen : plan.len.toNat ≤ h.options.maxCollectionPlanBytes.toNat)
    (hg : checkedAdd h.generation 1 = some g) (he : checkedAdd h.collectionEpoch 1 = some e) :
    ({ h with generation := g, collectionEpoch := e, activePlan := some plan } : Head).Valid := by
  have hg' : g.toNat = h.generation.toNat + 1 := by simpa using checkedAdd_toNat hg
  have he' : e.toNat = h.collectionEpoch.toNat + 1 := by simpa using checkedAdd_toNat he
  have hgen := v.generation
  have hep := v.epoch
  exact
    { v with
      generation := by simp only; omega
      epoch := by simp only; omega
      fence := fun _ => hret
      planEpoch := by
        rintro - rfl
        simp at he'
      planLen := by rintro p ⟨⟩; exact hlen
      start := v.start
      tail := v.tail
      next := v.next
      outcomesCount := v.outcomesCount
      outcomes := v.outcomes
      distinct := v.distinct }

theorem Change.valid_clear {h : Head} {g : UInt64} (v : h.Valid)
    (hg : checkedAdd h.generation 1 = some g) :
    ({ h with generation := g, activePlan := none } : Head).Valid := by
  have hg' : g.toNat = h.generation.toNat + 1 := by simpa using checkedAdd_toNat hg
  have hgen := v.generation
  have hep := v.epoch
  exact
    { v with
      generation := by simp only; omega
      epoch := by simp only; omega
      fence := by simp
      planEpoch := by simp
      planLen := by simp
      start := v.start
      tail := v.tail
      next := v.next
      outcomesCount := v.outcomesCount
      outcomes := v.outcomes
      distinct := v.distinct }

/-- **A guarded change of a valid head is valid.** -/
theorem Change.Result.valid {h h' : Head} {c : Change} (r : c.Result h h') (v : h.Valid)
    (hc : c.Guard h) : h'.Valid := by
  cases r with
  | append hg hn => exact Change.valid_append v hc.1 hc.2.1 hc.2.2 hg hn
  | checkpoint hg hi => exact Change.valid_checkpoint v hc hg hi
  | retention hg => exact Change.valid_retention v hc hg
  | install hg he => exact Change.valid_install v hc.2.1 hc.2.2 hg he
  | clear hg => exact Change.valid_clear v hg

/-- The initial head is valid whatever its options are. -/
theorem Head.empty_valid (logId : LogId) (incarnation : Uuid) (options : Options) :
    (Head.empty logId incarnation options).Valid where
  tailLen := by simp [Head.empty]
  outcomesLen := by simp [Head.empty]
  generation := by simp [Head.empty]
  epoch := by simp [Head.empty]
  retentions := by simp [Head.empty]
  fence := by simp [Head.empty]
  planEpoch := by simp [Head.empty]
  planLen := by simp [Head.empty]
  baseKind := by simp [Head.empty]
  start := by simp [Head.empty, Head.start]
  tail := Contiguous.nil _
  next := by simp [Head.empty, Head.start]
  outcomesCount := by simp [Head.empty, Head.start]
  outcomes := Contiguous.nil _
  anchor := by simp [Head.empty]
  distinct := by simp [Head.empty, Head.transactionIds]

/-- A change that cannot be applied hit a limit, or names an entry outside the tail. -/
theorem Change.apply_error {h : Head} {c : Change} {e : Error} (he : c.apply h = .error e) :
    (∃ what, e = .limitExceeded what) ∨
      ∃ through object, c = .checkpoint through object ∧ through ∉ h.tail ∧
        e = invalid "the checkpoint entry is not in the active tail" := by
  have hadv : ∀ k : Head, k.advanceGeneration = .error e → ∃ what, e = .limitExceeded what :=
    fun k hk => ⟨_, advanceGeneration_error hk⟩
  cases c with
  | append commit =>
      left
      simp only [Change.apply, candidateHead] at he
      cases hk : h.advanceGeneration with
      | error e' =>
          rw [hk] at he
          obtain rfl : e' = e := by simpa [bind, Except.bind] using he
          exact hadv h hk
      | ok k =>
          rw [hk] at he
          cases hn : checkedAdd k.nextSequence 1 with
          | none =>
              simp only [hn, okOr, bind, Except.bind, Except.error.injEq] at he
              exact ⟨_, he.symm⟩
          | some n => simp [hn, okOr, bind, Except.bind, pure, Except.pure] at he
  | checkpoint through object =>
      simp only [Change.apply, checkpointHead] at he
      cases hi : h.tail.idxOf? through with
      | none =>
          right
          simp only [hi, okOr, bind, Except.bind, Except.error.injEq] at he
          exact ⟨through, object, rfl, List.idxOf?_eq_none_iff.1 hi, he.symm⟩
      | some i =>
          left
          rw [hi] at he
          exact hadv _ he
  | retention change => exact .inl (hadv _ he)
  | install plan =>
      left
      simp only [Change.apply, fenceHead] at he
      cases hep : checkedAdd h.collectionEpoch 1 with
      | none =>
          simp only [hep, okOr, bind, Except.bind, Except.error.injEq] at he
          exact ⟨_, he.symm⟩
      | some ep =>
          cases hk : h.advanceGeneration with
          | error e' =>
              simp only [hep, hk, okOr, bind, Except.bind, Except.error.injEq] at he
              obtain rfl := he
              exact hadv h hk
          | ok k => simp [hep, hk, okOr, bind, Except.bind, pure, Except.pure] at he
  | clear => exact .inl (hadv _ he)

end ObjectLog
