import ObjectLog.Proof.Live

/-!
# One history behind all heads

The commits of a log in the order in which heads appended them. Checkpoints move a prefix
from the tail to the retained outcomes and then out of sight, retentions and collections
touch neither, so every durable head is a window on the history up to its moment.

Publication bases come and go in the same order: a base that a head has lost does not come
back, since every change that alters it moves one of the sequence, the start of the tail,
the epoch and the fence in one direction.
-/

set_option linter.unusedSectionVars false

namespace ObjectLog

/-! ## The commits along a list of heads -/

/-- The commit that `h'` has appended to `h`, if it has. -/
def Head.appended (h h' : Head) : List CommitRef :=
  if h'.nextSequence = h.nextSequence then [] else h'.tail.getLast?.toList

def historyAfter (h : Head) : List Head → List CommitRef
  | [] => []
  | h' :: hs => h.appended h' ++ historyAfter h' hs

def historyOf : List Head → List CommitRef
  | [] => []
  | h :: hs => historyAfter h hs

theorem historyAfter_append (h : Head) (xs ys : List Head) :
    historyAfter h (xs ++ ys) =
      historyAfter h xs ++ historyAfter ((h :: xs).getLast (by simp)) ys := by
  induction xs generalizing h with
  | nil => rfl
  | cons x xs ih => simp [historyAfter, ih]

theorem historyOf_append {xs ys : List Head} {h : Head} (hl : xs.getLast? = some h) :
    historyOf (xs ++ ys) = historyOf xs ++ historyAfter h ys := by
  cases xs with
  | nil => cases hl
  | cons x xs =>
      obtain rfl : (x :: xs).getLast (by simp) = h := by
        rwa [List.getLast?_eq_some_getLast (by simp), Option.some.injEq] at hl
      exact historyAfter_append x xs ys

theorem historyOf_prefix {xs ys : List Head} (h : xs <+: ys) : historyOf xs <+: historyOf ys := by
  obtain ⟨zs, rfl⟩ := h
  cases hl : xs.getLast? with
  | none =>
      obtain rfl := List.getLast?_eq_none_iff.1 hl
      exact List.nil_prefix
  | some h => exact ⟨_, (historyOf_append hl).symm⟩

/-! ## What a history says about a head -/

/-- The head is the window on `hist` that its checkpoint and its limits make it. -/
structure Explains (hist : List CommitRef) (h : Head) : Prop where
  sequence : ∀ (n : Nat) (c : CommitRef), hist[n]? = some c → c.sequence.toNat = n
  next : h.nextSequence.toNat = hist.length
  start : h.start ≤ hist.length
  tail : h.tail = hist.drop h.start
  outcomes : h.recentOutcomes =
    boundOutcomes h.options.resolutionWindow.toNat (hist.take h.start)
  through : ∀ c, h.checkpoint = some c →
    ∃ x, hist[c.throughSequence.toNat]? = some x ∧ x.digest = c.throughCommit

variable {hist : List CommitRef} {h h' : Head} {c : Change}

theorem Explains.empty (logId : LogId) (inc : Uuid) (opts : Options) :
    Explains [] (Head.empty logId inc opts) where
  sequence := by simp
  next := by simp [Head.empty]
  start := by simp [Head.empty, Head.start]
  tail := by simp [Head.empty]
  outcomes := by simp [Head.empty, boundOutcomes]
  through := by simp [Head.empty]

/-- Bounding in two steps is bounding once. -/
theorem boundOutcomes_append (w : Nat) (xs ys : List CommitRef) :
    boundOutcomes w (boundOutcomes w xs ++ ys) = boundOutcomes w (xs ++ ys) := by
  have hdrop : boundOutcomes w xs ++ ys = (xs ++ ys).drop (xs.length - w) := by
    rw [List.drop_append_of_le_length (by omega)]
    rfl
  have hlen : (boundOutcomes w xs ++ ys).length = min xs.length w + ys.length := by
    rw [List.length_append, boundOutcomes_length]
  conv_lhs => unfold boundOutcomes
  change (boundOutcomes w xs ++ ys).drop ((boundOutcomes w xs ++ ys).length - w) = _
  rw [hlen, hdrop, List.drop_drop]
  unfold boundOutcomes
  congr 1
  rw [List.length_append]
  omega

theorem Explains.mem (e : Explains hist h) {x : CommitRef}
    (hx : x ∈ h.tail ++ h.recentOutcomes) : x ∈ hist := by
  rcases List.mem_append.1 hx with hx | hx
  · rw [e.tail] at hx
    exact List.mem_of_mem_drop hx
  · rw [e.outcomes] at hx
    exact List.mem_of_mem_take (List.mem_of_mem_drop hx)

/-- A commit stands at the position of its sequence. -/
theorem Explains.at_sequence (e : Explains hist h) {x : CommitRef} (hx : x ∈ hist) :
    hist[x.sequence.toNat]? = some x := by
  obtain ⟨n, hn⟩ := List.mem_iff_getElem?.1 hx
  rw [e.sequence n x hn, hn]

theorem Explains.nodup (e : Explains hist h) : hist.Nodup := by
  rw [List.nodup_iff_getElem?_ne_getElem?]
  intro i j hij hj he
  obtain ⟨x, hx⟩ : ∃ x, hist[i]? = some x := ⟨_, List.getElem?_eq_getElem (by omega)⟩
  have h1 := e.sequence i x hx
  have h2 := e.sequence j x (he ▸ hx)
  omega

/-- The tip is the last commit. -/
theorem Explains.tip (e : Explains hist h) : h.tip = hist.getLast?.map CommitRef.digest := by
  unfold Head.tip
  rcases Nat.lt_or_ge h.start hist.length with hlt | hge
  · have : h.tail.getLast? = hist.getLast? := by
      rw [e.tail, List.getLast?_drop, if_neg (by omega)]
    rw [this]
    cases hl : hist.getLast? with
    | some x => rfl
    | none =>
        rw [List.getLast?_eq_none_iff] at hl
        simp [hl] at hlt
  · have hnil : h.tail = [] := by rw [e.tail, List.drop_eq_nil_of_le hge]
    rw [hnil]
    cases hc : h.checkpoint with
    | none =>
        have h0 : h.start = 0 := by simp [Head.start, hc]
        have : hist = [] := List.length_eq_zero_iff.1 (by omega)
        simp [this]
    | some c =>
        obtain ⟨x, hx, hd⟩ := e.through c hc
        have hs : h.start = c.throughSequence.toNat + 1 := by simp [Head.start, hc]
        have hlen := e.start
        have hlast : hist.getLast? = some x := by
          rw [List.getLast?_eq_getElem?, show hist.length - 1 = c.throughSequence.toNat by omega, hx]
        simp [hlast, hd]

/-- What the window of a head still shows. -/
theorem Explains.shown (e : Explains hist h) {n : Nat} {x : CommitRef} (hx : hist[n]? = some x)
    (hw : h.start ≤ n + h.options.resolutionWindow.toNat) : x ∈ h.tail ++ h.recentOutcomes := by
  have hlt : n < hist.length := (List.getElem?_eq_some_iff.1 hx).1
  have hs := e.start
  rw [List.mem_append]
  rcases Nat.lt_or_ge n h.start with hn | hn
  · -- among the outcomes
    right
    have hlen : (hist.take h.start).length = h.start := by
      rw [List.length_take]
      omega
    rw [e.outcomes, boundOutcomes, hlen]
    refine List.mem_iff_getElem?.2 ⟨n - (h.start - h.options.resolutionWindow.toNat), ?_⟩
    rw [List.getElem?_drop, List.getElem?_take]
    rw [show h.start - h.options.resolutionWindow.toNat +
      (n - (h.start - h.options.resolutionWindow.toNat)) = n by omega, if_pos hn, hx]
  · left
    rw [e.tail]
    refine List.mem_iff_getElem?.2 ⟨n - h.start, ?_⟩
    rw [List.getElem?_drop, show h.start + (n - h.start) = n by omega, hx]

/-- **What the classification of a candidate says about the history.** -/
theorem Explains.classify {view : View} (target : CommitRef) (e : Explains hist view.head) :
    match classifyResolution target view with
    | .ok .committed => target ∈ hist
    | .ok .notCommitted => target ∉ hist
    | .ok .expired => target.sequence.toNat + view.head.options.resolutionWindow.toNat <
        view.head.start
    | .error _ => view.head.nextSequence < target.sequence := by
  unfold classifyResolution
  by_cases hc : containsCommit view target = true
  · rw [if_pos hc]
    exact e.mem (List.contains_iff_mem.1 hc)
  rw [if_neg hc]
  have hno : target ∉ view.head.tail ++ view.head.recentOutcomes :=
    fun h => hc (List.contains_iff_mem.2 h)
  by_cases hlt : target.sequence < view.head.nextSequence
  · rw [if_pos hlt]
    have hpos : target.sequence.toNat < hist.length := by
      rw [← e.next]
      exact UInt64.lt_iff_toNat_lt.1 hlt
    obtain ⟨x, hx⟩ : ∃ x, hist[target.sequence.toNat]? = some x :=
      ⟨_, List.getElem?_eq_getElem hpos⟩
    by_cases hany : (view.head.tail ++ view.head.recentOutcomes).any
        (fun entry => entry.sequence == target.sequence) = true
    · -- another commit has the sequence
      rw [if_pos hany]
      obtain ⟨y, hy, hseq⟩ := List.any_eq_true.1 hany
      intro hmem
      have hys := e.at_sequence (e.mem hy)
      rw [eq_of_beq hseq, e.at_sequence hmem] at hys
      obtain rfl := Option.some.inj hys
      exact hno hy
    · rw [if_neg hany]
      by_contra hge
      refine hany (List.any_eq_true.2 ⟨x, e.shown hx (by omega), ?_⟩)
      rw [beq_iff_eq]
      exact UInt64.toNat_inj.1 (e.sequence _ _ hx)
  · rw [if_neg hlt]
    by_cases hgt : view.head.nextSequence < target.sequence
    · rw [if_pos hgt]
      exact hgt
    · rw [if_neg hgt]
      intro hmem
      have hpos := (List.getElem?_eq_some_iff.1 (e.at_sequence hmem)).1
      rw [← e.next] at hpos
      exact hlt (UInt64.lt_iff_toNat_lt.2 hpos)

/-- A candidate at the next position is not in the history. -/
theorem Explains.not_mem_next (e : Explains hist h) {x : CommitRef}
    (hx : x.sequence = h.nextSequence) : x ∉ hist := by
  intro hmem
  have hpos := (List.getElem?_eq_some_iff.1 (e.at_sequence hmem)).1
  rw [hx, e.next] at hpos
  omega

/-- **One change explains the next head.** -/
theorem Explains.step (e : Explains hist h) (v : h.Valid) (hr : c.Result h h') (hg : c.Guard h) :
    Explains (hist ++ h.appended h') h' := by
  cases hr with
  | append hgen hn =>
      rename_i commit g n
      have hn' : n.toNat = h.nextSequence.toNat + 1 := checkedAdd_toNat hn
      have hne : n ≠ h.nextSequence := fun he => by rw [he] at hn'; omega
      obtain ⟨-, hseq, -⟩ := hg
      have hlast : (h.tail ++ [commit]).getLast?.toList = [commit] := by simp
      simp only [Head.appended, if_neg hne, hlast]
      have hstart := e.start
      refine ⟨fun k x hk => ?_, ?_, ?_, ?_, ?_, fun x hx => ?_⟩
      · rcases Nat.lt_or_ge k hist.length with hlt | hge
        · rw [List.getElem?_append_left hlt] at hk
          exact e.sequence k x hk
        · rw [List.getElem?_append_right hge, List.getElem?_singleton] at hk
          split at hk
          · obtain rfl := Option.some.inj hk
            rw [hseq, e.next]
            omega
          · cases hk
      · simp only [List.length_append, List.length_singleton]
        rw [hn', e.next]
      · change h.start ≤ _
        simp only [List.length_append, List.length_singleton]
        omega
      · change h.tail ++ [commit] = (hist ++ [commit]).drop h.start
        rw [List.drop_append_of_le_length hstart, e.tail]
      · change h.recentOutcomes = boundOutcomes _ ((hist ++ [commit]).take h.start)
        rw [List.take_append_of_le_length hstart, e.outcomes]
      · obtain ⟨y, hy, hd⟩ := e.through x hx
        refine ⟨y, ?_, hd⟩
        rw [List.getElem?_append_left (List.getElem?_eq_some_iff.1 hy).1, hy]
  | checkpoint hgen hi =>
      rename_i through object g i
      have hseq : through.sequence.toNat = h.start + i := v.tail i through hi
      have hlt : i < h.tail.length := (List.getElem?_eq_some_iff.1 hi).1
      have hlen : h.tail.length = hist.length - h.start := by rw [e.tail, List.length_drop]
      simp only [Head.appended, if_true, List.append_nil]
      have hstart' : through.sequence.toNat + 1 = h.start + (i + 1) := by omega
      refine ⟨e.sequence, e.next, ?_, ?_, ?_, fun x hx => ?_⟩
      · simp only [Head.start]
        omega
      · simp only [Head.start]
        rw [hstart', e.tail, List.drop_drop]
      · simp only [Head.start]
        rw [hstart', e.outcomes, e.tail, boundOutcomes_append, ← List.take_add]
      · obtain rfl := Option.some.inj hx
        refine ⟨through, ?_, rfl⟩
        rw [hseq, ← hi, e.tail, List.getElem?_drop]
  | retention hgen =>
      rename_i change g
      have hsame : ∀ ids : Finset RetentionId,
          Explains (hist ++ h.appended { h with retentionIds := ids, generation := g })
            { h with retentionIds := ids, generation := g } := by
        intro ids
        simp only [Head.appended, if_true, List.append_nil]
        exact ⟨e.sequence, e.next, e.start, e.tail, e.outcomes, e.through⟩
      cases change <;> exact hsame _
  | install hgen he =>
      simp only [Head.appended, if_true, List.append_nil]
      exact ⟨e.sequence, e.next, e.start, e.tail, e.outcomes, e.through⟩
  | clear hgen =>
      simp only [Head.appended, if_true, List.append_nil]
      exact ⟨e.sequence, e.next, e.start, e.tail, e.outcomes, e.through⟩

/-! ## The history of a state -/

section

variable [Blake3] {s s' : State}

/-- The stored states of the head, decoded. -/
def State.heads (s : State) : List Head :=
  s.headLog.filterMap fun stored => (decodeHead stored.bytes).toOption

/-- The commits up to the head of moment `i`. -/
def State.historyAt (s : State) (i : Nat) : List CommitRef := historyOf (s.heads.take (i + 1))

/-- The commits that were ever published. -/
def State.history (s : State) : List CommitRef := historyOf s.heads

theorem filterMap_getElem? {α β : Type} {f : α → Option β} {xs : List α}
    (h : ∀ x ∈ xs, (f x).isSome) (i : Nat) : (xs.filterMap f)[i]? = xs[i]?.bind f := by
  induction xs generalizing i with
  | nil => simp
  | cons x xs ih =>
      obtain ⟨y, hy⟩ := Option.isSome_iff_exists.1 (h x (by simp))
      rw [List.filterMap_cons_some hy]
      cases i with
      | zero => simp [hy]
      | succ i => simpa using ih (fun z hz => h z (by simp [hz])) i

theorem Inv.heads_getElem? (inv : Inv s) {i : Nat} {h : Head} {v : UpdateVersion}
    (hh : s.HeadAt i h v) : s.heads[i]? = some h := by
  obtain ⟨bytes, hb, hd⟩ := hh
  rw [State.heads, filterMap_getElem?, hb]
  · simp [hd, Except.toOption]
  · intro x hx
    obtain ⟨h', hd', -⟩ := inv.heads x hx
    simp [hd', Except.toOption]

theorem Inv.heads_length (inv : Inv s) : s.heads.length = s.now := by
  refine Nat.le_antisymm (List.length_filterMap_le ..) ?_
  by_contra hlt
  obtain ⟨h, v, hh⟩ := inv.headAt (i := s.heads.length) (by omega)
  have := inv.heads_getElem? hh
  simp at this

theorem Inv.historyAt_zero (inv : Inv s) {h : Head} {v : UpdateVersion} (hh : s.HeadAt 0 h v) :
    s.historyAt 0 = [] := by
  have := inv.heads_getElem? hh
  cases hl : s.heads with
  | nil => simp [hl] at this
  | cons x xs => simp [State.historyAt, hl, historyOf, historyAfter]

theorem Inv.historyAt_succ (inv : Inv s) {i : Nat} {h h' : Head} {v v' : UpdateVersion}
    (a : s.HeadAt i h v) (b : s.HeadAt (i + 1) h' v') :
    s.historyAt (i + 1) = s.historyAt i ++ h.appended h' := by
  have ha := inv.heads_getElem? a
  have hb := inv.heads_getElem? b
  have hlast : (s.heads.take (i + 1)).getLast? = some h := by
    rw [List.getLast?_take, if_neg (by omega), Nat.add_sub_cancel, ha]
    rfl
  rw [State.historyAt, show i + 1 + 1 = (i + 1) + 1 from rfl, List.take_add_one, hb]
  show historyOf (_ ++ [h']) = _
  rw [historyOf_append hlast]
  simp [historyAfter, State.historyAt]

/-- **One history explains every durable head.** -/
theorem Inv.explains (inv : Inv s) {i : Nat} {h : Head} {v : UpdateVersion}
    (hh : s.HeadAt i h v) : Explains (s.historyAt i) h := by
  have key : s.HeadAt i h v ∧ Explains (s.historyAt i) h := by
    revert v
    refine fun {v} hh => ⟨hh, ?_⟩
    obtain ⟨h₀, v₀, hh₀⟩ := inv.headAt (i := 0) (by have := hh.lt; omega)
    refine inv.induct (P := fun i h => Explains (s.historyAt i) h) ?_ ?_ hh
    · intro inc opts
      rw [inv.historyAt_zero hh₀]
      exact .empty _ _ _
    · intro i h v h' v' t c a b hr ih
      rw [inv.historyAt_succ a b]
      exact ih.step a.valid hr.result hr.guard
  exact key.2

theorem State.historyAt_mono {i j : Nat} (hij : i ≤ j) : s.historyAt i <+: s.historyAt j :=
  historyOf_prefix (List.take_prefix_take_left (by omega))

theorem State.historyAt_history (s : State) (i : Nat) : s.historyAt i <+: s.history :=
  historyOf_prefix (List.take_prefix _ _)

theorem Inv.history_eq (inv : Inv s) {i : Nat} (hi : i + 1 = s.now) :
    s.history = s.historyAt i := by
  rw [State.historyAt, State.history, List.take_of_length_le]
  rw [inv.heads_length, hi]

theorem State.Le.heads_prefix (hle : s.Le s') : s.heads <+: s'.heads := hle.heads.filterMap _

/-- The history only grows at its end. -/
theorem State.Le.history (hle : s.Le s') : s.history <+: s'.history :=
  historyOf_prefix hle.heads_prefix

theorem Inv.historyAt_le (inv : Inv s) (hle : s.Le s') {i : Nat} (hi : i < s.now) :
    s'.historyAt i = s.historyAt i := by
  unfold State.historyAt
  obtain ⟨ys, hys⟩ := hle.heads_prefix
  rw [← hys, List.take_append_of_le_length]
  rw [inv.heads_length]
  omega

/-- Where a commit of the history comes from. -/
theorem Inv.appended_link (inv : Inv s) {n : Nat} (hn : n < s.now) {ref : CommitRef}
    (hm : ref ∈ s.historyAt n) : ∃ i h v h' v' t, i < n ∧ s.HeadAt i h v ∧
      s.HeadAt (i + 1) h' v' ∧ s.Replaces t (i + 1) i h h' (.append ref) := by
  induction n with
  | zero =>
      obtain ⟨h, v, hh⟩ := inv.headAt hn
      rw [inv.historyAt_zero hh] at hm
      cases hm
  | succ n ih =>
      obtain ⟨h, v, hh⟩ := inv.headAt (i := n) (by omega)
      obtain ⟨h', v', hh'⟩ := inv.headAt hn
      rw [inv.historyAt_succ hh hh', List.mem_append] at hm
      rcases hm with hm | hm
      · obtain ⟨i, a, b, c, d, t, hi, rest⟩ := ih (by omega) hm
        exact ⟨i, a, b, c, d, t, by omega, rest⟩
      · obtain ⟨t, c, hr⟩ := inv.replaces hh hh'
        refine ⟨n, h, v, h', v', t, by omega, hh, hh', ?_⟩
        -- only an append moves the sequence
        cases c with
        | append commit =>
            have hres := hr.result
            cases hres with
            | append hg hn' =>
                unfold Head.appended at hm
                split at hm
                · cases hm
                · obtain rfl : ref = commit := by simpa using hm
                  exact hr
        | retention change =>
            have hres := hr.result
            cases hres with
            | retention hg => cases change <;> simp [Head.appended, RetentionChange.apply] at hm
        | checkpoint through object =>
            have hres := hr.result
            cases hres with
            | checkpoint hg hi => simp [Head.appended] at hm
        | install p =>
            have hres := hr.result
            cases hres with
            | install hg he => simp [Head.appended] at hm
        | clear =>
            have hres := hr.result
            cases hres with
            | clear hg => simp [Head.appended] at hm

theorem Inv.mem_history_append (inv : Inv s) {i : Nat} {h h' : Head} {v v' : UpdateVersion}
    {ref : CommitRef} (_ : s.HeadAt i h v) (b : s.HeadAt (i + 1) h' v')
    (hr : (Change.append ref).Result h h') : ref ∈ s.historyAt (i + 1) := by
  have e := inv.explains b
  refine e.mem (List.mem_append_left _ ?_)
  rcases hr.records with ⟨ref', he, ht, -⟩ | ⟨_, _, _, he, -⟩ | ⟨hne, -⟩
  · obtain rfl := Change.append.inj he
    rw [ht]
    simp
  · cases he
  · exact absurd rfl (hne ref)

end

/-! ## Publication bases -/

section

variable [Blake3] {s : State}

/-- What every change of the publication base moves up. -/
def Head.rank (h : Head) : Nat :=
  h.nextSequence.toNat + h.start + 2 * h.collectionEpoch.toNat +
    if h.activePlan.isSome then 0 else 1

theorem SameBase.rank (hs : SameBase h h') : h.rank = h'.rank := by
  obtain ⟨-, -, -, h4, h5, -, -, h8, h9⟩ := sameBase_iff.1 hs
  simp only [Head.rank, Head.start, h4, h5, h8, h9]

/-- A change keeps the publication base or moves its rank up. -/
theorem Change.Result.rank (v : h.Valid) (hr : c.Result h h') (hg : c.Guard h) :
    (SameBase h h' ∧ h.rank = h'.rank) ∨ h.rank < h'.rank := by
  cases hr with
  | append hgen hn =>
      have := checkedAdd_toNat hn
      have h1 : (1 : UInt64).toNat = 1 := rfl
      right
      simp only [Head.rank, Head.start]
      omega
  | checkpoint hgen hi =>
      rename_i through object g i
      have hseq : through.sequence.toNat = h.start + i := v.tail i through hi
      right
      simp only [Head.rank]
      have : h.start < through.sequence.toNat + 1 := by omega
      simp only [Head.start] at this ⊢
      omega
  | retention hgen =>
      rename_i change g
      left
      have hs : SameBase h { change.apply h with generation := g } := by
        cases change <;> exact sameBase_iff.2 ⟨rfl, rfl, rfl, rfl, rfl, rfl, rfl, rfl, rfl⟩
      exact ⟨hs, hs.rank⟩
  | install hgen he =>
      have := checkedAdd_toNat he
      have h1 : (1 : UInt64).toNat = 1 := rfl
      right
      simp only [Head.rank, Head.start, hg.1, Option.isSome_none, Option.isSome_some]
      simp only [Bool.false_eq_true, if_false, if_true]
      omega
  | clear hgen =>
      right
      have hsome : h.activePlan.isSome = true := hg
      simp only [Head.rank, Head.start, hsome, Option.isSome_none]
      simp only [Bool.false_eq_true, if_false, if_true]
      omega

theorem Inv.rank_mono (inv : Inv s) {i j : Nat} {v v' : UpdateVersion} (hij : i ≤ j)
    (a : s.HeadAt i h v) (b : s.HeadAt j h' v') :
    (SameBase h h' ∧ h.rank = h'.rank) ∨ h.rank < h'.rank := by
  induction j generalizing h' v' with
  | zero =>
      obtain rfl : i = 0 := by omega
      obtain ⟨rfl, -⟩ := a.unique b
      exact .inl ⟨.refl h, rfl⟩
  | succ j ih =>
      rcases Nat.lt_or_ge j i with hlt | hge
      · obtain rfl : i = j + 1 := by omega
        obtain ⟨rfl, -⟩ := a.unique b
        exact .inl ⟨.refl h, rfl⟩
      · obtain ⟨g, w, hg⟩ := inv.headAt (i := j) (by have := b.lt; omega)
        obtain ⟨t, c, hr⟩ := inv.replaces hg b
        rcases ih hge hg with ⟨hs, he⟩ | hlt <;>
          rcases hr.result.rank hg.valid hr.guard with ⟨hs', he'⟩ | hlt'
        · exact .inl ⟨hs.trans hs', he.trans he'⟩
        · exact .inr (by omega)
        · exact .inr (by omega)
        · exact .inr (by omega)

/-- **A publication base that was lost does not come back.** -/
theorem Inv.base_convex (inv : Inv s) {i j k : Nat} {h₁ h₂ h₃ : Head} {v₁ v₂ v₃ : UpdateVersion}
    (hij : i ≤ j) (hjk : j ≤ k) (a : s.HeadAt i h₁ v₁) (b : s.HeadAt j h₂ v₂)
    (d : s.HeadAt k h₃ v₃) (hs : SameBase h₁ h₃) : SameBase h₁ h₂ := by
  have hr := hs.rank
  rcases inv.rank_mono hij a b with ⟨h, -⟩ | hlt
  · exact h
  · rcases inv.rank_mono hjk b d with ⟨-, he⟩ | hlt' <;> omega

end

end ObjectLog
