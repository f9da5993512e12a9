import ObjectLog.Git.FetchPolicy
import ObjectLog.Lib.Answers

/-!
# The walk of `visibleFetch`

The walk only meets published objects, so nothing else becomes visible. A met object that left
the queue has been followed: its edges were met, wait as deferred parents, or were shown as
entries of its tree. When the queue and the deferred parents are empty, everything that can be
reached by followed edges is visible; the types that `verifyObjects` checks make this every
published object, or every published commit if trees were not read.
-/

namespace ObjectLog.Git

open Rely

variable {store : ObjectStore} {tips : List Hash} {full : Bool} {walk walk' : FetchWalk}
  {id : Hash} {o : Object}

/-! ## Steps of the walk -/

/-- The walk went on: new objects were met and queued, and what is no longer needed is
visible. -/
structure FetchWalk.Grows (walk walk' : FetchWalk) : Prop where
  visible : walk.visible ⊆ walk'.visible
  parents : walk.parents ⊆ walk'.parents
  needed : ∀ id ∈ walk.needed, id ∈ walk'.needed ∨ id ∈ walk'.visible
  met : ∃ new : List Hash, walk'.queue = walk.queue ++ new ∧ new.Nodup ∧
    (∀ id ∈ new, id ∉ walk.seen) ∧ walk'.seen = walk.seen ∪ new.toFinset

namespace FetchWalk.Grows

theorem refl (walk : FetchWalk) : walk.Grows walk :=
  ⟨Finset.Subset.refl _, Finset.Subset.refl _, fun _ h => .inl h, [], by simp⟩

theorem seen (h : walk.Grows walk') : walk.seen ⊆ walk'.seen := by
  obtain ⟨new, -, -, -, hseen⟩ := h.met
  rw [hseen]
  exact Finset.subset_union_left

theorem trans {walk'' : FetchWalk} (h : walk.Grows walk') (h' : walk'.Grows walk'') :
    walk.Grows walk'' := by
  refine ⟨h.visible.trans h'.visible, h.parents.trans h'.parents, ?_, ?_⟩
  · intro id hid
    rcases h.needed id hid with hid | hid
    · exact h'.needed id hid
    · exact .inr (h'.visible hid)
  · obtain ⟨new, hqueue, hnodup, hfresh, hseen⟩ := h.met
    obtain ⟨new', hqueue', hnodup', hfresh', hseen'⟩ := h'.met
    refine ⟨new ++ new', ?_, ?_, ?_, ?_⟩
    · rw [hqueue', hqueue, List.append_assoc]
    · refine List.nodup_append.2 ⟨hnodup, hnodup', ?_⟩
      intro id hid id' hid' heq
      subst heq
      refine hfresh' id hid' ?_
      rw [hseen]
      exact Finset.mem_union_right _ (List.mem_toFinset.2 hid)
    · intro id hid
      rcases List.mem_append.1 hid with hid | hid
      · exact hfresh id hid
      · exact fun hin => hfresh' id hid (h.seen hin)
    · rw [hseen', hseen, List.toFinset_append, Finset.union_assoc]

/-- What was met and what is queued grow alike. -/
theorem card (h : walk.Grows walk') :
    walk'.seen.card + walk.queue.length = walk.seen.card + walk'.queue.length := by
  obtain ⟨new, hqueue, hnodup, hfresh, hseen⟩ := h.met
  have hdisjoint : Disjoint walk.seen new.toFinset := by
    refine Finset.disjoint_left.2 fun id hid hnew => ?_
    exact hfresh id (List.mem_toFinset.1 hnew) hid
  rw [hseen, hqueue, Finset.card_union_of_disjoint hdisjoint, List.toFinset_card_of_nodup hnodup,
    List.length_append]
  omega

/-- Many steps. -/
theorem foldl {α : Type} {f : FetchWalk → α → FetchWalk}
    (h : ∀ (walk : FetchWalk) (a : α), walk.Grows (f walk a)) (l : List α) :
    ∀ walk : FetchWalk, walk.Grows (l.foldl f walk) := by
  induction l with
  | nil => exact refl
  | cons a l ih => exact fun walk => (h walk a).trans (ih (f walk a))

end FetchWalk.Grows

theorem enqueue_grows (walk : FetchWalk) (id : Hash) : walk.Grows (walk.enqueue id) := by
  unfold FetchWalk.enqueue
  split_ifs with hseen
  · exact .refl walk
  · refine ⟨Finset.Subset.refl _, Finset.Subset.refl _, fun _ h => .inl h, [id], rfl,
      List.nodup_singleton id, ?_, ?_⟩
    · intro i hi
      cases List.mem_singleton.1 hi
      exact hseen
    · exact Finset.insert_eq id walk.seen ▸ Finset.union_comm _ _

theorem reveal_grows (walk : FetchWalk) (id : Hash) : walk.Grows (walk.reveal id) := by
  refine ⟨Finset.subset_insert _ _, Finset.Subset.refl _, ?_, [], by simp [FetchWalk.reveal]⟩
  intro i hi
  by_cases heq : i = id
  · exact .inr (Finset.mem_insert.2 (.inl heq))
  · exact .inl (Finset.mem_erase.2 ⟨heq, hi⟩)

theorem defer_grows (walk : FetchWalk) (id : Hash) : walk.Grows (walk.defer id) := by
  unfold FetchWalk.defer
  split_ifs
  · exact .refl walk
  · exact ⟨Finset.Subset.refl _, Finset.subset_insert _ _, fun _ h => .inl h, [], by simp⟩

theorem enter_grows (walk : FetchWalk) (entry : TreeEntry) : walk.Grows (walk.enter entry) := by
  unfold FetchWalk.enter
  split_ifs
  · exact .refl walk
  · exact (reveal_grows walk entry.hash).trans (enqueue_grows _ entry.hash)
  · exact reveal_grows walk entry.hash

theorem follow_grows (full : Bool) (walk : FetchWalk) (o : Object) :
    walk.Grows (walk.follow full o) := by
  cases o with
  | blob => exact .refl walk
  | tag target kind => exact enqueue_grows walk target
  | tree entries =>
      unfold FetchWalk.follow
      split_ifs
      · exact FetchWalk.Grows.foldl enter_grows entries walk
      · exact .refl walk
  | commit treeHash parentHashes =>
      have hparents := FetchWalk.Grows.foldl defer_grows parentHashes walk
      unfold FetchWalk.follow
      split_ifs
      · exact hparents.trans (enqueue_grows _ treeHash)
      · exact hparents

theorem mem_seen_enqueue (walk : FetchWalk) (id : Hash) : id ∈ (walk.enqueue id).seen := by
  unfold FetchWalk.enqueue
  split_ifs with hseen
  · exact hseen
  · exact Finset.mem_insert_self id walk.seen

/-- Everything that is enqueued was met. -/
theorem mem_seen_enqueueAll {l : List Hash} :
    ∀ {walk : FetchWalk} {id : Hash}, id ∈ l → id ∈ (l.foldl FetchWalk.enqueue walk).seen := by
  induction l with
  | nil => exact fun h => nomatch h
  | cons a l ih =>
      intro walk id hid
      rcases List.mem_cons.1 hid with heq | hid
      · rw [heq]
        exact (FetchWalk.Grows.foldl enqueue_grows l _).seen (mem_seen_enqueue walk a)
      · exact ih hid

/-! ## Followed objects -/

/-- The edges of an object that the walk follows. -/
def FetchWalk.Followed (full : Bool) (walk : FetchWalk) : Object → Prop
  | .commit treeHash parentHashes =>
      (∀ parent ∈ parentHashes, parent ∈ walk.seen ∨ parent ∈ walk.parents) ∧
        (full = true → treeHash ∈ walk.seen)
  | .tag target _ => target ∈ walk.seen
  | .tree entries => full = true → ∀ entry ∈ entries, entry.mode ≠ .submodule →
      entry.hash ∈ walk.visible ∧ (entry.mode = .dir → entry.hash ∈ walk.seen)
  | .blob => True

theorem FetchWalk.Followed.mono (h : walk.Followed full o) (hg : walk.Grows walk') :
    walk'.Followed full o := by
  cases o with
  | blob => trivial
  | tag target kind => exact hg.seen h
  | tree entries =>
      intro hfull entry hentry hmode
      obtain ⟨hvisible, hdir⟩ := h hfull entry hentry hmode
      exact ⟨hg.visible hvisible, fun hd => hg.seen (hdir hd)⟩
  | commit treeHash parentHashes =>
      refine ⟨fun parent hparent => ?_, fun hfull => hg.seen (h.2 hfull)⟩
      rcases h.1 parent hparent with hseen | hwaits
      · exact .inl (hg.seen hseen)
      · exact .inr (hg.parents hwaits)

/-- The parents of a commit were met or wait. -/
theorem defer_followed {l : List Hash} : ∀ {walk : FetchWalk} {parent : Hash}, parent ∈ l →
    parent ∈ (l.foldl FetchWalk.defer walk).seen ∨
      parent ∈ (l.foldl FetchWalk.defer walk).parents := by
  induction l with
  | nil => exact fun h => nomatch h
  | cons a l ih =>
      intro walk parent hparent
      rcases List.mem_cons.1 hparent with heq | hparent
      · have hgrows := FetchWalk.Grows.foldl defer_grows l (walk.defer a)
        rw [heq]
        by_cases hseen : a ∈ walk.seen
        · exact .inl (hgrows.seen ((defer_grows walk a).seen hseen))
        · refine .inr (hgrows.parents ?_)
          rw [FetchWalk.defer, if_neg hseen]
          exact Finset.mem_insert_self a walk.parents
      · exact ih hparent

/-- The entries of a tree were shown, and its directories were met. -/
theorem enter_followed {l : List TreeEntry} : ∀ {walk : FetchWalk} {entry : TreeEntry},
    entry ∈ l → entry.mode ≠ .submodule →
    entry.hash ∈ (l.foldl FetchWalk.enter walk).visible ∧
      (entry.mode = .dir → entry.hash ∈ (l.foldl FetchWalk.enter walk).seen) := by
  induction l with
  | nil => exact fun h => nomatch h
  | cons a l ih =>
      intro walk entry hentry hmode
      rcases List.mem_cons.1 hentry with heq | hentry
      · have hgrows := FetchWalk.Grows.foldl enter_grows l (walk.enter a)
        rw [heq] at hmode ⊢
        refine ⟨hgrows.visible ?_, fun hdir => hgrows.seen ?_⟩
        · rw [FetchWalk.enter, if_neg hmode]
          have hshown : a.hash ∈ (walk.reveal a.hash).visible := Finset.mem_insert_self _ _
          dsimp only
          split_ifs
          · exact (enqueue_grows _ a.hash).visible hshown
          · exact hshown
        · rw [FetchWalk.enter, if_neg hmode]
          dsimp only
          rw [if_pos hdir]
          exact mem_seen_enqueue _ a.hash
      · exact ih hentry hmode

/-- **A followed object has all its edges followed.** -/
theorem follow_followed (walk : FetchWalk) (o : Object) :
    (walk.follow full o).Followed full o := by
  cases o with
  | blob => trivial
  | tag target kind => exact mem_seen_enqueue walk target
  | tree entries =>
      intro hfull entry hentry hmode
      rw [FetchWalk.follow, if_pos hfull]
      exact enter_followed hentry hmode
  | commit treeHash parentHashes =>
      have hparents : ∀ parent ∈ parentHashes,
          parent ∈ (parentHashes.foldl FetchWalk.defer walk).seen ∨
            parent ∈ (parentHashes.foldl FetchWalk.defer walk).parents :=
        fun parent hparent => defer_followed hparent
      cases full with
      | false => exact ⟨hparents, nofun⟩
      | true =>
          have hgrows := enqueue_grows (parentHashes.foldl FetchWalk.defer walk) treeHash
          refine ⟨fun parent hparent => ?_, fun _ => mem_seen_enqueue _ treeHash⟩
          rcases hparents parent hparent with hseen | hwaits
          · exact .inl (hgrows.seen hseen)
          · exact .inr (hgrows.parents hwaits)

/-! ## Only published objects are met -/

/-- The walk has met published objects only, and without the full walk it has made no object
visible but the tips and commits. -/
structure WalkSound (store : ObjectStore) (tips : List Hash) (full : Bool) (walk : FetchWalk) :
    Prop where
  seen : ∀ id ∈ walk.seen, Published store tips id
  visible : ∀ id ∈ walk.visible, Published store tips id
  parents : ∀ id ∈ walk.parents, Published store tips id
  tipsVisible : ∀ id ∈ tips, id ∈ walk.visible
  commits : full = false → ∀ id ∈ walk.visible,
    id ∈ tips ∨ ∃ o, store.lookup id = some o ∧ o.type = .commit

namespace WalkSound

theorem enqueue (h : WalkSound store tips full walk) (hid : Published store tips id) :
    WalkSound store tips full (walk.enqueue id) := by
  unfold FetchWalk.enqueue
  split_ifs
  · exact h
  · refine ⟨fun i hi => ?_, h.visible, h.parents, h.tipsVisible, h.commits⟩
    rcases Finset.mem_insert.1 hi with heq | hi
    · rw [heq]
      exact hid
    · exact h.seen i hi

theorem defer (h : WalkSound store tips full walk) (hid : Published store tips id) :
    WalkSound store tips full (walk.defer id) := by
  unfold FetchWalk.defer
  split_ifs
  · exact h
  · refine ⟨h.seen, h.visible, fun i hi => ?_, h.tipsVisible, h.commits⟩
    rcases Finset.mem_insert.1 hi with heq | hi
    · rw [heq]
      exact hid
    · exact h.parents i hi

theorem reveal (h : WalkSound store tips full walk) (hid : Published store tips id)
    (hcommit : full = false → ∃ o, store.lookup id = some o ∧ o.type = .commit) :
    WalkSound store tips full (walk.reveal id) := by
  refine ⟨h.seen, fun i hi => ?_, h.parents, ?_, fun hfull i hi => ?_⟩
  · rcases Finset.mem_insert.1 hi with heq | hi
    · rw [heq]
      exact hid
    · exact h.visible i hi
  · exact fun i hi => Finset.mem_insert_of_mem (h.tipsVisible i hi)
  · rcases Finset.mem_insert.1 hi with heq | hi
    · rw [heq]
      exact .inr (hcommit hfull)
    · exact h.commits hfull i hi

theorem enter {entry : TreeEntry} (h : WalkSound store tips true walk)
    (hentry : entry.mode ≠ .submodule → Published store tips entry.hash) :
    WalkSound store tips true (walk.enter entry) := by
  unfold FetchWalk.enter
  split_ifs with hmode hdir
  · exact h
  · exact (h.reveal (hentry hmode) nofun).enqueue (hentry hmode)
  · exact h.reveal (hentry hmode) nofun

/-- The edges of a published object are published. -/
theorem follow (h : WalkSound store tips full walk) (hid : Published store tips id)
    (ho : store.lookup id = some o) : WalkSound store tips full (walk.follow full o) := by
  have hedge : ∀ next ∈ o.edges, Published store tips next :=
    fun next hnext => .edge hid ho hnext
  cases o with
  | blob => exact h
  | tag target kind => exact h.enqueue (hedge target (by simp [Object.edges]))
  | tree entries =>
      cases full with
      | false => exact h
      | true =>
          refine List.foldlRecOn entries FetchWalk.enter h fun walk hwalk entry hentry => ?_
          refine hwalk.enter fun hmode => hedge entry.hash ?_
          exact List.mem_map_of_mem (List.mem_filter.2 ⟨hentry, by simp [hmode]⟩)
  | commit treeHash parentHashes =>
      have hparents : WalkSound store tips full (parentHashes.foldl FetchWalk.defer walk) := by
        refine List.foldlRecOn parentHashes FetchWalk.defer h fun walk hwalk parent hparent => ?_
        exact hwalk.defer (hedge parent (by simp [Object.edges, hparent]))
      unfold FetchWalk.follow
      split_ifs
      · exact hparents.enqueue (hedge treeHash (by simp [Object.edges]))
      · exact hparents

/-- Deferred parents are met. -/
theorem enqueueAll {l : List Hash} (h : WalkSound store tips full walk)
    (hl : ∀ id ∈ l, Published store tips id) :
    WalkSound store tips full (l.foldl FetchWalk.enqueue walk) :=
  List.foldlRecOn l FetchWalk.enqueue h fun _ hwalk id hid => hwalk.enqueue (hl id hid)

end WalkSound

/-! ## The loop -/

/-- At the head of the loop. -/
structure WalkOK (store : ObjectStore) (tips : List Hash) (full : Bool) (walk : FetchWalk) :
    Prop where
  sound : WalkSound store tips full walk
  tipsSeen : ∀ id ∈ tips, id ∈ walk.seen
  queued : ∀ id ∈ walk.queue, id ∈ walk.seen
  done : ∀ id o, id ∈ walk.seen → id ∉ walk.queue → store.lookup id = some o →
    (full = true ∨ o.type = .commit → id ∈ walk.visible) ∧ walk.Followed full o

/-- What left the queue was met before. -/
theorem FetchWalk.Grows.left (h : walk.Grows walk') (hid : id ∈ walk'.seen)
    (hqueue : id ∉ walk'.queue) : id ∈ walk.seen ∧ id ∉ walk.queue := by
  obtain ⟨new, hq, -, -, hseen⟩ := h.met
  rw [hq, List.mem_append, not_or] at hqueue
  rw [hseen, Finset.mem_union, List.mem_toFinset] at hid
  rcases hid with hid | hid
  · exact ⟨hid, hqueue.1⟩
  · exact absurd hid hqueue.2

theorem FetchWalk.Grows.queued (h : walk.Grows walk')
    (hqueued : ∀ id ∈ walk.queue, id ∈ walk.seen) : ∀ id ∈ walk'.queue, id ∈ walk'.seen := by
  intro id hid
  obtain ⟨new, hq, -, -, hseen⟩ := h.met
  rw [hq] at hid
  rw [hseen]
  rcases List.mem_append.1 hid with hid | hid
  · exact Finset.mem_union_left _ (hqueued id hid)
  · exact Finset.mem_union_right _ (List.mem_toFinset.2 hid)

theorem taken_grows {queue : List Hash} :
    FetchWalk.Grows { walk with queue } (walk.taken full queue id o) := by
  unfold FetchWalk.taken
  dsimp only
  split_ifs
  · exact reveal_grows _ id
  · exact .refl _

theorem WalkSound.taken {queue : List Hash} (h : WalkSound store tips full walk)
    (hid : Published store tips id) (ho : store.lookup id = some o) :
    WalkSound store tips full (walk.taken full queue id o) := by
  have hqueue : WalkSound store tips full { walk with queue } :=
    ⟨h.seen, h.visible, h.parents, h.tipsVisible, h.commits⟩
  unfold FetchWalk.taken
  dsimp only
  split_ifs with hshow
  · refine hqueue.reveal hid fun hfull => ⟨o, ho, ?_⟩
    simpa [hfull] using hshow
  · exact hqueue

/-- **A turn keeps the invariant.** -/
theorem WalkOK.follow {queue : List Hash} (h : WalkOK store tips full walk)
    (hqueue : walk.queue = id :: queue) (ho : store.lookup id = some o) :
    WalkOK store tips full ((walk.taken full queue id o).follow full o) := by
  have hmem : id ∈ walk.seen := h.queued id (by simp [hqueue])
  have hid := h.sound.seen id hmem
  have hgrows : FetchWalk.Grows { walk with queue } ((walk.taken full queue id o).follow full o) :=
    taken_grows.trans (follow_grows full _ o)
  refine ⟨(h.sound.taken hid ho).follow hid ho, ?_, ?_, ?_⟩
  · exact fun i hi => hgrows.seen (h.tipsSeen i hi)
  · exact hgrows.queued fun i hi => h.queued i (by simp [hqueue, show i ∈ queue from hi])
  · intro i x hi hout hx
    obtain ⟨hseen, hrest⟩ := hgrows.left hi hout
    by_cases heq : i = id
    · subst heq
      rw [ho] at hx
      cases hx
      refine ⟨fun hshow => (follow_grows full _ o).visible ?_, follow_followed _ o⟩
      unfold FetchWalk.taken
      dsimp only
      rw [if_pos (by simpa using hshow)]
      exact Finset.mem_insert_self i walk.visible
    · have hold := h.done i x hseen (by simp [hqueue, heq, show i ∉ queue from hrest]) hx
      have hfollowed : FetchWalk.Followed full { walk with queue } x := by
        cases x <;> exact hold.2
      exact ⟨fun hshow => hgrows.visible (hold.1 hshow), hfollowed.mono hgrows⟩

/-- The next generation of commits. -/
theorem WalkOK.nextGeneration {l : List Hash} (h : WalkOK store tips full walk)
    (hl : ∀ id, id ∈ l ↔ id ∈ walk.parents) :
    WalkOK store tips full { l.foldl FetchWalk.enqueue walk with parents := ∅ } := by
  have hgrows := FetchWalk.Grows.foldl enqueue_grows l walk
  have hsound := h.sound.enqueueAll fun id hid => h.sound.parents id ((hl id).1 hid)
  refine ⟨⟨hsound.seen, hsound.visible, nofun, hsound.tipsVisible, hsound.commits⟩, ?_, ?_, ?_⟩
  · exact fun i hi => hgrows.seen (h.tipsSeen i hi)
  · exact hgrows.queued h.queued
  · intro i x hi hout hx
    obtain ⟨hseen, hrest⟩ := hgrows.left hi hout
    obtain ⟨hshow, hfollowed⟩ := h.done i x hseen hrest hx
    refine ⟨fun hs => hgrows.visible (hshow hs), ?_⟩
    have hlater := hfollowed.mono hgrows
    cases x with
    | commit treeHash parentHashes =>
        refine ⟨fun parent hparent => .inl ?_, hlater.2⟩
        -- a deferred parent is met now
        rcases hfollowed.1 parent hparent with hmet | hwaits
        · exact hgrows.seen hmet
        · exact mem_seen_enqueueAll ((hl parent).2 hwaits)
    | tree entries => exact hlater
    | tag target kind => exact hlater
    | blob => trivial

/-- What was needed is so still, or it is visible. -/
def FetchWalk.Accounts (walk : FetchWalk) (needed : Finset Hash) : Prop :=
  ∀ id ∈ needed, id ∈ walk.needed ∨ id ∈ walk.visible

theorem FetchWalk.Grows.accounts {needed : Finset Hash} (h : walk.Grows walk')
    (ha : walk.Accounts needed) : walk'.Accounts needed := by
  intro id hid
  rcases ha id hid with hid | hid
  · exact h.needed id hid
  · exact .inr (h.visible hid)

/-- Where the loop ends: nothing is needed any more, or there is nothing left to meet. -/
structure WalkEnded (store : ObjectStore) (tips : List Hash) (full : Bool) (needed : Finset Hash)
    (walk : FetchWalk) : Prop where
  sound : WalkSound store tips full walk
  accounts : walk.Accounts needed
  stop : walk.needed = ∅ ∨ WalkOK store tips full walk ∧ walk.queue = [] ∧ walk.parents = ∅

/-- Every published object is stored. -/
def AllStored (store : ObjectStore) (tips : List Hash) : Prop :=
  ∀ id, Published store tips id → ∃ o, store.lookup id = some o

theorem WalkSound.seen_card (h : WalkSound store tips full walk) (hstored : AllStored store tips) :
    walk.seen.card ≤ store.keys.card := by
  refine Finset.card_le_card fun id hid => ?_
  obtain ⟨o, ho⟩ := hstored id (h.seen id hid)
  exact Finmap.mem_keys.2 (Finmap.mem_of_lookup_eq_some ho)

/-- The end of a turn. -/
theorem nextGeneration_ends {needed : Finset Hash} (h : WalkOK store tips full walk)
    (ha : walk.Accounts needed) :
    Ends (fromObjects store) (nextGeneration walk) fun r => ∃ walk', r = .ok walk' ∧
      WalkOK store tips full walk' ∧ walk'.Accounts needed ∧
      (walk'.queue = [] → walk'.parents = ∅) ∧
      walk'.seen.card + walk.queue.length = walk.seen.card + walk'.queue.length := by
  unfold nextGeneration
  split_ifs with hqueue
  · intro order _
    have hgrows := FetchWalk.Grows.foldl enqueue_grows order.list walk
    exact ⟨_, rfl, h.nextGeneration order.mem_list, hgrows.accounts ha, fun _ => rfl, hgrows.card⟩
  · exact ⟨walk, rfl, h, ha, fun hempty => absurd hempty hqueue, rfl⟩

/-- **The loop ends.** Every turn takes an object from the queue, and an object is queued once,
so a fuel that exceeds the number of stored objects is enough. -/
theorem walkVisible_ends (hstored : AllStored store tips) {needed : Finset Hash} {fuel : Nat} :
    ∀ {walk : FetchWalk}, WalkOK store tips full walk → walk.Accounts needed →
      (walk.queue = [] → walk.parents = ∅) →
      store.keys.card + walk.queue.length < fuel + walk.seen.card →
      Ends (fromObjects store) (walkVisible full fuel walk) fun r => ∃ walk', r = .ok walk' ∧
        WalkEnded store tips full needed walk' := by
  induction fuel with
  | zero =>
      intro walk h _ _ hfuel
      have := h.sound.seen_card hstored
      omega
  | succ fuel ih =>
      intro walk h ha hparents hfuel
      rw [walkVisible]
      cases hqueue : walk.queue with
      | nil => exact ⟨walk, rfl, h.sound, ha, .inr ⟨h, hqueue, hparents hqueue⟩⟩
      | cons id queue =>
          dsimp only
          split_ifs with hneeded
          · exact ⟨walk, rfl, h.sound, ha, .inl hneeded⟩
          · intro answer hanswer
            have hid := h.sound.seen id (h.queued id (by simp [hqueue]))
            obtain ⟨o, ho⟩ := hstored id hid
            rw [fromObjects, ho] at hanswer
            subst hanswer
            have htaken : FetchWalk.Grows { walk with queue } (walk.taken full queue id o) :=
              taken_grows
            dsimp only
            split_ifs with hdone
            · exact ⟨_, rfl, h.sound.taken hid ho, htaken.accounts ha, .inl hdone⟩
            · have hgrows := htaken.trans (follow_grows full _ o)
              refine (nextGeneration_ends (h.follow hqueue ho) (hgrows.accounts ha)).bind ?_ nofun
              intro next ⟨walk', hok, hwalk', ha', hparents', hcard⟩
              cases hok
              refine ih hwalk' ha' hparents' ?_
              have hsize := hgrows.card
              have hlen : walk.queue.length = queue.length + 1 := by simp [hqueue]
              dsimp only at hsize
              omega

/-! ## Everything that is followed is visible -/

/-- The edges of every published object lead to objects of the types that `verifyObjects`
checks. -/
def EdgesValid (store : ObjectStore) (tips : List Hash) : Prop :=
  ∀ id o, Published store tips id → store.lookup id = some o → store.verifyEdges o = true

theorem type_of_check {kind : ObjectType} (h : store.check id kind = true)
    (ho : store.lookup id = some o) : o.type = kind := by
  unfold ObjectStore.check at h
  rw [ho] at h
  simpa using h

/-- What a finished walk has met. Without the full walk it has not read trees. -/
theorem WalkOK.meets (h : WalkOK store tips full walk) (hqueue : walk.queue = [])
    (hparents : walk.parents = ∅) (hvalid : EdgesValid store tips)
    (hid : Published store tips id) :
    ∀ {o : Object}, store.lookup id = some o →
      (o.type = .commit ∨ o.type = .tag → id ∈ walk.seen) ∧
      (full = true → id ∈ walk.visible ∧ (o.type = .tree → id ∈ walk.seen)) := by
  -- what was met has left the queue, so it has been shown and followed
  have hdone : ∀ {id : Hash} {o : Object}, id ∈ walk.seen → store.lookup id = some o →
      (full = true ∨ o.type = .commit → id ∈ walk.visible) ∧ walk.Followed full o :=
    fun hseen ho => h.done _ _ hseen (by simp [hqueue]) ho
  have hmet : ∀ {id : Hash} {o : Object}, id ∈ walk.seen → store.lookup id = some o →
      (o.type = .commit ∨ o.type = .tag → id ∈ walk.seen) ∧
      (full = true → id ∈ walk.visible ∧ (o.type = .tree → id ∈ walk.seen)) :=
    fun hseen ho => ⟨fun _ => hseen, fun hfull => ⟨(hdone hseen ho).1 (.inl hfull), fun _ => hseen⟩⟩
  induction hid with
  | tip htip => exact fun ho => hmet (h.tipsSeen _ htip) ho
  | @edge id next source hid hsource hnext ih =>
      intro o ho
      obtain ⟨hseen, hfull⟩ := ih hsource
      have hedges := hvalid id source hid hsource
      cases source with
      | blob => nomatch hnext
      | tag target kind =>
          cases List.mem_singleton.1 hnext
          exact hmet (hdone (hseen (.inr rfl)) hsource).2 ho
      | commit treeHash parentHashes =>
          obtain ⟨hparent, htree⟩ := (hdone (hseen (.inl rfl)) hsource).2
          simp only [ObjectStore.verifyEdges, Bool.and_eq_true] at hedges
          rcases List.mem_cons.1 hnext with heq | hnext
          · have htype : o.type = .tree := type_of_check (heq ▸ hedges.1) ho
            refine ⟨?_, fun hf => ?_⟩
            · rw [htype]
              exact nofun
            · have hmem : next ∈ walk.seen := heq ▸ htree hf
              exact (hmet hmem ho).2 hf
          · rcases hparent next hnext with hmem | hwaits
            · exact hmet hmem ho
            · rw [hparents] at hwaits
              nomatch hwaits
      | tree entries =>
          obtain ⟨entry, hentry, heq⟩ := List.mem_map.1 hnext
          obtain ⟨hentry, hmode⟩ := List.mem_filter.1 hentry
          have hmode : entry.mode ≠ .submodule := by simpa using hmode
          have hcheck := List.all_eq_true.1 hedges entry hentry
          have htype : o.type = if entry.mode = .dir then .tree else .blob := by
            cases hm : entry.mode with
            | submodule => exact absurd hm hmode
            | dir =>
                rw [hm, heq] at hcheck
                exact type_of_check hcheck ho
            | other =>
                rw [hm, heq] at hcheck
                exact type_of_check hcheck ho
          refine ⟨?_, fun hf => ?_⟩
          · rw [htype]
            split_ifs
            · exact nofun
            · exact nofun
          · obtain ⟨hvisible, hdir⟩ := (hdone ((hfull hf).2 rfl) hsource).2 hf entry hentry hmode
            rw [heq] at hvisible hdir
            refine ⟨hvisible, fun htree => hdir ?_⟩
            by_contra hother
            rw [htype, if_neg hother] at htree
            nomatch htree

/-- **What is needed and published becomes visible.** -/
theorem WalkEnded.visible_of_needed {needed : Finset Hash}
    (h : WalkEnded store tips full needed walk) (hvalid : EdgesValid store tips)
    (hid : Published store tips id) (hneeded : id ∈ needed) (ho : store.lookup id = some o)
    (hkind : full = true ∨ o.type = .commit) : id ∈ walk.visible := by
  rcases h.stop with hstop | ⟨hok, hqueue, hparents⟩
  · rcases h.accounts id hneeded with hin | hvisible
    · rw [hstop] at hin
      nomatch hin
    · exact hvisible
  · obtain ⟨hseen, hfull⟩ := hok.meets hqueue hparents hvalid hid ho
    rcases hkind with hf | hcommit
    · exact (hfull hf).1
    · exact (hok.done id o (hseen (.inl hcommit)) (by simp [hqueue]) ho).1 (.inr hcommit)

/-! ## What is needed -/

/-- What a turn of the first loops adds. -/
def needOf (store : ObjectStore) (visible : Finset Hash) (want : Bool) (needs : FetchNeeds)
    (id : Hash) : FetchNeeds :=
  if id ∈ visible then needs
  else
    match store.lookup id with
    | none => needs
    | some o =>
        let fullWalk := needs.fullWalk || (want && o.type ≠ .commit)
        if want || fullWalk || o.type = .commit then ⟨insert id needs.needed, fullWalk⟩
        else { needs with fullWalk }

variable {visible : Finset Hash} {want : Bool} {needs : FetchNeeds}

theorem needTurns_ends (l : List Hash) : ∀ needs : FetchNeeds,
    Ends (fromObjects store) (l.foldlM (needTurn visible want) needs)
      (· = .ok (l.foldl (needOf store visible want) needs)) := by
  induction l with
  | nil => exact fun needs => rfl
  | cons id l ih =>
      intro needs
      rw [List.foldlM_cons, List.foldl_cons]
      have hturn : Ends (fromObjects store) (needTurn visible want needs id)
          (· = .ok (needOf store visible want needs id)) := by
        unfold needTurn needOf
        split_ifs with hvisible
        · exact rfl
        · intro answer hanswer
          rw [fromObjects] at hanswer
          cases ho : store.lookup id with
          | none =>
              rw [ho] at hanswer
              subst hanswer
              exact rfl
          | some o =>
              rw [ho] at hanswer
              subst hanswer
              dsimp only
              split_ifs
              · exact rfl
              · exact rfl
      exact Ends.after hturn (ih _)

/-- Needs only grow. -/
def FetchNeeds.Le (needs needs' : FetchNeeds) : Prop :=
  needs.needed ⊆ needs'.needed ∧ (needs.fullWalk = true → needs'.fullWalk = true)

theorem needOf_le (id : Hash) : needs.Le (needOf store visible want needs id) := by
  unfold needOf
  split_ifs
  · exact ⟨Finset.Subset.refl _, fun h => h⟩
  · cases store.lookup id with
    | none => exact ⟨Finset.Subset.refl _, fun h => h⟩
    | some o =>
        dsimp only
        split_ifs
        · exact ⟨Finset.subset_insert _ _, fun h => by simp [h]⟩
        · exact ⟨Finset.Subset.refl _, fun h => by simp [h]⟩

theorem needs_le (l : List Hash) :
    ∀ needs : FetchNeeds, needs.Le (l.foldl (needOf store visible want) needs) := by
  induction l with
  | nil => exact fun needs => ⟨Finset.Subset.refl _, fun h => h⟩
  | cons id l ih =>
      intro needs
      obtain ⟨hneeded, hfull⟩ := ih (needOf store visible want needs id)
      have hone : needs.Le (needOf store visible want needs id) := needOf_le id
      exact ⟨hone.1.trans hneeded, fun h => hfull (hone.2 h)⟩

/-- Every want that is stored is needed, and one that is no commit asks for the full walk. -/
theorem wants_needed {l : List Hash} (hvisible : id ∉ visible) (ho : store.lookup id = some o) :
    ∀ {needs : FetchNeeds}, id ∈ l →
      id ∈ (l.foldl (needOf store visible true) needs).needed ∧
      (o.type ≠ .commit → (l.foldl (needOf store visible true) needs).fullWalk = true) := by
  induction l with
  | nil => exact fun h => nomatch h
  | cons a l ih =>
      intro needs hid
      rcases List.mem_cons.1 hid with heq | hid
      · have hone : needOf store visible true needs a =
            ⟨insert a needs.needed, needs.fullWalk || o.type ≠ .commit⟩ := by
          subst heq
          simp [needOf, hvisible, ho]
        obtain ⟨hneeded, hfull⟩ := needs_le l (needOf store visible true needs a)
        rw [List.foldl_cons]
        refine ⟨hneeded ?_, fun htype => hfull ?_⟩
        · rw [hone, heq]
          exact Finset.mem_insert_self a needs.needed
        · rw [hone]
          simp [htype]
      · exact ih hid

/-- The haves do not change whether the walk is a full one. -/
theorem haves_fullWalk (l : List Hash) : ∀ needs : FetchNeeds,
    (l.foldl (needOf store visible false) needs).fullWalk = needs.fullWalk := by
  induction l with
  | nil => exact fun needs => rfl
  | cons a l ih =>
      intro needs
      have hone : (needOf store visible false needs a).fullWalk = needs.fullWalk := by
        unfold needOf
        split_ifs
        · rfl
        · cases store.lookup a with
          | none => rfl
          | some o =>
              dsimp only
              split_ifs
              · simp
              · simp
      rw [List.foldl_cons, ih, hone]

/-- A have that is stored is needed, at least if it is a commit. -/
theorem haves_needed {l : List Hash} (hvisible : id ∉ visible) (ho : store.lookup id = some o) :
    ∀ {needs : FetchNeeds}, id ∈ l → needs.fullWalk = true ∨ o.type = .commit →
      id ∈ (l.foldl (needOf store visible false) needs).needed := by
  induction l with
  | nil => exact fun h => nomatch h
  | cons a l ih =>
      intro needs hid hkind
      rcases List.mem_cons.1 hid with heq | hid
      · refine (needs_le l (needOf store visible false needs a)).1 ?_
        subst heq
        have hone : (needOf store visible false needs id).needed = insert id needs.needed := by
          rcases hkind with hfull | hcommit
          · simp [needOf, hvisible, ho, hfull]
          · simp [needOf, hvisible, ho, hcommit]
        rw [hone]
        exact Finset.mem_insert_self id needs.needed
      · refine ih hid ?_
        have hone : (needOf store visible false needs a).fullWalk = needs.fullWalk :=
          haves_fullWalk [a] needs
        rw [hone]
        exact hkind

/-! ## The whole function -/

/-- What the first loops of `visibleFetch` find. -/
def fetchNeeds (store : ObjectStore) (tips wants haves : List Hash) : FetchNeeds :=
  haves.foldl (needOf store tips.toFinset false)
    (wants.foldl (needOf store tips.toFinset true) ⟨∅, false⟩)

theorem enqueueAll_parents (l : List Hash) :
    ∀ walk : FetchWalk, (l.foldl FetchWalk.enqueue walk).parents = walk.parents := by
  induction l with
  | nil => exact fun walk => rfl
  | cons id l ih =>
      intro walk
      rw [List.foldl_cons, ih, FetchWalk.enqueue]
      split_ifs
      · rfl
      · rfl

/-- The walk begins at the tips. -/
theorem walkOK_start (needed : Finset Hash) :
    WalkOK store tips full (tips.foldl FetchWalk.enqueue ⟨tips.toFinset, needed, ∅, [], ∅⟩) := by
  have hgrows := FetchWalk.Grows.foldl enqueue_grows tips ⟨tips.toFinset, needed, ∅, [], ∅⟩
  have hsound : WalkSound store tips full ⟨tips.toFinset, needed, ∅, [], ∅⟩ := by
    refine ⟨nofun, ?_, nofun, ?_, ?_⟩
    · exact fun id hid => .tip (List.mem_toFinset.1 hid)
    · exact fun id hid => List.mem_toFinset.2 hid
    · exact fun _ id hid => .inl (List.mem_toFinset.1 hid)
  refine ⟨hsound.enqueueAll fun id hid => .tip hid, ?_, hgrows.queued nofun, ?_⟩
  · exact fun id hid => mem_seen_enqueueAll hid
  · intro id o hid hqueue
    nomatch (hgrows.left hid hqueue).1

/-- **What `visibleFetch` ends with.** -/
theorem visibleFetch_ends {wants haves : List Hash} {fuel : Nat}
    (hstored : AllStored store tips) (hfuel : store.keys.card < fuel) :
    Ends (fromObjects store) (visibleFetch fuel tips wants haves) fun r => ∃ walk,
      WalkEnded store tips (fetchNeeds store tips wants haves).fullWalk
        (fetchNeeds store tips wants haves).needed walk ∧
      r = if wants.all (· ∈ walk.visible) then .ok (haves.filter (· ∈ walk.visible))
        else .error .notReachable := by
  unfold visibleFetch
  refine Ends.after (needTurns_ends wants ⟨∅, false⟩) ?_
  refine Ends.after (needTurns_ends haves _) ?_
  change Ends _ (walkVisible (fetchNeeds store tips wants haves).fullWalk fuel
    (tips.foldl FetchWalk.enqueue
      ⟨tips.toFinset, (fetchNeeds store tips wants haves).needed, ∅, [], ∅⟩) >>= _) _
  generalize fetchNeeds store tips wants haves = needs
  have hgrows := FetchWalk.Grows.foldl enqueue_grows tips
    ⟨tips.toFinset, needs.needed, ∅, [], ∅⟩
  have hparents : (tips.foldl FetchWalk.enqueue
      ⟨tips.toFinset, needs.needed, ∅, [], ∅⟩).parents = ∅ := enqueueAll_parents tips _
  have hsize := hgrows.card
  have haccounts := hgrows.accounts fun id hid => .inl hid
  refine (walkVisible_ends hstored (walkOK_start needs.needed) haccounts (fun _ => hparents)
    ?_).bind ?_ nofun
  · simp only [Finset.card_empty, List.length_nil] at hsize
    omega
  · intro walk ⟨walk', hok, hended⟩
    cases hok
    split_ifs with hall
    · exact ⟨walk, hended, by rw [if_pos hall]⟩
    · exact ⟨walk, hended, by rw [if_neg hall]⟩

/-- Every want is visible exactly if it is published. -/
theorem WalkEnded.want_visible {wants haves : List Hash}
    (h : WalkEnded store tips (fetchNeeds store tips wants haves).fullWalk
      (fetchNeeds store tips wants haves).needed walk)
    (hstored : AllStored store tips) (hvalid : EdgesValid store tips) (hwant : id ∈ wants) :
    id ∈ walk.visible ↔ Published store tips id := by
  refine ⟨h.sound.visible id, fun hid => ?_⟩
  by_cases htip : id ∈ tips
  · exact h.sound.tipsVisible id htip
  · obtain ⟨o, ho⟩ := hstored id hid
    have hout : id ∉ tips.toFinset := fun hin => htip (List.mem_toFinset.1 hin)
    obtain ⟨hneeded, hfull⟩ := wants_needed hout ho hwant
    refine h.visible_of_needed hvalid hid ((needs_le haves _).1 hneeded) ho ?_
    by_cases hcommit : o.type = .commit
    · exact .inr hcommit
    · exact .inl ((needs_le haves _).2 (hfull hcommit))

/-- The haves that `visibleFetch` leaves. -/
def HaveShown (store : ObjectStore) (tips : List Hash) (full : Bool) (id : Hash) : Prop :=
  Published store tips id ∧
    (full = true ∨ id ∈ tips ∨ ∃ o, store.lookup id = some o ∧ o.type = .commit)

theorem WalkEnded.have_visible {wants haves : List Hash}
    (h : WalkEnded store tips (fetchNeeds store tips wants haves).fullWalk
      (fetchNeeds store tips wants haves).needed walk)
    (hstored : AllStored store tips) (hvalid : EdgesValid store tips) (hhave : id ∈ haves) :
    id ∈ walk.visible ↔
      HaveShown store tips (fetchNeeds store tips wants haves).fullWalk id := by
  constructor
  · intro hvisible
    refine ⟨h.sound.visible id hvisible, ?_⟩
    cases hfull : (fetchNeeds store tips wants haves).fullWalk with
    | true => exact .inl rfl
    | false => exact .inr (h.sound.commits hfull id hvisible)
  · intro ⟨hid, hkind⟩
    by_cases htip : id ∈ tips
    · exact h.sound.tipsVisible id htip
    · obtain ⟨o, ho⟩ := hstored id hid
      have hout : id ∉ tips.toFinset := fun hin => htip (List.mem_toFinset.1 hin)
      have hkind : (fetchNeeds store tips wants haves).fullWalk = true ∨ o.type = .commit := by
        rcases hkind with hfull | hin | ⟨x, hx, hcommit⟩
        · exact .inl hfull
        · exact absurd hin htip
        · rw [ho] at hx
          cases hx
          exact .inr hcommit
      refine h.visible_of_needed hvalid hid (haves_needed hout ho hhave ?_) ho hkind
      rw [fetchNeeds, haves_fullWalk] at hkind
      exact hkind

/-! ## Stores made of a list of objects -/

/-- A stored object is one of the list that the store was made of. -/
theorem mem_of_lookup {objects : List (Sigma fun _ : Hash => Object)} {id : Hash} {o : Object}
    (h : objects.toFinmap.lookup id = some o) : ⟨id, o⟩ ∈ objects := by
  rw [Finmap.dlookup_list_toFinmap] at h
  exact List.of_mem_dlookup h

/-- Objects whose edges lead to objects of the list. -/
theorem allStored_of_list {objects : List (Sigma fun _ : Hash => Object)} {tips : List Hash}
    (htips : ∀ id ∈ tips, id ∈ objects.keys)
    (hedges : ∀ object ∈ objects, ∀ next ∈ object.2.edges, next ∈ objects.keys) :
    AllStored objects.toFinmap tips := by
  intro id hid
  have hmem : id ∈ objects.keys := by
    cases hid with
    | tip htip => exact htips id htip
    | edge _ ho hnext => exact hedges _ (mem_of_lookup ho) id hnext
  exact Finmap.mem_iff.1 ((Finmap.mem_list_toFinmap id objects).2 (List.mem_keys.1 hmem))

end ObjectLog.Git
