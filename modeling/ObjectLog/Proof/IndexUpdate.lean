import ObjectLog.Proof.IndexRules

/-!
# `updateRadix`

Updates are partitioned by the child they belong to. Every child that gets some is replaced by
its own update, so the new branch denotes the old catalog overridden by the updates. A leaf
that would be too large has two IDs, so its path is shorter than an ID and it can be split.
-/

namespace ObjectLog.Git

open Rely

variable {V H ε : Type} {L : Nat} {F : ε → Prop} {M : IndexLicence V H} {path key : Key}
  {w : IndexWorld V H} {m : Catalog V}

/-- A catalog with new values for some IDs. -/
def override (m : Catalog V) (updates : GoMap Key V) : Catalog V := fun id =>
  (updates.get id).or (m id)

/-- Updates for the tree at a path. -/
structure Updates (L : Nat) (path : Key) (updates : GoMap Key V) : Prop where
  nonempty : updates.len ≠ 0
  isId : ∀ id v, updates.get id = some v → IsId L path id

theorem Updates.length_le {updates : GoMap Key V} (h : Updates L path updates) :
    path.length ≤ L := by
  obtain ⟨id, v, hv⟩ := exists_get_of_len h.nonempty
  obtain ⟨hpath, hid⟩ := h.isId id v hv
  exact hid ▸ hpath.length_le

/-! ## `partition` -/

/-- The group of a path, empty if there is none. -/
def groupAt (groups : GoMap Key (GoMap Key V)) (path : Key) : GoMap Key V :=
  (groups.get path).getD .nil

/-- The groups of a list of items, by their first `width` bytes. -/
structure Grouped (width : Nat) (items : List (Key × V)) (groups : GoMap Key (GoMap Key V)) :
    Prop where
  made : groups.isNil = false
  mem : ∀ k id v, (groupAt groups k).get id = some v ↔ (id, v) ∈ items ∧ id.take width = k
  nonempty : ∀ k group, groups.get k = some group → group.len ≠ 0

theorem partitionTurn_does {width : Nat} {done : List (Key × V)} {id : Key} {value : V}
    {groups : GoMap Key (GoMap Key V)} (h : Grouped width done groups)
    (hone : ∀ v, (id, v) ∈ done → v = value) (hlen : width ≤ id.length) :
    Does L F M (partitionTurn width groups (id, value))
      (fun groups' w' => w.Le w' ∧ Grouped width (done ++ [(id, value)]) groups') w := by
  obtain ⟨group, hgroup, -, hget⟩ :=
    GoMap.exists_set (groupAt groups (id.take width)).isNil_orMake id value
  obtain ⟨groups', hgroups, hmade, hget'⟩ := GoMap.exists_set h.made (id.take width) group
  rw [partitionTurn, if_neg (by omega)]
  refine Does.bind (Does.write hgroup) ?_
  intro a u ⟨ha, hu⟩
  subst ha
  refine (Does.write hgroups).mono ?_
  intro b v ⟨hb, hv⟩
  subst hb
  refine ⟨hu.trans hv, hmade, ?_, ?_⟩
  · intro k i x
    by_cases hk : k = id.take width
    · have hat : groupAt b k = a := by
        unfold groupAt
        rw [hget', if_pos hk]
        rfl
      rw [hat, hget, GoMap.get_orMake]
      by_cases hi : i = id
      · subst hi
        rw [if_pos rfl, hk]
        constructor
        · intro hx
          cases hx
          exact ⟨by simp, rfl⟩
        · intro ⟨hx, _⟩
          rcases List.mem_append.1 hx with hx | hx
          · rw [hone x hx]
          · cases List.mem_singleton.1 hx
            rfl
      · rw [if_neg hi, ← hk, h.mem]
        have hne : (i, x) ≠ (id, value) := fun he => hi (Prod.mk.inj he).1
        simp [hne]
    · have hat : groupAt b k = groupAt groups k := by
        unfold groupAt
        rw [hget', if_neg hk]
      rw [hat, h.mem]
      constructor
      · intro ⟨hx, htake⟩
        exact ⟨List.mem_append_left _ hx, htake⟩
      · intro ⟨hx, htake⟩
        rcases List.mem_append.1 hx with hx | hx
        · exact ⟨hx, htake⟩
        · cases List.mem_singleton.1 hx
          exact absurd htake.symm hk
  · intro k g hg
    rw [hget'] at hg
    split_ifs at hg with hk
    · cases hg
      intro hzero
      have hnone := GoMap.len_eq_zero.1 hzero id
      rw [hget, if_pos rfl] at hnone
      nomatch hnone
    · exact h.nonempty k g hg

/-- The groups of a map. -/
structure Partitions (width : Nat) (items : GoMap Key V) (groups : GoMap Key (GoMap Key V)) :
    Prop where
  get : ∀ k id, (groupAt groups k).get id = if id.take width = k then items.get id else none
  nonempty : ∀ k group, groups.get k = some group → group.len ≠ 0

/-- **`partition` puts every item in the group of its first bytes.** -/
theorem partition_does {items : GoMap Key V} {width : Nat}
    (hlen : ∀ id v, items.get id = some v → width ≤ id.length) :
    Does L F M (partition items width)
      (fun groups w' => w.Le w' ∧ Partitions width items groups) w := by
  unfold partition
  refine Does.bind (Does.range items) ?_
  intro l u ⟨hu, hl⟩
  have hstart : Grouped width [] (.make : GoMap Key (GoMap Key V)) := by
    refine ⟨rfl, fun k id v => ?_, fun k g hg => ?_⟩
    · simp [groupAt]
    · nomatch hg
  have hloop := Does.loop (L := L) (F := F) (M := M) (w := u) (l := l)
    (f := partitionTurn width) (b := .make)
    (I := fun done groups v => u.Le v ∧ Grouped width done groups)
    (fun done groups v v' ⟨hv, hg⟩ hv' => ⟨hv.trans hv', hg⟩) ?_ ⟨.refl u, hstart⟩
  · refine hloop.mono ?_
    intro groups v ⟨hv, hg⟩
    refine ⟨hu.trans hv, fun k id => Option.ext fun x => ?_, hg.nonempty⟩
    rw [hg.mem, hl.mem_iff]
    split_ifs with htake <;> simp [htake]
  · intro done entry rest hsplit groups v ⟨hv, hg⟩
    obtain ⟨id, value⟩ := entry
    have hvalue := hl.get_of_met hsplit
    refine (partitionTurn_does hg ?_ (hlen id value hvalue)).mono ?_
    · intro x hx
      have hx' := (hl.mem_iff id x).1 (by simp [hsplit, hx])
      rw [hvalue] at hx'
      exact (Option.some.inj hx').symm
    · intro groups' v' ⟨hv', hg'⟩
      exact ⟨hv.trans hv', hg'⟩

/-- A group holds updates of one child. -/
theorem Partitions.group {updates group : GoMap Key V} {groups : GoMap Key (GoMap Key V)}
    (h : Partitions (path.length + 1) updates groups) (hupdates : Updates L path updates)
    (hlen : path.length < L) (hgroup : groups.get key = some group) :
    Extends path key ∧ Updates L key group := by
  have hids : ∀ id v, group.get id = some v → Extends path key ∧ IsId L key id := by
    intro id v hv
    have hget := h.get key id
    rw [groupAt, hgroup, Option.getD_some, hv] at hget
    split_ifs at hget with htake
    rw [← htake]
    exact (hupdates.isId id v hget.symm).take hlen
  have hne := h.nonempty key group hgroup
  obtain ⟨id, v, hv⟩ := exists_get_of_len hne
  exact ⟨(hids id v hv).1, hne, fun id v hv => (hids id v hv).2⟩

/-! ## The groups -/

/-- `updateRadix` saves small leaves and branches. -/
def smallLeaves : IndexLicence V H where
  save node := node.children.isNil = true → node.items.len ≤ indexLeafTarget
  visit := False

/-- What an update of one tree does, from any store of nodes. -/
def UpdatesTree (L : Nat) (F : ε → Prop) (M : IndexLicence V H)
    (update : Key → RadixNode V H → GoMap Key V → IndexProg V H ε H) (path : Key) : Prop :=
  ∀ node m updates (w : IndexWorld V H), Holds w.nodes L path node m → Updates L path updates →
    Does L F M (update path node updates) (fun root w' => w.Le w' ∧
      Denotes w'.nodes L path root (override m updates)) w

variable {update : Key → RadixNode V H → GoMap Key V → IndexProg V H ε H}
  {children : GoMap Key H} {f : Key → Catalog V}

/-- The child of a group is well formed. -/
theorem groupChild_does (h : Forest w.nodes L path children f) (key : Key) :
    Does L F M (groupChild children key)
      (fun node w' => w.Le w' ∧ Holds w'.nodes L key node (f key)) w := by
  unfold groupChild
  cases hchild : children.get key with
  | none =>
      refine Does.pure fun w' hw' => ⟨hw', ?_⟩
      rw [h.rest key hchild]
      exact .leaf .nil fun id v hv => nomatch hv
  | some root =>
      have hroot := h.sub key root hchild
      obtain ⟨node, hnode, hholds⟩ := hroot.holds
      refine (Does.load hroot hnode).mono ?_
      intro a w' ⟨ha, hw'⟩
      rw [ha]
      exact ⟨hw', hholds.mono hw'.1⟩

/-- The children after some of the groups. -/
structure GroupsDone (w : IndexWorld V H) (L : Nat) (path : Key) (f : Key → Catalog V)
    (done : List (Key × GoMap Key V)) (children : GoMap Key H) : Prop where
  made : children.isNil = false
  forest : ∃ g, Forest w.nodes L path children g ∧
    (∀ k group, (k, group) ∈ done → g k = override (f k) group) ∧
    ∀ k, k ∉ done.map Prod.fst → g k = f k
  there : ∀ k ∈ done.map Prod.fst, children.get k ≠ none

theorem GroupsDone.mono {w' : IndexWorld V H} {done : List (Key × GoMap Key V)}
    (h : GroupsDone w L path f done children) (hle : w.Le w') :
    GroupsDone w' L path f done children := by
  obtain ⟨hmade, ⟨g, hg, hdone, hother⟩, hthere⟩ := h
  exact ⟨hmade, ⟨g, hg.mono hle.1, hdone, hother⟩, hthere⟩

/-- One group goes to its child. -/
theorem updateTurn_does (hupdate : UpdatesTree L F M update key)
    {done : List (Key × GoMap Key V)} {group : GoMap Key V} (hnew : key ∉ done.map Prod.fst)
    (hkey : Extends path key) (hgroup : Updates L key group)
    (h : GroupsDone w L path f done children) :
    Does L F M (updateTurn update children (key, group))
      (fun children' w' => w.Le w' ∧ GroupsDone w' L path f (done ++ [(key, group)]) children')
      w := by
  obtain ⟨hmade, ⟨g, hg, hdone, hother⟩, hthere⟩ := h
  rw [updateTurn]
  refine Does.bind (groupChild_does hg key) ?_
  intro node u ⟨hu, hnode⟩
  refine Does.bind (hupdate node (g key) group u hnode hgroup) ?_
  intro root v ⟨hv, hroot⟩
  obtain ⟨children', hset, hmade', hget⟩ := GoMap.exists_set hmade key root
  refine (Does.write hset).mono ?_
  intro a x ⟨ha, hx⟩
  subst ha
  refine ⟨(hu.trans hv).trans hx, hmade', ⟨Function.update g key (override (g key) group), ?_⟩, ?_⟩
  · refine ⟨?_, ?_, ?_⟩
    · refine (hg.mono ((hu.trans hv).trans hx).1).set hkey (hroot.mono hx.1) hset
        (Function.update_self ..) ?_
      exact fun k hk => Function.update_of_ne hk ..
    · intro k group' hk
      rcases List.mem_append.1 hk with hk | hk
      · have hne : k ≠ key := fun he => hnew (he ▸ List.mem_map_of_mem hk)
        rw [Function.update_of_ne hne]
        exact hdone k group' hk
      · cases List.mem_singleton.1 hk
        rw [Function.update_self, hother key hnew]
    · intro k hk
      rw [List.map_append, List.mem_append, not_or] at hk
      have hne : k ≠ key := fun he => hk.2 (by simp [he])
      rw [Function.update_of_ne hne]
      exact hother k hk.1
  · intro k hk
    rw [hget]
    split_ifs with he
    · exact Option.some_ne_none root
    · refine hthere k ?_
      rw [List.map_append, List.mem_append] at hk
      rcases hk with hk | hk
      · exact hk
      · exact absurd (by simpa using hk) he

/-- The whole loop. -/
theorem updateGroups_does {groups : GoMap Key (GoMap Key V)} {l : List (Key × GoMap Key V)}
    (hupdate : ∀ key, Extends path key → UpdatesTree L F M update key)
    (hgroup : ∀ k group, groups.get k = some group → Extends path k ∧ Updates L k group)
    (hl : groups.Enumerates l) (hmade : children.isNil = false)
    (hf : Forest w.nodes L path children f) :
    Does L F M (l.foldlM (updateTurn update) children)
      (fun children' w' => w.Le w' ∧ GroupsDone w' L path f l children') w := by
  refine Does.loop (I := fun done children v => w.Le v ∧ GroupsDone v L path f done children)
    (fun done children v v' ⟨hv, hdone⟩ hv' => ⟨hv.trans hv', hdone.mono hv'⟩) ?_
    ⟨.refl w, hmade, ⟨f, hf, nofun, fun _ _ => rfl⟩, nofun⟩
  intro done entry rest hsplit children' v ⟨hv, hdone⟩
  obtain ⟨k, group⟩ := entry
  obtain ⟨hkey, hup⟩ := hgroup k group (hl.get_of_met hsplit)
  refine (updateTurn_does (hupdate k hkey) (hl.not_mem_done hsplit) hkey hup hdone).mono ?_
  intro children'' v' ⟨hv', hdone'⟩
  exact ⟨hv.trans hv', hdone'⟩

/-- When every group was met, the branch denotes the old catalog with the updates. -/
theorem GroupsDone.denotes {root : H} {updates : GoMap Key V} {groups : GoMap Key (GoMap Key V)}
    {l : List (Key × GoMap Key V)} (h : GroupsDone w L path f l children)
    (hl : groups.Enumerates l) (hgroups : Partitions (path.length + 1) updates groups)
    (hupdates : Updates L path updates) (hlen : path.length < L)
    (hroot : w.nodes root = some ⟨.nil, children⟩) :
    Denotes w.nodes L path root (override (below path f) updates) := by
  obtain ⟨hmade, ⟨g, hg, hdone, hother⟩, hthere⟩ := h
  have hbelow : override (below path f) updates = below path g := by
    funext id
    unfold override below
    split_ifs with hid
    · cases hv : updates.get id with
      | none => rfl
      | some v =>
          have := (hupdates.isId id v hv).2
          omega
    · have hget := hgroups.get (id.take (path.length + 1)) id
      rw [if_pos rfl] at hget
      cases hgroup : groups.get (id.take (path.length + 1)) with
      | none =>
          rw [groupAt, hgroup] at hget
          rw [← hget, hother]
          · rfl
          · intro hmem
            obtain ⟨group, hsome⟩ := hl.mem_map_fst.1 hmem
            rw [hgroup] at hsome
            nomatch hsome
      | some group =>
          rw [groupAt, hgroup, Option.getD_some] at hget
          rw [← hget, hdone _ group ((hl.mem_iff _ group).2 hgroup)]
          rfl
  have hne : children.len ≠ 0 := by
    intro hzero
    obtain ⟨id, v, hv⟩ := exists_get_of_len hupdates.nonempty
    have hget := hgroups.get (id.take (path.length + 1)) id
    rw [if_pos rfl, hv] at hget
    cases hgroup : groups.get (id.take (path.length + 1)) with
    | none =>
        rw [groupAt, hgroup] at hget
        nomatch hget
    | some group =>
        exact hthere _ (hl.mem_map_fst.2 ⟨group, hgroup⟩) (GoMap.len_eq_zero.1 hzero _)
  rw [hbelow]
  exact .branch .nil children g hroot hmade rfl hne hg.keys hg.sub hg.rest

/-! ## The tree -/

/-- **Updates are split over the children of a branch.** -/
theorem updateBranch_does {node : RadixNode V H} {updates : GoMap Key V}
    (hupdate : ∀ key, Extends path key → UpdatesTree L F smallLeaves update key)
    (hf : Forest w.nodes L path node.children f) (hlen : path.length < L)
    (hupdates : Updates L path updates) :
    Does L F smallLeaves (updateBranch update path node updates) (fun root w' => w.Le w' ∧
      Denotes w'.nodes L path root (override (below path f) updates)) w := by
  unfold updateBranch
  have hlong : ∀ id v, updates.get id = some v → path.length + 1 ≤ id.length := by
    intro id v hv
    rw [(hupdates.isId id v hv).2]
    exact hlen
  refine Does.bind (partition_does hlong) ?_
  intro groups u ⟨hu, hgroups⟩
  have hmake : (GoMap.make : GoMap Key H).isNil = false := rfl
  obtain ⟨copied, hcopy, hmade, hget⟩ := GoMap.exists_copy hmake node.children
  refine Does.bind (Does.write hcopy) ?_
  intro children u₁ ⟨hchildren, hu₁⟩
  subst hchildren
  refine Does.bind (Does.range groups) ?_
  intro l u₂ ⟨hu₂, hl⟩
  have hw₂ : w.Le u₂ := (hu.trans hu₁).trans hu₂
  have hforest : Forest u₂.nodes L path children f := by
    have hsame : ∀ k, children.get k = node.children.get k := by
      intro k
      rw [hget, GoMap.get_make, Option.or_none]
    have hf₂ := hf.mono hw₂.1
    exact ⟨fun k h hk => hf₂.keys k h (hsame k ▸ hk), fun k h hk => hf₂.sub k h (hsame k ▸ hk),
      fun k hk => hf₂.rest k (hsame k ▸ hk)⟩
  have hgroup := fun k group (hk : groups.get k = some group) =>
    hgroups.group hupdates hlen hk
  refine Does.bind (updateGroups_does hupdate hgroup hl hmade hforest) ?_
  intro children' u₃ ⟨hu₃, hdone⟩
  refine (Does.save ?_).mono ?_
  · intro hnil
    rw [hdone.made] at hnil
    nomatch hnil
  · intro root w' ⟨hw', hroot⟩
    exact ⟨(hw₂.trans hu₃).trans hw',
      (hdone.mono hw').denotes hl hgroups hupdates hlen hroot⟩

/-- Two IDs under a path are longer than the path. -/
theorem length_lt_of_len {items : GoMap Key V}
    (hids : ∀ id v, items.get id = some v → IsId L path id) (hmany : 1 < items.len) :
    path.length < L := by
  by_contra hlen
  have hsub : items.keys ⊆ {path} := by
    intro id hid
    obtain ⟨v, hv⟩ := GoMap.mem_keys.1 hid
    obtain ⟨hpath, hlong⟩ := hids id v hv
    exact Finset.mem_singleton.2 (hpath.eq_of_length_le (by omega)).symm
  have hcard := Finset.card_le_card hsub
  rw [Finset.card_singleton] at hcard
  exact absurd hmany (by rw [GoMap.len]; omega)

/-- The items of a leaf and the updates, copied into a new map. -/
theorem Updates.merged {items merged updates : GoMap Key V}
    (hids : ∀ id v, items.get id = some v → IsId L path id) (hupdates : Updates L path updates)
    (hget : ∀ id, merged.get id = (updates.get id).or (items.get id)) :
    Updates L path merged := by
  constructor
  · intro hzero
    obtain ⟨id, v, hv⟩ := exists_get_of_len hupdates.nonempty
    have hnone := GoMap.len_eq_zero.1 hzero id
    rw [hget, hv] at hnone
    nomatch hnone
  · intro id v hv
    rw [hget] at hv
    cases hu : updates.get id with
    | some x => exact hupdates.isId id x hu
    | none =>
        rw [hu] at hv
        exact hids id v hv

/-- **`updateRadix` overrides the catalog**, whatever the order of its loops. A fuel that
exceeds the bytes left of an ID is enough. -/
theorem updateRadix_does {fuel : Nat} :
    ∀ {path : Key}, L < path.length + fuel →
      UpdatesTree (V := V) (H := H) L F smallLeaves (updateRadix fuel) path := by
  induction fuel with
  | zero =>
      intro path hfuel node m updates w hnode hupdates
      have := hupdates.length_le
      omega
  | succ fuel ih =>
      intro path hfuel node m updates w hnode hupdates
      have hchild : ∀ key, Extends path key →
          UpdatesTree (V := V) (H := H) L F smallLeaves (updateRadix fuel) key := by
        intro key hkey
        exact ih (by rw [hkey.2]; omega)
      rw [updateRadix]
      cases hnode with
      | branch items children f hnil hitems hne hf =>
          rw [if_neg (by simp [hnil])]
          exact updateBranch_does hchild hf (hf.length_lt hne) hupdates
      | leaf items hids =>
          have hleaf : (GoMap.nil : GoMap Key H).isNil = true := rfl
          rw [if_pos hleaf]
          have hmake : (GoMap.make : GoMap Key V).isNil = false := rfl
          obtain ⟨copied, hcopy, hmade, hcopied⟩ := GoMap.exists_copy hmake items
          obtain ⟨merged, hmerge, -, hmerged⟩ := GoMap.exists_copy hmade updates
          have hget : ∀ id, merged.get id = (updates.get id).or (items.get id) := by
            intro id
            rw [hmerged, hcopied, GoMap.get_make, Option.or_none]
          have hall := hupdates.merged hids hget
          refine Does.bind (Does.write hcopy) ?_
          intro a u ⟨ha, hu⟩
          subst ha
          refine Does.bind (Does.write hmerge) ?_
          intro a u₁ ⟨ha, hu₁⟩
          subst ha
          have hover : override items.get updates = a.get := funext fun id => (hget id).symm
          rw [hover]
          split_ifs with hsmall
          · refine (Does.save fun _ => hsmall).mono ?_
            intro root w' ⟨hw', hroot⟩
            exact ⟨(hu.trans hu₁).trans hw', .leaf a hroot hall.nonempty hall.isId⟩
          · -- the leaf is split: a branch without children takes all of its items
            have hlen : path.length < L := by
              refine length_lt_of_len hall.isId ?_
              have : indexLeafTarget = 128 := rfl
              omega
            have hempty : Forest u₁.nodes L path (GoMap.nil : GoMap Key H)
                (fun _ _ => (none : Option V)) := ⟨nofun, nofun, fun _ _ => rfl⟩
            have hbelow : override (below path fun _ _ => none) a = a.get := by
              funext id
              unfold override below
              rw [ite_self, Option.or_none]
            refine (updateBranch_does hchild hempty hlen hall).mono ?_
            intro root w' ⟨hw', hroot⟩
            rw [hbelow] at hroot
            exact ⟨(hu.trans hu₁).trans hw', hroot⟩

end ObjectLog.Git
