import ObjectLog.Proof.IndexRules

/-!
# `filterRadix`

The filter copies a node at the first entry that goes, so a tree of which nothing goes keeps
its root. The loops below meet the entries of a node in any order: what is said of the entries
met so far does not depend on which of them came first.
-/

namespace ObjectLog.Git

open Rely

variable {V H ε : Type} {L : Nat} {F : ε → Prop} {path : Key} {root : H}
  {w : IndexWorld V H} {m : Catalog V} {keep : Key → Bool}

/-- `filterRadix` may save any node. -/
def savesNodes : IndexLicence V H where
  save _ := True
  visit := False

/-- The entries of a catalog that stay. -/
def restrict (keep : Key → Bool) (m : Catalog V) : Catalog V := fun id =>
  if keep id then m id else none

/-- Nothing goes. -/
def KeepsAll (keep : Key → Bool) (m : Catalog V) : Prop :=
  ∀ id v, m id = some v → keep id = true

theorem KeepsAll.restrict (h : KeepsAll keep m) : restrict keep m = m := by
  funext id
  unfold Git.restrict
  split_ifs with hkeep
  · rfl
  · cases hv : m id with
    | none => rfl
    | some v => exact absurd (h id v hv) hkeep

theorem keepsAll_of_restrict (h : restrict keep m = m) : KeepsAll keep m := by
  intro id v hv
  rw [← h] at hv
  unfold restrict at hv
  split_ifs at hv with hkeep
  exact hkeep

theorem restrict_eq_some {id : Key} {v : V} (h : restrict keep m id = some v) :
    keep id = true ∧ m id = some v := by
  unfold restrict at h
  split_ifs at h with hkeep
  exact ⟨hkeep, h⟩

/-- The result of `filterRadix` for the tree of `root`: a root for what stays, none exactly if
nothing stays, and the old root exactly if nothing goes. -/
structure Filtered (σ : Nodes V H) (L : Nat) (path : Key) (root : H) (m : Catalog V)
    (keep : Key → Bool) (result : Option H) : Prop where
  absent : result = none ↔ ∀ id v, m id = some v → keep id = false
  denotes : ∀ root', result = some root' → Denotes σ L path root' (restrict keep m)
  same : result = some root ↔ KeepsAll keep m

/-- A root that is kept where nothing goes, and otherwise one for the entries that stay. -/
theorem Filtered.of_result {σ : Nodes V H} {result : Option H} (hm : Denotes σ L path root m)
    (hnone : result = none → restrict keep m = fun _ => none)
    (hsome : ∀ root', result = some root' → Denotes σ L path root' (restrict keep m))
    (hkeep : KeepsAll keep m → result = some root) :
    Filtered σ L path root m keep result := by
  refine ⟨⟨?_, ?_⟩, hsome, ⟨?_, hkeep⟩⟩
  · intro hresult id v hv
    have hid := congrFun (hnone hresult) id
    unfold restrict at hid
    split_ifs at hid with h
    · rw [hv] at hid
      nomatch hid
    · exact Bool.eq_false_of_not_eq_true h
  · intro hgone
    cases result with
    | none => rfl
    | some root' =>
        obtain ⟨id, v, hv⟩ := (hsome root' rfl).nonempty
        obtain ⟨hid, hv⟩ := restrict_eq_some hv
        rw [hgone id v hv] at hid
        nomatch hid
  · -- a root denotes one catalog
    intro hresult
    exact keepsAll_of_restrict ((hsome root hresult).unique hm)

/-! ## Leaves -/

/-- The variables of the loop over the items `all`, after some of them. -/
structure LeafDone (keep : Key → Bool) (all : GoMap Key V) (done : List (Key × V))
    (leaf : LeafFilter V) : Prop where
  unchanged : leaf.changed = false → ∀ id v, (id, v) ∈ done → keep id = true
  fresh : leaf.changed = false → leaf.items = .nil
  noneKept : leaf.kept = false → ∀ id v, (id, v) ∈ done → keep id = false
  changed : leaf.changed = true → ∃ id v, (id, v) ∈ done ∧ keep id = false
  met : leaf.changed = true → ∀ id v, (id, v) ∈ done →
    leaf.items.get id = restrict keep all.get id
  unmet : leaf.changed = true → ∀ id, (∀ v, (id, v) ∉ done) →
    leaf.items.get id = none ∨ leaf.items.get id = all.get id

variable {M : IndexLicence V H} {all : GoMap Key V} {done : List (Key × V)}
  {leaf : LeafFilter V} {id : Key} {item : V}

/-- The map from which the next item to go is deleted. -/
def LeafFilter.copied (leaf : LeafFilter V) (all : GoMap Key V) : GoMap Key V :=
  if !leaf.changed && leaf.kept then all else leaf.items

theorem LeafDone.copied_met (h : LeafDone keep all done leaf) {v : V} (hid : (id, v) ∈ done) :
    (leaf.copied all).get id = restrict keep all.get id := by
  unfold LeafFilter.copied
  cases hchanged : leaf.changed with
  | true => exact h.met hchanged id v hid
  | false =>
      have hkeep := h.unchanged hchanged id v hid
      cases hkept : leaf.kept with
      | true => rw [restrict, if_pos hkeep]; rfl
      | false =>
          rw [h.noneKept hkept id v hid] at hkeep
          nomatch hkeep

theorem LeafDone.copied_unmet (h : LeafDone keep all done leaf) (hid : ∀ v, (id, v) ∉ done) :
    (leaf.copied all).get id = none ∨ (leaf.copied all).get id = all.get id := by
  unfold LeafFilter.copied
  cases hchanged : leaf.changed with
  | true => exact h.unmet hchanged id hid
  | false =>
      cases hkept : leaf.kept with
      | true => exact .inr rfl
      | false =>
          rw [h.fresh hchanged]
          exact .inl rfl

/-- An item that goes. -/
theorem LeafDone.drop (h : LeafDone keep all done leaf) (hkeep : keep id = false) :
    LeafDone keep all (done ++ [(id, item)]) ⟨(leaf.copied all).delete id, true, leaf.kept⟩ := by
  refine ⟨nofun, nofun, ?_, ?_, ?_, ?_⟩
  · intro hkept i v hi
    rcases List.mem_append.1 hi with hi | hi
    · exact h.noneKept hkept i v hi
    · cases List.mem_singleton.1 hi
      exact hkeep
  · exact fun _ => ⟨id, item, by simp, hkeep⟩
  · intro _ i v hi
    rw [GoMap.get_delete]
    split_ifs with heq
    · rw [heq, restrict, hkeep]
      rfl
    · rcases List.mem_append.1 hi with hi | hi
      · exact h.copied_met hi
      · cases List.mem_singleton.1 hi
        exact absurd rfl heq
  · intro _ i hi
    rw [GoMap.get_delete]
    split_ifs with heq
    · exact .inl rfl
    · exact h.copied_unmet fun v hv => hi v (List.mem_append_left _ hv)

/-- An item that stays in a leaf of which an item went. -/
theorem LeafDone.put (h : LeafDone keep all done leaf) (hkeep : keep id = true)
    (hchanged : leaf.changed = true) (hitem : all.get id = some item) {items : GoMap Key V}
    (hget : ∀ i, items.get i = if i = id then some item else leaf.items.orMake.get i) :
    LeafDone keep all (done ++ [(id, item)]) ⟨items, true, true⟩ := by
  refine ⟨nofun, nofun, nofun, ?_, ?_, ?_⟩
  · intro _
    obtain ⟨i, v, hi, hgone⟩ := h.changed hchanged
    exact ⟨i, v, List.mem_append_left _ hi, hgone⟩
  · intro _ i v hi
    rw [hget]
    split_ifs with heq
    · rw [heq, restrict, if_pos hkeep, hitem]
    · rw [GoMap.get_orMake]
      rcases List.mem_append.1 hi with hi | hi
      · exact h.met hchanged i v hi
      · cases List.mem_singleton.1 hi
        exact absurd rfl heq
  · intro _ i hi
    rw [hget]
    split_ifs with heq
    · exact absurd (by simp [heq]) (hi item)
    · rw [GoMap.get_orMake]
      exact h.unmet hchanged i fun v hv => hi v (List.mem_append_left _ hv)

/-- An item that stays in a leaf of which no item went. -/
theorem LeafDone.pass (h : LeafDone keep all done leaf) (hkeep : keep id = true)
    (hchanged : leaf.changed = false) :
    LeafDone keep all (done ++ [(id, item)]) { leaf with kept := true } := by
  refine ⟨?_, h.fresh, nofun, ?_, ?_, ?_⟩
  · intro _ i v hi
    rcases List.mem_append.1 hi with hi | hi
    · exact h.unchanged hchanged i v hi
    · cases List.mem_singleton.1 hi
      exact hkeep
  all_goals
    intro htrue
    rw [hchanged] at htrue
    nomatch htrue

/-- One turn of the loop. -/
theorem filterItem_does (h : LeafDone keep all done leaf) (hitem : all.get id = some item) :
    Does L F M (filterItem keep all leaf (id, item))
      (fun leaf' w' => w.Le w' ∧ LeafDone keep all (done ++ [(id, item)]) leaf') w := by
  rw [filterItem]
  by_cases hkeep : keep id = true
  · rw [if_pos hkeep]
    by_cases hchanged : leaf.changed = true
    · rw [if_pos hchanged]
      obtain ⟨items, hset, -, hget⟩ := GoMap.exists_set leaf.items.isNil_orMake id item
      refine Does.bind (Does.write hset) ?_
      intro a u ⟨ha, hu⟩
      subst ha
      exact Does.pure fun w' hw' => ⟨hu.trans hw', h.put hkeep hchanged hitem hget⟩
    · rw [if_neg hchanged]
      exact Does.pure fun w' hw' => ⟨hw', h.pass hkeep (Bool.eq_false_of_not_eq_true hchanged)⟩
  · rw [if_neg hkeep]
    exact Does.pure fun w' hw' => ⟨hw', h.drop (Bool.eq_false_of_not_eq_true hkeep)⟩

/-- The whole loop: what is left are the items that stay. -/
theorem filterItems_does {l : List (Key × V)} (hl : all.Enumerates l) :
    Does L F M (l.foldlM (filterItem keep all) ⟨.nil, false, false⟩)
      (fun leaf w' => w.Le w' ∧ LeafDone keep all l leaf) w := by
  refine Does.loop (I := fun done leaf u => w.Le u ∧ LeafDone keep all done leaf) ?_ ?_ ?_
  · intro done leaf u u' ⟨hu, hdone⟩ hu'
    exact ⟨hu.trans hu', hdone⟩
  · intro done entry rest hsplit leaf u ⟨hu, hdone⟩
    obtain ⟨id, item⟩ := entry
    refine (filterItem_does hdone (hl.get_of_met hsplit)).mono ?_
    intro leaf' u' ⟨hu', hdone'⟩
    exact ⟨hu.trans hu', hdone'⟩
  · exact ⟨.refl w, nofun, fun _ => rfl, nofun, nofun, nofun, nofun⟩

/-- All items of a leaf were met. -/
theorem LeafDone.get_eq {l : List (Key × V)} (h : LeafDone keep all l leaf)
    (hl : all.Enumerates l) (hchanged : leaf.changed = true) :
    leaf.items.get = restrict keep all.get := by
  funext id
  cases hv : all.get id with
  | some v => exact h.met hchanged id v ((hl.mem_iff id v).2 hv)
  | none =>
      have hunmet : ∀ v, (id, v) ∉ l := by
        intro v hmem
        rw [(hl.mem_iff id v).1 hmem] at hv
        nomatch hv
      have hnone : leaf.items.get id = none := by
        rcases h.unmet hchanged id hunmet with hnone | hsame
        · exact hnone
        · rw [hsame, hv]
      rw [hnone, restrict, hv, ite_self]

/-- **Filtering a leaf.** -/
theorem filterLeaf_does {items : GoMap Key V} (hload : w.nodes root = some ⟨items, .nil⟩)
    (hne : items.len ≠ 0) (hids : ∀ id v, items.get id = some v → IsId L path id) :
    Does L F savesNodes (filterLeaf keep root ⟨items, .nil⟩)
      (fun r w' => w.Le w' ∧ Filtered w'.nodes L path root items.get keep r) w := by
  have hm : Denotes w.nodes L path root items.get := .leaf items hload hne hids
  unfold filterLeaf
  refine Does.bind (Does.range items) ?_
  intro l u ⟨hu, hl⟩
  refine Does.bind (filterItems_does hl) ?_
  intro leaf u₁ ⟨hu₁, hdone⟩
  have hw₁ := hu.trans hu₁
  cases hchanged : leaf.changed with
  | false =>
      have hall : KeepsAll keep items.get := fun id v hv =>
        hdone.unchanged hchanged id v ((hl.mem_iff id v).2 hv)
      refine Does.pure fun w' hw' => ⟨hw₁.trans hw', ?_⟩
      have hm' := hm.mono (hw₁.trans hw').1
      refine .of_result hm' nofun ?_ fun _ => rfl
      intro root' hroot'
      cases hroot'
      rw [hall.restrict]
      exact hm'
  | true =>
      have hget := hdone.get_eq hl hchanged
      have hgone : ¬KeepsAll keep items.get := by
        intro hall
        obtain ⟨id, v, hid, hdrop⟩ := hdone.changed hchanged
        have hkeep := hall id v ((hl.mem_iff id v).1 hid)
        rw [hdrop] at hkeep
        nomatch hkeep
      rw [if_neg (by simp)]
      by_cases hlen : leaf.items.len = 0
      · rw [if_pos hlen]
        refine Does.pure fun w' hw' => ⟨hw₁.trans hw', ?_⟩
        refine .of_result (hm.mono (hw₁.trans hw').1) ?_ nofun fun hall => absurd hall hgone
        intro _
        rw [← hget]
        exact funext (GoMap.len_eq_zero.1 hlen)
      · rw [if_neg hlen]
        refine Does.bind (Does.save trivial) ?_
        intro root' u₂ ⟨hu₂, hroot'⟩
        refine Does.pure fun w' hw' => ⟨(hw₁.trans hu₂).trans hw', ?_⟩
        refine .of_result (hm.mono ((hw₁.trans hu₂).trans hw').1) nofun ?_
          fun hall => absurd hall hgone
        intro root'' heq
        cases heq
        rw [← hget]
        refine .leaf leaf.items (hw'.1 _ _ hroot') hlen ?_
        intro id v hv
        rw [hget] at hv
        exact hids id v (restrict_eq_some hv).2

/-! ## Branches -/

section

variable {roots children : GoMap Key H} {met : List (Key × H)} {f : Key → Catalog V}

/-- The catalogs of the children, of which some were filtered. -/
def filteredBelow (keep : Key → Bool) (f : Key → Catalog V) (met : List (Key × H)) :
    Key → Catalog V := fun k =>
  if k ∈ met.map Prod.fst then restrict keep (f k) else f k

/-- The children as they are: the old ones as long as nothing was copied. -/
def current (roots children : GoMap Key H) : GoMap Key H :=
  if children.isNil then roots else children

/-- The copy of the children `roots`, after some of them. -/
structure BranchDone (σ : Nodes V H) (L : Nat) (path : Key) (keep : Key → Bool)
    (f : Key → Catalog V) (roots : GoMap Key H) (met : List (Key × H)) (children : GoMap Key H) :
    Prop where
  forest : Forest σ L path (current roots children) (filteredBelow keep f met)
  unchanged : children.isNil = true ↔ ∀ k child, (k, child) ∈ met → KeepsAll keep (f k)

theorem BranchDone.mono {σ τ : Nodes V H} (h : BranchDone σ L path keep f roots met children)
    (hle : σ.Le τ) : BranchDone τ L path keep f roots met children :=
  ⟨h.forest.mono hle, h.unchanged⟩

theorem filteredBelow_self {k : Key} {child : H} :
    filteredBelow keep f (met ++ [(k, child)]) k = restrict keep (f k) := by
  rw [filteredBelow, if_pos (by simp)]

theorem filteredBelow_other {i k : Key} {child : H} (hi : i ≠ k) :
    filteredBelow keep f (met ++ [(k, child)]) i = filteredBelow keep f met i := by
  have hmem : i ∈ (met ++ [(k, child)]).map Prod.fst ↔ i ∈ met.map Prod.fst := by simp [hi]
  exact if_congr hmem rfl rfl

theorem filteredBelow_same {k : Key} {child : H} (hall : KeepsAll keep (f k)) :
    filteredBelow keep f (met ++ [(k, child)]) = filteredBelow keep f met := by
  funext i
  by_cases hi : i = k
  · rw [hi, filteredBelow_self, filteredBelow, hall.restrict, ite_self]
  · exact filteredBelow_other hi

variable [DecidableEq H]

/-- A filtered child takes its place. -/
theorem replaceChild_does {k : Key} {child : H} {result : Option H}
    (h : BranchDone w.nodes L path keep f roots met children) (hroots : roots.isNil = false)
    (hkey : Extends path k) (hresult : Filtered w.nodes L k child (f k) keep result) :
    Does L F M (replaceChild roots children k child result) (fun children' w' => w.Le w' ∧
      BranchDone w'.nodes L path keep f roots (met ++ [(k, child)]) children') w := by
  unfold replaceChild
  by_cases hsame : result = some child
  · rw [if_pos hsame]
    have hall := hresult.same.1 hsame
    refine Does.pure fun w' hw' => ⟨hw', ?_, ?_⟩
    · rw [filteredBelow_same hall]
      exact h.forest.mono hw'.1
    · rw [h.unchanged]
      constructor
      · intro hmet i r hi
        rcases List.mem_append.1 hi with hi | hi
        · exact hmet i r hi
        · cases List.mem_singleton.1 hi
          exact hall
      · exact fun hmet i r hi => hmet i r (List.mem_append_left _ hi)
  · rw [if_neg hsame]
    have hmade : (current roots children).isNil = false := by
      unfold current
      split_ifs with hnil
      · exact hroots
      · exact Bool.eq_false_of_not_eq_true hnil
    -- something goes from this child, so there is a copy from here on
    have hdone : ∀ {children' : GoMap Key H} {w' : IndexWorld V H}, children'.isNil = false →
        Forest w'.nodes L path children' (filteredBelow keep f (met ++ [(k, child)])) →
        BranchDone w'.nodes L path keep f roots (met ++ [(k, child)]) children' := by
      intro children' w' hmade' hforest
      refine ⟨?_, ?_⟩
      · rw [current, if_neg (by simp [hmade'])]
        exact hforest
      · rw [hmade']
        constructor
        · exact nofun
        · intro hmet
          exact absurd (hresult.same.2 (hmet k child (by simp))) hsame
    cases result with
    | none =>
        have hgone : restrict keep (f k) = fun _ => none := by
          funext id
          unfold restrict
          split_ifs with hid
          · cases hv : f k id with
            | none => rfl
            | some v =>
                rw [hresult.absent.1 rfl id v hv] at hid
                nomatch hid
          · rfl
        refine Does.pure fun w' hw' => ⟨hw', hdone ?_ ?_⟩
        · rw [GoMap.isNil_delete]
          exact hmade
        · refine (h.forest.mono hw'.1).delete ?_ fun i hi => filteredBelow_other hi
          rw [filteredBelow_self, hgone]
    | some replacement =>
        obtain ⟨children', hset, hmade', -⟩ := GoMap.exists_set hmade k replacement
        refine (Does.write hset).mono ?_
        intro a w' ⟨ha, hw'⟩
        subst ha
        refine ⟨hw', hdone hmade' ?_⟩
        exact (h.forest.mono hw'.1).set hkey ((hresult.denotes _ rfl).mono hw'.1) hset
          filteredBelow_self fun i hi => filteredBelow_other hi

/-- What a filter of one tree does, from any store of nodes. -/
def FiltersTree (L : Nat) (F : ε → Prop) (keep : Key → Bool)
    (filter : Key → H → IndexProg V H ε (Option H)) (path : Key) : Prop :=
  ∀ root m (w : IndexWorld V H), Denotes w.nodes L path root m →
    Does L F savesNodes (filter path root)
      (fun r w' => w.Le w' ∧ Filtered w'.nodes L path root m keep r) w

variable {filter : Key → H → IndexProg V H ε (Option H)}

/-- The whole loop over the children. -/
theorem filterChildren_does (hfilter : ∀ key, Extends path key → FiltersTree L F keep filter key)
    (hroots : roots.isNil = false) (hf : Forest w.nodes L path roots f)
    (hmet : roots.Enumerates met) :
    Does L F savesNodes (met.foldlM (filterChild filter roots) .nil) (fun children w' => w.Le w' ∧
      BranchDone w'.nodes L path keep f roots met children) w := by
  refine Does.loop (I := fun met children u => w.Le u ∧
    BranchDone u.nodes L path keep f roots met children) ?_ ?_ ?_
  · intro met children u u' ⟨hu, hdone⟩ hu'
    exact ⟨hu.trans hu', hdone.mono hu'.1⟩
  · intro before entry rest hsplit children u ⟨hu, hdone⟩
    obtain ⟨k, child⟩ := entry
    have hchild := hmet.get_of_met hsplit
    have hkey := hf.keys k child hchild
    rw [filterChild]
    refine Does.bind (hfilter k hkey child (f k) u ((hf.sub k child hchild).mono hu.1)) ?_
    intro result u₁ ⟨hu₁, hresult⟩
    refine (replaceChild_does (hdone.mono hu₁.1) hroots hkey hresult).mono ?_
    intro children' u₂ ⟨hu₂, hdone'⟩
    exact ⟨(hu.trans hu₁).trans hu₂, hdone'⟩
  · refine ⟨.refl w, ?_, ?_⟩
    · exact hf
    · exact ⟨fun _ => nofun, fun _ => rfl⟩

omit [DecidableEq H] in
/-- When all children were met, the catalog of the branch is the filtered one. -/
theorem below_filteredBelow {σ : Nodes V H} (hf : Forest σ L path roots f)
    (hmet : roots.Enumerates met) :
    below path (filteredBelow keep f met) = restrict keep (below path f) := by
  funext id
  rw [restrict, below, below]
  by_cases hlen : id.length ≤ path.length
  · rw [if_pos hlen, if_pos hlen, ite_self]
  · rw [if_neg hlen, if_neg hlen, filteredBelow]
    by_cases hk : id.take (path.length + 1) ∈ met.map Prod.fst
    · rw [if_pos hk, restrict]
    · have hnone : f (id.take (path.length + 1)) id = none :=
        Option.eq_none_iff_forall_ne_some.2 fun v hv => hk (hmet.mem_map_fst.2 (hf.child hv))
      rw [if_neg hk, hnone, ite_self]

/-- **Filtering a branch.** -/
theorem filterBranch_does {items : GoMap Key V}
    (hfilter : ∀ key, Extends path key → FiltersTree L F keep filter key)
    (hm : Denotes w.nodes L path root (below path f)) (hroots : roots.isNil = false)
    (hf : Forest w.nodes L path roots f) :
    Does L F savesNodes (filterBranch filter root ⟨items, roots⟩)
      (fun r w' => w.Le w' ∧ Filtered w'.nodes L path root (below path f) keep r) w := by
  unfold filterBranch
  refine Does.bind (Does.range roots) ?_
  intro met u ⟨hu, hmet⟩
  refine Does.bind (filterChildren_does hfilter hroots (hf.mono hu.1) hmet) ?_
  intro children u₁ ⟨hu₁, hforest, hunchanged⟩
  have hw₁ := hu.trans hu₁
  cases hnil : children.isNil with
  | true =>
      have hall : KeepsAll keep (below path f) := by
        intro id v hv
        obtain ⟨-, hv⟩ := below_eq_some hv
        obtain ⟨child, hchild⟩ := hf.child hv
        exact hunchanged.1 hnil _ child ((hmet.mem_iff _ child).2 hchild) id v hv
      refine Does.pure fun w' hw' => ⟨hw₁.trans hw', ?_⟩
      have hm' := hm.mono (hw₁.trans hw').1
      refine .of_result hm' nofun ?_ fun _ => rfl
      intro root' hroot'
      cases hroot'
      rw [hall.restrict]
      exact hm'
  | false =>
      rw [current, if_neg (by simp [hnil])] at hforest
      have hbelow : below path (filteredBelow keep f met) = restrict keep (below path f) :=
        below_filteredBelow hf hmet
      have hgone : ¬KeepsAll keep (below path f) := by
        intro hall
        have hnil' := hunchanged.2 fun k child _ id v hv => hall id v (hf.below_of_child hv)
        rw [hnil] at hnil'
        nomatch hnil'
      rw [if_neg (by simp)]
      by_cases hlen : children.len = 0
      · rw [if_pos hlen]
        refine Does.pure fun w' hw' => ⟨hw₁.trans hw', ?_⟩
        refine .of_result (hm.mono (hw₁.trans hw').1) ?_ nofun fun hall => absurd hall hgone
        intro _
        rw [← hbelow]
        funext id
        unfold below
        rw [hforest.rest _ (GoMap.len_eq_zero.1 hlen _), ite_self]
      · rw [if_neg hlen]
        refine Does.bind (Does.save trivial) ?_
        intro root' u₂ ⟨hu₂, hroot'⟩
        refine Does.pure fun w' hw' => ⟨(hw₁.trans hu₂).trans hw', ?_⟩
        refine .of_result (hm.mono ((hw₁.trans hu₂).trans hw').1) nofun ?_
          fun hall => absurd hall hgone
        intro root'' heq
        cases heq
        rw [← hbelow]
        have hforest' := hforest.mono (hu₂.trans hw').1
        exact .branch .nil children _ (hw'.1 _ _ hroot') hnil rfl hlen hforest'.keys hforest'.sub
          hforest'.rest

/-- **`filterRadix` leaves exactly the entries to keep.** -/
theorem filterRadix_does (keep : Key → Bool) {fuel : Nat} : ∀ {path : Key},
    L < path.length + fuel →
    FiltersTree (V := V) (H := H) L F keep (filterRadix keep fuel) path := by
  induction fuel with
  | zero =>
      intro path hfuel root m w hm
      have := hm.length_le
      omega
  | succ fuel ih =>
      intro path hfuel root m w hm
      have hchild : ∀ key, Extends path key →
          FiltersTree (V := V) (H := H) L F keep (filterRadix keep fuel) key := by
        intro key hkey
        exact ih (by rw [hkey.2]; omega)
      rw [filterRadix]
      have hall := hm
      cases hm with
      | leaf items hload hne hids =>
          refine Does.bind (Does.load hall hload) ?_
          intro node u ⟨hnode, hu⟩
          subst hnode
          have hleaf : (GoMap.nil : GoMap Key H).isNil = true := rfl
          rw [if_pos hleaf]
          refine (filterLeaf_does (hu.1 _ _ hload) hne hids).mono ?_
          intro r w' ⟨hw', hr⟩
          exact ⟨hu.trans hw', hr⟩
      | branch items children f hload hnil hitems hne hkeys hsub hrest =>
          refine Does.bind (Does.load hall hload) ?_
          intro node u ⟨hnode, hu⟩
          subst hnode
          rw [if_neg (by simp [hnil])]
          have hf : Forest w.nodes L path children f := ⟨hkeys, hsub, hrest⟩
          refine (filterBranch_does hchild (hall.mono hu.1) hnil (hf.mono hu.1)).mono ?_
          intro r w' ⟨hw', hr⟩
          exact ⟨hu.trans hw', hr⟩

end

end ObjectLog.Git
