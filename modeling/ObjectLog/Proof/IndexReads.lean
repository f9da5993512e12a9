import ObjectLog.Proof.IndexRules

/-!
# `lookupRadix` and `walkRadix`

Both follow the tree under a root. A lookup goes down one path and its answer is the catalog's.
A walk visits the items of every leaf, and no ID is in two of them.
-/

namespace ObjectLog.Git

open Rely

variable {V H ε : Type} {L : Nat} {F : ε → Prop} {path id : Key} {root : H}
  {w : IndexWorld V H} {m : Catalog V}

/-- `lookupRadix` only loads. -/
def loadsOnly : IndexLicence V H where
  save _ := False
  visit := False

/-- `walkRadix` loads and visits. -/
def loadsAndVisits : IndexLicence V H where
  save _ := False
  visit := True

/-- **`lookupRadix` answers as the catalog does**, for every key. -/
theorem lookupRadix_does (id : Key) (hm : Denotes w.nodes L path root m) :
    Does L F loadsOnly (lookupRadix id path root) (fun r w' => w.Le w' ∧ r = m id) w := by
  -- a branch is left for a child only while the path is shorter than the ID
  induction hleft : id.length - path.length using Nat.strong_induction_on
    generalizing path root w m with
  | _ left ih =>
      obtain ⟨node, hnode, hholds⟩ := hm.holds
      rw [lookupRadix]
      refine Does.bind (Does.load hm hnode) fun a u hload => ?_
      obtain ⟨rfl, hu⟩ := hload
      cases hholds with
      | leaf items hids =>
          have hleaf : (GoMap.nil : GoMap Key H).isNil = true := rfl
          rw [if_pos hleaf]
          exact Does.pure fun w' hw' => ⟨hu.trans hw', rfl⟩
      | branch items children f hnil hitems hne hf =>
          rw [if_neg (by simp [hnil])]
          by_cases hlen : id.length ≤ path.length
          · rw [if_pos hlen]
            refine Does.pure fun w' hw' => ⟨hu.trans hw', ?_⟩
            rw [below, if_pos hlen]
          · rw [if_neg hlen, below, if_neg hlen]
            cases hchild : children.get (id.take (path.length + 1)) with
            | none =>
                refine Does.pure fun w' hw' => ⟨hu.trans hw', ?_⟩
                rw [hf.rest _ hchild]
            | some child =>
                have hshort : id.length - (id.take (path.length + 1)).length < left := by
                  rw [List.length_take]
                  omega
                refine (ih _ hshort ((hf.sub _ _ hchild).mono hu.1) rfl).mono fun r w' hr => ?_
                exact ⟨hu.trans hr.1, hr.2⟩

/-! ## Walks -/

/-- A list of the entries of a catalog, each once. -/
structure Lists (m : Catalog V) (l : List (Key × V)) : Prop where
  nodup : (l.map Prod.fst).Nodup
  mem_iff : ∀ id v, (id, v) ∈ l ↔ m id = some v

/-- No ID is under two children. -/
theorem Forest.child_unique {σ : Nodes V H} {children : GoMap Key H} {f : Key → Catalog V}
    {k k' : Key} {v v' : V} (h : Forest σ L path children f) (hv : f k id = some v)
    (hv' : f k' id = some v') : k = k' := by
  have htake : ∀ {k : Key} {v : V}, f k id = some v → id.take (path.length + 1) = k := by
    intro k v hv
    obtain ⟨child, hchild⟩ := h.child hv
    exact (((h.sub _ _ hchild).isId hv).child (h.keys _ _ hchild)).2
  exact (htake hv).symm.trans (htake hv')

/-- The first loop visits the items that it meets. -/
theorem visitItems_does (l : List (Key × V)) :
    Does L F loadsAndVisits (l.foldlM (fun _ (id, value) => visit id value) ())
      (fun _ w' => w.nodes.Le w'.nodes ∧ w'.visited = w.visited ++ l) w := by
  refine Does.loop (I := fun done _ u => w.nodes.Le u.nodes ∧ u.visited = w.visited ++ done)
    ?_ ?_ ⟨Nodes.Le.refl _, (List.append_nil _).symm⟩
  · intro done _ u u' ⟨hle, hvisited⟩ hu'
    exact ⟨hle.trans hu'.1, hu'.2.trans hvisited⟩
  · intro done entry rest _ _ u ⟨hle, hvisited⟩
    refine (Does.visit trivial).mono ?_
    intro _ u' ⟨hle', hvisited'⟩
    refine ⟨hle.trans hle', ?_⟩
    rw [hvisited', hvisited, List.append_assoc]

/-- The visits so far are those of the children that were met. -/
structure WalkedChildren (f : Key → Catalog V) (done : List (Key × H)) (l : List (Key × V)) :
    Prop where
  nodup : (l.map Prod.fst).Nodup
  mem_iff : ∀ id v, (id, v) ∈ l ↔ ∃ k ∈ done.map Prod.fst, f k id = some v

/-- The visits of one more child. -/
theorem WalkedChildren.append {σ : Nodes V H} {children : GoMap Key H} {f : Key → Catalog V}
    {done : List (Key × H)} {l l' : List (Key × V)} {k : Key} {child : H}
    (h : WalkedChildren f done l) (hf : Forest σ L path children f)
    (hnew : k ∉ done.map Prod.fst) (hl' : Lists (f k) l') :
    WalkedChildren f (done ++ [(k, child)]) (l ++ l') := by
  constructor
  · rw [List.map_append, List.nodup_append]
    refine ⟨h.nodup, hl'.nodup, ?_⟩
    intro id hid id' hid' heq
    subst heq
    obtain ⟨⟨_, v⟩, hv, rfl⟩ := List.mem_map.1 hid
    obtain ⟨⟨_, v'⟩, hv', hid⟩ := List.mem_map.1 hid'
    cases hid
    obtain ⟨k', hk', hv⟩ := (h.mem_iff _ v).1 hv
    have hk := hf.child_unique hv ((hl'.mem_iff _ v').1 hv')
    exact hnew (hk ▸ hk')
  · intro id v
    rw [List.mem_append, h.mem_iff, hl'.mem_iff, List.map_append]
    constructor
    · intro hv
      rcases hv with ⟨k', hk', hv⟩ | hv
      · exact ⟨k', List.mem_append_left _ hk', hv⟩
      · exact ⟨k, by simp, hv⟩
    · intro ⟨k', hk', hv⟩
      rcases List.mem_append.1 hk' with hk' | hk'
      · exact .inl ⟨k', hk', hv⟩
      · have : k' = k := by simpa using hk'
        exact .inr (this ▸ hv)

/-- What a walk of one tree does, from any store of nodes. -/
def WalksTree (L : Nat) (F : ε → Prop) (walk : Key → H → IndexProg V H ε Unit) (path : Key) :
    Prop :=
  ∀ root m (w : IndexWorld V H), Denotes w.nodes L path root m →
    Does L F loadsAndVisits (walk path root) (fun _ w' => w.nodes.Le w'.nodes ∧
      ∃ l, w'.visited = w.visited ++ l ∧ Lists m l) w

/-- The second loop visits the entries of the children that it meets. -/
theorem walkChildren_does {walk : Key → H → IndexProg V H ε Unit} {children : GoMap Key H}
    {f : Key → Catalog V} {done : List (Key × H)}
    (hwalk : ∀ key, Extends path key → WalksTree L F walk key)
    (hf : Forest w.nodes L path children f) (hdone : children.Enumerates done) :
    Does L F loadsAndVisits (done.foldlM (fun _ (path, child) => walk path child) ())
      (fun _ w' => w.nodes.Le w'.nodes ∧
        ∃ l, w'.visited = w.visited ++ l ∧ WalkedChildren f done l) w := by
  refine Does.loop (I := fun done _ u => w.nodes.Le u.nodes ∧
    ∃ l, u.visited = w.visited ++ l ∧ WalkedChildren f done l) ?_ ?_ ?_
  · intro done _ u u' ⟨hle, l, hvisited, hl⟩ hu'
    exact ⟨hle.trans hu'.1, l, hu'.2.trans hvisited, hl⟩
  · intro before entry rest hsplit _ u ⟨hle, l, hvisited, hl⟩
    obtain ⟨k, child⟩ := entry
    have hchild := hdone.get_of_met hsplit
    have hroot := (hf.sub k child hchild).mono hle
    refine (hwalk k (hf.keys k child hchild) child (f k) u hroot).mono ?_
    intro _ u' ⟨hle', l', hvisited', hl'⟩
    refine ⟨hle.trans hle', l ++ l', ?_, hl.append hf (hdone.not_mem_done hsplit) hl'⟩
    rw [hvisited', hvisited, List.append_assoc]
  · refine ⟨Nodes.Le.refl _, [], (List.append_nil _).symm, List.nodup_nil, fun id v => ?_⟩
    simp

/-- **`walkRadix` visits every entry exactly once.** -/
theorem walkRadix_does {fuel : Nat} : ∀ {path : Key}, L < path.length + fuel →
    WalksTree (V := V) (H := H) L F (walkRadix fuel) path := by
  induction fuel with
  | zero =>
      intro path hfuel root m w hm
      have := hm.length_le
      omega
  | succ fuel ih =>
      intro path hfuel root m w hm
      have hchild : ∀ key, Extends path key →
          WalksTree (V := V) (H := H) L F (walkRadix fuel) key := by
        intro key hkey
        exact ih (by rw [hkey.2]; omega)
      obtain ⟨node, hnode, hholds⟩ := hm.holds
      rw [walkRadix]
      refine Does.bind (Does.load hm hnode) ?_
      intro a u ⟨ha, hu⟩
      subst ha
      refine Does.bind (Does.range a.items) ?_
      intro items u₁ ⟨hu₁, hitems⟩
      refine Does.bind (visitItems_does items) ?_
      intro _ u₂ ⟨hle₂, hvisited₂⟩
      refine Does.bind (Does.range a.children) ?_
      intro children u₃ ⟨hu₃, hchildren⟩
      have hle : w.nodes.Le u₃.nodes := ((hu.1.trans hu₁.1).trans hle₂).trans hu₃.1
      have hvisited : u₃.visited = w.visited ++ items := by
        rw [hu₃.2, hvisited₂, hu₁.2, hu.2]
      cases hholds with
      | leaf map hids =>
          have hnone : children = [] := hchildren.eq_nil rfl
          subst hnone
          refine Does.pure fun w' hw' => ⟨hle.trans hw'.1, items, hw'.2.trans hvisited, ?_⟩
          exact ⟨hitems.nodup, hitems.mem_iff⟩
      | branch map roots f hnil hempty hne hf =>
          have hnone : items = [] := hitems.eq_nil hempty
          refine (walkChildren_does hchild (hf.mono hle) hchildren).mono ?_
          intro _ w' ⟨hle', l, hvisited', hl⟩
          refine ⟨hle.trans hle', l, ?_, hl.nodup, ?_⟩
          · rw [hvisited', hvisited, hnone, List.append_nil]
          · intro id v
            rw [hl.mem_iff]
            constructor
            · intro ⟨k, _, hv⟩
              exact hf.below_of_child hv
            · intro hv
              obtain ⟨-, hv⟩ := below_eq_some hv
              exact ⟨_, hchildren.mem_map_fst.2 (hf.child hv), hv⟩

end ObjectLog.Git
