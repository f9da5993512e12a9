import ObjectLog.Git.Index

/-!
# What an index tree denotes

Nodes are immutable: the store of nodes only grows. A root in it denotes a catalog, a partial
function from object IDs, if the tree under it is well formed: no node is empty, every item of
a leaf is an ID under the path of the leaf and every child of a branch has a path one byte
longer than the branch. A root denotes one catalog only, and denotes it for ever.
-/

namespace ObjectLog.Git

/-- What is known under each ID. -/
abbrev Catalog (V : Type) := Key → Option V

/-- The nodes that were saved. -/
abbrev Nodes (V H : Type) := H → Option (RadixNode V H)

variable {V H : Type} {σ τ : Nodes V H} {L : Nat} {path key id : Key} {root : H}
  {m m' : Catalog V}

/-- Every saved node stays as it is. -/
def Nodes.Le (σ τ : Nodes V H) : Prop :=
  ∀ root node, σ root = some node → τ root = some node

theorem Nodes.Le.refl (σ : Nodes V H) : σ.Le σ := fun _ _ h => h

theorem Nodes.Le.trans {υ : Nodes V H} (h : σ.Le τ) (h' : τ.Le υ) : σ.Le υ :=
  fun root node hr => h' root node (h root node hr)

/-! ## IDs and paths -/

/-- An ID of length `L` under a path. -/
def IsId (L : Nat) (path id : Key) : Prop :=
  path <+: id ∧ id.length = L

/-- The path of a child of a branch. -/
def Extends (path key : Key) : Prop :=
  path <+: key ∧ key.length = path.length + 1

theorem IsId.take (h : IsId L path id) (hlen : path.length < L) :
    Extends path (id.take (path.length + 1)) ∧ IsId L (id.take (path.length + 1)) id := by
  obtain ⟨hpath, hid⟩ := h
  have htake : (id.take (path.length + 1)).length = path.length + 1 := by
    rw [List.length_take]
    omega
  refine ⟨⟨?_, htake⟩, List.take_prefix _ id, hid⟩
  exact List.prefix_of_prefix_length_le hpath (List.take_prefix _ id) (by omega)

theorem IsId.up (h : IsId L key id) (hkey : Extends path key) : IsId L path id :=
  ⟨hkey.1.trans h.1, h.2⟩

/-- The child that an ID belongs to. -/
theorem IsId.child (h : IsId L key id) (hkey : Extends path key) :
    path.length < id.length ∧ id.take (path.length + 1) = key := by
  have hle := h.1.length_le
  rw [hkey.2] at hle
  refine ⟨hle, ?_⟩
  rw [← hkey.2]
  exact (List.prefix_iff_eq_take.1 h.1).symm

/-! ## Trees -/

/-- The catalog of a branch, from those of its children. -/
def below (path : Key) (f : Key → Catalog V) : Catalog V := fun id =>
  if id.length ≤ path.length then none else f (id.take (path.length + 1)) id

/-- `Denotes σ L path root m`: the tree under `root`, at `path`, is well formed and holds
exactly the catalog `m`. -/
inductive Denotes (σ : Nodes V H) (L : Nat) : Key → H → Catalog V → Prop
  | leaf {path : Key} {root : H} (items : GoMap Key V)
      (hload : σ root = some ⟨items, .nil⟩) (hne : items.len ≠ 0)
      (hids : ∀ id v, items.get id = some v → IsId L path id) :
      Denotes σ L path root items.get
  | branch {path : Key} {root : H} (items : GoMap Key V) (children : GoMap Key H)
      (f : Key → Catalog V) (hload : σ root = some ⟨items, children⟩)
      (hnil : children.isNil = false) (hitems : items.len = 0) (hne : children.len ≠ 0)
      (hkeys : ∀ k h, children.get k = some h → Extends path k)
      (hsub : ∀ k h, children.get k = some h → Denotes σ L k h (f k))
      (hrest : ∀ k, children.get k = none → f k = fun _ => none) :
      Denotes σ L path root (below path f)

/-- The children of a branch and the catalogs of the trees under them. -/
structure Forest (σ : Nodes V H) (L : Nat) (path : Key) (children : GoMap Key H)
    (f : Key → Catalog V) : Prop where
  keys : ∀ k h, children.get k = some h → Extends path k
  sub : ∀ k h, children.get k = some h → Denotes σ L k h (f k)
  rest : ∀ k, children.get k = none → f k = fun _ => none

/-- A well-formed node at a path, as `updateRadix` is given it: a leaf, which may still be
empty, or a branch. -/
inductive Holds (σ : Nodes V H) (L : Nat) (path : Key) : RadixNode V H → Catalog V → Prop
  | leaf (items : GoMap Key V) (hids : ∀ id v, items.get id = some v → IsId L path id) :
      Holds σ L path ⟨items, .nil⟩ items.get
  | branch (items : GoMap Key V) (children : GoMap Key H) (f : Key → Catalog V)
      (hnil : children.isNil = false) (hitems : items.len = 0) (hne : children.len ≠ 0)
      (hf : Forest σ L path children f) :
      Holds σ L path ⟨items, children⟩ (below path f)

theorem Denotes.holds (h : Denotes σ L path root m) :
    ∃ node, σ root = some node ∧ Holds σ L path node m := by
  cases h with
  | leaf items hload hne hids => exact ⟨_, hload, .leaf items hids⟩
  | branch items children f hload hnil hitems hne hkeys hsub hrest =>
      exact ⟨_, hload, .branch items children f hnil hitems hne ⟨hkeys, hsub, hrest⟩⟩

/-- **A root keeps its meaning.** -/
theorem Denotes.mono (h : Denotes σ L path root m) (hle : σ.Le τ) : Denotes τ L path root m := by
  induction h with
  | leaf items hload hne hids => exact .leaf items (hle _ _ hload) hne hids
  | branch items children f hload hnil hitems hne hkeys hsub hrest ih =>
      exact .branch items children f (hle _ _ hload) hnil hitems hne hkeys ih hrest

theorem Forest.mono {children : GoMap Key H} {f : Key → Catalog V}
    (h : Forest σ L path children f) (hle : σ.Le τ) : Forest τ L path children f :=
  ⟨h.keys, fun k root hk => (h.sub k root hk).mono hle, h.rest⟩

theorem Holds.mono {node : RadixNode V H} (h : Holds σ L path node m) (hle : σ.Le τ) :
    Holds τ L path node m := by
  cases h with
  | leaf items hids => exact .leaf items hids
  | branch items children f hnil hitems hne hf =>
      exact .branch items children f hnil hitems hne (hf.mono hle)

/-- An entry of a branch is one of a child. -/
theorem below_eq_some {f : Key → Catalog V} {v : V} (h : below path f id = some v) :
    path.length < id.length ∧ f (id.take (path.length + 1)) id = some v := by
  unfold below at h
  split_ifs at h with hlen
  exact ⟨by omega, h⟩

/-- An entry under a path is one of a child there. -/
theorem Forest.child {children : GoMap Key H} {f : Key → Catalog V} {v : V}
    (h : Forest σ L path children f) (hv : f key id = some v) :
    ∃ child, children.get key = some child := by
  cases hchild : children.get key with
  | some child => exact ⟨child, rfl⟩
  | none =>
      rw [h.rest _ hchild] at hv
      nomatch hv

/-- Every entry of a tree is an ID under its path. -/
theorem Denotes.isId (h : Denotes σ L path root m) :
    ∀ {id : Key} {v : V}, m id = some v → IsId L path id := by
  induction h with
  | leaf items hload hne hids => exact fun hv => hids _ _ hv
  | branch items children f hload hnil hitems hne hkeys hsub hrest ih =>
      intro id v hv
      obtain ⟨-, hv⟩ := below_eq_some hv
      obtain ⟨child, hchild⟩ := Forest.child ⟨hkeys, hsub, hrest⟩ hv
      exact (ih _ _ hchild hv).up (hkeys _ _ hchild)

/-- An entry of a child is one of the branch. -/
theorem Forest.below_of_child {children : GoMap Key H} {f : Key → Catalog V} {v : V}
    (h : Forest σ L path children f) (hv : f key id = some v) : below path f id = some v := by
  obtain ⟨child, hchild⟩ := h.child hv
  obtain ⟨hlen, htake⟩ := ((h.sub _ _ hchild).isId hv).child (h.keys _ _ hchild)
  rw [below, if_neg (by omega), htake]
  exact hv

/-- A map with a length has an entry. -/
theorem exists_get_of_len {α : Type} {m : GoMap Key α} (h : m.len ≠ 0) :
    ∃ k v, m.get k = some v := by
  by_contra hnone
  refine h (GoMap.len_eq_zero.2 fun k => Option.eq_none_iff_forall_ne_some.2 fun v hv => ?_)
  exact hnone ⟨k, v, hv⟩

/-- **No tree is empty.** -/
theorem Denotes.nonempty (h : Denotes σ L path root m) : ∃ id v, m id = some v := by
  induction h with
  | leaf items hload hne hids => exact exists_get_of_len hne
  | branch items children f hload hnil hitems hne hkeys hsub hrest ih =>
      obtain ⟨k, child, hchild⟩ := exists_get_of_len hne
      obtain ⟨id, v, hv⟩ := ih k child hchild
      exact ⟨id, v, Forest.below_of_child ⟨hkeys, hsub, hrest⟩ hv⟩

theorem Denotes.length_le (h : Denotes σ L path root m) : path.length ≤ L := by
  obtain ⟨id, v, hv⟩ := h.nonempty
  obtain ⟨hpath, hid⟩ := h.isId hv
  exact hid ▸ hpath.length_le

/-- The IDs of a branch are longer than its path. -/
theorem Forest.length_lt {children : GoMap Key H} {f : Key → Catalog V}
    (h : Forest σ L path children f) (hne : children.len ≠ 0) : path.length < L := by
  obtain ⟨k, child, hchild⟩ := exists_get_of_len hne
  have hle := (h.sub k child hchild).length_le
  rw [(h.keys k child hchild).2] at hle
  exact hle

/-- **A root denotes one catalog.** -/
theorem Denotes.unique (h : Denotes σ L path root m) :
    ∀ {m' : Catalog V}, Denotes σ L path root m' → m = m' := by
  induction h with
  | leaf items hload hne hids =>
      intro m' h'
      cases h' with
      | leaf items' hload' =>
          rw [hload] at hload'
          cases hload'
          rfl
      | branch items' children f hload' hnil =>
          rw [hload] at hload'
          cases hload'
          nomatch hnil
  | branch items children f hload hnil hitems hne hkeys hsub hrest ih =>
      intro m' h'
      cases h' with
      | leaf items' hload' =>
          rw [hload] at hload'
          cases hload'
          nomatch hnil
      | branch items' children' f' hload' _ _ _ _ hsub' hrest' =>
          rw [hload] at hload'
          cases hload'
          have hf : f = f' := by
            funext k
            cases hchild : children.get k with
            | none => rw [hrest k hchild, hrest' k hchild]
            | some child => exact ih k child hchild (hsub' k child hchild)
          rw [hf]

/-- **A catalog is finite.** -/
theorem Denotes.finite (h : Denotes σ L path root m) : {id | m id ≠ none}.Finite := by
  induction h with
  | leaf items hload hne hids =>
      refine items.keys.finite_toSet.subset fun id hid => ?_
      obtain ⟨v, hv⟩ := Option.ne_none_iff_exists'.1 hid
      exact GoMap.mem_keys.2 ⟨v, hv⟩
  | branch items children f hload hnil hitems hne hkeys hsub hrest ih =>
      have hunion : (⋃ k ∈ children.keys, {id | f k id ≠ none}).Finite := by
        refine Set.Finite.biUnion children.keys.finite_toSet fun k hk => ?_
        obtain ⟨child, hchild⟩ := GoMap.mem_keys.1 hk
        exact ih k child hchild
      refine hunion.subset fun id hid => ?_
      obtain ⟨v, hv⟩ := Option.ne_none_iff_exists'.1 hid
      obtain ⟨-, hv⟩ := below_eq_some hv
      obtain ⟨child, hchild⟩ := Forest.child ⟨hkeys, hsub, hrest⟩ hv
      refine Set.mem_biUnion (GoMap.mem_keys.2 ⟨child, hchild⟩) ?_
      rw [Set.mem_ofPred_eq, hv]
      exact Option.some_ne_none v

/-! ## Changing a branch -/

section

variable {children children' : GoMap Key H} {f g : Key → Catalog V}

/-- A new tree in the place of a child. -/
theorem Forest.set (h : Forest σ L path children f) (hkey : Extends path key)
    (hroot : Denotes σ L key root m) (hset : children.set key root = some children')
    (hg : g key = m) (hother : ∀ k, k ≠ key → g k = f k) : Forest σ L path children' g := by
  cases children with
  | nil => nomatch hset
  | made t =>
      cases hset
      refine ⟨?_, ?_, ?_⟩
      · intro k child hchild
        rw [GoMap.get_insert] at hchild
        split_ifs at hchild with hk
        · rw [hk]
          exact hkey
        · exact h.keys k child hchild
      · intro k child hchild
        rw [GoMap.get_insert] at hchild
        split_ifs at hchild with hk
        · cases hchild
          rw [hk, hg]
          exact hroot
        · rw [hother k hk]
          exact h.sub k child hchild
      · intro k hchild
        rw [GoMap.get_insert] at hchild
        split_ifs at hchild with hk
        rw [hother k hk]
        exact h.rest k hchild

/-- A branch without one of its children. -/
theorem Forest.delete (h : Forest σ L path children f) (hg : g key = fun _ => none)
    (hother : ∀ k, k ≠ key → g k = f k) : Forest σ L path (children.delete key) g := by
  refine ⟨?_, ?_, ?_⟩
  · intro k child hchild
    rw [GoMap.get_delete] at hchild
    split_ifs at hchild with hk
    exact h.keys k child hchild
  · intro k child hchild
    rw [GoMap.get_delete] at hchild
    split_ifs at hchild with hk
    rw [hother k hk]
    exact h.sub k child hchild
  · intro k hchild
    rw [GoMap.get_delete] at hchild
    split_ifs at hchild with hk
    · rw [hk]
      exact hg
    · rw [hother k hk]
      exact h.rest k hchild

end

end ObjectLog.Git
