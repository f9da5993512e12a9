import ObjectLog.Proof.IndexUpdate
import ObjectLog.Proof.IndexReads
import ObjectLog.Proof.IndexFilter
import ObjectLog.Proof.FetchPolicy

/-!
# The Git example

The catalog of the example is a finite map, whatever the order in which its loops meet their
entries.
-/

namespace ObjectLog.Git

open Rely

/-- **The radix index refines a finite map.** IDs have length `L`, the caller's functions fail
only with errors in `F`, and `w` is any store of nodes. However a function ends, the nodes of
`w` stay, so every root that denoted a catalog before denotes it after. -/
theorem radix_index_refines_finite_map {V H ε : Type} [DecidableEq H] (L : Nat) (F : ε → Prop)
    (w : IndexWorld V H) :
    (∀ path root m, Denotes w.nodes L path root m →
      {id | m id ≠ none}.Finite ∧
      (∃ node, w.nodes root = some node ∧ Holds w.nodes L path node m) ∧
      (∀ m', Denotes w.nodes L path root m' → m' = m) ∧
      ∀ w' : IndexWorld V H, w.nodes.Le w'.nodes → Denotes w'.nodes L path root m) ∧
    (∀ path node m updates fuel, Holds w.nodes L path node m → Updates L path updates →
      L < path.length + fuel →
      wp (indexRules L F smallLeaves) (updateRadix fuel path node updates)
        (fun r w' => w.nodes.Le w'.nodes ∧ Returns F (fun root u =>
          Denotes u.nodes L path root (override m updates)) r w') w) ∧
    (∀ path root m id, Denotes w.nodes L path root m →
      wp (indexRules L F loadsOnly) (lookupRadix id path root)
        (fun r w' => w.nodes.Le w'.nodes ∧ Returns F (fun answer _ => answer = m id) r w') w) ∧
    (∀ path root m fuel, Denotes w.nodes L path root m → L < path.length + fuel →
      wp (indexRules L F loadsAndVisits) (walkRadix fuel path root)
        (fun r w' => w.nodes.Le w'.nodes ∧ Returns F (fun _ u =>
          ∃ l, u.visited = w.visited ++ l ∧ Lists m l) r w') w) ∧
    ∀ path root m keep fuel, Denotes w.nodes L path root m → L < path.length + fuel →
      wp (indexRules L F savesNodes) (filterRadix keep fuel path root)
        (fun r w' => w.nodes.Le w'.nodes ∧ Returns F (fun result u =>
          Filtered u.nodes L path root m keep result) r w') w := by
  refine ⟨?_, ?_, ?_, ?_, ?_⟩
  · intro path root m hm
    exact ⟨hm.finite, hm.holds, fun m' hm' => hm'.unique hm, fun w' hle => hm.mono hle⟩
  · intro path node m updates fuel hnode hupdates hfuel
    have hdoes := updateRadix_does (F := F) hfuel node m updates w hnode hupdates
    exact (hdoes.mono fun root u h => h.2).keepsNodes
  · intro path root m id hm
    have hdoes := lookupRadix_does (F := F) id hm
    exact (hdoes.mono fun answer u h => h.2).keepsNodes
  · intro path root m fuel hm hfuel
    have hdoes := walkRadix_does (F := F) hfuel root m w hm
    exact (hdoes.mono fun _ u h => h.2).keepsNodes
  · intro path root m keep fuel hm hfuel
    have hdoes := filterRadix_does (F := F) keep hfuel root m w hm
    exact (hdoes.mono fun result u h => h.2).keepsNodes

/-! ## The fetch policy -/

section

variable {store : ObjectStore} {tips wants haves : List Hash} {fuel : Nat}

/-- **The fetch policy exposes exactly the published graph.** On every graph it ends, and what
it lets through is published. Where the edges lead to objects of the types that pushes are
checked for, it fails exactly if some want is not published, and the answer is settled by the
request and the objects alone, not by the order of a loop over a map. -/
theorem fetch_policy_exposes_published_graph (hstored : AllStored store tips)
    (hfuel : store.keys.card < fuel) :
    Ends (fromObjects store) (visibleFetch fuel tips wants haves) (fun r =>
      r = .error .notReachable ∨ ∃ valid, r = .ok valid ∧
        (∀ id ∈ wants, Published store tips id) ∧ valid.Sublist haves ∧
        ∀ id ∈ valid, Published store tips id) ∧
    (EdgesValid store tips → ∃ answer,
      Ends (fromObjects store) (visibleFetch fuel tips wants haves) (· = answer) ∧
      ((∃ valid, answer = .ok valid) ↔ ∀ id ∈ wants, Published store tips id) ∧
      ∀ valid, answer = .ok valid → ∃ shown : Hash → Bool, valid = haves.filter shown ∧
        ∀ id ∈ haves, (shown id = true → Published store tips id) ∧
          (id ∈ tips ∨ (Published store tips id ∧
            ∃ o, store.lookup id = some o ∧ o.type = .commit) → shown id = true)) := by
  have hends : Ends (fromObjects store) (visibleFetch fuel tips wants haves) _ :=
    visibleFetch_ends hstored hfuel
  constructor
  · refine hends.mono ?_
    intro r ⟨walk, hended, hr⟩
    split_ifs at hr with hall
    · refine .inr ⟨_, hr, ?_, List.filter_sublist, ?_⟩
      · intro id hid
        exact hended.sound.visible id (by simpa using List.all_eq_true.1 hall id hid)
      · intro id hid
        exact hended.sound.visible id (by simpa using (List.mem_filter.1 hid).2)
    · exact .inl hr
  · intro hvalid
    classical
    let full := (fetchNeeds store tips wants haves).fullWalk
    let shown : Hash → Bool := fun id => decide (HaveShown store tips full id)
    refine ⟨if ∀ id ∈ wants, Published store tips id then .ok (haves.filter shown)
      else .error .notReachable, hends.mono ?_, ?_, ?_⟩
    · intro r ⟨walk, hended, hr⟩
      have hall : wants.all (· ∈ walk.visible) = true ↔ ∀ id ∈ wants, Published store tips id := by
        rw [List.all_eq_true]
        refine forall_congr' fun id => forall_congr' fun hid => ?_
        rw [decide_eq_true_eq, hended.want_visible hstored hvalid hid]
      have hfilter : haves.filter (· ∈ walk.visible) = haves.filter shown := by
        refine List.filter_congr fun id hid => ?_
        exact decide_eq_decide.2 (hended.have_visible hstored hvalid hid)
      rw [hr, hfilter]
      exact if_congr hall rfl rfl
    · split_ifs with hall
      · exact ⟨fun _ => hall, fun _ => ⟨_, rfl⟩⟩
      · refine ⟨fun hsome => ?_, fun h => absurd h hall⟩
        obtain ⟨valid, hvalid⟩ := hsome
        nomatch hvalid
    · intro valid hvalid
      split_ifs at hvalid with hall
      cases hvalid
      refine ⟨shown, rfl, fun id _ => ⟨fun hid => (of_decide_eq_true hid).1, fun hid => ?_⟩⟩
      refine decide_eq_true ?_
      rcases hid with htip | ⟨hpub, hcommit⟩
      · exact ⟨.tip htip, .inr (.inl htip)⟩
      · exact ⟨hpub, .inr (.inr hcommit)⟩

end

/-- Four objects: a commit with a parent, and a file in the tree of both. -/
def fetchObjects : List (Sigma fun _ : Hash => Object) :=
  [⟨[1], .commit [2] [[5]]⟩, ⟨[5], .commit [2] []⟩, ⟨[2], .tree [⟨.other, [3]⟩]⟩, ⟨[3], .blob⟩]

theorem fetch_policy_exposes_published_graph_file :
    AllStored fetchObjects.toFinmap [[1]] ∧ fetchObjects.toFinmap.keys.card < 5 ∧
      ∃ valid, Ends (fromObjects fetchObjects.toFinmap)
        (visibleFetch 5 [[1]] [[3]] [[5], [9]]) (· = .ok valid) ∧ [5] ∈ valid ∧ [9] ∉ valid := by
  have hstored : AllStored fetchObjects.toFinmap [[1]] :=
    allStored_of_list (by decide) (by decide)
  have hvalid : EdgesValid fetchObjects.toFinmap [[1]] := by
    intro id o _ ho
    have hall : ∀ object ∈ fetchObjects,
        ObjectStore.verifyEdges fetchObjects.toFinmap object.2 = true := by decide
    exact hall _ (mem_of_lookup ho)
  have hcard : fetchObjects.toFinmap.keys.card < 5 := by decide
  refine ⟨hstored, hcard, ?_⟩
  obtain ⟨answer, hends, hok, hvalues⟩ :=
    (fetch_policy_exposes_published_graph hstored hcard).2 hvalid
  have htree : Published fetchObjects.toFinmap [[1]] [2] :=
    .edge (.tip (List.mem_singleton.2 rfl)) (o := .commit [2] [[5]]) rfl (by decide)
  have hwants : ∀ id ∈ [[3]], Published fetchObjects.toFinmap [[1]] id := by
    intro id hid
    cases List.mem_singleton.1 hid
    exact .edge htree (o := .tree [⟨.other, [3]⟩]) rfl (by decide)
  obtain ⟨valid, rfl⟩ := hok.2 hwants
  obtain ⟨shown, hvalid, hshown⟩ := hvalues valid rfl
  refine ⟨valid, hends, ?_, ?_⟩
  · have hparent : Published fetchObjects.toFinmap [[1]] [5] :=
      .edge (.tip (List.mem_singleton.2 rfl)) (o := .commit [2] [[5]]) rfl (by decide)
    rw [hvalid]
    refine List.mem_filter.2 ⟨by decide, (hshown [5] (by decide)).2 (.inr ⟨hparent, ?_⟩)⟩
    exact ⟨.commit [2] [], rfl, rfl⟩
  · intro hmem
    rw [hvalid] at hmem
    obtain ⟨o, ho⟩ := hstored [9] ((hshown [9] (by decide)).1 (List.mem_filter.1 hmem).2)
    have hnone : fetchObjects.toFinmap.lookup [9] = none := rfl
    rw [hnone] at ho
    nomatch ho

/-! ## Graphs that no push makes -/

/-- A commit whose tree has an entry that names another commit, as a file. -/
def mistypedObjects : List (Sigma fun _ : Hash => Object) :=
  [⟨[1], .commit [2] []⟩, ⟨[2], .tree [⟨.other, [3]⟩]⟩, ⟨[3], .commit [4] []⟩, ⟨[4], .tree []⟩]

/-- **A commit that can be reached through a tree only is refused**, because a request for
commits does not read trees. -/
theorem mistyped_commit_refused :
    AllStored mistypedObjects.toFinmap [[1]] ∧
    Published mistypedObjects.toFinmap [[1]] [3] ∧
    ∀ fuel, Ends (fromObjects mistypedObjects.toFinmap)
      (visibleFetch (fuel + 2) [[1]] [[3]] []) (· = .error .notReachable) := by
  refine ⟨allStored_of_list (by decide) (by decide), ?_, ?_⟩
  · have htree : Published mistypedObjects.toFinmap [[1]] [2] :=
      .edge (.tip (List.mem_singleton.2 rfl)) (o := .commit [2] []) rfl (by decide)
    exact .edge htree (o := .tree [⟨.other, [3]⟩]) rfl (by decide)
  · intro fuel answer hanswer
    -- the want is a stored commit, so it is needed and trees are not read
    have hwant : answer = .ok (.commit [4] []) := hanswer
    subst hwant
    intro answer hanswer
    have htip : answer = .ok (.commit [2] []) := hanswer
    subst htip
    -- the tip has no parents, so the walk is over
    intro order _
    obtain ⟨list, hnodup, hlist⟩ := order
    cases list with
    | nil => exact rfl
    | cons id rest => nomatch (hlist id).1 (List.mem_cons_self ..)

end ObjectLog.Git
