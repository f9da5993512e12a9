import ObjectLog.Proof.Served
import ObjectLog.Proof.WalkErrors

/-!
# The closure of a graph walk

A walk over fixed contents meets the references under its roots, and only those. What it
returns does not depend on the order in which its reads are answered: it ends well exactly
if every object of the closure passes its checks, and then it has met the closure.

The graph is whatever the contents spell out. References may be forged, so it may have
cycles, and the walk ends because every key is put on it once.
-/

namespace ObjectLog

open Rely

variable [Blake3] {σ : Bodies} {log : Log} {blocked : Option (List CollectionCandidate)}
  {mode : GraphWalk} {roots : List ObjectRef} {base : Visited}

/-! ## What a walk asks -/

/-- The references under the roots. -/
def Closure (σ : Bodies) (log : Log) (roots : List ObjectRef) (r : ObjectRef) : Prop :=
  ∃ o ∈ roots, UnderRef σ log.incarnation log.options o r

/-- The contents have the bytes that the reference describes. -/
structure Intact (σ : Bodies) (log : Log) (r : ObjectRef) (bytes : Bytes) : Prop where
  held : σ (objectKey log.incarnation r) = some bytes
  digest : Digest.of bytes = r.digest
  len : bytes.length = r.len.toNat

/-- What a walk asks of an object. -/
structure Admissible (σ : Bodies) (log : Log) (blocked : Option (List CollectionCandidate))
    (mode : GraphWalk) (r : ObjectRef) : Prop where
  kind : r.kind ≠ .checkpoint
  counted : r.Counted
  fits : r.len ≤ log.options.maxObjectBytes
  free : ¬ blocked.any (isCollectionCandidate · (objectKey log.incarnation r))
  node : r.kind = .node → ∃ bytes node, Intact σ log r bytes ∧
    decodeNode bytes log.options = .ok node ∧ subtreeObjects node.children = .ok r.subtreeObjects
  blob : r.kind = .blob → mode = .verifyBlobs → ∃ bytes, Intact σ log r bytes

/-- What a walk asks of the graph under its roots. -/
structure Markable (σ : Bodies) (log : Log) (blocked : Option (List CollectionCandidate))
    (mode : GraphWalk) (roots : List ObjectRef) (base : Visited) : Prop where
  each : ∀ r, Closure σ log roots r → Admissible σ log blocked mode r
  agree : ∀ r r', Closure σ log roots r → Closure σ log roots r' →
    objectKey log.incarnation r = objectKey log.incarnation r' →
    r.len = r'.len ∧ r.subtreeObjects = r'.subtreeObjects
  count : ∀ ks : List ImmutableKey, ks.Nodup →
    (∀ k ∈ ks, ∃ r, Closure σ log roots r ∧ objectKey log.incarnation r = k) →
    base.length + ks.length ≤ log.options.maxCollectionObjects.toNat

/-- The map has no blob and no node of the closure. -/
def Visited.Apart (base : Visited) (σ : Bodies) (log : Log) (roots : List ObjectRef) : Prop :=
  ∀ r, Closure σ log roots r → r.kind ≠ .checkpoint →
    base.lookup (objectKey log.incarnation r) = none

/-- What a walk enters for an object. -/
def ObjectRef.entry (log : Log) (r : ObjectRef) : ImmutableKey × (UInt64 × UInt64) :=
  (objectKey log.incarnation r, (r.len, r.subtreeObjects))

/-- How a walk ends: with the closure entered into the map, or with an error because the
closure is not as the walk asks. -/
def MarkEnds (σ : Bodies) (log : Log) (blocked : Option (List CollectionCandidate))
    (mode : GraphWalk) (roots : List ObjectRef) (base : Visited) : Except Error Visited → Prop
  | .ok visited => Markable σ log blocked mode roots base ∧
      ∃ met : List ObjectRef, visited = met.map (ObjectRef.entry log) ++ base ∧
        (met.map (objectKey log.incarnation)).Nodup ∧ ∀ r, r ∈ met ↔ Closure σ log roots r
  | .error _ => ¬ Markable σ log blocked mode roots base

/-! ## Meeting objects -/

/-- The objects that were met: their entries are in front of the map, each key once. -/
structure Met (σ : Bodies) (log : Log) (blocked : Option (List CollectionCandidate))
    (roots : List ObjectRef) (base : Visited) (met : List ObjectRef) (visited : Visited) : Prop where
  entries : visited = met.map (ObjectRef.entry log) ++ base
  keys : (met.map (objectKey log.incarnation)).Nodup
  inside : ∀ r ∈ met, Closure σ log roots r
  checked : ∀ r ∈ met, Enqueueable log blocked r ∧ r.len ≤ log.options.maxObjectBytes
  limit : visited.length ≤ log.options.maxCollectionObjects.toNat

omit [Blake3] in
theorem lookup_entries {met : List ObjectRef} {k : ImmutableKey} {m : UInt64 × UInt64}
    (h : (met.map (ObjectRef.entry log) ++ base).lookup k = some m) :
    (∃ r ∈ met, objectKey log.incarnation r = k ∧ (r.len, r.subtreeObjects) = m) ∨
      base.lookup k = some m := by
  induction met with
  | nil => exact .inr h
  | cons r met ih =>
      rw [List.map_cons, List.cons_append, ObjectRef.entry, List.lookup_cons] at h
      split at h
      · rename_i hk
        exact .inl ⟨r, by simp, (beq_iff_eq.1 hk).symm, Option.some.inj h⟩
      · rcases ih h with ⟨x, hx, hrest⟩ | hbase
        · exact .inl ⟨x, by simp [hx], hrest⟩
        · exact .inr hbase

omit [Blake3] in
theorem lookup_entries_none {met : List ObjectRef} {k : ImmutableKey}
    (h : (met.map (ObjectRef.entry log) ++ base).lookup k = none) :
    k ∉ met.map (objectKey log.incarnation) := by
  induction met with
  | nil => simp
  | cons r met ih =>
      rw [List.map_cons, List.cons_append, ObjectRef.entry, List.lookup_cons] at h
      split at h
      · cases h
      · rename_i hk
        rw [List.map_cons, List.mem_cons, not_or]
        exact ⟨ne_of_beq_false hk, ih h⟩

variable {met : List ObjectRef} {walk : Walk} {o : ObjectRef}

/-- The entry of an object of the closure is that of the object. -/
theorem Met.lookup {visited : Visited} {declared : UInt64 × UInt64}
    (m : Met σ log blocked roots base met visited)
    (hbase : base.lookup (objectKey log.incarnation o) = none)
    (h : visited.lookup (objectKey log.incarnation o) = some declared) :
    ∃ r ∈ met, objectKey log.incarnation r = objectKey log.incarnation o ∧
      (r.len, r.subtreeObjects) = declared := by
  rw [m.entries] at h
  rcases lookup_entries h with hmet | hold
  · exact hmet
  · rw [hbase] at hold
    cases hold

/-- The keys that were met, with one more, are keys of the closure. -/
theorem Met.room {visited : Visited} (m : Met σ log blocked roots base met visited)
    (mk : Markable σ log blocked mode roots base) (ho : Closure σ log roots o)
    (h : visited.lookup (objectKey log.incarnation o) = none) :
    visited.length + 1 ≤ log.options.maxCollectionObjects.toNat := by
  have hnew := h
  rw [m.entries] at hnew
  have hcount := mk.count (objectKey log.incarnation o :: met.map (objectKey log.incarnation))
    (List.nodup_cons.2 ⟨lookup_entries_none hnew, m.keys⟩) ?_
  · have hlen := congrArg List.length m.entries
    simp only [List.length_append, List.length_map, List.length_cons] at hlen hcount
    omega
  · intro k hk
    rcases List.mem_cons.1 hk with rfl | hk
    · exact ⟨o, ho, rfl⟩
    · obtain ⟨r, hr, rfl⟩ := List.mem_map.1 hk
      exact ⟨r, m.inside r hr, rfl⟩

/-- In a graph as the walk asks for, an object of the closure is put on the walk. -/
theorem Met.enqueue_markable (m : Met σ log blocked roots base met walk.visited)
    (apart : base.Apart σ log roots)
    (ho : Closure σ log roots o) (mk : Markable σ log blocked mode roots base) :
    ∃ walk', log.enqueueObject blocked walk o = .ok walk' := by
  have adm := mk.each o ho
  cases hl : walk.visited.lookup (objectKey log.incarnation o) with
  | some declared =>
      obtain ⟨r, hr, hk, rfl⟩ := m.lookup (apart o ho adm.kind) hl
      obtain ⟨h1, h2⟩ := mk.agree r o (m.inside r hr) ho hk
      refine ⟨walk, ?_⟩
      simp only [Log.enqueueObject, bind_ok, ensure_ok, hl]
      exact ⟨(), adm.kind, (), adm.counted, (), adm.free, (), by rw [h1, h2], rfl⟩
  | none =>
      refine ⟨⟨o.entry log :: walk.visited, walk.pending ++ [o]⟩, ?_⟩
      simp only [Log.enqueueObject, bind_ok, ensure_ok, hl]
      exact ⟨(), adm.kind, (), adm.counted, (), adm.free, (), m.room mk ho hl, (), adm.fits, rfl⟩

/-- **Putting an object of the closure on the walk.** It was met before, or it is met now;
an error says that the graph is not as the walk asks. -/
theorem Met.enqueue (mode : GraphWalk) (m : Met σ log blocked roots base met walk.visited)
    (apart : base.Apart σ log roots)
    (ho : Closure σ log roots o) :
    match log.enqueueObject blocked walk o with
    | .ok walk' => (walk' = walk ∧ o ∈ met) ∨ (walk'.pending = walk.pending ++ [o] ∧
        Met σ log blocked roots base (o :: met) walk'.visited)
    | .error _ => ¬ Markable σ log blocked mode roots base := by
  cases hw : log.enqueueObject blocked walk o with
  | error e =>
      intro mk
      obtain ⟨walk', hok⟩ := m.enqueue_markable apart ho mk
      rw [hw] at hok
      cases hok
  | ok walk' =>
      simp only [Log.enqueueObject, bind_ok, ensure_ok] at hw
      obtain ⟨⟨⟩, hkind, ⟨⟩, hcount, ⟨⟩, hfree, hw⟩ := hw
      split at hw
      · rename_i declared hl
        simp only [bind_ok, ensure_ok, pure, Except.pure, Except.ok.injEq] at hw
        obtain ⟨⟨⟩, rfl, rfl⟩ := hw
        obtain ⟨r, hr, hk, hmeta⟩ := m.lookup (apart o ho hkind) hl
        obtain ⟨h1, h2⟩ := Prod.mk.inj hmeta
        obtain rfl := ObjectRef.eq_of_key hk h1 h2
        exact .inl ⟨rfl, hr⟩
      · rename_i hl
        simp only [bind_ok, ensure_ok, pure, Except.pure, Except.ok.injEq] at hw
        obtain ⟨⟨⟩, hlimit, ⟨⟩, hfits, rfl⟩ := hw
        rw [m.entries] at hl
        refine .inr ⟨rfl, ?_, ?_, ?_, ?_, hlimit⟩
        · rw [List.map_cons, List.cons_append, ← m.entries]
          rfl
        · exact List.nodup_cons.2 ⟨lookup_entries_none hl, m.keys⟩
        · intro r hr
          rcases List.mem_cons.1 hr with rfl | hr
          · exact ho
          · exact m.inside r hr
        · intro r hr
          rcases List.mem_cons.1 hr with rfl | hr
          · exact ⟨⟨hkind, hcount, hfree⟩, hfits⟩
          · exact m.checked r hr

/-- Objects of the closure are put on the walk one after the other. -/
theorem Met.enqueueAll (mode : GraphWalk) (apart : base.Apart σ log roots) :
    ∀ (objects : List ObjectRef) (met : List ObjectRef) (walk : Walk),
      Met σ log blocked roots base met walk.visited → (∀ o ∈ objects, Closure σ log roots o) →
      match objects.foldlM (log.enqueueObject blocked) walk with
      | .ok walk' => ∃ new, walk'.pending = walk.pending ++ new ∧
          Met σ log blocked roots base (new.reverse ++ met) walk'.visited ∧
          ∀ o ∈ objects, o ∈ new.reverse ++ met
      | .error _ => ¬ Markable σ log blocked mode roots base
  | [], met, walk, m, _ => ⟨[], by simp, m, nofun⟩
  | o :: objects, met, walk, m, ho => by
      have hfirst := m.enqueue mode apart (ho o (by simp))
      rw [List.foldlM_cons]
      cases hw : log.enqueueObject blocked walk o with
      | error e =>
          rw [hw] at hfirst
          exact hfirst
      | ok walk₁ =>
          rw [hw] at hfirst
          change match objects.foldlM (log.enqueueObject blocked) walk₁ with
            | .ok walk' => _
            | .error _ => _
          have hrest : ∀ x ∈ objects, Closure σ log roots x := fun x hx => ho x (by simp [hx])
          rcases hfirst with ⟨rfl, hmem⟩ | ⟨hpending, m₁⟩
          · have ih := Met.enqueueAll mode apart objects met walk₁ m hrest
            cases hw₁ : objects.foldlM (log.enqueueObject blocked) walk₁ with
            | error e =>
                rw [hw₁] at ih
                exact ih
            | ok walk₂ =>
                rw [hw₁] at ih
                obtain ⟨new, hpending, m₂, hall⟩ := ih
                refine ⟨new, hpending, m₂, fun x hx => ?_⟩
                rcases List.mem_cons.1 hx with rfl | hx
                · exact List.mem_append_right _ hmem
                · exact hall x hx
          · have ih := Met.enqueueAll mode apart objects (o :: met) walk₁ m₁ hrest
            cases hw₁ : objects.foldlM (log.enqueueObject blocked) walk₁ with
            | error e =>
                rw [hw₁] at ih
                exact ih
            | ok walk₂ =>
                rw [hw₁] at ih
                obtain ⟨new, hpending', m₂, hall⟩ := ih
                have hlist : (o :: new).reverse ++ met = new.reverse ++ (o :: met) := by simp
                refine ⟨o :: new, by rw [hpending', hpending]; simp, by rw [hlist]; exact m₂, ?_⟩
                intro x hx
                rw [hlist]
                rcases List.mem_cons.1 hx with rfl | hx
                · simp
                · exact hall x hx

/-! ## Following objects -/

/-- The object was read as far as the mode asks, and what it names was met. -/
def Followed (σ : Bodies) (log : Log) (mode : GraphWalk) (met : List ObjectRef) (r : ObjectRef) :
    Prop :=
  (mode = .reachability ∧ r.kind = .blob) ∨
    ∃ children, log.collectChildren r (σ (objectKey log.incarnation r)) = .ok children ∧
      ∀ c ∈ children, c ∈ met

theorem Followed.mono {met' : List ObjectRef} {r : ObjectRef} (hsub : ∀ x ∈ met, x ∈ met')
    (h : Followed σ log mode met r) : Followed σ log mode met' r := by
  rcases h with h | ⟨children, hc, hall⟩
  · exact .inl h
  · exact .inr ⟨children, hc, fun c hmem => hsub c (hall c hmem)⟩

/-- **The invariant of the walk.** Every object that was met is waiting, is being read, or has
been followed. -/
structure WalkAt (σ : Bodies) (log : Log) (blocked : Option (List CollectionCandidate))
    (mode : GraphWalk) (roots : List ObjectRef) (base : Visited) (met : List ObjectRef)
    (walk : Walk) (reads : List GraphRead) (bytes : Nat) : Prop where
  objects : Met σ log blocked roots base met walk.visited
  rooted : ∀ r ∈ roots, r ∈ met
  pending : ∀ r ∈ walk.pending, r ∈ met
  reading : ∀ x ∈ reads, x.2.1 ∈ met ∧ x.1 = x.2.1.len.toNat ∧ (∃ flight, x.2.2 = .ok flight) ∧
    ¬ (mode = .reachability ∧ x.2.1.kind = .blob)
  followed : ∀ r ∈ met, r ∈ walk.pending ∨ (∃ x ∈ reads, x.2.1 = r) ∨ Followed σ log mode met r
  active : bytes = (reads.map fun x => x.1).sum ∧ bytes ≤ log.options.maxObjectBytes.toNat

/-- The children of an object of the closure are in the closure. -/
theorem Closure.children {r c : ObjectRef} {children : List ObjectRef}
    (hr : Closure σ log roots r)
    (h : log.collectChildren r (σ (objectKey log.incarnation r)) = .ok children)
    (hc : c ∈ children) : Closure σ log roots c := by
  cases hb : σ (objectKey log.incarnation r) with
  | none =>
      rw [hb] at h
      cases h
  | some bytes =>
      rw [hb] at h
      obtain ⟨-, -, ⟨-, rfl⟩ | ⟨kind, node, hd, -, rfl⟩⟩ := collectChildren_ok h
      · cases hc
      · obtain ⟨o, ho, hu⟩ := hr
        exact ⟨o, ho, hu.trans (.child kind hb hd hc (.self c))⟩

/-- Objects that were met with their children are all there is. -/
theorem closure_met (hroots : ∀ r ∈ roots, r ∈ met)
    (hfollowed : ∀ r ∈ met, Followed σ log mode met r) {r : ObjectRef}
    (hr : Closure σ log roots r) : r ∈ met := by
  obtain ⟨o, ho, hu⟩ := hr
  have hmem := hroots o ho
  clear ho
  induction hu with
  | self r => exact hmem
  | @child r c x bytes node kind hb hd hc _ ih =>
      refine ih ?_
      rcases hfollowed r hmem with ⟨-, hblob⟩ | ⟨children, hcollect, hall⟩
      · rw [kind] at hblob
        cases hblob
      · rw [hb] at hcollect
        obtain ⟨-, -, ⟨hblob, -⟩ | ⟨-, node', hd', -, rfl⟩⟩ := collectChildren_ok hcollect
        · rw [kind] at hblob
          cases hblob
        · obtain rfl := Except.ok.inj (hd.symm.trans hd')
          exact hall c hc

/-- What was checked and followed is as the walk asks. -/
theorem Followed.admissible {r : ObjectRef} (h : Followed σ log mode met r)
    (he : Enqueueable log blocked r) (hfits : r.len ≤ log.options.maxObjectBytes) :
    Admissible σ log blocked mode r := by
  have intact : ∀ {children},
      log.collectChildren r (σ (objectKey log.incarnation r)) = .ok children →
      ∃ bytes, Intact σ log r bytes ∧ log.collectChildren r (some bytes) = .ok children := by
    intro children hc
    cases hb : σ (objectKey log.incarnation r) with
    | none =>
        rw [hb] at hc
        cases hc
    | some bytes =>
        rw [hb] at hc
        obtain ⟨hlen, hdigest, -⟩ := collectChildren_ok hc
        exact ⟨bytes, ⟨hb, hdigest, hlen⟩, hc⟩
  refine ⟨he.kind, he.counted, hfits, he.free, ?_, ?_⟩
  · intro kind
    rcases h with ⟨-, hblob⟩ | ⟨children, hc, -⟩
    · rw [kind] at hblob
      cases hblob
    · obtain ⟨bytes, hintact, hc⟩ := intact hc
      obtain ⟨-, -, ⟨hblob, -⟩ | ⟨-, node, hd, hs, -⟩⟩ := collectChildren_ok hc
      · rw [kind] at hblob
        cases hblob
      · exact ⟨bytes, node, hintact, hd, hs⟩
  · intro _ hmode
    rcases h with ⟨hreach, -⟩ | ⟨children, hc, -⟩
    · rw [hmode] at hreach
      cases hreach
    · obtain ⟨bytes, hintact, -⟩ := intact hc
      exact ⟨bytes, hintact⟩

/-- **A walk with nothing left has met the closure.** -/
theorem WalkAt.finished {bytes : Nat}
    (h : WalkAt σ log blocked mode roots base met walk [] bytes) (hnone : walk.pending = []) :
    MarkEnds σ log blocked mode roots base (.ok walk.visited) := by
  have hfollowed : ∀ r ∈ met, Followed σ log mode met r := by
    intro r hr
    rcases h.followed r hr with hp | ⟨x, hx, -⟩ | hf
    · rw [hnone] at hp
      cases hp
    · cases hx
    · exact hf
  have hmem : ∀ r, r ∈ met ↔ Closure σ log roots r := fun r =>
    ⟨h.objects.inside r, closure_met h.rooted hfollowed⟩
  refine ⟨⟨?_, ?_, ?_⟩, met, h.objects.entries, h.objects.keys, hmem⟩
  · intro r hr
    have hin := (hmem r).2 hr
    obtain ⟨he, hfits⟩ := h.objects.checked r hin
    exact (hfollowed r hin).admissible he hfits
  · intro r r' hr hr' hk
    have heq := List.inj_on_of_nodup_map h.objects.keys ((hmem r).2 hr) ((hmem r').2 hr') hk
    rw [heq]
    exact ⟨rfl, rfl⟩
  · intro ks hnodup hks
    have hsub : ks ⊆ met.map (objectKey log.incarnation) := by
      intro k hk
      obtain ⟨r, hr, rfl⟩ := hks k hk
      exact List.mem_map_of_mem ((hmem r).2 hr)
    have hle := (hnodup.subperm hsub).length_le
    have hlimit := h.objects.limit
    rw [h.objects.entries, List.length_append, List.length_map] at hlimit
    rw [List.length_map] at hle
    omega

/-- In a graph as the walk asks for, a read of an object of the closure succeeds. -/
theorem Markable.collects {r : ObjectRef} (mk : Markable σ log blocked mode roots base)
    (hr : Closure σ log roots r) (hmode : ¬ (mode = .reachability ∧ r.kind = .blob)) :
    ∃ children, log.collectChildren r (σ (objectKey log.incarnation r)) = .ok children := by
  have adm := mk.each r hr
  cases hkind : r.kind with
  | checkpoint => exact absurd hkind adm.kind
  | blob =>
      have hverify : mode = .verifyBlobs := by
        cases mode with
        | reachability => exact absurd ⟨rfl, hkind⟩ hmode
        | verifyBlobs => rfl
      obtain ⟨bytes, hintact⟩ := adm.blob hkind hverify
      have hmatches : Matches σ log.incarnation log.options r bytes :=
        ⟨hintact.held, hintact.digest, hintact.len, adm.counted, adm.fits⟩
      rw [hintact.held]
      exact (Stored.blob hkind hmatches).collectChildren hintact.held
  | node =>
      obtain ⟨bytes, node, hintact, hd, hs⟩ := adm.node hkind
      rw [hintact.held]
      refine ⟨node.children, bind_ok.2 ⟨_, collectObject_ok.2 ⟨hintact.len.le, rfl⟩, ?_⟩⟩
      rw [hkind]
      refine bind_ok.2 ⟨(), verifyObject_ok.2 ⟨adm.counted, hintact.len, hintact.digest⟩, ?_⟩
      exact bind_ok.2 ⟨_, decodeNodeReference_ok.2 ⟨hd, hs⟩, rfl⟩

/-! ## The walk -/

omit [Blake3] in
theorem startChildren_faultless {r : ObjectRef} (hkind : r.kind ≠ .checkpoint)
    (hfits : r.len ≤ log.options.maxObjectBytes) :
    Ends (Faultless σ) (log.startChildren r) fun x => ∃ flight, x = .ok (.ok flight) := by
  unfold Log.startChildren
  rw [if_neg hkind, if_neg (UInt64.not_lt.2 hfits)]
  exact startRead_faultless _ _

/-- What moving objects into reads leaves. -/
structure ReadsStarted (σ : Bodies) (log : Log) (blocked : Option (List CollectionCandidate))
    (mode : GraphWalk) (roots : List ObjectRef) (base : Visited) (met : List ObjectRef)
    (visited : Visited) (work : Nat) (next : List ObjectRef × List GraphRead × Nat) : Prop where
  walk : WalkAt σ log blocked mode roots base met ⟨visited, next.1⟩ next.2.1 next.2.2
  less : next.1.length + next.2.1.length ≤ work
  all : next.2.1 = [] → next.1 = []

/-- Moving objects into reads does not fail, and it moves some if there are any. -/
theorem startReads_started {visited : Visited} :
    ∀ (pending : List ObjectRef) (reads : List GraphRead) (bytes : Nat),
      WalkAt σ log blocked mode roots base met ⟨visited, pending⟩ reads bytes →
      Ends (Faultless σ) (log.startReads mode pending reads bytes) fun r => ∃ next, r = .ok next ∧
        ReadsStarted σ log blocked mode roots base met visited (pending.length + reads.length) next
  | [], reads, bytes, h => Ends.pure ⟨_, rfl, h, by simp, fun _ => rfl⟩
  | object :: pending, reads, bytes, h => by
      have hmem := h.pending object (by simp)
      obtain ⟨henq, hfits⟩ := h.objects.checked object hmem
      unfold Log.startReads
      split
      · rename_i hfull
        refine Ends.pure ⟨_, rfl, h, le_rfl, fun hnone => ?_⟩
        -- a full set of reads is not empty
        dsimp only at hnone
        rw [hnone] at hfull
        simp [maxConcurrentReads] at hfull
      split
      · -- the walk does not read this blob
        rename_i hskip
        have ih := startReads_started pending reads bytes ⟨h.objects, h.rooted,
          fun r hr => h.pending r (by simp [hr]), h.reading, fun r hr => ?_, h.active⟩
        · refine ih.mono ?_
          rintro r ⟨next, rfl, hnext⟩
          refine ⟨next, rfl, hnext.walk, ?_, hnext.all⟩
          have := hnext.less
          simp only [List.length_cons]
          omega
        · rcases h.followed r hr with hp | hrest
          · rcases List.mem_cons.1 hp with rfl | hp
            · exact .inr (.inr (.inl hskip))
            · exact .inl hp
          · exact .inr hrest
      rename_i hread
      dsimp only
      split
      · rename_i hroom
        exact Ends.pure ⟨_, rfl, h, le_rfl, fun hnone => absurd hnone hroom.1⟩
      rename_i hroom
      have hlen : object.len.toNat ≤ log.options.maxObjectBytes.toNat :=
        UInt64.le_iff_toNat_le.1 hfits
      have hmax : log.options.maxObjectBytes.toNat < 2 ^ 64 := UInt64.toNat_lt _
      -- the bytes of the active reads fit one object
      have hsum : bytes + object.len.toNat ≤ log.options.maxObjectBytes.toNat := by
        obtain ⟨hb, hle⟩ := h.active
        by_cases hr : reads = []
        · rw [hr] at hb
          simp only [List.map_nil, List.sum_nil] at hb
          omega
        · by_contra hover
          exact hroom ⟨hr, by omega⟩
      rw [if_neg (by omega)]
      refine (startChildren_faultless henq.kind hfits).bind ?_ (by rintro _ ⟨_, ⟨⟩⟩)
      rintro started ⟨flight, hstarted⟩
      rw [Except.ok.inj hstarted]
      have ih := startReads_started pending (reads ++ [(object.len.toNat, object, .ok flight)])
        (bytes + object.len.toNat) ⟨h.objects, h.rooted, fun r hr => h.pending r (by simp [hr]),
          fun x hx => ?_, fun r hr => ?_, ?_, hsum⟩
      · refine ih.mono ?_
        rintro r ⟨next, rfl, hnext⟩
        refine ⟨next, rfl, hnext.walk, ?_, hnext.all⟩
        have := hnext.less
        simp only [List.length_append, List.length_cons, List.length_nil] at this ⊢
        omega
      · rcases List.mem_append.1 hx with hx | hx
        · exact h.reading x hx
        · rw [List.mem_singleton.1 hx]
          exact ⟨hmem, rfl, ⟨flight, rfl⟩, hread⟩
      · rcases h.followed r hr with hp | ⟨x, hx, hxr⟩ | hf
        · rcases List.mem_cons.1 hp with rfl | hp
          · exact .inr (.inl ⟨_, List.mem_append_right _ (List.mem_singleton_self _), rfl⟩)
          · exact .inl hp
        · exact .inr (.inl ⟨x, List.mem_append_left _ hx, hxr⟩)
        · exact .inr (.inr hf)
      · simp only [List.map_append, List.map_cons, List.map_nil, List.sum_append, List.sum_cons,
          List.sum_nil, ← h.active.1]
        omega

/-- One read is answered, and what it names is put on the walk. -/
theorem WalkAt.answer {reads : List GraphRead} {bytes i : Nat} {x : GraphRead}
    {children new : List ObjectRef} {walk' : Walk}
    (h : WalkAt σ log blocked mode roots base met walk reads bytes) (hx : reads[i]? = some x)
    (hc : log.collectChildren x.2.1 (σ (objectKey log.incarnation x.2.1)) = .ok children)
    (hpending : walk'.pending = walk.pending ++ new)
    (hmet : Met σ log blocked roots base (new.reverse ++ met) walk'.visited)
    (hall : ∀ c ∈ children, c ∈ new.reverse ++ met) :
    WalkAt σ log blocked mode roots base (new.reverse ++ met) walk' (reads.eraseIdx i)
      (bytes - x.1) := by
  have hold : ∀ r ∈ met, r ∈ new.reverse ++ met := fun r hr => List.mem_append_right _ hr
  have hsum := sum_eraseIdx (fun x : GraphRead => x.1) hx
  refine ⟨hmet, fun r hr => hold r (h.rooted r hr), ?_, ?_, ?_, ?_, ?_⟩
  · intro r hr
    rw [hpending] at hr
    rcases List.mem_append.1 hr with hr | hr
    · exact hold r (h.pending r hr)
    · exact List.mem_append_left _ (List.mem_reverse.2 hr)
  · intro y hy
    obtain ⟨h1, h2, h3⟩ := h.reading y (List.mem_of_mem_eraseIdx hy)
    exact ⟨hold _ h1, h2, h3⟩
  · intro r hr
    rcases List.mem_append.1 hr with hnew | hr
    · exact .inl (hpending ▸ List.mem_append_right _ (List.mem_reverse.1 hnew))
    rcases h.followed r hr with hp | ⟨y, hy, rfl⟩ | hf
    · exact .inl (hpending ▸ List.mem_append_left _ hp)
    · -- the read that was answered, or another one
      obtain ⟨j, hj⟩ := List.getElem?_of_mem hy
      by_cases hij : j = i
      · subst hij
        obtain rfl := Option.some.inj (hx.symm.trans hj)
        exact .inr (.inr (.inr ⟨children, hc, hall⟩))
      · exact .inr (.inl ⟨y, List.mem_eraseIdx_iff_getElem?.2 ⟨j, hij, hj⟩, rfl⟩)
    · exact .inr (.inr (hf.mono hold))
  · have := h.active.1
    omega
  · have := h.active.2
    omega

/-- **The walk computes the closure**, in whatever order its reads are answered. The fuel
bounds what is on the walk and what can still be met. -/
theorem walkGraph_marks
    (apart : base.Apart σ log roots) :
    ∀ (fuel : Nat) (met : List ObjectRef) (walk : Walk) (reads : List GraphRead) (bytes : Nat),
      WalkAt σ log blocked mode roots base met walk reads bytes →
      walk.pending.length + reads.length +
        (log.options.maxCollectionObjects.toNat - walk.visited.length) ≤ fuel →
      Ends (Faultless σ) (log.walkGraph blocked mode fuel walk reads bytes)
        (MarkEnds σ log blocked mode roots base)
  | 0, met, walk, reads, bytes, h, hfuel => by
      have hreads : reads = [] := List.length_eq_zero_iff.1 (by omega)
      have hpending : walk.pending = [] := List.length_eq_zero_iff.1 (by omega)
      subst hreads
      exact Ends.pure (h.finished hpending)
  | fuel + 1, met, walk, reads, bytes, h, hfuel => by
      unfold Log.walkGraph
      refine (startReads_started walk.pending reads bytes h).bind ?_ nofun
      rintro next ⟨next', hnext, started⟩
      obtain rfl := Except.ok.inj hnext
      obtain ⟨pending, reads', bytes'⟩ := next
      have hless := started.less
      have hwalk := started.walk
      dsimp only at hless hwalk ⊢
      split
      · have hdone := hwalk.finished (started.all rfl)
        exact Ends.pure hdone
      · rename_i read rest
        refine Ends.bind (Q := fun r => ∃ i, r = .ok i) (Ends.ask fun i _ => ⟨i, rfl⟩) ?_ nofun
        rintro i -
        have hget := getElem?_get (read :: rest) i
        obtain ⟨hmem, hbytes, ⟨flight, hflight⟩, hmode⟩ :=
          hwalk.reading _ (List.mem_of_getElem? hget)
        generalize (read :: rest).get i = x at hget hmem hbytes hflight hmode
        obtain ⟨size, object, started'⟩ := x
        dsimp only at hmem hbytes hflight hmode ⊢
        subst hflight
        have hinside := hwalk.objects.inside object hmem
        refine Ends.bind (finishRead_faultless (log.collectChildren object) _ _) ?_ ?_
        swap
        · intro e he mk
          obtain ⟨children, hc⟩ := mk.collects hinside hmode
          rw [hc] at he
          cases he
        intro children hc
        have henq := Met.enqueueAll mode apart children met ⟨walk.visited, pending⟩ hwalk.objects
          fun c hcm => hinside.children hc.symm hcm
        cases hw : children.foldlM (log.enqueueObject blocked) ⟨walk.visited, pending⟩ with
        | error e =>
            rw [hw] at henq
            exact Ends.lift henq
        | ok walk' =>
            rw [hw] at henq
            obtain ⟨new, hpending, hmet, hall⟩ := henq
            refine Ends.after (Ends.lift rfl) ?_
            refine walkGraph_marks apart fuel (new.reverse ++ met) walk' _ _
              (hwalk.answer hget hc.symm hpending hmet hall) ?_
            have hv := congrArg List.length hmet.entries
            have hv' := congrArg List.length hwalk.objects.entries
            have hlimit := hmet.limit
            have herase : ((read :: rest).eraseIdx i.val).length + 1 = (read :: rest).length :=
              List.length_eraseIdx_add_one i.isLt
            rw [hpending]
            simp only [List.length_append, List.length_map, List.length_reverse] at hv hv' ⊢
            omega

end ObjectLog
