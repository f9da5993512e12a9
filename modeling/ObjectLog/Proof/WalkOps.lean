import ObjectLog.Proof.TailOps

/-!
# The marking walk

The walk meets objects, reads them in any order and several at a time, and puts the
children it has not met on its list. Its invariant: an object it has met is still on the
list, or being read, or *handled*, which means that its children have been met. When
nothing is left every object that was met is handled. Each reference counts one more
than the children it was written with, so a handled set is a complete graph.
-/

set_option linter.unusedSectionVars false

namespace ObjectLog

open Rely

variable [Blake3] {s s' u : State} {t : Nat} {A : Effect → Prop} {log : Log} {view : View}
  {blocked : Option (List CollectionCandidate)} {mode : GraphWalk}

/-! ## Counts -/

theorem subtreeObjects_fold {children : List ObjectRef} {total n : UInt64}
    (h : children.foldlM (fun total child => do
      child.validateCount
      okOr (checkedAdd total child.subtreeObjects) (.limitExceeded "subtree objects")) total =
        (.ok n : Except Error UInt64)) :
    n.toNat = total.toNat + (children.map fun c => c.subtreeObjects.toNat).sum ∧
      ∀ c ∈ children, c.Counted := by
  induction children generalizing total with
  | nil =>
      obtain rfl : total = n := by simpa [pure, Except.pure] using h
      simp
  | cons c children ih =>
      rw [List.foldlM_cons, bind_ok] at h
      obtain ⟨total', h', hrest⟩ := h
      rw [bind_ok] at h'
      obtain ⟨⟨⟩, hc, hadd⟩ := h'
      have hadd := checkedAdd_toNat (okOr_ok.1 hadd)
      obtain ⟨hn, hall⟩ := ih hrest
      refine ⟨by simp only [List.map_cons, List.sum_cons]; omega, ?_⟩
      intro d hd
      rcases List.mem_cons.1 hd with rfl | hd
      · exact hc
      · exact hall d hd

theorem subtreeObjects_ok {children : List ObjectRef} {n : UInt64}
    (h : subtreeObjects children = .ok n) :
    n.toNat = 1 + (children.map fun c => c.subtreeObjects.toNat).sum ∧
      ∀ c ∈ children, c.Counted := subtreeObjects_fold h

/-- A child counts less than the node it is in. -/
theorem subtreeObjects_lt {children : List ObjectRef} {n : UInt64} {c : ObjectRef}
    (h : subtreeObjects children = .ok n) (hc : c ∈ children) :
    c.subtreeObjects.toNat < n.toNat := by
  obtain ⟨hn, -⟩ := subtreeObjects_ok h
  have := List.single_le_sum (fun _ _ => Nat.zero_le _) _
    (List.mem_map_of_mem (f := fun c : ObjectRef => c.subtreeObjects.toNat) hc)
  omega

/-! ## Objects that were met -/

/-- The walk has met the reference. -/
def Visited.Has (visited : Visited) (log : Log) (r : ObjectRef) : Prop :=
  visited.lookup (objectKey log.incarnation r) = some (r.len, r.subtreeObjects)

/-- More was met. -/
def Visited.Le (a b : Visited) : Prop := ∀ k m, a.lookup k = some m → b.lookup k = some m

theorem Visited.Le.refl (a : Visited) : a.Le a := fun _ _ h => h

theorem Visited.Le.trans {a b c : Visited} (h₁ : a.Le b) (h₂ : b.Le c) : a.Le c :=
  fun k m h => h₂ k m (h₁ k m h)

theorem Visited.Has.mono {a b : Visited} {r : ObjectRef} (hle : a.Le b) (h : a.Has log r) :
    b.Has log r := hle _ _ h

/-- A key with its length and count is one reference. -/
theorem ObjectRef.eq_of_key {inc : Uuid} {r r' : ObjectRef} (hk : objectKey inc r = objectKey inc r')
    (hl : r.len = r'.len) (hs : r.subtreeObjects = r'.subtreeObjects) : r = r' := by
  obtain ⟨k, i, d, l, n⟩ := r
  obtain ⟨k', i', d', l', n'⟩ := r'
  simp only [objectKey, ImmutableKey.mk.injEq, true_and] at hk
  obtain ⟨hkind, rfl, rfl⟩ := hk
  dsimp only at hl hs
  subst hl hs
  cases k <;> cases k' <;> first | rfl | cases hkind

theorem Visited.Has.unique {a : Visited} {r r' : ObjectRef}
    (hk : objectKey log.incarnation r = objectKey log.incarnation r') (h : a.Has log r)
    (h' : a.Has log r') : r = r' := by
  have hm : (r.len, r.subtreeObjects) = (r'.len, r'.subtreeObjects) := by
    unfold Visited.Has at h h'
    rw [hk, h'] at h
    exact (Option.some.inj h).symm
  obtain ⟨hl, hs⟩ := Prod.mk.inj hm
  exact ObjectRef.eq_of_key hk hl hs

/-- What `enqueue_object` has checked about an object. -/
structure Enqueueable (log : Log) (blocked : Option (List CollectionCandidate)) (r : ObjectRef) :
    Prop where
  kind : r.kind ≠ .checkpoint
  counted : r.Counted
  free : ¬ blocked.any (isCollectionCandidate · (objectKey log.incarnation r))

/-- What putting objects on the list does to a walk. -/
structure Enqueued (log : Log) (blocked : Option (List CollectionCandidate)) (walk walk' : Walk)
    (objects : List ObjectRef) : Prop where
  kept : walk.visited.Le walk'.visited
  met : ∀ o ∈ objects, walk'.visited.Has log o ∧ Enqueueable log blocked o
  pending : ∃ new, walk'.pending = walk.pending ++ new ∧
    walk'.visited.length = walk.visited.length + new.length ∧
    (new ≠ [] → walk'.visited.length ≤ log.options.maxCollectionObjects.toNat) ∧
    (∀ r ∈ new, walk'.visited.Has log r ∧ Enqueueable log blocked r ∧
      r.len ≤ log.options.maxObjectBytes) ∧
    ∀ k m, walk'.visited.lookup k = some m → walk.visited.lookup k = some m ∨
      ∃ r ∈ new, objectKey log.incarnation r = k ∧ m = (r.len, r.subtreeObjects)

theorem Enqueued.refl (walk : Walk) : Enqueued log blocked walk walk [] where
  kept := .refl _
  met := nofun
  pending := ⟨[], by simp, by simp, by simp, nofun, fun k m h => .inl h⟩

theorem enqueueObject_ok {walk walk' : Walk} {object : ObjectRef}
    (h : log.enqueueObject blocked walk object = .ok walk') :
    Enqueued log blocked walk walk' [object] := by
  simp only [Log.enqueueObject, bind_ok, ensure_ok] at h
  obtain ⟨⟨⟩, hkind, ⟨⟩, hcount, ⟨⟩, hfree, h⟩ := h
  have ok : Enqueueable log blocked object := ⟨hkind, hcount, hfree⟩
  split at h
  · rename_i declared hlook
    simp only [bind_ok, ensure_ok, pure, Except.pure, Except.ok.injEq] at h
    obtain ⟨⟨⟩, rfl, rfl⟩ := h
    refine { Enqueued.refl walk with met := ?_ }
    intro o ho
    obtain rfl := List.mem_singleton.1 ho
    exact ⟨hlook, ok⟩
  · rename_i hlook
    simp only [bind_ok, ensure_ok, pure, Except.pure, Except.ok.injEq] at h
    obtain ⟨⟨⟩, hmax, ⟨⟩, hlen, rfl⟩ := h
    have hlookup : ∀ k, List.lookup k ((objectKey log.incarnation object,
        (object.len, object.subtreeObjects)) :: walk.visited) =
        if k = objectKey log.incarnation object then some (object.len, object.subtreeObjects)
        else walk.visited.lookup k := by
      intro k
      rw [List.lookup_cons]
      by_cases hk : k = objectKey log.incarnation object
      · simp [hk]
      · rw [beq_false_of_ne hk, if_neg hk]
    have hself : Visited.Has ((objectKey log.incarnation object,
        (object.len, object.subtreeObjects)) :: walk.visited) log object := by
      rw [Visited.Has, hlookup, if_pos rfl]
    refine ⟨fun k m hk => ?_, fun o ho => ?_, [object], rfl, by simp, fun _ => hmax, ?_, ?_⟩
    · rw [hlookup, if_neg (fun hkk => by rw [hkk, hlook] at hk; cases hk)]
      exact hk
    · obtain rfl := List.mem_singleton.1 ho
      exact ⟨hself, ok⟩
    · intro r hr
      obtain rfl := List.mem_singleton.1 hr
      exact ⟨hself, ok, hlen⟩
    · intro k m hk
      rw [hlookup] at hk
      split at hk
      · rename_i hkk
        exact .inr ⟨object, by simp, hkk.symm, (Option.some.inj hk).symm⟩
      · exact .inl hk

theorem Enqueued.trans {walk walk₁ walk₂ : Walk} {xs ys : List ObjectRef}
    (a : Enqueued log blocked walk walk₁ xs) (b : Enqueued log blocked walk₁ walk₂ ys) :
    Enqueued log blocked walk walk₂ (xs ++ ys) where
  kept := a.kept.trans b.kept
  met := by
    intro o ho
    rcases List.mem_append.1 ho with ho | ho
    · exact ⟨(a.met o ho).1.mono b.kept, (a.met o ho).2⟩
    · exact b.met o ho
  pending := by
    obtain ⟨new, hp, hl, hmax, hnew, hback⟩ := a.pending
    obtain ⟨new', hp', hl', hmax', hnew', hback'⟩ := b.pending
    refine ⟨new ++ new', by rw [hp', hp, List.append_assoc],
      by rw [hl', hl, List.length_append]; omega, fun hne => ?_, fun r hr => ?_, fun k m hk => ?_⟩
    · by_cases hn' : new' = []
      · subst hn'
        rw [hl', List.length_nil, Nat.add_zero]
        exact hmax (by simpa using hne)
      · exact hmax' hn'
    · rcases List.mem_append.1 hr with hr | hr
      · obtain ⟨h1, h2⟩ := hnew r hr
        exact ⟨h1.mono b.kept, h2⟩
      · exact hnew' r hr
    · rcases hback' k m hk with hk | ⟨r, hr, hrk⟩
      · rcases hback k m hk with hk | ⟨r, hr, hrk⟩
        · exact .inl hk
        · exact .inr ⟨r, List.mem_append_left _ hr, hrk⟩
      · exact .inr ⟨r, List.mem_append_right _ hr, hrk⟩

theorem enqueueObjects_ok {objects : List ObjectRef} {walk walk' : Walk}
    (h : objects.foldlM (log.enqueueObject blocked) walk = .ok walk') :
    Enqueued log blocked walk walk' objects := by
  induction objects generalizing walk with
  | nil =>
      obtain rfl : walk = walk' := by simpa [pure, Except.pure] using h
      exact .refl walk
  | cons o objects ih =>
      rw [List.foldlM_cons, bind_ok] at h
      obtain ⟨walk₁, h₁, h₂⟩ := h
      exact (enqueueObject_ok h₁).trans (ih h₂)

/-! ## The walk -/

/-- The children of an object have been met. -/
def State.Handled (s : State) (L : Nat) (log : Log) (mode : GraphWalk) (visited : Visited)
    (r : ObjectRef) : Prop :=
  (r.kind = .blob ∧ (mode = .reachability ∨ ∃ bytes, s.Found L log r bytes)) ∨
  (r.kind = .node ∧ ∃ bytes n, s.Found L log r bytes ∧ decodeNode bytes log.options = .ok n ∧
    subtreeObjects n.children = .ok r.subtreeObjects ∧
    ∀ c ∈ n.children, visited.Has log c ∧ c.kind ≠ .checkpoint)

theorem State.Handled.mono {L : Nat} {visited visited' : Visited} {r : ObjectRef} (hle : s.Le s')
    (hL : L ≤ s.now) (hv : visited.Le visited') (h : s.Handled L log mode visited r) :
    s'.Handled L log mode visited' r := by
  rcases h with ⟨hk, h | ⟨bytes, hf⟩⟩ | ⟨hk, bytes, n, hf, hd, hs, hc⟩
  · exact .inl ⟨hk, .inl h⟩
  · exact .inl ⟨hk, .inr ⟨bytes, hf.mono hle hL⟩⟩
  · exact .inr ⟨hk, bytes, n, hf.mono hle hL, hd, hs, fun c h => ⟨(hc c h).1.mono hv, (hc c h).2⟩⟩

/-- A read of an object that has been started, or refused. -/
def State.ReadStarted (s : State) (t L : Nat) (log : Log) (r : ObjectRef)
    (x : Except Error FlightId) : Prop :=
  x = .error .requestDenied ∨ ∃ j, x = .ok j ∧
    s.Asked t (.get (objectKey log.incarnation r)) L j

theorem State.ReadStarted.mono {L : Nat} {r : ObjectRef} {x : Except Error FlightId}
    (hle : s.Le s') (h : s.ReadStarted t L log r x) : s'.ReadStarted t L log r x :=
  h.imp id fun ⟨j, hj, ask⟩ => ⟨j, hj, ask.mono hle⟩

/-- **The invariant of the walk.** -/
structure WalkOK (s : State) (t L : Nat) (log : Log) (blocked : Option (List CollectionCandidate))
    (mode : GraphWalk) (base visited : Visited) (pending : List ObjectRef)
    (reads : List GraphRead) : Prop where
  met : ∀ k m, visited.lookup k = some m → base.lookup k = some m ∨
    ∃ r, objectKey log.incarnation r = k ∧ m = (r.len, r.subtreeObjects) ∧
      Enqueueable log blocked r ∧
      (r ∈ pending ∨ (∃ x ∈ reads, x.2.1 = r) ∨ s.Handled L log mode visited r)
  pending : ∀ r ∈ pending, Enqueueable log blocked r ∧ r.len ≤ log.options.maxObjectBytes
  reads : ∀ x ∈ reads, Enqueueable log blocked x.2.1 ∧ x.2.1.len ≤ log.options.maxObjectBytes ∧
    s.ReadStarted t L log x.2.1 x.2.2

variable {L : Nat} {base visited : Visited} {pending : List ObjectRef} {reads : List GraphRead}

theorem WalkOK.mono (hle : s.Le s') (hL : L ≤ s.now)
    (h : WalkOK s t L log blocked mode base visited pending reads) :
    WalkOK s' t L log blocked mode base visited pending reads where
  met := by
    intro k m hk
    rcases h.met k m hk with hb | ⟨r, hr, hm, ok, hp | hx | hh⟩
    · exact .inl hb
    · exact .inr ⟨r, hr, hm, ok, .inl hp⟩
    · exact .inr ⟨r, hr, hm, ok, .inr (.inl hx)⟩
    · exact .inr ⟨r, hr, hm, ok, .inr (.inr (hh.mono hle hL (.refl _)))⟩
  pending := h.pending
  reads := fun x hx => ⟨(h.reads x hx).1, (h.reads x hx).2.1, (h.reads x hx).2.2.mono hle⟩

theorem startChildren_runs {r : ObjectRef} (hA : Reads ≤ A) (g : Good s) (hL : L ≤ s.now)
    (ok : Enqueueable log blocked r) (hlen : r.len ≤ log.options.maxObjectBytes) :
    Runs t A (log.startChildren r) (fun res u => ∃ x, res = .ok x ∧ u.ReadStarted t L log r x) s := by
  refine Runs.ite (fun hk => absurd hk ok.kind) fun _ => ?_
  refine Runs.ite (fun hlt => absurd hlt (UInt64.not_lt.2 hlen)) fun _ => ?_
  have hr : Reads (.submit (.get (objectKey log.incarnation r))) := trivial
  refine (startRead_runs hA hr g _).mono ?_
  rintro res u gu (rfl | ⟨j, rfl, sent, landed, told, hf, hs⟩)
  · exact ⟨_, rfl, .inl rfl⟩
  · exact ⟨_, rfl, .inr ⟨j, rfl, sent, landed, told, hf, hL.trans hs⟩⟩

/-- Pending objects move into reads. -/
theorem startReads_runs (hA : Reads ≤ A) :
    ∀ (pending : List ObjectRef) (reads : List GraphRead) (bytes : Nat) (s : State), Good s →
      L ≤ s.now → WalkOK s t L log blocked mode base visited pending reads →
      Runs t A (log.startReads mode pending reads bytes) (fun r u => match r with
        | .ok (pending', reads', _) =>
            WalkOK u t L log blocked mode base visited pending' reads' ∧
            pending'.length + reads'.length ≤ pending.length + reads.length ∧
            (reads' = [] → pending' = [])
        | .error _ => True) s
  | [], reads, bytes, s, g, hL, ok =>
      Runs.pure fun u o _ => ⟨ok.mono o.le hL, le_rfl, fun _ => rfl⟩
  | object :: pending, reads, bytes, s, g, hL, ok => by
      refine Runs.ite (fun hmax => ?_) fun _ => ?_
      · refine Runs.pure fun u o _ => ⟨ok.mono o.le hL, le_rfl, fun hr => ?_⟩
        rw [hr] at hmax
        simp [maxConcurrentReads] at hmax
      refine Runs.ite (fun hskip => ?_) fun _ => ?_
      · -- a blob is not read when only reachability is asked for
        have ok' : WalkOK s t L log blocked mode base visited pending reads := by
          refine ⟨fun k m hk => ?_, fun r hr => ok.pending r (by simp [hr]), ok.reads⟩
          rcases ok.met k m hk with hb | ⟨r, hr, hm, hok, hp | hx | hh⟩
          · exact .inl hb
          · rcases List.mem_cons.1 hp with rfl | hp
            · exact .inr ⟨r, hr, hm, hok, .inr (.inr (.inl ⟨hskip.2, .inl hskip.1⟩))⟩
            · exact .inr ⟨r, hr, hm, hok, .inl hp⟩
          · exact .inr ⟨r, hr, hm, hok, .inr (.inl hx)⟩
          · exact .inr ⟨r, hr, hm, hok, .inr (.inr hh)⟩
        refine (startReads_runs hA pending reads bytes s g hL ok').mono ?_
        rintro (e | ⟨pending', reads', bytes'⟩) u gu h
        · trivial
        · obtain ⟨h1, h2, h3⟩ := h
          exact ⟨h1, by simp only [List.length_cons]; omega, h3⟩
      refine Runs.ite (fun hroom => ?_) fun _ => ?_
      · exact Runs.pure fun u o _ => ⟨ok.mono o.le hL, le_rfl, fun hr => absurd hr hroom.1⟩
      refine Runs.ite (fun _ => Runs.throw fun _ _ _ => trivial) fun _ => ?_
      obtain ⟨hok, hlen⟩ := ok.pending object (by simp)
      refine Runs.bind le_rfl g (startChildren_runs hA g hL hok hlen) ?_ nofun
      rintro x u tr gu ⟨x', hx', hst⟩
      obtain rfl := Except.ok.inj hx'
      have ok₁ := ok.mono tr.le hL
      refine (startReads_runs hA pending (reads ++ [(object.len.toNat, object, x)]) _ u gu
        (hL.trans tr.le.now) ?_).mono ?_
      · refine ⟨fun k m hk => ?_, fun r hr => ok.pending r (by simp [hr]), fun y hy => ?_⟩
        · rcases ok₁.met k m hk with hb | ⟨r, hr, hm, hokr, hp | ⟨y, hy, hyr⟩ | hh⟩
          · exact .inl hb
          · rcases List.mem_cons.1 hp with rfl | hp
            · exact .inr ⟨r, hr, hm, hokr, .inr (.inl ⟨(r.len.toNat, r, x), by simp, rfl⟩)⟩
            · exact .inr ⟨r, hr, hm, hokr, .inl hp⟩
          · exact .inr ⟨r, hr, hm, hokr, .inr (.inl ⟨y, List.mem_append_left _ hy, hyr⟩)⟩
          · exact .inr ⟨r, hr, hm, hokr, .inr (.inr hh)⟩
        · rcases List.mem_append.1 hy with hy | hy
          · exact ok₁.reads y hy
          · obtain rfl := List.mem_singleton.1 hy
            exact ⟨hok, hlen, hst⟩
      · rintro (e | ⟨pending', reads', bytes'⟩) v gv h
        · trivial
        · obtain ⟨h1, h2, h3⟩ := h
          simp only [List.length_append, List.length_cons, List.length_nil] at h2 ⊢
          exact ⟨h1, by omega, h3⟩

/-- What the children of an object are read from. -/
theorem collectChildren_ok {r : ObjectRef} {bytes : Bytes} {children : List ObjectRef}
    (h : log.collectChildren r (some bytes) = .ok children) :
    bytes.length = r.len.toNat ∧ Digest.of bytes = r.digest ∧
      ((r.kind = .blob ∧ children = []) ∨ (r.kind = .node ∧ ∃ n,
        decodeNode bytes log.options = .ok n ∧
        subtreeObjects n.children = .ok r.subtreeObjects ∧ children = n.children)) := by
  simp only [Log.collectChildren, bind_ok, collectObject_ok] at h
  obtain ⟨_, ⟨hle, rfl⟩, h⟩ := h
  split at h
  · rename_i hk
    simp only [bind_ok, okOr_ok, ensure_ok, pure, Except.pure, Except.ok.injEq] at h
    obtain ⟨len, hl, ⟨⟩, ⟨hd, rfl⟩, rfl⟩ := h
    exact ⟨(toU64_toNat hl).symm, hd, .inl ⟨hk, rfl⟩⟩
  · rename_i hk
    simp only [bind_ok, decodeNodeReference_ok, pure, Except.pure, Except.ok.injEq] at h
    obtain ⟨⟨⟩, hv, n, ⟨hn, hs⟩, rfl⟩ := h
    obtain ⟨-, hl, hd⟩ := verifyObject_ok.1 hv
    exact ⟨hl, hd, .inr ⟨hk, n, hn, hs, rfl⟩⟩
  · cases h

theorem finishChildren_runs {r : ObjectRef} {x : Except Error FlightId} (mode : GraphWalk)
    (hA : Reads ≤ A) (g : Good s) (hL : L ≤ s.now) (ok : Enqueueable log blocked r)
    (hlen : r.len ≤ log.options.maxObjectBytes) (hx : s.ReadStarted t L log r x) :
    Runs t A (log.finishChildren r x) (fun res u => match res with
      | .ok children => ∀ visited, (∀ c ∈ children, Visited.Has visited log c ∧ c.kind ≠ .checkpoint) →
          u.Handled L log mode visited r
      | .error _ => True) s := by
  have hr : Reads (.submit (.get (objectKey log.incarnation r))) := trivial
  refine (finishRead_runs hA hr _ furtherReads s x g hL ?_).mono ?_
  · rintro j rfl
    rcases hx with hx | ⟨j', hj', ask⟩
    · cases hx
    · obtain rfl := Except.ok.inj hj'
      exact ask
  · rintro (e | children) u gu h
    · trivial
    · rcases h with ⟨e, he, -⟩ | ⟨ans, hans, hcol⟩
      · cases he
      intro visited hvis
      have hget := hans.get gu.inv
      cases ans with
      | none => cases hcol
      | some bytes =>
          obtain ⟨hl, hd, hkind⟩ := collectChildren_ok hcol
          have hf : u.Found L log r bytes := ⟨⟨hget.1, hd, hl, ok.counted, hlen⟩, hget.2⟩
          rcases hkind with ⟨hk, rfl⟩ | ⟨hk, n, hn, hs, rfl⟩
          · exact .inl ⟨hk, .inr ⟨bytes, hf⟩⟩
          · exact .inr ⟨hk, bytes, n, hf, hn, hs, hvis⟩

/-- **The loop of the walk.** Nothing is left when it ends. -/
theorem walkGraph_runs (hA : Reads ≤ A) :
    ∀ (fuel : Nat) (walk : Walk) (reads : List GraphRead) (bytes : Nat) (s : State), Good s →
      L ≤ s.now → WalkOK s t L log blocked mode base walk.visited walk.pending reads →
      walk.pending.length + reads.length +
        (log.options.maxCollectionObjects.toNat - walk.visited.length) ≤ fuel →
      Runs t A (log.walkGraph blocked mode fuel walk reads bytes) (fun r u => match r with
        | .ok visited => walk.visited.Le visited ∧
            WalkOK u t L log blocked mode base visited [] []
        | .error _ => True) s
  | 0, walk, reads, bytes, s, g, hL, ok, hfuel => by
      have hp : walk.pending = [] := List.length_eq_zero_iff.1 (by omega)
      have hr : reads = [] := List.length_eq_zero_iff.1 (by omega)
      rw [hp, hr] at ok
      exact Runs.pure fun u o _ => ⟨.refl _, ok.mono o.le hL⟩
  | fuel + 1, walk, reads, bytes, s, g, hL, ok, hfuel => by
      refine Runs.bind le_rfl g (startReads_runs hA walk.pending reads bytes s g hL ok) ?_
        fun _ _ _ _ _ => trivial
      rintro ⟨pending, reads₁, bytes₁⟩ u tr gu ⟨ok₁, hcount, hempty⟩
      have hL₁ := hL.trans tr.le.now
      cases reads₁ with
      | nil =>
          rw [hempty rfl] at ok₁
          exact Runs.pure fun v o _ => ⟨.refl _, ok₁.mono o.le hL₁⟩
      | cons read rest =>
          refine Runs.bind (P := fun r _ => ∃ i, r = .ok i) le_rfl gu ?_ ?_
            fun _ _ _ _ _ => trivial
          · exact Runs.ask fun _ _ _ => ⟨⟨trivial, hA _ trivial⟩, fun i _ _ _ _ _ _ => ⟨i, rfl⟩⟩
          rintro i v tr₁ gv -
          have hL₂ := hL₁.trans tr₁.le.now
          have ok₂ := ok₁.mono tr₁.le hL₁
          have hmem : (read :: rest).get i ∈ read :: rest := List.get_mem _ _
          obtain ⟨hok, hlen, hst⟩ := ok₂.reads _ hmem
          generalize hx : (read :: rest).get i = x at hmem hok hlen hst
          obtain ⟨n, object, started⟩ := x
          refine Runs.bind le_rfl gv
            (finishChildren_runs mode hA gv hL₂ hok hlen hst) ?_
            fun _ _ _ _ _ => trivial
          rintro children w tr₂ gw hhandled
          have ok₃ := ok₂.mono tr₂.le hL₂
          refine Runs.liftBind (fun walk' hwalk => ?_) fun _ _ _ _ _ => trivial
          have enq := enqueueObjects_ok hwalk
          obtain ⟨new, hp, hl, hmax, hnew, hback⟩ := enq.pending
          have hp : walk'.pending = pending ++ new := hp
          have hl : walk'.visited.length = walk.visited.length + new.length := hl
          have herase : ((read :: rest).eraseIdx i).length + 1 = (read :: rest).length := by
            rw [List.length_eraseIdx_of_lt i.isLt]
            exact Nat.sub_add_cancel (by simp)
          refine (walkGraph_runs hA fuel walk' ((read :: rest).eraseIdx i) _ w gw
            (hL₂.trans tr₂.le.now) ?_ ?_).mono ?_
          · refine ⟨fun k m hk => ?_, fun r hr => ?_, fun y hy => ?_⟩
            · rcases hback k m hk with hk | ⟨r, hr, hrk, hrm⟩
              · rcases ok₃.met k m hk with hb | ⟨r, hr, hm, hokr, hpr | ⟨y, hy, hyr⟩ | hh⟩
                · exact .inl hb
                · refine .inr ⟨r, hr, hm, hokr, .inl ?_⟩
                  rw [hp]
                  exact List.mem_append_left _ hpr
                · refine .inr ⟨r, hr, hm, hokr, ?_⟩
                  -- the read that was taken, or another one
                  obtain ⟨j, hj⟩ := List.mem_iff_getElem?.1 hy
                  by_cases hji : j = i
                  · have : (read :: rest)[j]? = some ((read :: rest).get i) := by
                      rw [hji, List.get_eq_getElem, List.getElem?_eq_getElem]
                    rw [this, hx] at hj
                    obtain rfl := Option.some.inj hj
                    subst hyr
                    exact .inr (.inr (hhandled _ fun c hc =>
                      ⟨(enq.met c hc).1, (enq.met c hc).2.kind⟩))
                  · exact .inr (.inl ⟨y, List.mem_eraseIdx_iff_getElem?.2 ⟨j, hji, hj⟩, hyr⟩)
                · exact .inr ⟨r, hr, hm, hokr, .inr (.inr (hh.mono (.refl w)
                    (hL₂.trans tr₂.le.now) enq.kept))⟩
              · refine .inr ⟨r, hrk, hrm, (hnew r hr).2.1, .inl ?_⟩
                rw [hp]
                exact List.mem_append_right _ hr
            · rw [hp] at hr
              rcases List.mem_append.1 hr with hr | hr
              · exact ok₃.pending r hr
              · exact (hnew r hr).2
            · exact ok₃.reads y (List.mem_of_mem_eraseIdx hy)
          · by_cases hn : new = []
            · rw [hp, hl, List.length_append, hn, List.length_nil]
              omega
            · have := hmax hn
              rw [hp, List.length_append]
              omega
          · rintro (e | visited) y gy h
            · trivial
            · exact ⟨enq.kept.trans h.1, h.2⟩

end ObjectLog
