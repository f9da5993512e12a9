import ObjectLog.Proof.WalkOps

/-!
# How the walk can fail

On a complete graph the walk meets no contradiction: a key stands for one reference, what
is stored under it decodes, and a reference counts the objects under it. So a walk over
references of a complete graph ends early only because a request was refused, because an
object is missing by the time it is read, because a key is on the list of the collector, or
because the references count more objects than a walk may visit.
-/

set_option linter.unusedSectionVars false

namespace ObjectLog

open Rely

variable [Blake3] {s s' u : State} {t L budget : Nat} {A : Effect → Prop} {log : Log}
  {blocked : Option (List CollectionCandidate)} {mode : GraphWalk} {G : ObjectRef → Prop}

/-! ## Complete graphs -/

theorem counted_iff {r : ObjectRef} :
    r.Counted ↔ r.subtreeObjects ≠ 0 ∧ (r.kind = .blob → r.subtreeObjects = 1) := by
  unfold ObjectRef.Counted ObjectRef.validateCount
  rw [ensure_ok]
  tauto

theorem objectKey_kind_eq {inc : Uuid} {r r' : ObjectRef}
    (hk : objectKey inc r = objectKey inc r') : r.kind = r'.kind := by
  have := congrArg ImmutableKey.kind hk
  unfold objectKey at this
  cases hr : r.kind <;> cases hr' : r'.kind <;> rw [hr, hr'] at this <;>
    first | rfl | cases this

/-- In a complete graph a key stands for one reference. -/
theorem Stored.unique {body : Bodies} {inc : Uuid} {opts : Options} {r r' : ObjectRef}
    (h : Stored body inc opts r) (h' : Stored body inc opts r')
    (hk : objectKey inc r = objectKey inc r') : r.len = r'.len ∧
      r.subtreeObjects = r'.subtreeObjects := by
  have hkind := objectKey_kind_eq hk
  cases h with
  | blob kind m =>
      obtain ⟨bytes', m'⟩ := h'.matches
      have hb := m.stored
      rw [hk, m'.stored] at hb
      obtain rfl := Option.some.inj hb
      refine ⟨UInt64.toNat_inj.1 (by rw [← m.len, ← m'.len]), ?_⟩
      rw [(counted_iff.1 m.counted).2 kind, (counted_iff.1 m'.counted).2 (hkind ▸ kind)]
  | node kind m hd hs hc =>
      cases h' with
      | blob kind' m' => rw [← hkind, kind] at kind'; cases kind'
      | node kind' m' hd' hs' hc' =>
          have hb := m.stored
          rw [hk, m'.stored] at hb
          obtain rfl := Option.some.inj hb
          obtain rfl := Except.ok.inj (hd.symm.trans hd')
          refine ⟨UInt64.toNat_inj.1 (by rw [← m.len, ← m'.len]), ?_⟩
          exact Except.ok.inj (hs.symm.trans hs')

/-- A set of references whose graphs are complete, with their children. -/
structure State.GraphOK (s : State) (log : Log) (G : ObjectRef → Prop) : Prop where
  stored : ∀ r, G r → Stored s.body log.incarnation log.options r
  closed : ∀ r bytes n c, G r → r.kind = .node →
    s.body (objectKey log.incarnation r) = some bytes → decodeNode bytes log.options = .ok n →
    c ∈ n.children → G c

theorem State.GraphOK.mono (hle : s.Le s') (h : s.GraphOK log G) : s'.GraphOK log G := by
  refine ⟨fun r hr => (h.stored r hr).mono hle.body, fun r bytes n c hr kind hb hd hc => ?_⟩
  obtain ⟨bytes', m⟩ := (h.stored r hr).matches
  obtain rfl := Option.some.inj ((hle.body _ _ m.stored).symm.trans hb)
  exact h.closed r bytes' n c hr kind m.stored hd hc

/-- The references under some roots. -/
theorem graphOK_under {roots : List ObjectRef}
    (hs : ∀ r ∈ roots, Stored s.body log.incarnation log.options r) :
    s.GraphOK log (fun r => ∃ o ∈ roots, UnderRef s.body log.incarnation log.options o r) := by
  refine ⟨?_, ?_⟩
  · rintro r ⟨o, ho, hu⟩
    exact hu.stored (hs o ho)
  · rintro r bytes n c ⟨o, ho, hu⟩ kind hb hd hc
    exact ⟨o, ho, hu.trans (.child kind hb hd hc (.self c))⟩

/-! ## What a walk may still visit -/

/-- The objects under a reference, the reference itself not counted. -/
def ObjectRef.weight (r : ObjectRef) : Nat := r.subtreeObjects.toNat - 1

/-- The number of objects that some references count. -/
def countOf (rs : List ObjectRef) : Nat := (rs.map fun r => r.subtreeObjects.toNat).sum

/-- What was visited, and what is under the objects that were not read. -/
def Walk.charge (walk : Walk) : Nat :=
  walk.visited.length + (walk.pending.map ObjectRef.weight).sum

/-- The blobs and nodes that were visited are references of the graph. -/
def Visited.Of (visited : Visited) (log : Log) (G : ObjectRef → Prop) : Prop :=
  ∀ k m, visited.lookup k = some m → k.kind = .blob ∨ k.kind = .node →
    ∃ r, G r ∧ objectKey log.incarnation r = k ∧ m = (r.len, r.subtreeObjects)

/-- How putting an object on the list can fail. -/
def EnqueueError (log : Log) (blocked : Option (List CollectionCandidate)) (G : ObjectRef → Prop)
    (budget : Nat) (e : Error) : Prop :=
  (e = .collectionFence ∧ ∃ r, G r ∧
    blocked.any (isCollectionCandidate · (objectKey log.incarnation r)) = true) ∨
  (e = .limitExceeded "collection live objects" ∧
    log.options.maxCollectionObjects.toNat < budget)

theorem EnqueueError.le {budget' : Nat} {e : Error} (hb : budget ≤ budget')
    (h : EnqueueError log blocked G budget e) : EnqueueError log blocked G budget' e :=
  h.imp id fun ⟨he, hlt⟩ => ⟨he, by omega⟩

theorem enqueueObject_result (blocked : Option (List CollectionCandidate)) {walk : Walk}
    {o : ObjectRef} (hG : s.GraphOK log G) (hv : walk.visited.Of log G) (ho : G o) :
    match log.enqueueObject blocked walk o with
    | .ok walk' => walk'.visited.Of log G ∧ (∀ r ∈ walk'.pending, r ∈ walk.pending ∨ G r) ∧
        walk'.charge ≤ walk.charge + o.subtreeObjects.toNat
    | .error e => EnqueueError log blocked G (walk.charge + o.subtreeObjects.toNat) e := by
  have hs := hG.stored o ho
  obtain ⟨bytes, m⟩ := hs.matches
  have hkind : (objectKey log.incarnation o).kind = .blob ∨
      (objectKey log.incarnation o).kind = .node :=
    Under.kind_ne hs (.self o)
  have hpos : 0 < o.subtreeObjects.toNat := by
    have h0 := (counted_iff.1 m.counted).1
    rcases Nat.eq_zero_or_pos o.subtreeObjects.toNat with h | h
    · exact absurd (UInt64.toNat_inj.1 h) h0
    · exact h
  unfold Log.enqueueObject
  simp only [ensure, hs.kind_ne, ne_eq, not_false_eq_true, if_true, bind, Except.bind,
    show o.validateCount = .ok () from m.counted]
  by_cases hfree : blocked.any (isCollectionCandidate · (objectKey log.incarnation o)) = true
  · simp only [hfree, not_true_eq_false, if_false]
    exact .inl ⟨rfl, o, ho, hfree⟩
  simp only [hfree]
  cases hlook : walk.visited.lookup (objectKey log.incarnation o) with
  | some declared =>
      -- a key that was met before was met as the same reference
      obtain ⟨r, hr, hk, rfl⟩ := hv _ _ hlook hkind
      obtain ⟨e1, e2⟩ := (hG.stored r hr).unique hs hk
      simp only [e1, e2, if_true, pure, Except.pure]
      exact ⟨hv, fun r hr => .inl hr, by omega⟩
  | none =>
      have hfit : o.len ≤ log.options.maxObjectBytes := m.fits
      by_cases hmax : walk.visited.length + 1 ≤ log.options.maxCollectionObjects.toNat
      · simp only [List.length_cons, hmax, if_true, hfit, pure, Except.pure]
        refine ⟨fun k x hk hkk => ?_, fun r hr => ?_, ?_⟩
        · rw [List.lookup_cons] at hk
          by_cases hko : k = objectKey log.incarnation o
          · rw [hko, beq_self_eq_true] at hk
            exact ⟨o, ho, hko.symm, (Option.some.inj hk).symm⟩
          · rw [beq_false_of_ne hko] at hk
            exact hv k x hk hkk
        · rcases List.mem_append.1 hr with hr | hr
          · exact .inl hr
          · rw [List.mem_singleton.1 hr]
            exact .inr ho
        · simp only [Walk.charge, List.length_cons, List.map_append, List.map_cons, List.map_nil,
            List.sum_append, List.sum_cons, List.sum_nil, ObjectRef.weight]
          omega
      · simp only [List.length_cons, hmax, if_false]
        refine .inr ⟨rfl, ?_⟩
        unfold Walk.charge
        omega

theorem enqueueObjects_result (blocked : Option (List CollectionCandidate))
    (hG : s.GraphOK log G) :
    ∀ (objects : List ObjectRef) (walk : Walk), walk.visited.Of log G → (∀ o ∈ objects, G o) →
      match objects.foldlM (log.enqueueObject blocked) walk with
      | .ok walk' => walk'.visited.Of log G ∧ (∀ r ∈ walk'.pending, r ∈ walk.pending ∨ G r) ∧
          walk'.charge ≤ walk.charge + countOf objects
      | .error e => EnqueueError log blocked G (walk.charge + countOf objects) e
  | [], walk, hv, _ => ⟨hv, fun r hr => .inl hr, by simp [countOf]⟩
  | o :: objects, walk, hv, ho => by
      have h₁ := enqueueObject_result blocked hG hv (ho o (by simp))
      have hcount : countOf (o :: objects) = o.subtreeObjects.toNat + countOf objects := by
        simp [countOf]
      rw [List.foldlM_cons]
      cases hw : log.enqueueObject blocked walk o with
      | error e =>
          rw [hw] at h₁
          exact EnqueueError.le (by omega) h₁
      | ok walk₁ =>
          rw [hw] at h₁
          obtain ⟨hv₁, hp₁, hc₁⟩ := h₁
          have h₂ := enqueueObjects_result blocked hG objects walk₁ hv₁
            fun x hx => ho x (by simp [hx])
          show match objects.foldlM (log.enqueueObject blocked) walk₁ with
            | .ok walk' => _
            | .error e => _
          cases hw₂ : objects.foldlM (log.enqueueObject blocked) walk₁ with
          | error e =>
              rw [hw₂] at h₂
              exact EnqueueError.le (by omega) h₂
          | ok walk₂ =>
              rw [hw₂] at h₂
              obtain ⟨hv₂, hp₂, hc₂⟩ := h₂
              refine ⟨hv₂, fun r hr => ?_, by omega⟩
              rcases hp₂ r hr with hr | hr
              · exact hp₁ r hr
              · exact .inr hr

/-! ## The walk -/

/-- How a walk over a complete graph can fail. -/
def State.WalkError (s : State) (t L : Nat) (log : Log)
    (blocked : Option (List CollectionCandidate)) (G : ObjectRef → Prop) (budget : Nat)
    (e : Error) : Prop :=
  e.Unavailable ∨ EnqueueError log blocked G budget e ∨
    ∃ r, G r ∧ e.Missing ∧ s.Lacks t L (objectKey log.incarnation r)

/-- **The invariant of a walk over a complete graph.** -/
structure WalkSound (s : State) (t L : Nat) (log : Log) (G : ObjectRef → Prop) (budget : Nat)
    (walk : Walk) (reads : List GraphRead) (bytes : Nat) : Prop where
  graph : s.GraphOK log G
  visited : walk.visited.Of log G
  pending : ∀ r ∈ walk.pending, G r
  started : ∀ x ∈ reads, G x.2.1 ∧ x.1 = x.2.1.len.toNat ∧ s.ReadStarted t L log x.2.1 x.2.2
  active : bytes = (reads.map fun x => x.1).sum ∧ bytes ≤ log.options.maxObjectBytes.toNat
  charge : walk.charge + (reads.map fun x => x.2.1.weight).sum ≤ budget

theorem WalkSound.mono {walk : Walk} {reads : List GraphRead} {bytes : Nat} (hle : s.Le s')
    (h : WalkSound s t L log G budget walk reads bytes) :
    WalkSound s' t L log G budget walk reads bytes :=
  { h with
    graph := h.graph.mono hle
    started := fun x hx => ⟨(h.started x hx).1, (h.started x hx).2.1, (h.started x hx).2.2.mono hle⟩ }

/-- Moving objects into reads does not fail. -/
theorem startReads_sound (hA : Reads ≤ A) {visited : Visited} :
    ∀ (pending : List ObjectRef) (reads : List GraphRead) (bytes : Nat) (s : State), Good s →
      L ≤ s.now → WalkSound s t L log G budget ⟨visited, pending⟩ reads bytes →
      Runs t A (log.startReads mode pending reads bytes) (fun r u => match r with
        | .ok (pending', reads', bytes') =>
            WalkSound u t L log G budget ⟨visited, pending'⟩ reads' bytes'
        | .error _ => False) s
  | [], reads, bytes, s, g, hL, ok => Runs.pure fun u o _ => ok.mono o.le
  | object :: pending, reads, bytes, s, g, hL, ok => by
      refine Runs.ite (fun _ => Runs.pure fun u o _ => ok.mono o.le) fun _ => ?_
      have hobj := ok.pending object (by simp)
      have hs := ok.graph.stored object hobj
      obtain ⟨_, m⟩ := hs.matches
      have hfits : object.len.toNat ≤ log.options.maxObjectBytes.toNat :=
        UInt64.le_iff_toNat_le.1 m.fits
      have hmax : log.options.maxObjectBytes.toNat < 2 ^ 64 := UInt64.toNat_lt _
      have hcharge := ok.charge
      simp only [Walk.charge, List.map_cons, List.sum_cons] at hcharge
      refine Runs.ite (fun hskip => ?_) fun _ => ?_
      · refine startReads_sound hA pending reads bytes s g hL
          { ok with pending := fun r hr => ok.pending r (by simp [hr]), charge := ?_ }
        simp only [Walk.charge]
        omega
      refine Runs.ite (fun _ => Runs.pure fun u o _ => ok.mono o.le) fun hroom => ?_
      -- the bytes of the active reads fit one object
      have hsum : bytes + object.len.toNat ≤ log.options.maxObjectBytes.toNat := by
        obtain ⟨hb, hle⟩ := ok.active
        by_cases hr : reads = []
        · rw [hr] at hb
          simp only [List.map_nil, List.sum_nil] at hb
          omega
        · rcases Nat.lt_or_ge (log.options.maxObjectBytes.toNat - bytes) object.len.toNat with
            hlt | hge
          · exact absurd ⟨hr, hlt⟩ hroom
          · omega
      refine Runs.ite (fun hover => by omega) fun _ => ?_
      have henq : Enqueueable log none object := ⟨hs.kind_ne, m.counted, by simp⟩
      refine Runs.bind le_rfl g (startChildren_runs hA g hL henq m.fits) ?_ nofun
      rintro x u tr gu ⟨x', hx', hst⟩
      obtain rfl := Except.ok.inj hx'
      have ok₁ := ok.mono tr.le
      refine startReads_sound hA pending (reads ++ [(object.len.toNat, object, x)]) _ u gu
        (hL.trans tr.le.now) ⟨ok₁.graph, ok.visited, fun r hr => ok.pending r (by simp [hr]), ?_,
        ?_, ?_⟩
      · intro y hy
        rcases List.mem_append.1 hy with hy | hy
        · exact ok₁.started y hy
        · rw [List.mem_singleton.1 hy]
          exact ⟨hobj, rfl, hst⟩
      · refine ⟨?_, hsum⟩
        simp only [List.map_append, List.map_cons, List.map_nil, List.sum_append, List.sum_cons,
          List.sum_nil, ← ok.active.1]
        omega
      · simp only [Walk.charge, List.map_append, List.map_cons, List.map_nil, List.sum_append,
          List.sum_cons, List.sum_nil]
        omega

/-- The children of a stored object can be read from its bytes. -/
theorem Stored.collectChildren {body : Bodies} {r : ObjectRef} {bytes : Bytes}
    (hs : Stored body log.incarnation log.options r)
    (hb : body (objectKey log.incarnation r) = some bytes) :
    ∃ children, log.collectChildren r (some bytes) = .ok children := by
  cases hs with
  | blob kind m =>
      obtain rfl := Option.some.inj (m.stored.symm.trans hb)
      refine ⟨[], bind_ok.2 ⟨_, collectObject_ok.2 ⟨m.len.le, rfl⟩, ?_⟩⟩
      rw [kind]
      refine bind_ok.2 ⟨r.len, okOr_ok.2 ?_, bind_ok.2 ⟨(), ensure_ok.2 ⟨m.digest, rfl⟩, rfl⟩⟩
      rw [m.len, toU64_eq_some (UInt64.toNat_lt _), UInt64.ofNat_toNat]
  | @node _ _ n kind m hd hs hc =>
      obtain rfl := Option.some.inj (m.stored.symm.trans hb)
      refine ⟨n.children, bind_ok.2 ⟨_, collectObject_ok.2 ⟨m.len.le, rfl⟩, ?_⟩⟩
      rw [kind]
      refine bind_ok.2 ⟨(), verifyObject_ok.2 ⟨m.counted, m.len, m.digest⟩, ?_⟩
      exact bind_ok.2 ⟨_, decodeNodeReference_ok.2 ⟨hd, hs⟩, rfl⟩

theorem finishChildren_sound {r : ObjectRef} {x : Except Error FlightId} (hA : Reads ≤ A)
    (g : Good s) (hL : L ≤ s.now) (hG : s.GraphOK log G) (hr : G r)
    (hx : s.ReadStarted t L log r x) :
    Runs t A (log.finishChildren r x) (fun res u => match res with
      | .ok children => (∀ c ∈ children, G c) ∧ countOf children ≤ r.weight
      | .error e => e.Unavailable ∨
          (e.Missing ∧ u.Lacks t L (objectKey log.incarnation r))) s := by
  have hread : Reads (.submit (.get (objectKey log.incarnation r))) := trivial
  have hs := hG.stored r hr
  obtain ⟨bytes₀, m⟩ := hs.matches
  refine (finishRead_runs hA hread _ furtherReads s x g hL ?_).track.mono ?_
  · rintro j rfl
    rcases hx with hx | ⟨j', hj', ask⟩
    · cases hx
    · obtain rfl := Except.ok.inj hj'
      exact ask
  rintro res u gu ⟨tr, ⟨e, rfl, rfl⟩ | h⟩
  · rcases hx with hx | ⟨j', hj', -⟩
    · obtain rfl := Except.error.inj hx
      exact .inl (.inl rfl)
    · cases hj'
  have hbody := tr.le.body _ _ m.stored
  cases res with
  | error e =>
      rcases h with h | ⟨ans, hans, hcol⟩
      · exact .inl h
      · have hget := hans.get gu.inv
        cases ans with
        | none => exact .inr ⟨.inr (.inl (Except.error.inj hcol).symm), hget, hans⟩
        | some bytes =>
            obtain rfl := Option.some.inj (hbody.symm.trans hget.1)
            obtain ⟨children, hc⟩ := hs.collectChildren m.stored
            rw [hc] at hcol
            cases hcol
  | ok children =>
      obtain ⟨ans, hans, hcol⟩ := h
      have hget := hans.get gu.inv
      cases ans with
      | none => cases hcol
      | some bytes =>
          obtain rfl := Option.some.inj (hbody.symm.trans hget.1)
          obtain ⟨-, -, hkind⟩ := collectChildren_ok hcol
          rcases hkind with ⟨hk, rfl⟩ | ⟨hk, n, hn, hsub, rfl⟩
          · exact ⟨nofun, Nat.zero_le _⟩
          · refine ⟨fun c hc => hG.closed r _ n c hr hk m.stored hn hc, ?_⟩
            have := (subtreeObjects_ok hsub).1
            unfold countOf ObjectRef.weight
            omega

omit [Blake3] in
theorem getElem?_get {α : Type} (xs : List α) (i : Fin xs.length) :
    xs[i.val]? = some (xs.get i) := by
  rw [List.getElem?_eq_getElem i.isLt]
  rfl

omit [Blake3] in
/-- What is left when one element is taken out of a list. -/
theorem sum_eraseIdx {α : Type} (f : α → Nat) {xs : List α} {i : Nat} {x : α}
    (h : xs[i]? = some x) : ((xs.eraseIdx i).map f).sum + f x = (xs.map f).sum := by
  induction xs generalizing i with
  | nil => simp at h
  | cons y ys ih =>
      cases i with
      | zero =>
          obtain rfl : y = x := by simpa using h
          simp only [List.eraseIdx_cons_zero, List.map_cons, List.sum_cons]
          omega
      | succ i =>
          have := ih (i := i) (by simpa using h)
          simp only [List.eraseIdx_cons_succ, List.map_cons, List.sum_cons]
          omega

/-- **The loop of the walk, on a complete graph.** -/
theorem walkGraph_sound (hA : Reads ≤ A) :
    ∀ (fuel : Nat) (walk : Walk) (reads : List GraphRead) (bytes : Nat) (s : State), Good s →
      L ≤ s.now → WalkSound s t L log G budget walk reads bytes →
      Runs t A (log.walkGraph blocked mode fuel walk reads bytes) (fun r u => match r with
        | .ok _ => True
        | .error e => u.WalkError t L log blocked G budget e) s
  | 0, walk, reads, bytes, s, g, hL, ok => Runs.pure fun _ _ _ => trivial
  | fuel + 1, walk, reads, bytes, s, g, hL, ok => by
      refine Runs.bind le_rfl g (startReads_sound hA walk.pending reads bytes s g hL ok) ?_
        fun _ _ _ _ h => h.elim
      rintro ⟨pending, reads₁, bytes₁⟩ u tr gu ok₁
      have hL₁ := hL.trans tr.le.now
      cases reads₁ with
      | nil => exact Runs.pure fun _ _ _ => trivial
      | cons read rest =>
          refine Runs.bind (P := fun r _ => ∃ i, r = .ok i) le_rfl gu ?_ ?_ nofun
          · exact Runs.ask fun _ _ _ => ⟨⟨trivial, hA _ trivial⟩, fun i _ _ _ _ _ _ => ⟨i, rfl⟩⟩
          rintro i v tr₁ gv -
          have hL₂ := hL₁.trans tr₁.le.now
          have ok₂ : WalkSound v t L log G budget ⟨walk.visited, pending⟩ (read :: rest) bytes₁ :=
            WalkSound.mono tr₁.le ok₁
          have hget := getElem?_get (read :: rest) i
          generalize (read :: rest).get i = x at hget
          obtain ⟨n, object, started⟩ := x
          obtain ⟨hobj, hn, hst⟩ := ok₂.started _ (List.mem_of_getElem? hget)
          refine Runs.bind le_rfl gv (finishChildren_sound hA gv hL₂ ok₂.graph hobj hst) ?_
            fun e w _ _ h => h.imp id fun hlack => .inr ⟨object, hobj, hlack⟩
          rintro children w tr₂ gw ⟨hchildren, hcount⟩
          have ok₃ := ok₂.mono tr₂.le
          have hweight := sum_eraseIdx (fun x : GraphRead => x.2.1.weight) hget
          have hbytes := sum_eraseIdx (fun x : GraphRead => x.1) hget
          simp only at hweight hbytes
          have hcharge := ok₃.charge
          have henq := enqueueObjects_result blocked ok₃.graph children _ ok₃.visited hchildren
          refine Runs.liftBind (fun walk' hwalk => ?_) fun e x he o gx => ?_
          · rw [hwalk] at henq
            obtain ⟨hv', hp', hc'⟩ := henq
            refine walkGraph_sound hA fuel walk' ((read :: rest).eraseIdx i) _ w gw
              (hL₂.trans tr₂.le.now) ⟨ok₃.graph, hv', fun r hr => ?_, fun y hy => ?_, ?_, ?_⟩
            · rcases hp' r hr with hr | hr
              · exact ok₃.pending r hr
              · exact hr
            · exact ok₃.started y (List.mem_of_mem_eraseIdx hy)
            · obtain ⟨hb, hle⟩ := ok₃.active
              constructor <;> omega
            · omega
          · rw [he] at henq
            exact .inr (.inl (EnqueueError.le (by omega) henq))

/-- **How marking a complete graph can fail.** -/
theorem markObjectGraph_sound {roots : List ObjectRef} {base : Visited} (hA : Reads ≤ A)
    (g : Good s) (hG : s.GraphOK log G) (hroots : ∀ r ∈ roots, G r) (hbase : base.Of log G) :
    Runs t A (log.markObjectGraph roots base blocked mode) (fun r u => match r with
      | .ok _ => True
      | .error e => u.WalkError t s.now log blocked G (base.length + countOf roots) e) s := by
  have henq := enqueueObjects_result blocked hG roots ⟨base, []⟩ hbase hroots
  have hzero : Walk.charge ⟨base, []⟩ = base.length := by simp [Walk.charge]
  rw [hzero] at henq
  refine Runs.liftBind (fun walk hwalk => ?_) fun e u he o gu => ?_
  · rw [hwalk] at henq
    obtain ⟨hv, hp, hc⟩ := henq
    refine walkGraph_sound hA _ walk [] 0 s g le_rfl ⟨hG, hv, fun r hr => ?_, nofun, ?_, ?_⟩
    · rcases hp r hr with hr | hr
      · cases hr
      · exact hr
    · exact ⟨rfl, Nat.zero_le _⟩
    · simpa using hc
  · rw [he] at henq
    exact .inr (.inl henq)

end ObjectLog
