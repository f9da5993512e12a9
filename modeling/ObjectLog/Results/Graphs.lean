import ObjectLog.Proof.Closure
import ObjectLog.Proof.WalkBudget
import ObjectLog.Replay

/-!
# Graph walks

What a walk over fixed contents returns is settled by the contents and the roots alone. While
it runs it keeps to a budget of reads, whatever the store answers.
-/

namespace ObjectLog

open Rely

section

variable [Blake3] {σ : Bodies} {log : Log} {blocked : Option (List CollectionCandidate)}
  {mode : GraphWalk} {roots : List ObjectRef} {base : Visited}

/-- **A graph walk computes the closure of its roots.** Reads are answered in any order. The
walk ends well exactly if every object of the closure is as the walk asks, and then it has
entered every one of them into the map, once, and nothing else. -/
theorem mark_object_graph_computes_closure
    (hlimit : base.length ≤ log.options.maxCollectionObjects.toNat)
    (apart : base.Apart σ log roots) :
    Ends (Faultless σ) (log.markObjectGraph roots base blocked mode)
      (MarkEnds σ log blocked mode roots base) := by
  have hstart : Met σ log blocked roots base [] base :=
    ⟨rfl, List.nodup_nil, nofun, nofun, hlimit⟩
  have henq := Met.enqueueAll mode apart roots [] ⟨base, []⟩ hstart fun r hr => ⟨r, hr, .self r⟩
  unfold Log.markObjectGraph
  cases hw : roots.foldlM (log.enqueueObject blocked) ⟨base, []⟩ with
  | error e =>
      rw [hw] at henq
      exact Ends.lift henq
  | ok walk =>
      rw [hw] at henq
      obtain ⟨new, hpending, hmet, hall⟩ := henq
      rw [List.nil_append] at hpending
      refine Ends.after (Ends.lift rfl) ?_
      refine walkGraph_marks apart _ _ walk [] 0 ⟨hmet, hall, ?_, nofun, ?_, rfl, by simp⟩ (by simp)
      · intro r hr
        rw [hpending] at hr
        exact List.mem_append_left _ (List.mem_reverse.2 hr)
      · intro r hr
        -- nothing was met but the roots, and all of them wait
        rw [List.append_nil] at hr
        exact .inl (hpending ▸ List.mem_reverse.1 hr)

end

section

attribute [local instance] sampleHash

def graphLog : Log := ⟨sampleLog, Options.default, 7, 0⟩

def graphRef (kind : ObjectKind) (bytes : Bytes) (count : UInt64) : ObjectRef :=
  ⟨kind, ⟨0⟩, Digest.of bytes, .ofNat bytes.length, count⟩

/-- The node over the children. -/
def graphNode (children : List ObjectRef) : Bytes :=
  (encodeNode ⟨[], children⟩ graphLog.options).toOption.getD []

/-- A blob, a node over it, and a node over both. -/
def graphObjects : List Bytes :=
  let blob := [1]
  let inner := graphNode [graphRef .blob blob 1]
  [blob, inner, graphNode [graphRef .node inner 2, graphRef .blob blob 1]]

def graphContents : Bodies := fun key =>
  graphObjects.find? fun bytes => Digest.of bytes = key.digest

def graphRoot : ObjectRef := graphRef .node (graphObjects.getD 2 []) 4

/-- A checkpoint is in the map before the walk starts. -/
def graphBase : Visited := [(⟨7, .checkpoint, ⟨0⟩, Digest.of []⟩, (1, 5))]

/-- The walk over the three objects. -/
def graphWalk : Except Error Visited :=
  (graphLog.markObjectGraph [graphRoot] graphBase none .verifyBlobs).answeredBy
    (answersFrom graphContents)

theorem graphWalk_ok : (graphWalk.toOption.map List.length) = some 4 := by
  decide +kernel

theorem mark_object_graph_computes_closure_sharedBlob : ∃ visited : Visited,
    graphWalk = .ok visited ∧ visited.length = 4 ∧
    MarkEnds graphContents graphLog none .verifyBlobs [graphRoot] graphBase (.ok visited) := by
  have hlimit : graphBase.length ≤ graphLog.options.maxCollectionObjects.toNat := by
    decide +kernel
  have apart : graphBase.Apart graphContents graphLog [graphRoot] := by
    intro r _ hkind
    rw [graphBase, List.lookup_cons]
    split
    · -- the key in the map is not that of a blob or a node
      rename_i hkey
      have hk := congrArg ImmutableKey.kind (beq_iff_eq.1 hkey)
      cases hr : r.kind <;> simp_all [objectKey, ObjectKind.immutable]
    · rfl
  have hreach : (graphLog.markObjectGraph [graphRoot] graphBase none .verifyBlobs).Reaches
      (Faultless graphContents) (.done graphWalk) := by
    rw [graphWalk]
    exact Prog.reaches_answeredBy answersFrom_faultless
  have hwalk := graphWalk_ok
  generalize graphWalk = result at hreach hwalk ⊢
  generalize [graphRoot] = roots at apart hreach ⊢
  have hends := (mark_object_graph_computes_closure hlimit apart).reached hreach
  cases result with
  | error e => cases hwalk
  | ok visited => exact ⟨visited, rfl, Option.some.inj hwalk, hends⟩

end

section

variable [Blake3] {log : Log} {blocked : Option (List CollectionCandidate)} {mode : GraphWalk}

/-- **A graph walk keeps its read budget and does not stall.** At every await, whatever was
answered before and in whatever order the reads ended, at most thirty-two reads are in flight,
`active_bytes` is the sum of what they declare, which fits one object, and what is on the queue
is started in its turn unless the walk fails first. The loop ends well only with nothing on the
queue and nothing in flight. `mark_object_graph` is this loop on the queue of its roots. -/
theorem graph_walk_keeps_read_budget :
    (∀ walk : Walk, (∀ r ∈ walk.pending, r.len ≤ log.options.maxObjectBytes) →
      ∀ m, (log.markQueuePolled blocked mode walk).Comes anything m →
        m.state.reads.length ≤ 32 ∧
        (m.state.reads.map fun r => r.len.toNat).sum ≤ log.options.maxObjectBytes.toNat ∧
        m.state.activeBytes = (m.state.reads.map fun r => r.len.toNat).sum ∧
        (∀ r ∈ m.state.reads, r.len.toNat ≤ m.state.activeBytes) ∧
        (∀ before object rest, m.state.pending = before ++ object :: rest →
          ¬ (mode = .reachability ∧ object.kind = .blob) →
          m.Inevitably anything (WalkLoop.Starts object rest) WalkFailed) ∧
        ∀ loop visited, m = .ended loop (.ok visited) → loop.pending = [] ∧ loop.reads = []) ∧
    ∀ (roots : List ObjectRef) (visited : Visited),
      (log.markObjectGraph roots visited blocked mode = do
        let walk ← Prog.lift (roots.foldlM (log.enqueueObject blocked) { visited, pending := [] })
        (log.markQueuePolled blocked mode walk).result) ∧
      ∀ walk, roots.foldlM (log.enqueueObject blocked) { visited, pending := [] } = .ok walk →
        ∀ r ∈ walk.pending, r.len ≤ log.options.maxObjectBytes := by
  constructor
  · intro walk hfits m hm
    have hstart : Budget log walk.pending [] 0 :=
      ⟨hfits, nofun, by simp [WalkLoop.of], rfl, Nat.zero_le _⟩
    have always : (log.markQueuePolled blocked mode walk).Always anything
        (Scheduled anything log mode) :=
      walkGraphPolled_always _ walk [] 0 hstart (by simp [Log.workLeft])
    have h := always.comes hm
    have hsum := h.within.bytes
    refine ⟨h.within.count, hsum ▸ h.within.room, hsum, fun r hr => ?_, h.started, h.complete⟩
    rw [hsum]
    exact List.single_le_sum (fun _ _ => Nat.zero_le _) _ (List.mem_map_of_mem hr)
  · intro roots visited
    constructor
    · unfold Log.markObjectGraph
      exact congrArg (Prog.lift _ >>= ·)
        (funext fun walk => (walkGraphPolled_result _ walk [] 0).symm)
    · intro walk hwalk r hr
      obtain ⟨new, hp, -, -, hnew, -⟩ := (enqueueObjects_ok hwalk).pending
      rw [hp] at hr
      exact (hnew r (by simpa using hr)).2.2

end

end ObjectLog
