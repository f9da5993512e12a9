import ObjectLog.Log.History

/-!
# The loop of a graph walk at its awaits

`Log.walkGraph` is the loop of `mark_object_graph` that runs to its end. Here the same loop is
written with the queue, the reads in flight and the bytes they reserve at every await. A read
counts as in flight from the moment it is started.
-/

namespace ObjectLog

open Rely

variable [Blake3]

/-- The variables of the loop: the queue, the objects being read, and `active_bytes`. -/
structure WalkLoop where
  pending : List ObjectRef
  reads : List ObjectRef
  activeBytes : Nat

/-- The variables with the reads as the loop has them. -/
def WalkLoop.of (pending : List ObjectRef) (reads : List GraphRead) (activeBytes : Nat) :
    WalkLoop :=
  ⟨pending, reads.map fun read => read.2.1, activeBytes⟩

/-- `Log.startReads` as a future. -/
def Log.startReadsPolled (log : Log) (mode : GraphWalk) :
    List ObjectRef → List GraphRead → Nat →
      Polled WalkLoop (Except Error (List ObjectRef × List GraphRead × Nat))
  | [], reads, activeBytes => .ended (.of [] reads activeBytes) (.ok ([], reads, activeBytes))
  | object :: pending, reads, activeBytes =>
      if maxConcurrentReads ≤ reads.length then
        .ended (.of (object :: pending) reads activeBytes)
          (.ok (object :: pending, reads, activeBytes))
      else if mode = .reachability ∧ object.kind = .blob then
        log.startReadsPolled mode pending reads activeBytes
      else
        let bytes := object.len.toNat
        if reads ≠ [] ∧ log.options.maxObjectBytes.toNat - activeBytes < bytes then
          .ended (.of (object :: pending) reads activeBytes)
            (.ok (object :: pending, reads, activeBytes))
        else if 2 ^ 64 ≤ activeBytes + bytes then
          .ended (.of pending reads activeBytes) (.error (.limitExceeded "graph read bytes"))
        else
          let loop := ⟨pending, (reads.map fun read => read.2.1) ++ [object], activeBytes + bytes⟩
          .awaiting loop (log.startChildren object) fun
            | .error error => .ended loop (.error error)
            | .ok started => log.startReadsPolled mode pending (reads ++ [(bytes, object, started)])
                (activeBytes + bytes)

/-- One of the reads ends: its children are put on the queue, and `next` is the next turn. -/
def Log.endReadPolled (log : Log) (blocked : Option (List CollectionCandidate)) (walk : Walk)
    (next : Walk → List GraphRead → Nat → Polled WalkLoop (Except Error Visited))
    (loop : WalkLoop) (read : GraphRead) (others : List GraphRead) (activeBytes : Nat) :
    Polled WalkLoop (Except Error Visited) :=
  let ended := .of walk.pending others (activeBytes - read.1)
  .awaiting loop (log.finishChildren read.2.1 read.2.2) fun
    | .error error => .ended ended (.error error)
    | .ok children =>
        match children.foldlM (log.enqueueObject blocked) walk with
        | .error error => .ended ended (.error error)
        | .ok walk => next walk others (activeBytes - read.1)

/-- The second half of a turn of the loop, when the reads are started. -/
def Log.walkTurnPolled (log : Log) (blocked : Option (List CollectionCandidate))
    (visited : Visited)
    (next : Walk → List GraphRead → Nat → Polled WalkLoop (Except Error Visited))
    (loop : WalkLoop) :
    Except Error (List ObjectRef × List GraphRead × Nat) → Polled WalkLoop (Except Error Visited)
  | .error error => .ended loop (.error error)
  | .ok (_, [], _) => .ended loop (.ok visited)
  | .ok (pending, read :: rest, activeBytes) =>
      .awaiting loop (choose rest.length) fun
        | .error error => .ended loop (.error error)
        | .ok i => log.endReadPolled blocked { visited, pending } next loop ((read :: rest).get i)
            ((read :: rest).eraseIdx i) activeBytes

/-- `Log.walkGraph` as a future. -/
def Log.walkGraphPolled (log : Log) (blocked : Option (List CollectionCandidate))
    (mode : GraphWalk) :
    Nat → Walk → List GraphRead → Nat → Polled WalkLoop (Except Error Visited)
  | 0, walk, reads, activeBytes =>
      .ended (.of walk.pending reads activeBytes) (.ok walk.visited)
  | fuel + 1, walk, reads, activeBytes =>
      (log.startReadsPolled mode walk.pending reads activeBytes).bind
        (log.walkTurnPolled blocked walk.visited (log.walkGraphPolled blocked mode fuel))

/-- The loop of `mark_object_graph` over a queue, with the fuel it gets there. -/
def Log.markQueuePolled (log : Log) (blocked : Option (List CollectionCandidate))
    (mode : GraphWalk) (walk : Walk) : Polled WalkLoop (Except Error Visited) :=
  log.walkGraphPolled blocked mode
    (walk.pending.length + (log.options.maxCollectionObjects.toNat - walk.visited.length)) walk [] 0

end ObjectLog
