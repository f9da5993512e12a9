import ObjectLog.Lib.Prog
import ObjectLog.Lib.GoMap
import ObjectLog.Types

/-!
# The fetch policy of the Git example

`visibleFetch` of `examples/git/fetch_policy.go` and the checks of `validate_objects.go` on the
edges of an object. Objects are decoded as they are read. A map to `bool` of the source holds
`true` only and is a set here. Reads of objects and the order of the loop over the deferred
parents are effects.
-/

namespace ObjectLog.Git

open Rely

/-- `plumbing.Hash`. -/
abbrev Hash := Bytes

/-- `plumbing.ObjectType`. -/
inductive ObjectType where
  | commit
  | tree
  | blob
  | tag
deriving DecidableEq

/-- `filemode.FileMode`, as far as the policy tells modes apart. -/
inductive FileMode where
  | dir
  | submodule
  | other
deriving DecidableEq

structure TreeEntry where
  mode : FileMode
  hash : Hash

/-- A decoded object, with its edges. -/
inductive Object where
  | commit (treeHash : Hash) (parentHashes : List Hash)
  | tree (entries : List TreeEntry)
  | blob
  | tag (target : Hash) (targetType : ObjectType)

def Object.type : Object → ObjectType
  | commit _ _ => .commit
  | tree _ => .tree
  | blob => .blob
  | tag _ _ => .tag

/-- Why a read of an object fails. -/
inductive ReadError where
  /-- `plumbing.ErrObjectNotFound`. -/
  | objectNotFound
  | other

inductive FetchEffect where
  | encodedObject (id : Hash)
  | range (keys : Finset Hash)

def FetchEffect.Answer : FetchEffect → Type
  | encodedObject _ => Except ReadError Object
  | range keys => GoMap.Order keys

inductive FetchFailure where
  | read (e : ReadError)
  /-- `requested object is not reachable from published refs`. -/
  | notReachable
  /-- The fuel is used up. -/
  | unbounded

abbrev FetchProg := Prog FetchEffect FetchEffect.Answer FetchFailure

/-! ## What is needed -/

/-- The variables of the first loops. -/
structure FetchNeeds where
  needed : Finset Hash
  fullWalk : Bool

/-- One turn of the loops over the wants and over the haves. -/
def needTurn (visible : Finset Hash) (want : Bool) (needs : FetchNeeds) (id : Hash) :
    FetchProg FetchNeeds :=
  if id ∈ visible then
    return needs
  else
    .perform (.encodedObject id) fun
      | .error .objectNotFound => return needs
      | .error e => throw (.read e)
      | .ok o =>
          let fullWalk := needs.fullWalk || (want && o.type ≠ .commit)
          if want || fullWalk || o.type = .commit then
            return ⟨insert id needs.needed, fullWalk⟩
          else
            return { needs with fullWalk }

/-! ## The walk -/

/-- The variables of the walk. -/
structure FetchWalk where
  visible : Finset Hash
  needed : Finset Hash
  seen : Finset Hash
  queue : List Hash
  parents : Finset Hash

/-- `enqueue`. -/
def FetchWalk.enqueue (walk : FetchWalk) (id : Hash) : FetchWalk :=
  if id ∈ walk.seen then walk
  else { walk with seen := insert id walk.seen, queue := walk.queue ++ [id] }

/-- An object is visible, and no longer needed. -/
def FetchWalk.reveal (walk : FetchWalk) (id : Hash) : FetchWalk :=
  { walk with visible := insert id walk.visible, needed := walk.needed.erase id }

/-- An object is taken from the queue. Without the full walk only a commit becomes visible. -/
def FetchWalk.taken (fullWalk : Bool) (walk : FetchWalk) (queue : List Hash) (id : Hash)
    (o : Object) : FetchWalk :=
  let walk := { walk with queue }
  if fullWalk || o.type = .commit then walk.reveal id else walk

/-- A parent waits for the generation after this one. -/
def FetchWalk.defer (walk : FetchWalk) (parent : Hash) : FetchWalk :=
  if parent ∈ walk.seen then walk else { walk with parents := insert parent walk.parents }

/-- An entry of a tree. -/
def FetchWalk.enter (walk : FetchWalk) (entry : TreeEntry) : FetchWalk :=
  if entry.mode = .submodule then walk
  else
    let walk := walk.reveal entry.hash
    if entry.mode = .dir then walk.enqueue entry.hash else walk

/-- The `switch` on the type of an object. -/
def FetchWalk.follow (fullWalk : Bool) (walk : FetchWalk) : Object → FetchWalk
  | .commit treeHash parentHashes =>
      let walk := parentHashes.foldl FetchWalk.defer walk
      if fullWalk then walk.enqueue treeHash else walk
  | .tag target _ => walk.enqueue target
  | .tree entries => if fullWalk then entries.foldl FetchWalk.enter walk else walk
  | .blob => walk

/-- The end of a turn: the deferred parents are the next generation. -/
def nextGeneration (walk : FetchWalk) : FetchProg FetchWalk :=
  if walk.queue = [] then
    .perform (.range walk.parents) fun order =>
      return { order.list.foldl FetchWalk.enqueue walk with parents := ∅ }
  else
    return walk

/-- The loop of `visibleFetch`. -/
def walkVisible (fullWalk : Bool) : Nat → FetchWalk → FetchProg FetchWalk
  | 0, _ => throw .unbounded
  | fuel + 1, walk =>
      match walk.queue with
      | [] => return walk
      | id :: queue =>
          if walk.needed = ∅ then
            return walk
          else
            .perform (.encodedObject id) fun
              | .error e => throw (.read e)
              | .ok o => do
                  let walk := walk.taken fullWalk queue id o
                  if walk.needed = ∅ then
                    return walk
                  else
                    let walk ← nextGeneration (walk.follow fullWalk o)
                    walkVisible fullWalk fuel walk

/-- `visibleFetch`. -/
def visibleFetch (fuel : Nat) (tips wants haves : List Hash) : FetchProg (List Hash) := do
  let visible := tips.toFinset
  let needs ← wants.foldlM (needTurn visible true) ⟨∅, false⟩
  let needs ← haves.foldlM (needTurn visible false) needs
  let walk := tips.foldl FetchWalk.enqueue ⟨visible, needs.needed, ∅, [], ∅⟩
  let walk ← walkVisible needs.fullWalk fuel walk
  if wants.all (· ∈ walk.visible) then
    return haves.filter (· ∈ walk.visible)
  else
    throw .notReachable

/-! ## Published objects -/

/-- The objects of a repository. -/
abbrev ObjectStore := Finmap fun _ : Hash => Object

/-- Reads are answered from the store, and loops over maps go in any order. -/
def fromObjects (store : ObjectStore) : (e : FetchEffect) → e.Answer → Prop
  | .encodedObject id, answer => answer =
      match store.lookup id with
      | some o => .ok o
      | none => .error .objectNotFound
  | .range _, _ => True

/-- The edges of an object: the tree and the parents of a commit, the target of a tag and the
entries of a tree that are no submodules. -/
def Object.edges : Object → List Hash
  | commit treeHash parentHashes => treeHash :: parentHashes
  | tree entries => (entries.filter fun entry => entry.mode ≠ .submodule).map TreeEntry.hash
  | blob => []
  | tag target _ => [target]

/-- An object that is a tip or can be reached from one. -/
inductive Published (store : ObjectStore) (tips : List Hash) : Hash → Prop
  | tip {id : Hash} (h : id ∈ tips) : Published store tips id
  | edge {id next : Hash} {o : Object} (h : Published store tips id)
      (ho : store.lookup id = some o) (hnext : next ∈ o.edges) : Published store tips next

/-- `check` of `verifyObjects`: the object is there and of this type. -/
def ObjectStore.check (store : ObjectStore) (id : Hash) (kind : ObjectType) : Bool :=
  (store.lookup id).any fun o => o.type = kind

/-- What `verifyObjects` checks of the edges of an object. -/
def ObjectStore.verifyEdges (store : ObjectStore) : Object → Bool
  | .commit treeHash parentHashes =>
      ObjectStore.check store treeHash .tree &&
        parentHashes.all fun parent => ObjectStore.check store parent .commit
  | .tree entries => entries.all fun entry =>
      match entry.mode with
      | .submodule => true
      | .dir => ObjectStore.check store entry.hash .tree
      | .other => ObjectStore.check store entry.hash .blob
  | .tag target targetType => ObjectStore.check store target targetType
  | .blob => true

end ObjectLog.Git
