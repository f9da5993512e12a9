import ObjectLog.Lib.Prog
import ObjectLog.Lib.GoMap
import ObjectLog.Types

/-!
# The radix index of the Git catalog

The functions of `examples/git/index.go`. A catalog maps object IDs to values. It is a tree of
immutable nodes that the caller loads and saves, where a branch splits its IDs by one more
byte of them. Loads, saves, the calls of `visit` and the order of every `range` loop are
effects. A recursion that the source does not bound has a `fuel`.
-/

namespace ObjectLog.Git

open Rely

/-- An object ID, or the first bytes of one. -/
abbrev Key := Bytes

/-- New leaves have at most so many items. -/
def indexLeafTarget : Nat := 128

/-- `radixNode`: a leaf with items if `Children` is nil, and a branch otherwise. -/
structure RadixNode (V H : Type) where
  items : GoMap Key V
  children : GoMap Key H

/-- What a function of the index asks its caller and the runtime for. -/
inductive IndexEffect (V H : Type) where
  | load (path : Key) (root : H)
  | save (node : RadixNode V H)
  | visit (id : Key) (value : V)
  | range (keys : Finset Key)

/-- The answers, where `ε` are the errors of the caller's functions. -/
def IndexEffect.Answer (V H ε : Type) : IndexEffect V H → Type
  | load _ _ => Except ε (RadixNode V H)
  | save _ => Except ε H
  | visit _ _ => Unit
  | range keys => GoMap.Order keys

/-- Why a function of the index ends without a result. -/
inductive IndexFailure (ε : Type) where
  /-- An error of `load` or `save`, returned as it is. -/
  | caller (e : ε)
  /-- `invalid index key`. -/
  | invalidKey
  /-- A panic: assignment to an entry of a nil map. -/
  | nilMap
  /-- The fuel is used up. -/
  | unbounded

abbrev IndexProg (V H ε : Type) :=
  Prog (IndexEffect V H) (IndexEffect.Answer V H ε) (IndexFailure ε)

section

variable {V H ε α : Type}

def load (path : Key) (root : H) : IndexProg V H ε (RadixNode V H) :=
  .perform (.load path root) fun answer => .lift (answer.mapError .caller)

def save (node : RadixNode V H) : IndexProg V H ε H :=
  .perform (.save node) fun answer => .lift (answer.mapError .caller)

def visit (id : Key) (value : V) : IndexProg V H ε Unit :=
  .perform (.visit id value) fun _ => .lift (.ok ())

/-- The entries of a map, as a loop over it meets them. -/
def range (m : GoMap Key α) : IndexProg V H ε (List (Key × α)) :=
  .perform (.range m.keys) fun order => .lift (.ok (m.entries order))

/-- A write to a map. -/
def write (m : Option (GoMap Key α)) : IndexProg V H ε (GoMap Key α) :=
  match m with
  | some m => .lift (.ok m)
  | none => .lift (.error .nilMap)

/-! ## `partition` -/

/-- One turn of the loop of `partition`. -/
def partitionTurn (width : Nat) (groups : GoMap Key (GoMap Key V)) :
    Key × V → IndexProg V H ε (GoMap Key (GoMap Key V))
  | (id, value) =>
      if id.length < width then
        throw .invalidKey
      else do
        let path := id.take width
        let group := (groups.get path).getD .nil
        let group ← write (group.orMake.set id value)
        write (groups.set path group)

/-- `partition`. -/
def partition (items : GoMap Key V) (width : Nat) : IndexProg V H ε (GoMap Key (GoMap Key V)) := do
  (← range items).foldlM (partitionTurn width) .make

/-! ## `updateRadix` -/

/-- The child that a group of updates goes to: a new one, unless there is one. -/
def groupChild (children : GoMap Key H) (key : Key) : IndexProg V H ε (RadixNode V H) :=
  match children.get key with
  | some root => load key root
  | none => pure ⟨.nil, .nil⟩

/-- One turn of the loop of `updateRadix` over the groups. -/
def updateTurn (update : Key → RadixNode V H → GoMap Key V → IndexProg V H ε H)
    (children : GoMap Key H) : Key × GoMap Key V → IndexProg V H ε (GoMap Key H)
  | (key, group) => do
      let child ← groupChild children key
      let root ← update key child group
      write (children.set key root)

/-- `updateRadix` from its call of `partition` on. -/
def updateBranch (update : Key → RadixNode V H → GoMap Key V → IndexProg V H ε H)
    (path : Key) (node : RadixNode V H) (updates : GoMap Key V) : IndexProg V H ε H := do
  let groups ← partition updates (path.length + 1)
  let children ← write (GoMap.make.copy node.children)
  let children ← (← range groups).foldlM (updateTurn update) children
  save ⟨.nil, children⟩

/-- `updateRadix`. -/
def updateRadix : Nat → Key → RadixNode V H → GoMap Key V → IndexProg V H ε H
  | 0, _, _, _ => throw .unbounded
  | fuel + 1, path, node, updates =>
      if node.children.isNil then do
        let items ← write (GoMap.make.copy node.items)
        let items ← write (items.copy updates)
        if items.len ≤ indexLeafTarget then save ⟨items, .nil⟩
        else updateBranch (updateRadix fuel) path node items
      else updateBranch (updateRadix fuel) path node updates

/-! ## `lookupRadix` and `walkRadix` -/

/-- `lookupRadix`, with its loop as a recursion. -/
def lookupRadix (id path : Key) (root : H) : IndexProg V H ε (Option V) := do
  let node ← load path root
  if node.children.isNil then
    return node.items.get id
  else if id.length ≤ path.length then
    return none
  else
    match node.children.get (id.take (path.length + 1)) with
    | none => return none
    | some child => lookupRadix id (id.take (path.length + 1)) child
termination_by id.length - path.length
decreasing_by
  rw [List.length_take]
  omega

/-- `walkRadix`. -/
def walkRadix : Nat → Key → H → IndexProg V H ε Unit
  | 0, _, _ => throw .unbounded
  | fuel + 1, path, root => do
      let node ← load path root
      (← range node.items).foldlM (fun _ (id, value) => visit id value) ()
      (← range node.children).foldlM (fun _ (path, child) => walkRadix fuel path child) ()

/-! ## `filterRadix` -/

/-- The variables of the loop of `filterRadix` over the items of a leaf. -/
structure LeafFilter (V : Type) where
  items : GoMap Key V
  changed : Bool
  kept : Bool

/-- One turn of that loop over the items `all`. -/
def filterItem (keep : Key → Bool) (all : GoMap Key V) (leaf : LeafFilter V) :
    Key × V → IndexProg V H ε (LeafFilter V)
  | (id, item) =>
      if keep id then
        if leaf.changed then do
          let items ← write (leaf.items.orMake.set id item)
          return ⟨items, true, true⟩
        else
          return { leaf with kept := true }
      else
        -- the copy is made at the first item to go, if an earlier one stays
        let items := if !leaf.changed && leaf.kept then all else leaf.items
        return ⟨items.delete id, true, leaf.kept⟩

/-- `filterRadix` on a leaf. The result has no root if no item is left. -/
def filterLeaf (keep : Key → Bool) (root : H) (node : RadixNode V H) :
    IndexProg V H ε (Option H) := do
  let leaf ← (← range node.items).foldlM (filterItem keep node.items) ⟨.nil, false, false⟩
  if !leaf.changed then
    return some root
  else if leaf.items.len = 0 then
    return none
  else
    let replacement ← save ⟨leaf.items, .nil⟩
    return some replacement

/-- What a turn of the loop of `filterRadix` over the children `all` makes of a filtered
child. -/
def replaceChild [DecidableEq H] (all children : GoMap Key H) (path : Key) (child : H)
    (replacement : Option H) : IndexProg V H ε (GoMap Key H) :=
  if replacement = some child then
    return children
  else
    let children := if children.isNil then all else children
    match replacement with
    | some replacement => write (children.set path replacement)
    | none => return children.delete path

/-- One turn of that loop. -/
def filterChild [DecidableEq H] (filter : Key → H → IndexProg V H ε (Option H))
    (all children : GoMap Key H) : Key × H → IndexProg V H ε (GoMap Key H)
  | (path, child) => do
      let replacement ← filter path child
      replaceChild all children path child replacement

/-- `filterRadix` on a branch. -/
def filterBranch [DecidableEq H] (filter : Key → H → IndexProg V H ε (Option H)) (root : H)
    (node : RadixNode V H) : IndexProg V H ε (Option H) := do
  let children ← (← range node.children).foldlM (filterChild filter node.children) .nil
  if children.isNil then
    return some root
  else if children.len = 0 then
    return none
  else
    let replacement ← save ⟨.nil, children⟩
    return some replacement

/-- `filterRadix`. -/
def filterRadix [DecidableEq H] (keep : Key → Bool) : Nat → Key → H → IndexProg V H ε (Option H)
  | 0, _, _ => throw .unbounded
  | fuel + 1, path, root => do
      let node ← load path root
      if node.children.isNil then filterLeaf keep root node
      else filterBranch (filterRadix keep fuel) root node

end

end ObjectLog.Git
