import Kanva.Impl.Bin.Node
import Kanva.Impl.LinkedList.Sequential
import Kanva.SortedArray

/-!
# A bin without interference

`kanva_impl::Bin` when one thread runs alone: every CAS on `root` succeeds. The leaves are kept in a
heap, since two pointers of an internal node may name the same leaf. A call that replaces the root
starts over (`goto retry`); `insertLoop` and `removeLoop` bound the rounds.
-/

namespace KanvaImpl

open Kanva SortedArray

/-- The memory of a `Bin`. Its counter `size` is left out: nothing reads it. -/
structure SeqBin (K : Type) where
  root : RootWord K
  /-- The next fresh leaf. -/
  fresh : ℕ
  leaf : ℕ → LeafNode (SeqList K)

namespace SeqBin

variable {K : Type} [LinearOrder K] [BoundedOrder K] [Zero K]

omit [LinearOrder K] [BoundedOrder K] [Zero K] in
/-- `Bin::Bin`: one empty leaf. The source leaves its count uninitialised; here it starts at 0. -/
def new : SeqBin K where
  root := ⟨.leaf 1, false⟩
  fresh := 2
  leaf _ := ⟨0, ⟨false, []⟩⟩

/-- Write a leaf. -/
def setLeaf (b : SeqBin K) (id : ℕ) (l : LeafNode (SeqList K)) : SeqBin K :=
  { b with leaf := Function.update b.leaf id l }

/-- `leaf->data_array_list.collect(keys, vals)` -/
def collectLeaf (b : SeqBin K) (id : ℕ) : SeqBin K × List (K × Val) :=
  (b.setLeaf id { b.leaf id with list := (b.leaf id).list.collect.1 }, (b.leaf id).list.collect.2)

/-- `split_root`: two new leaves with the halves of the pairs, under a separator that is the first
key of the right half. `keys[left_count]` is out of bounds when there are no pairs. -/
def splitRoot (b : SeqBin K) (pairs : List (K × Val)) : SeqBin K × InternalNode K :=
  let leftCount := pairs.length / 2
  let left := SeqList.ofPairs (pairs.take leftCount)
  let right := SeqList.ofPairs (pairs.drop leftCount)
  ({ (b.setLeaf b.fresh ⟨leftCount, left⟩).setLeaf (b.fresh + 1)
        ⟨(pairs.length - leftCount : ℕ), right⟩ with fresh := b.fresh + 2 },
    .ofSplit ((pairs.map Prod.fst).getD leftCount 0) b.fresh (b.fresh + 1))

/-- Collect a leaf root and split it. -/
def splitLeaf (b : SeqBin K) (id : ℕ) : SeqBin K × RootWord K :=
  let (b', pairs) := b.collectLeaf id
  let (b'', newRoot) := b'.splitRoot pairs
  (b'', ⟨.internal newRoot, false⟩)

/-- Collect the child at `ptrIdx` and split it, copying the node with `copy`. -/
def splitChild (copy : InternalNode K → ℕ → InternalNode K → InternalNode K) (b : SeqBin K)
    (current : InternalNode K) (ptrIdx : ℕ) : SeqBin K × RootWord K :=
  let (b', pairs) := b.collectLeaf (current.ptr ptrIdx)
  let (b'', newRoot) := b'.splitRoot pairs
  (b'', ⟨.internal (copy current ptrIdx newRoot), false⟩)

/-- `insert_leaf`: the new root, if any. The status of the list's `insert` passes through a
`bool`. -/
def insertLeaf (b : SeqBin K) (id : ℕ) (key : K) (value : Val) : SeqBin K × Option (RootWord K) :=
  let child := b.leaf id
  if child.count < childMax then
    let (list, r) := child.list.insert key value
    let res := boolOfInt r
    let b' := b.setLeaf id { child with list := list }
    if res = -1 then
      let (b'', newRoot) := b'.splitLeaf id
      (b'', some newRoot)
    else if res = 1 then (b'.setLeaf id ⟨child.count + 1, list⟩, none)
    else (b', none)
  else
    let (b', newRoot) := b.splitLeaf id
    (b', some newRoot)

/-- `insert_internal`: the new root, if any. -/
def insertInternal (b : SeqBin K) (current : InternalNode K) (key : K) (value : Val) :
    SeqBin K × Option (RootWord K) :=
  let ptrIdx := lowerBound current.key key current.count
  let id := current.ptr ptrIdx
  let child := b.leaf id
  if child.count < childMax then
    let (list, res) := child.list.insert key value
    let b' := b.setLeaf id { child with list := list }
    if res = -1 then
      if current.count < rootMax then
        let (b'', newRoot) := b'.splitChild .insertSplit current ptrIdx
        (b'', some newRoot)
      else (b', some ⟨.internal current, true⟩)
    else if res = 1 then (b'.setLeaf id ⟨child.count + 1, list⟩, none)
    else (b', none)
  else if current.count < rootMax then
    let (b', newRoot) := b.splitChild .insertSplit current ptrIdx
    (b', some newRoot)
  else (b, some ⟨.internal current, true⟩)

/-- `insert`, for at most the given number of rounds. A sealed bin rejects the call. -/
def insertLoop (b : SeqBin K) (key : K) (value : Val) : ℕ → Option (SeqBin K × Bool)
  | 0 => none
  | n + 1 =>
    if b.root.mark then some (b, false)
    else
      let (b', newNode) :=
        match b.root.node with
        | .leaf id => b.insertLeaf id key value
        | .internal node => b.insertInternal node key value
      match newNode with
      | some newRoot => insertLoop { b' with root := newRoot } key value n
      | none => some (b', true)

/-- `insert`. Three rounds are enough: see `insert_returns`. -/
def insert (b : SeqBin K) (key : K) (value : Val) : Option (SeqBin K × Bool) :=
  b.insertLoop key value 3

/-- `remove_leaf`: the new root, if any. The result of the list's `remove` passes through a
`bool`. -/
def removeLeaf (b : SeqBin K) (id : ℕ) (key : K) : SeqBin K × Option (RootWord K) :=
  let child := b.leaf id
  let (list, r) := child.list.remove key
  let res := boolOfInt r
  let b' := b.setLeaf id { child with list := list }
  if res = -1 then
    let (b'', newRoot) := b'.splitLeaf id
    (b'', some newRoot)
  else (b'.setLeaf id ⟨child.count - 1, list⟩, none)

/-- `remove_internal`: the new root, if any. When the list's `remove` has found or missed the key,
control flows off the end of the function. Its caller then gets `offEnd`, and with `none` there is
no result, as the behaviour of the source is undefined. -/
def removeInternal (offEnd : Option (Option (RootWord K))) (b : SeqBin K) (current : InternalNode K)
    (key : K) : Option (SeqBin K × Option (RootWord K)) :=
  let ptrIdx := lowerBound current.key key current.count
  let id := current.ptr ptrIdx
  let child := b.leaf id
  let (list, res) := child.list.remove key
  let b' := b.setLeaf id { child with list := list }
  if res = -1 then
    if current.count < rootMax then
      let (b'', newRoot) := b'.splitChild .removeSplit current ptrIdx
      some (b'', some newRoot)
    else some (b', some ⟨.internal current, true⟩)
  else offEnd.map fun newNode => (b', newNode)

/-- A round of `remove`. -/
def removeRound (offEnd : Option (Option (RootWord K))) (b : SeqBin K) (key : K) :
    Option (SeqBin K × Option (RootWord K)) :=
  match b.root.node with
  | .leaf id => some (b.removeLeaf id key)
  | .internal node => b.removeInternal offEnd node key

/-- `remove`, for at most the given number of rounds. A sealed bin rejects the call. -/
def removeLoop (offEnd : Option (Option (RootWord K))) (b : SeqBin K) (key : K) :
    ℕ → Option (SeqBin K × Bool)
  | 0 => none
  | n + 1 =>
    if b.root.mark then some (b, false)
    else
      match b.removeRound offEnd key with
      | none => none
      | some (b', some newRoot) => removeLoop offEnd { b' with root := newRoot } key n
      | some (b', none) => some (b', true)

/-- `search`: the `bool` of the list's `search`, as a value. The mark of the root is ignored. -/
def search (b : SeqBin K) (key : K) : Val :=
  let found :=
    match b.root.node with
    | .leaf id => (b.leaf id).list.search key
    | .internal node => (b.leaf (node.ptr (lowerBound node.key key node.count))).list.search key
  if found then 1 else 0

/-- `collect`: the contents of the leaves in order, all of them frozen. -/
def collect (b : SeqBin K) : SeqBin K × List (K × Val) :=
  match b.root.node with
  | .leaf id => b.collectLeaf id
  | .internal node =>
    (List.range (node.count + 1)).foldl
      (fun r i =>
        let (b', pairs) := r.1.collectLeaf (node.ptr i)
        (b', r.2 ++ pairs)) (b, [])

end SeqBin

end KanvaImpl
