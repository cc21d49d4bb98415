import Kanva.Impl.Bin.Node
import Kanva.Impl.LinkedList.Machine
import Kanva.SortedArray

/-!
# The bin as an interleaving machine

`kanva_impl::Bin` shared by any number of threads. The root word, the counts of the leaves and the
words of their lists are the shared memory; a step of a thread is one access to them, and inside a
call on the list of a leaf it is a step of the machine of that list.

An internal node is never written once it is published, so what a thread reads of it is a local
value. The leaves and the node of a split are private to its thread until the CAS on `root`, which
gives them the next fresh addresses. Addresses are never reused.
-/

namespace KanvaImpl

open Kanva Interleaving SortedArray

namespace LinkedList

variable {K : Type}

/-- One round of the loops of `split_root`: a new node behind `curr_list_node`, in front of the max
sentinel. -/
def appendPair (st : LinkedList K × ℕ) (p : K × Val) : LinkedList K × ℕ :=
  ((st.1.setNext st.2 (.clean st.1.size)).alloc ⟨p.1, p.2, .clean maxAddr⟩, st.1.size)

/-- The list of a leaf that `split_root` builds. -/
def ofPairs [LE K] [BoundedOrder K] (l : List (K × Val)) : LinkedList K :=
  (l.foldl appendPair (new, head)).1

end LinkedList

/-- The memory of a `Bin`. Its counter `size` is left out: nothing reads it. -/
structure BinMem (K : Type) where
  /-- The address of a node, with the mark that seals the bin. -/
  root : TaggedPtr
  /-- The next fresh node. -/
  nodeSize : ℕ
  node : ℕ → RootNode K
  /-- The next fresh leaf. -/
  leafSize : ℕ
  leaf : ℕ → LeafNode (LinkedList K)

/-- Where an update has been routed: `curr_root`, `current_root` with `ptr_idx` when it is internal,
and `current_child`. -/
structure Place (K : Type) where
  root : TaggedPtr
  parent : Option (InternalNode K × ℕ)
  child : ℕ

/-- What a call returns. -/
inductive BinResult (K : Type) where
  | none
  /-- The `bool` of `insert` or `remove`. -/
  | updated (u : Update K) (r : Bool)
  /-- The `bool` of the list's `search`. -/
  | found (key : K) (b : Bool)
  /-- The vectors `collect` fills. -/
  | vectors (keys : List K) (vals : List Val)
deriving DecidableEq, Repr

/-- The program points of a thread, between two accesses to the shared memory. -/
inductive BinPc (K : Type) where
  /-- Between two calls, holding the result of the last one. -/
  | ret (r : BinResult K)
  /-- About to load `root`. -/
  | loadRoot (op : ListOp K)
  /-- `insert_leaf` and `insert_internal`: about to load the count of the child. -/
  | loadCount (key : K) (value : Val) (pl : Place K)
  /-- Inside the list's `insert` or `remove`. -/
  | listUpdate (u : Update K) (pl : Place K) (pc : ListPc K)
  /-- About to change the count of the child. -/
  | addCount (u : Update K) (pl : Place K)
  /-- Control has flowed off the end of `remove_internal`: what comes next is undefined. -/
  | offEnd (u : Update K)
  /-- Inside the `collect` in front of a split. -/
  | splitCollect (u : Update K) (pl : Place K) (pc : ListPc K)
  /-- About to replace the root by the node of a split. -/
  | casSplit (u : Update K) (pl : Place K) (keys : List K) (vals : List Val)
  /-- About to mark the root. -/
  | casSeal (u : Update K) (pl : Place K)
  /-- Inside the list's `search`. -/
  | search (key : K) (child : ℕ) (pc : ListPc K)
  /-- `collect`: inside the `collect` of a child, with the children after it and the vectors so
  far -/
  | collect (rest : List ℕ) (keys : List K) (vals : List Val) (child : ℕ) (pc : ListPc K)

/-- The leaves below a root node, in order. -/
def RootNode.children {K : Type} : RootNode K → List ℕ
  | .leaf id => [id]
  | .internal n => (List.range (n.count + 1)).map n.ptr

namespace BinMem

variable {K : Type}

/-- `Bin::Bin`: one empty leaf. The source leaves its count uninitialised; here it starts at 0. -/
def new [LE K] [BoundedOrder K] : BinMem K where
  root := .clean 1
  nodeSize := 2
  node _ := .leaf 1
  leafSize := 2
  leaf _ := ⟨0, .new⟩

/-- The leaves below the root. -/
def children (b : BinMem K) : List ℕ := (b.node b.root.addr).children

/-- Write the list of a leaf. -/
def setList (b : BinMem K) (c : ℕ) (l : LinkedList K) : BinMem K :=
  { b with leaf := Function.update b.leaf c { b.leaf c with list := l } }

/-- Write the count of a leaf. -/
def setCount (b : BinMem K) (c : ℕ) (count : ℤ) : BinMem K :=
  { b with leaf := Function.update b.leaf c { b.leaf c with count := count } }

/-- The node that replaces the root, over the two new leaves. `keys[left_count]` is out of bounds
when there are no pairs. `remove_internal` has its own copy of the loops of `insert_internal`. -/
def splitNode [Zero K] (u : Update K) (pl : Place K) (keys : List K) (left right : ℕ) :
    InternalNode K :=
  let newRoot := InternalNode.ofSplit (keys.getD (keys.length / 2) 0) left right
  match pl.parent, u with
  | none, _ => newRoot
  | some (current, ptrIdx), .insert _ _ => current.insertSplit ptrIdx newRoot
  | some (current, ptrIdx), .remove _ => current.removeSplit ptrIdx newRoot

/-- Publish the two leaves of a split and their node. -/
def installSplit [LE K] [BoundedOrder K] [Zero K] (b : BinMem K) (u : Update K) (pl : Place K)
    (keys : List K) (vals : List Val) : BinMem K where
  root := .clean b.nodeSize
  nodeSize := b.nodeSize + 1
  node := Function.update b.node b.nodeSize
    (.internal (splitNode u pl keys b.leafSize (b.leafSize + 1)))
  leafSize := b.leafSize + 2
  leaf := Function.update
    (Function.update b.leaf b.leafSize
      ⟨(keys.length / 2 : ℕ), .ofPairs ((keys.zip vals).take (keys.length / 2))⟩)
    (b.leafSize + 1)
    ⟨(keys.length - keys.length / 2 : ℕ), .ofPairs ((keys.zip vals).drop (keys.length / 2))⟩

section Step

variable [LinearOrder K]

/-- The leaf the root in memory routes a key to. -/
def place (b : BinMem K) (key : K) : Place K :=
  match b.node b.root.addr with
  | .leaf id => ⟨b.root, none, id⟩
  | .internal n =>
    let ptrIdx := lowerBound n.key key n.count
    ⟨b.root, some (n, ptrIdx), n.ptr ptrIdx⟩

/-- A full or frozen child is collected and split, a full internal root is sealed. -/
def splitOrSeal (u : Update K) (pl : Place K) : BinPc K :=
  match pl.parent with
  | none => .splitCollect u pl (LinkedList.enter .collect)
  | some (current, _) =>
    if current.count < rootMax then .splitCollect u pl (LinkedList.enter .collect)
    else .casSeal u pl

/-- What follows a load of `root`. An update of a sealed bin returns `false`; `search` and `collect`
ignore the mark. -/
def dispatch (b : BinMem K) : ListOp K → BinPc K
  | .update u =>
    if b.root.isMarked then .ret (.updated u false)
    else
      match u with
      | .insert key value => .loadCount key value (b.place key)
      | .remove key => .listUpdate u (b.place key) (LinkedList.enter (.update u))
  | .search key => .search key (b.place key).child (LinkedList.enter (.search key))
  | .collect =>
    match b.children with
    | [] => .ret (.vectors [] [])
    | child :: rest => .collect rest [] [] child (LinkedList.enter .collect)

/-- What follows the list's `insert` or `remove`. `insert_leaf` and `remove_leaf` keep its status in
a `bool`, and `remove_internal` ends without a return when the status is not -1. -/
def updateReturn (u : Update K) (pl : Place K) (r : ℤ) : BinPc K :=
  let res := if pl.parent.isNone then boolOfInt r else r
  if res = -1 then splitOrSeal u pl
  else
    match u with
    | .insert _ _ => if res = 1 then .addCount u pl else .ret (.updated u true)
    | .remove _ => if pl.parent.isNone then .addCount u pl else .offEnd u

/-- What follows a `remove` of the list that has misread its value: `remove_leaf` takes any value
as a `bool`, and `remove_internal` has no value to compare with -1. -/
def misreadReturn (u : Update K) (pl : Place K) : BinPc K :=
  if pl.parent.isNone then .addCount u pl else .offEnd u

/-- The next access of a thread inside a call, and the local computation after it. -/
def step [BoundedOrder K] [Zero K] (b : BinMem K) : BinPc K → Option (BinMem K × BinPc K)
  | .ret _ => none
  | .offEnd _ => none
  | .loadRoot op => some (b, b.dispatch op)
  | .loadCount key value pl =>
    if (b.leaf pl.child).count < childMax then
      some (b, .listUpdate (.insert key value) pl (LinkedList.enter (.update (.insert key value))))
    else some (b, splitOrSeal (.insert key value) pl)
  | .listUpdate u pl pc =>
    (b.leaf pl.child).list.step pc |>.map fun (l, pc') =>
      (b.setList pl.child l,
        match pc' with
        | .ret (.status r) => updateReturn u pl r
        | .ret (.misread _) => misreadReturn u pl
        | pc' => .listUpdate u pl pc')
  | .addCount u pl =>
    let count := (b.leaf pl.child).count
    match u with
    | .insert _ _ => some (b.setCount pl.child (count + 1), .ret (.updated u true))
    | .remove _ => some (b.setCount pl.child (count - 1), .ret (.updated u true))
  | .splitCollect u pl pc =>
    (b.leaf pl.child).list.step pc |>.map fun (l, pc') =>
      (b.setList pl.child l,
        match pc' with
        | .ret (.vectors keys vals) => .casSplit u pl keys vals
        | pc' => .splitCollect u pl pc')
  | .casSplit u pl keys vals =>
    if b.root = pl.root then some (b.installSplit u pl keys vals, .loadRoot (.update u))
    else some (b, .loadRoot (.update u))
  | .casSeal u pl =>
    if b.root = pl.root then some ({ b with root := pl.root.setMark }, .loadRoot (.update u))
    else some (b, .loadRoot (.update u))
  | .search key child pc =>
    (b.leaf child).list.step pc |>.map fun (l, pc') =>
      (b.setList child l,
        match pc' with
        | .ret (.found r) => .ret (.found key r)
        | pc' => .search key child pc')
  | .collect rest keys vals child pc =>
    (b.leaf child).list.step pc |>.map fun (l, pc') =>
      (b.setList child l,
        match pc', rest with
        | .ret (.vectors ks vs), [] => .ret (.vectors (keys ++ ks) (vals ++ vs))
        | .ret (.vectors ks vs), next :: rest =>
          .collect rest (keys ++ ks) (vals ++ vs) next (LinkedList.enter .collect)
        | pc', rest => .collect rest keys vals child pc')

end Step

end BinMem

/-- The program of a thread on one bin. Between two calls the input is the next call; callers
promise keys strictly between the sentinels. -/
def binMachine (K : Type) [LinearOrder K] [BoundedOrder K] [Zero K] :
    Machine (BinMem K) (BinPc K) (ListOp K) where
  next b pc op :=
    match pc with
    | .ret _ => if op.InRange then some (b, .loadRoot op) else none
    | pc => b.step pc

/-- A fresh bin, every thread between two calls. -/
def binInit {ι K : Type} [LE K] [BoundedOrder K] : Config ι (BinMem K) (BinPc K) :=
  ⟨.new, fun _ => .ret .none⟩

end KanvaImpl
