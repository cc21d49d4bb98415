import Kanva.Interleaving
import Kanva.Common
import Mathlib.Order.BoundedOrder.Lattice

/-!
# The bin list as an interleaving machine

`kanva_impl::Linked_List` is a sorted list between two sentinels, shared by any number of threads.
Each thread runs `insert`, `remove`, `search` and `collect` one atomic load, store or CAS at a time:
`Pc` names the program points between those accesses together with the local variables alive there,
and `step` performs the next access and the local computation up to the following one. All accesses
of the source are sequentially consistent, so interleaving these steps is its memory model.

A node under construction is private to its thread until the CAS that links it, so `Pc` carries it
as a value and the linking CAS gives it the next fresh address. Addresses are never reused.
-/

namespace KanvaImpl

open Kanva Interleaving

/-- `ll_Node`: a key, a value, and the tagged word of the next node. -/
structure LLNode (K : Type) where
  key : K
  value : Val
  next : TaggedPtr
deriving DecidableEq, Repr

/-- The memory of one `Linked_List`. -/
structure LinkedList (K : Type) where
  /-- The list's own insertion counter, which nothing in the source reads. -/
  count : ℤ
  /-- The next fresh address. -/
  size : ℕ
  node : ℕ → LLNode K

/-- A call that searches with `find`. -/
inductive Update (K : Type) where
  | insert (key : K) (value : Val)
  | remove (key : K)
deriving DecidableEq, Repr

/-- A call on a list. -/
inductive ListOp (K : Type) where
  | update (u : Update K)
  | search (key : K)
  | collect
deriving DecidableEq, Repr

/-- What a call returns. -/
inductive ListResult (K : Type) where
  /-- The `int` of `insert` and `remove`. -/
  | status (r : ℤ)
  /-- `remove` has read the value through a pointer with a tag bit: its `int` is undefined. -/
  | misread (w : TaggedPtr)
  /-- The `bool` of `search`. -/
  | found (b : Bool)
  /-- The vectors `collect` fills. -/
  | vectors (keys : List K) (vals : List Val)
deriving DecidableEq, Repr

/-- The program points of a thread, between two accesses to the shared memory. -/
inductive ListPc (K : Type) where
  /-- Between two calls, holding the result of the last one. -/
  | ret (r : ListResult K)
  /-- `find`: about to test the freeze bit of `head->next`. -/
  | findHead (u : Update K)
  /-- `find`: about to load `right_node` from `head->next`. -/
  | findRight (u : Update K)
  /-- `find`: about to load `right_next` at the top of the inner loop. -/
  | findNext (u : Update K) (left : ℕ) (right : TaggedPtr)
  /-- `find`: about to unlink the marked `right_node` from `left_node`. -/
  | findUnlink (u : Update K) (left : ℕ) (right rightNext : TaggedPtr)
  /-- `find`: about to load `right_next` after an unlinking. -/
  | findReload (u : Update K) (left : ℕ) (right : TaggedPtr)
  /-- `insert`: about to store `right_node` into the private new node. -/
  | insStore (key : K) (value : Val) (prev : ℕ) (right : TaggedPtr)
  /-- `insert`: about to link the new node behind `prev_node`. -/
  | insLink (key : K) (value : Val) (prev : ℕ) (right : TaggedPtr) (newNode : LLNode K)
  /-- `insert`: about to increment the list's counter. -/
  | insCount
  /-- `remove`: about to load `right_next`. -/
  | rmLoad (key : K) (prev : ℕ) (right : TaggedPtr)
  /-- `remove`: about to mark `right_node`. -/
  | rmMark (key : K) (prev : ℕ) (right rightNext : TaggedPtr)
  /-- `remove`: about to unlink `right_node` from `prev_node`. -/
  | rmUnlink (prev : ℕ) (right rightNext : TaggedPtr)
  /-- `search`: about to compare the key of `curr`, and to load its `next`. -/
  | searchAt (key : K) (curr : ℕ)
  /-- `collect`: about to test `left_node->next` for null. -/
  | collTest (left : ℕ) (keys : List K) (vals : List Val)
  /-- `collect`: about to test the freeze bit of `left_node->next`. -/
  | collCheck (left : ℕ) (keys : List K) (vals : List Val)
  /-- `collect`: about to load `curr_next` for the freezing CAS. -/
  | collLoad (left : ℕ) (keys : List K) (vals : List Val)
  /-- `collect`: about to freeze `left_node->next`. -/
  | collFreeze (left : ℕ) (currNext : TaggedPtr) (keys : List K) (vals : List Val)
  /-- `collect`: about to follow `left_node->next`. -/
  | collFollow (left : ℕ) (keys : List K) (vals : List Val)
deriving DecidableEq, Repr

/-- The key an update searches for. -/
def Update.key {K : Type} : Update K → K
  | .insert key _ => key
  | .remove key => key

namespace LinkedList

variable {K : Type}

/-- The address of the max sentinel. -/
def maxAddr : ℕ := 1

/-- The address of the min sentinel, `head`. -/
def head : ℕ := 2

/-- `Linked_List::Linked_List`: the two sentinels. The counter is not initialised by the source. -/
def new [LE K] [BoundedOrder K] (count : ℤ := 0) : LinkedList K where
  count := count
  size := 3
  node a := if a = maxAddr then ⟨⊤, 0, .null⟩ else ⟨⊥, 0, .clean maxAddr⟩

/-- Load the `next` word of the node at `a`. -/
def next (s : LinkedList K) (a : ℕ) : TaggedPtr := (s.node a).next

/-- Store the `next` word of the node at `a`. -/
def setNext (s : LinkedList K) (a : ℕ) (w : TaggedPtr) : LinkedList K :=
  { s with node := Function.update s.node a { s.node a with next := w } }

/-- `compare_exchange_strong` on the `next` word of the node at `a`; `none` when it fails. -/
def cas (s : LinkedList K) (a : ℕ) (expected desired : TaggedPtr) : Option (LinkedList K) :=
  if s.next a = expected then some (s.setNext a desired) else none

/-- Place a node at the next fresh address. -/
def alloc (s : LinkedList K) (n : LLNode K) : LinkedList K :=
  { s with size := s.size + 1, node := Function.update s.node s.size n }

/-- What the caller of `find` does when it returns `nullptr`. -/
def findNull (_ : Update K) : ListPc K := .ret (.status (-1))

/-- What the caller of `find` does up to its next access when it returns `right_node`. -/
def findReturn [DecidableEq K] (s : LinkedList K) (u : Update K) (left : ℕ)
    (right : TaggedPtr) : ListPc K :=
  match u with
  | .insert key value =>
    if (s.node right.addr).key = key then .ret (.status 0)
    else if value = -1 then .ret (.status 0)
    else .insStore key value left right
  | .remove key =>
    if (s.node right.addr).key ≠ key then .ret (.status (-2)) else .rmLoad key left right

/-- The tests of `find` after a load of `right_next`: unlink a marked node, else compare keys. -/
def findBranch [LinearOrder K] (s : LinkedList K) (u : Update K) (left : ℕ)
    (right rightNext : TaggedPtr) : ListPc K :=
  if rightNext.isMarked then .findUnlink u left right rightNext
  else if u.key ≤ (s.node right.addr).key then s.findReturn u left right
  else .findNext u right.addr rightNext.getUnmarkedRef

/-- The conversion to `int` of a 64-bit value. -/
def toInt (v : Val) : ℤ := Int.bmod v (2 ^ 32)

/-- `return right_node->value` when `right_node` is this word. -/
def valueResult (s : LinkedList K) (w : TaggedPtr) : ListResult K :=
  if w.isMarked || w.isFreeze then .misread w else .status (toInt (s.node w.addr).value)

/-- The next atomic access of a thread inside a call, and the local computation after it. -/
def step [LinearOrder K] (s : LinkedList K) : ListPc K → Option (LinkedList K × ListPc K)
  | .ret _ => none
  | .findHead u =>
    if (s.next head).isFreeze then some (s, findNull u) else some (s, .findRight u)
  | .findRight u => some (s, .findNext u head (s.next head).unsetFreezeMark)
  | .findNext u left right =>
    let rightNext := s.next right.addr
    if rightNext.isFreeze then some (s, findNull u)
    else some (s, s.findBranch u left right rightNext)
  | .findUnlink u left right rightNext =>
    match s.cas left right rightNext.getUnmarkedRef with
    | none => some (s, .findHead u)
    | some s' => some (s', .findReload u left rightNext.unsetFreezeMark)
  | .findReload u left right =>
    let rightNext := s.next right.addr
    if rightNext.isFreeze then some (s, findNull u)
    else if right.isFreeze then some (s, findNull u)
    else some (s, s.findBranch u left right rightNext)
  | .insStore key value prev right => some (s, .insLink key value prev right ⟨key, value, right⟩)
  | .insLink key value prev right newNode =>
    match s.cas prev right (.clean s.size) with
    | none => some (s, .findHead (.insert key value))
    | some s' => some (s'.alloc newNode, .insCount)
  | .insCount => some ({ s with count := s.count + 1 }, .ret (.status 1))
  | .rmLoad key prev right =>
    let rightNext := s.next right.addr
    if !rightNext.isMarked then some (s, .rmMark key prev right rightNext)
    else some (s, .rmUnlink prev right rightNext)
  | .rmMark key prev right rightNext =>
    match s.cas right.addr rightNext rightNext.setMark with
    | none => some (s, .findHead (.remove key))
    | some s' => some (s', .rmUnlink prev right rightNext)
  | .rmUnlink prev right rightNext =>
    match s.cas prev right rightNext.getUnmarkedRef with
    -- a CAS that fails leaves the word it has found in `right_node`
    | none => some (s, .ret (s.valueResult (s.next prev)))
    | some s' => some (s', .ret (s'.valueResult right))
  | .searchAt key curr =>
    if (s.node curr).key < key then some (s, .searchAt key (s.next curr).unsetFreezeMark.addr)
    else some (s, .ret (.found ((s.node curr).key = key && !(s.next curr).isMarked)))
  | .collTest left keys vals =>
    if s.next left = .null then some (s, .ret (.vectors keys.dropLast vals.dropLast))
    else some (s, .collCheck left keys vals)
  | .collCheck left keys vals =>
    if !(s.next left).isFreeze then some (s, .collLoad left keys vals)
    else some (s, .collFollow left keys vals)
  | .collLoad left keys vals => some (s, .collFreeze left (s.next left) keys vals)
  | .collFreeze left currNext keys vals =>
    match s.cas left currNext currNext.setFreeze with
    | none => some (s, .collLoad left keys vals)
    | some s' => some (s', .collFollow left keys vals)
  | .collFollow left keys vals =>
    let leftNode := (s.next left).unsetFreeze
    if !leftNode.isMarked then
      some (s, .collTest leftNode.getUnmarkedRef.addr
        (keys ++ [(s.node leftNode.addr).key]) (vals ++ [(s.node leftNode.addr).value]))
    else some (s, .collTest leftNode.getUnmarkedRef.addr keys vals)

/-- The first program point of a call. -/
def enter : ListOp K → ListPc K
  | .update u => .findHead u
  | .search key => .searchAt key head
  | .collect => .collTest head [] []

end LinkedList

/-- The keys of a call lie strictly between the two sentinel keys. -/
def ListOp.InRange {K : Type} [LinearOrder K] [BoundedOrder K] : ListOp K → Prop
  | .update u => ⊥ < u.key ∧ u.key < ⊤
  | .search key => ⊥ < key ∧ key < ⊤
  | .collect => True

instance {K : Type} [LinearOrder K] [BoundedOrder K] (op : ListOp K) : Decidable op.InRange := by
  delta ListOp.InRange
  cases op <;> infer_instance

/-- The program of a thread on one list. Between two calls the input is the next call; callers
promise keys strictly between the sentinels. Inside a call the input is not read. -/
def listMachine (K : Type) [LinearOrder K] [BoundedOrder K] :
    Machine (LinkedList K) (ListPc K) (ListOp K) where
  next s pc op :=
    match pc with
    | .ret _ => if op.InRange then some (s, LinkedList.enter op) else none
    | pc => s.step pc

/-- A fresh list, every thread between two calls. -/
def listInit {ι K : Type} [LinearOrder K] [BoundedOrder K] (count : ℤ) :
    Config ι (LinkedList K) (ListPc K) :=
  ⟨.new count, fun _ => .ret (.found false)⟩

end KanvaImpl
