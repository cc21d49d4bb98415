import Kanva.RS.Model.Updates
import Kanva.RS.VersionedArray.Machine

/-!
# A slot of a Kanva_RS model as an interleaving machine

A slot holds nothing, a bin or a model. `insert_model_or_bin` puts a bin into an empty slot and
inserts into its list; an insertion that finds the list full collects its keys and version chains,
makes a model of them and puts that into the slot. `collect` freezes the `next` words of the list,
which stops new nodes; it would freeze the `vhead` words too, but tests the bit it has just set.

The threads run `insert_model_or_bin` and `remove_model_or_bin` on one slot, with the calls of
`Linked_List::insert`, `Linked_List::collect`, and `VersionedArray::insert` on the entries of the
model. What happens below the slots of the model is left open, as is the latest timestamp of the
tracker. A bin or a model that loses its CAS stays private and is not part of the memory.
`reclaimMem` gives memory back that no thread is using any more, and addresses are never reused.
-/

namespace KanvaRS

open Interleaving Kanva

/-- `ll_Node`, without `del`, which the source only sets. -/
structure LLNode (K : Type) where
  key : K
  vhead : TaggedPtr
  next : TaggedPtr
deriving DecidableEq, Repr

/-- A pointer to a `model_or_bin`. -/
inductive MobPtr where
  | null
  | bin (a : ℕ)
  | ai (a : ℕ)
deriving DecidableEq, Repr

/-- The memory of a slot: the list of its bin and the array of its model, which share the
versions. -/
structure SlotMemory (K : Type) where
  mob : MobPtr
  /-- The next fresh address of a `model_or_bin`. -/
  mobSize : ℕ
  /-- The size of the list. -/
  size : ℕ
  isReclaimed : Bool
  /-- The next fresh address of a node. -/
  nodeSize : ℕ
  node : ℕ → LLNode K
  /-- The next fresh address of a version. -/
  versionSize : ℕ
  version : ℕ → Vnode
  /-- The entries of the model: key and `vhead`. -/
  array : List (K × TaggedPtr)
  /-- Not in the source and read by no step: some `collect` has read the `vhead` of the node. -/
  copied : ℕ → Bool

/-- A call on the slot. -/
inductive SlotOp (K : Type) where
  | insert (key : K) (val : Val)
  | remove (key : K)
deriving DecidableEq, Repr

/-- A call, and the `model_or_bin` it has loaded. -/
structure SlotCall (K : Type) where
  op : SlotOp K
  mob : ℕ
deriving DecidableEq, Repr

/-- What a call has done: it keeps the address of the version that its `vCAS` has linked, if any. -/
inductive SlotResult (K : Type) where
  | none
  /-- A removal from an empty slot. -/
  | empty (op : SlotOp K)
  /-- `Linked_List::insert` has returned the status; the call returns `status >= 0`. -/
  | list (op : SlotOp K) (status : ℤ) (linked : Option ℕ)
  /-- The model has returned the `bool`. -/
  | model (op : SlotOp K) (res : Bool) (linked : Option ℕ)
deriving DecidableEq, Repr

/-- A `vhead` word: of a node, or of an entry of the model. -/
inductive VheadLoc where
  | node (a : ℕ)
  | entry (i : ℕ)
deriving DecidableEq, Repr

/-- The call sites of `init_ts`. -/
inductive SlotInit (K : Type) where
  /-- After a new node has been linked. -/
  | newNode (c : SlotCall K)
  /-- `read`. -/
  | read (c : SlotCall K) (loc : VheadLoc)
  /-- `vCAS` before its comparisons. -/
  | vCAS (c : SlotCall K) (loc : VheadLoc) (oldValue : Val) (head : TaggedPtr)
  /-- `vCAS` after it has linked the new version. -/
  | linked (c : SlotCall K) (loc : VheadLoc)

/-- The program points of a thread. -/
inductive SlotPc (K : Type) where
  /-- Between two calls, holding the result of the last one. -/
  | ret (r : SlotResult K)
  /-- `retry`: about to load the slot. -/
  | load (op : SlotOp K)
  /-- About to put a new bin into the slot. -/
  | publishBin (op : SlotOp K)
  /-- `insert`: about to load `size`. -/
  | size (c : SlotCall K)
  /-- `find`: about to test the freeze bit of `head->next`. -/
  | findHead (c : SlotCall K)
  /-- `find`: about to load `right_node` from `head->next`. -/
  | findRight (c : SlotCall K)
  /-- `find`: about to load `right_next`. -/
  | findNext (c : SlotCall K) (left : ℕ) (right : TaggedPtr)
  /-- `insert`: about to link the new node behind `prev_node`. -/
  | insLink (c : SlotCall K) (prev : ℕ) (right : TaggedPtr)
  /-- `insert`: about to load the `vhead` of the new node. -/
  | newHead (c : SlotCall K) (newNode : ℕ)
  /-- `insert`: about to increment `size`. -/
  | sizeAdd (c : SlotCall K)
  /-- `init_ts`: about to load `node->ts`. -/
  | initTest (call : SlotInit K) (node : ℕ)
  /-- `init_ts`: about to ask the tracker. -/
  | initLoad (call : SlotInit K) (node : ℕ)
  /-- `init_ts`: about to stamp the version. -/
  | initCas (call : SlotInit K) (node : ℕ) (globalTs : ℤ)
  /-- `read`: about to load `vhead` for `init_ts`. -/
  | readHead (c : SlotCall K) (loc : VheadLoc)
  /-- `read`: about to load `vhead` for its value. -/
  | readValue (c : SlotCall K) (loc : VheadLoc)
  /-- `vCAS`: about to load `head`. -/
  | vcasHead (c : SlotCall K) (loc : VheadLoc) (oldValue : Val)
  /-- `vCAS`: about to link the new version in front of `head`. -/
  | vcasLink (c : SlotCall K) (loc : VheadLoc) (head : TaggedPtr)
  /-- `insert` on a list, after `vCAS` has failed: about to test the mark of `vhead`. -/
  | markTest (c : SlotCall K) (loc : VheadLoc)
  /-- `collect`: about to test `isReclaimed`. -/
  | collStart (c : SlotCall K)
  /-- `collect`: about to test the freeze bit of `left_node->next`. -/
  | collCheck (c : SlotCall K) (left : ℕ) (acc : List (K × TaggedPtr))
  /-- `collect`: about to load `curr_next`. -/
  | collLoad (c : SlotCall K) (left : ℕ) (acc : List (K × TaggedPtr))
  /-- `collect`: about to freeze `left_node->next`. -/
  | collFreeze (c : SlotCall K) (left : ℕ) (currNext : TaggedPtr) (acc : List (K × TaggedPtr))
  /-- `collect`: about to test the freeze bit of `left_node->next` once more. -/
  | collCheckV (c : SlotCall K) (left : ℕ) (acc : List (K × TaggedPtr))
  /-- `collect`: about to load `curr_vhead`. -/
  | collLoadV (c : SlotCall K) (left : ℕ) (acc : List (K × TaggedPtr))
  /-- `collect`: about to freeze `left_node->vhead`. -/
  | collFreezeV (c : SlotCall K) (left : ℕ) (currVhead : TaggedPtr) (acc : List (K × TaggedPtr))
  /-- `collect`: about to load `left_node_vhead`. -/
  | collCopy (c : SlotCall K) (left : ℕ) (acc : List (K × TaggedPtr))
  /-- `collect`: about to test `isReclaimed` and to extend the two vectors. -/
  | collPush (c : SlotCall K) (left : ℕ) (vhead : TaggedPtr) (acc : List (K × TaggedPtr))
  /-- `collect`: about to follow `left_node->next`. -/
  | collFollow (c : SlotCall K) (left : ℕ) (acc : List (K × TaggedPtr))
  /-- `collect`: about to test `left_node->next` for null. -/
  | collLoop (c : SlotCall K) (left : ℕ) (acc : List (K × TaggedPtr))
  /-- `collect` has returned true, the model is made: about to test `isReclaimed`. -/
  | collected (c : SlotCall K) (acc : List (K × TaggedPtr))
  /-- About to put the model into the slot. -/
  | publishAi (c : SlotCall K) (acc : List (K × TaggedPtr))
  /-- About to set `isReclaimed`. -/
  | setReclaimed (c : SlotCall K)
  /-- `insert_retrain` and `remove` of the model: about to load the value of the entry. -/
  | aiValue (c : SlotCall K) (i : ℕ)
  /-- `insert_retrain` and `remove` of the model: below a slot of the model. -/
  | aiBelow (c : SlotCall K)

/-- What a step takes from outside: the next call, the latest timestamp of the tracker, and the
result of a call below the model. -/
structure SlotInput (K : Type) where
  op : SlotOp K
  globalTs : ℤ
  below : Bool
deriving DecidableEq, Repr

namespace SlotOp

variable {K : Type}

/-- The key of a call. -/
def key : SlotOp K → K
  | insert key _ => key
  | remove key => key

/-- The value a call writes: `remove` writes the tombstone. -/
def value : SlotOp K → Val
  | insert _ val => val
  | remove _ => -1

end SlotOp

namespace SlotMemory

variable {K : Type}

/-- The address of the max sentinel. -/
def maxAddr : ℕ := 1

/-- The address of the min sentinel, `head`. -/
def head : ℕ := 2

/-- An empty slot. The list of the bin that will come into it has the two sentinels. -/
def new [LE K] [BoundedOrder K] : SlotMemory K where
  mob := .null
  mobSize := 0
  size := 0
  isReclaimed := false
  nodeSize := 3
  node a := if a = maxAddr then ⟨⊤, .clean 1, .null⟩ else ⟨⊥, .clean 2, .clean maxAddr⟩
  versionSize := 3
  version _ := ⟨0, -1, 0⟩
  array := []
  copied _ := false

/-- Load the `next` word of the node at `a`. -/
def next (s : SlotMemory K) (a : ℕ) : TaggedPtr := (s.node a).next

/-- Store the `next` word of the node at `a`. -/
def setNext (s : SlotMemory K) (a : ℕ) (w : TaggedPtr) : SlotMemory K :=
  { s with node := Function.update s.node a { s.node a with next := w } }

/-- Load a `vhead` word. -/
def vhead (s : SlotMemory K) : VheadLoc → TaggedPtr
  | .node a => (s.node a).vhead
  | .entry i => (s.array[i]?.map Prod.snd).getD .null

/-- Store a `vhead` word. -/
def setVhead (s : SlotMemory K) (loc : VheadLoc) (w : TaggedPtr) : SlotMemory K :=
  match loc with
  | .node a => { s with node := Function.update s.node a { s.node a with vhead := w } }
  | .entry i => { s with array := s.array.modify i fun e => (e.1, w) }

/-- Place a node at the next fresh address, with a version of its own. -/
def allocNode (s : SlotMemory K) (key : K) (value : Val) (next : TaggedPtr) : SlotMemory K :=
  { s with
    nodeSize := s.nodeSize + 1
    node := Function.update s.node s.nodeSize ⟨key, .clean s.versionSize, next⟩
    versionSize := s.versionSize + 1
    version := Function.update s.version s.versionSize ⟨value, -1, 0⟩ }

/-- Place a version at the next fresh address. -/
def allocVersion (s : SlotMemory K) (v : Vnode) : SlotMemory K :=
  { s with
    versionSize := s.versionSize + 1
    version := Function.update s.version s.versionSize v }

/-- `compare_exchange_strong` on the stamp of a version, from -1. -/
def stamp (s : SlotMemory K) (a : ℕ) (ts : ℤ) : SlotMemory K :=
  if (s.version a).ts = -1 then
    { s with version := Function.update s.version a { s.version a with ts := ts } }
  else s

/-- The result of an update at a `vhead`: `insert` on a list returns 0, and on an entry `false`. -/
def updated (c : SlotCall K) (linked : Option ℕ) : VheadLoc → SlotPc K
  | .node _ => .ret (.list c.op 0 linked)
  | .entry _ => .ret (.model c.op false linked)

/-- What an update at a `vhead` does after `vCAS` has failed: the list tests the mark first. -/
def failed (c : SlotCall K) : VheadLoc → SlotPc K
  | .node a => .markTest c (.node a)
  | .entry i => .readHead c (.entry i)

/-- The local computation after `init_ts(node)` has returned. Values never change, so it may read
them. -/
def initReturn (s : SlotMemory K) (node : ℕ) : SlotInit K → SlotPc K
  | .newNode c => .sizeAdd c
  | .read c loc => .readValue c loc
  | .vCAS c loc oldValue head =>
    if (s.version node).value ≠ oldValue then failed c loc
    else if (s.version node).value = c.op.value then updated c none loc
    else .vcasLink c loc head
  | .linked c loc => updated c (some node) loc

/-- What `insert` does when `find` has returned `right_node`. Keys never change. -/
def findReturn [DecidableEq K] (s : SlotMemory K) (c : SlotCall K) (left : ℕ) (right : TaggedPtr) :
    SlotPc K :=
  if (s.node right.addr).key = c.op.key then .readHead c (.node right.addr)
  else if c.op.value = -1 then .ret (.list c.op 0 none)
  else .insLink c left right

/-- What `insert` does when the list is full: an insertion retrains, a removal gives up. -/
def full (c : SlotCall K) : SlotPc K :=
  match c.op with
  | .insert _ _ => .collStart c
  | .remove _ => .ret (.list c.op (-2) none)

/-- The position `locate_in_levelbin` finds for a key of the array. -/
def entryIdx [DecidableEq K] (s : SlotMemory K) (key : K) : Option ℕ :=
  s.array.findIdx? fun e => e.1 = key

/-- A call on the model. The keys of its array never change. -/
def enterAi [DecidableEq K] (s : SlotMemory K) (c : SlotCall K) : SlotPc K :=
  match s.entryIdx c.op.key with
  | some i => .aiValue c i
  | none => .aiBelow c

/-- What a call on an entry does with its value: an insertion goes on at a tombstone, a removal at
any other value. -/
def aiReturn (c : SlotCall K) (i : ℕ) (currValue : Val) : SlotPc K :=
  match c.op with
  | .insert _ _ => if currValue ≠ -1 then .ret (.model c.op false none) else .readHead c (.entry i)
  | .remove _ => if currValue ≠ -1 then .readHead c (.entry i) else .ret (.model c.op false none)

/-- The next atomic access of a thread inside a call, and the local computation after it. -/
def step [LinearOrder K] (s : SlotMemory K) (x : SlotInput K) :
    SlotPc K → Option (SlotMemory K × SlotPc K)
  | .ret _ => none
  | .load op =>
    match s.mob with
    | .null =>
      match op with
      | .insert _ _ => some (s, .publishBin op)
      | .remove _ => some (s, .ret (.empty op))
    | .bin a => some (s, .size ⟨op, a⟩)
    | .ai a => some (s, s.enterAi ⟨op, a⟩)
  | .publishBin op =>
    if s.mob = .null then
      some ({ s with mob := .bin s.mobSize, mobSize := s.mobSize + 1 }, .size ⟨op, s.mobSize⟩)
    else some (s, .load op)
  | .size c => if threshhold ≤ s.size then some (s, full c) else some (s, .findHead c)
  | .findHead c =>
    if (s.next head).isFreeze then some (s, .ret (.list c.op (-1) none)) else some (s, .findRight c)
  | .findRight c => some (s, .findNext c head (s.next head).unsetFreezeMark)
  | .findNext c left right =>
    let rightNext := s.next right.addr
    if rightNext.isFreeze then some (s, .ret (.list c.op (-1) none))
    else if c.op.key ≤ (s.node right.addr).key then some (s, s.findReturn c left right)
    else some (s, .findNext c right.addr rightNext.getUnmarkedRef)
  | .insLink c prev right =>
    if s.next prev = right then
      some ((s.setNext prev (.clean s.nodeSize)).allocNode c.op.key c.op.value right,
        .newHead c s.nodeSize)
    else some (s, .findHead c)
  | .newHead c newNode => some (s, .initTest (.newNode c) (s.vhead (.node newNode)).addr)
  | .sizeAdd c => some ({ s with size := s.size + 1 }, .ret (.list c.op 1 none))
  | .initTest call node =>
    if (s.version node).ts = -1 then some (s, .initLoad call node)
    else some (s, s.initReturn node call)
  | .initLoad call node => some (s, .initCas call node x.globalTs)
  | .initCas call node globalTs => some (s.stamp node globalTs, s.initReturn node call)
  | .readHead c loc => some (s, .initTest (.read c loc) (s.vhead loc).addr)
  | .readValue c loc =>
    let currValue := (s.version (s.vhead loc).addr).value
    if currValue = c.op.value then some (s, updated c none loc)
    else some (s, .vcasHead c loc currValue)
  | .vcasHead c loc oldValue =>
    let head := (s.vhead loc).getUnmarkedRef
    some (s, .initTest (.vCAS c loc oldValue head) head.addr)
  | .vcasLink c loc head =>
    if s.vhead loc = head then
      some ((s.setVhead loc (.clean s.versionSize)).allocVersion ⟨c.op.value, -1, head.addr⟩,
        .initTest (.linked c loc) s.versionSize)
    else some (s, failed c loc)
  | .markTest c loc =>
    if (s.vhead loc).isMarked then some (s, .ret (.list c.op (-1) none))
    else some (s, .readHead c loc)
  | .collStart c => if s.isReclaimed then some (s, .load c.op) else some (s, .collCheck c head [])
  | .collCheck c left acc =>
    if !(s.next left).isFreeze then some (s, .collLoad c left acc)
    else some (s, .collCheckV c left acc)
  | .collLoad c left acc => some (s, .collFreeze c left (s.next left) acc)
  | .collFreeze c left currNext acc =>
    if s.next left = currNext then some (s.setNext left currNext.setFreeze, .collCheckV c left acc)
    else some (s, .collLoad c left acc)
  | .collCheckV c left acc =>
    if !(s.next left).isFreeze then some (s, .collLoadV c left acc)
    else if left = head then some (s, .collFollow c left acc)
    else some (s, .collCopy c left acc)
  | .collLoadV c left acc => some (s, .collFreezeV c left (s.vhead (.node left)) acc)
  | .collFreezeV c left currVhead acc =>
    if s.vhead (.node left) = currVhead then
      some (s.setVhead (.node left) currVhead.setFreeze,
        if left = head then .collFollow c left acc else .collCopy c left acc)
    else some (s, .collLoadV c left acc)
  | .collCopy c left acc =>
    some ({ s with copied := Function.update s.copied left true },
      .collPush c left (s.vhead (.node left)).getUnmarkedRef acc)
  | .collPush c left vhead acc =>
    if !s.isReclaimed then some (s, .collFollow c left (acc ++ [((s.node left).key, vhead)]))
    else some (s, .load c.op)
  | .collFollow c left acc => some (s, .collLoop c (s.next left).unsetFreeze.addr acc)
  | .collLoop c left acc =>
    if (s.next left).getUnmarkedRef ≠ .null then some (s, .collCheck c left acc)
    else some (s, .collected c acc)
  | .collected c acc =>
    if s.isReclaimed then some (s, .load c.op) else some (s, .publishAi c acc)
  | .publishAi c acc =>
    if s.mob = .bin c.mob then
      some ({ s with mob := .ai s.mobSize, mobSize := s.mobSize + 1, array := acc },
        .setReclaimed ⟨c.op, s.mobSize⟩)
    else some (s, .load c.op)
  | .setReclaimed c => some ({ s with isReclaimed := true }, s.enterAi c)
  | .aiValue c i => some (s, aiReturn c i (s.version (s.vhead (.entry i)).addr).value)
  | .aiBelow c => some (s, .ret (.model c.op x.below none))

end SlotMemory

/-- The program of a thread on one slot. -/
def slotMachine (K : Type) [LinearOrder K] : Machine (SlotMemory K) (SlotPc K) (SlotInput K) where
  next s pc x :=
    match pc with
    | .ret _ => some (s, .load x.op)
    | pc => s.step x pc

/-- An empty slot, every thread before its first call. -/
def slotInit {ι K : Type} [LinearOrder K] [BoundedOrder K] : Config ι (SlotMemory K) (SlotPc K) :=
  ⟨.new, fun _ => .ret .none⟩

end KanvaRS
