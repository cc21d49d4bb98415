import Kanva.Interleaving
import Mathlib.Algebra.Group.Int.Defs

/-!
# The timestamp tracker as an interleaving machine

`TrackerList` is an append-only list of timestamps that ends in `sentinel_last`. A range query
appends a node with `add_timestamp` and sets its `finish` flag when it is done; `remove_head` moves
`head` over the finished nodes; `get_latest_timestamp` reads the timestamp at `tail`, which may lag
behind the last node.

As for the bin list, a program point stands between two atomic accesses, a node under construction
is a value of its thread, and the linking CAS gives it the next fresh address. Timestamps are
mathematical integers: the `int64_t` of the source overflows after `2 ^ 63` calls only.
-/

namespace KanvaRS

open Interleaving

/-- `TrackerNode` -/
structure TrackerNode where
  ts : ℤ
  /-- The address of the next node, 0 being the null pointer. -/
  next : ℕ
  finish : Bool
deriving DecidableEq, Repr

/-- The memory of a `TrackerList`. The source also declares `active_thread_cnt` and
`min_active_ts`, which it never reads or writes. -/
structure TrackerList where
  head : ℕ
  tail : ℕ
  /-- The next fresh address. -/
  size : ℕ
  node : ℕ → TrackerNode

/-- A call on the tracker. -/
inductive TrackerOp where
  | addTimestamp
  | removeHead
  | getLatestTimestamp
  | getOldestTimestamp
  /-- The owner's store to `finish`. -/
  | finish (a : ℕ)
deriving DecidableEq, Repr

/-- The two callers of the loop of `remove_head`. -/
inductive HeadCall where
  | removeHead
  | getOldestTimestamp
deriving DecidableEq, Repr

/-- What a call returns. -/
inductive TrackerResult where
  | none
  /-- The node `add_timestamp` returns. -/
  | added (a : ℕ)
  /-- The node `remove_head` returns. -/
  | head (a : ℕ)
  /-- The timestamp of `get_latest_timestamp` and `get_oldest_timestamp`. -/
  | ts (t : ℤ)
deriving DecidableEq, Repr

/-- The program points of a thread. -/
inductive TrackerPc where
  /-- Between two calls, holding the result of the last one. -/
  | ret (r : TrackerResult)
  /-- `add_timestamp`: about to load `curr_tail`, at the top of the outer loop. -/
  | addLoad
  /-- `add_timestamp`: about to link the new node behind `curr_tail`. -/
  | addCas (currTail : ℕ) (newTail : TrackerNode)
  /-- `add_timestamp`: about to move `tail` to the new node. -/
  | addSwing (currTail newTail : ℕ)
  /-- `add_timestamp`: about to load `curr_tail` in the helping loop. -/
  | helpLoad
  /-- `add_timestamp`: about to compare `curr_tail->next` with the sentinel. -/
  | helpTest (currTail : ℕ)
  /-- `add_timestamp`: about to load `curr_tail->next` for the CAS on `tail`. -/
  | helpNext (currTail : ℕ)
  /-- `add_timestamp`: about to move `tail` forward. -/
  | helpSwing (currTail next : ℕ)
  /-- `remove_head`: about to load `curr_head`. -/
  | rhLoad (call : HeadCall)
  /-- `remove_head`: about to test `curr_head->finish`. -/
  | rhFinish (call : HeadCall) (currHead : ℕ)
  /-- `remove_head`: about to compare `curr_head->next` with the sentinel. -/
  | rhTest (call : HeadCall) (currHead : ℕ)
  /-- `remove_head`: about to load `curr_head->next` for the CAS on `head`. -/
  | rhNext (call : HeadCall) (currHead : ℕ)
  /-- `remove_head`: about to move `head` forward. -/
  | rhSwing (call : HeadCall) (currHead next : ℕ)
  /-- `get_latest_timestamp`: about to load `tail`. -/
  | latest
  /-- About to store `finish`. -/
  | finStore (a : ℕ)
deriving DecidableEq, Repr

namespace TrackerList

/-- The address of `sentinel_last`. -/
def sentinelLast : ℕ := 1

/-- The address of the initial head. -/
def initialHead : ℕ := 2

/-- `TrackerList::TrackerList`, with `INT64_MAX` as the timestamp of the sentinel. -/
def new : TrackerList where
  head := initialHead
  tail := initialHead
  size := 3
  node a := if a = sentinelLast then ⟨2 ^ 63 - 1, 0, false⟩ else ⟨0, sentinelLast, false⟩

/-- Store the `next` pointer of a node. -/
def setNext (s : TrackerList) (a n : ℕ) : TrackerList :=
  { s with node := Function.update s.node a { s.node a with next := n } }

/-- Store the `finish` flag of a node. -/
def setFinish (s : TrackerList) (a : ℕ) : TrackerList :=
  { s with node := Function.update s.node a { s.node a with finish := true } }

/-- Place a node at the next fresh address. -/
def alloc (s : TrackerList) (n : TrackerNode) : TrackerList :=
  { s with size := s.size + 1, node := Function.update s.node s.size n }

/-- `get_latest_timestamp`, one load of `tail`; the timestamp of a node never changes. -/
def getLatestTimestamp (s : TrackerList) : ℤ := (s.node s.tail).ts

/-- What the callers of `remove_head` make of the node it returns. -/
def headResult (s : TrackerList) (call : HeadCall) (currHead : ℕ) : TrackerResult :=
  match call with
  | .removeHead => .head currHead
  | .getOldestTimestamp => .ts (s.node currHead).ts

/-- The next atomic access of a thread inside a call, and the local computation after it. -/
def step (s : TrackerList) : TrackerPc → Option (TrackerList × TrackerPc)
  | .ret _ => none
  | .addLoad => some (s, .addCas s.tail ⟨(s.node s.tail).ts + 1, sentinelLast, false⟩)
  | .addCas currTail newTail =>
    if (s.node currTail).next = sentinelLast then
      some ((s.setNext currTail s.size).alloc newTail, .addSwing currTail s.size)
    else some (s, .helpLoad)
  | .addSwing currTail newTail =>
    some (if s.tail = currTail then { s with tail := newTail } else s, .ret (.added newTail))
  | .helpLoad => some (s, .helpTest s.tail)
  | .helpTest currTail =>
    if (s.node currTail).next = sentinelLast then some (s, .addLoad)
    else some (s, .helpNext currTail)
  | .helpNext currTail => some (s, .helpSwing currTail (s.node currTail).next)
  | .helpSwing currTail next =>
    some (if s.tail = currTail then { s with tail := next } else s, .helpLoad)
  | .rhLoad call => some (s, .rhFinish call s.head)
  | .rhFinish call currHead =>
    if (s.node currHead).finish then some (s, .rhTest call currHead)
    else some (s, .ret (s.headResult call currHead))
  | .rhTest call currHead =>
    if (s.node currHead).next ≠ sentinelLast then some (s, .rhNext call currHead)
    else some (s, .ret (s.headResult call currHead))
  | .rhNext call currHead => some (s, .rhSwing call currHead (s.node currHead).next)
  | .rhSwing call currHead next =>
    some (if s.head = currHead then { s with head := next } else s, .rhLoad call)
  | .latest => some (s, .ret (.ts s.getLatestTimestamp))
  | .finStore a => some (s.setFinish a, .ret .none)

/-- The first program point of a call. -/
def enter : TrackerOp → TrackerPc
  | .addTimestamp => .addLoad
  | .removeHead => .rhLoad .removeHead
  | .getLatestTimestamp => .latest
  | .getOldestTimestamp => .rhLoad .getOldestTimestamp
  | .finish a => .finStore a

end TrackerList

/-- The state of a thread: its program point and the nodes its `add_timestamp` calls have returned,
the last one first. -/
structure TrackerThread where
  pc : TrackerPc
  mine : List ℕ
deriving DecidableEq, Repr

/-- Reach a program point, keeping the node of a completed `add_timestamp`. -/
def TrackerThread.moveTo (t : TrackerThread) : TrackerPc → TrackerThread
  | .ret (.added a) => ⟨.ret (.added a), a :: t.mine⟩
  | pc => ⟨pc, t.mine⟩

/-- A thread may set the `finish` flag of its own nodes only. -/
def TrackerOp.Allowed (mine : List ℕ) : TrackerOp → Prop
  | .finish a => a ∈ mine
  | _ => True

instance (mine : List ℕ) (op : TrackerOp) : Decidable (op.Allowed mine) := by
  cases op <;> unfold TrackerOp.Allowed <;> infer_instance

/-- The program of a thread on one tracker. Between two calls the input is the next call. -/
def trackerMachine : Machine TrackerList TrackerThread TrackerOp where
  next s t op :=
    match t.pc with
    | .ret _ => if op.Allowed t.mine then some (s, ⟨TrackerList.enter op, t.mine⟩) else none
    | pc => (s.step pc).map fun r => (r.1, t.moveTo r.2)

/-- A fresh tracker, every thread before its first call. -/
def trackerInit {ι : Type} : Config ι TrackerList TrackerThread :=
  ⟨.new, fun _ => ⟨.ret .none, []⟩⟩

end KanvaRS
