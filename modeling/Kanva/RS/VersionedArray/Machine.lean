import Kanva.Common
import Kanva.RS.VersionTracker.Machine

/-!
# The version chains of a model array as an interleaving machine

A slot of a `Kanva_RSModel` array is a `VersionedArray`: a key and a chain of versions, the newest
at `vhead`. `insert` links a new version in front, an unstamped one (`ts = -1`); whoever meets an
unstamped version stamps it with the latest timestamp of the tracker (`init_ts`), helping its
writer. `getVersionedValue` at a timestamp `T` stamps the newest version and then skips the versions
stamped `T` or later.

All slots share one tracker, and the threads run `add_timestamp`, `insert` and `getVersionedValue`
on any of them. The machine of the tracker is used as it is for `add_timestamp`.
-/

namespace KanvaRS

open Interleaving Kanva

/-- `Vnode` -/
structure Vnode where
  value : Val
  ts : ℤ
  /-- The address of the next older version, 0 being the null pointer. -/
  nextv : ℕ
deriving DecidableEq, Repr

/-- The memory of one `VersionedArray`. Its key takes no part in the steps modelled here. -/
structure VersionedArray where
  vhead : ℕ
  /-- The next fresh address. -/
  size : ℕ
  version : ℕ → Vnode
  /-- Not in the source and read by no step: the address at the tracker's `tail` when the version
  was linked. -/
  born : ℕ → ℕ

/-- The tracker and the slots. -/
structure VersionStore (S : Type) where
  tracker : TrackerList
  slot : S → VersionedArray

/-- A call on the store. A removal inserts the tombstone `-1`. -/
inductive VersionOp (S : Type) where
  | addTimestamp
  | insert (j : S) (value : Val)
  | getVersionedValue (j : S) (currTs : ℤ)
deriving DecidableEq, Repr

/-- What a call returns. `insert` returns `false` in all cases; its result records the version it
has linked, if any. -/
inductive VersionResult (S : Type) where
  | none
  | added (a : ℕ)
  | inserted (linked : Option (S × ℕ))
  | value (j : S) (currTs : ℤ) (v : Val)
deriving DecidableEq, Repr

/-- The call sites of `init_ts`. -/
inductive InitCall where
  /-- `read`, inside `insert` of `value`. -/
  | read (value : Val)
  /-- `vCAS` before its comparisons, inside `insert` of `value`. -/
  | vCAS (value oldValue : Val)
  /-- `vCAS` after it has linked the new version. -/
  | linked
  /-- `getVersionedValue`. -/
  | versioned (currTs : ℤ)
deriving DecidableEq, Repr

/-- The program points of a thread. -/
inductive VersionPc (S : Type) where
  /-- Between two calls, holding the result of the last one. -/
  | ret (r : VersionResult S)
  /-- Inside `add_timestamp`. -/
  | tracker (pc : TrackerPc)
  /-- `init_ts`: about to load `node->ts`. -/
  | initTest (call : InitCall) (j : S) (node : ℕ)
  /-- `init_ts`: about to load the tail of the tracker. -/
  | initLoad (call : InitCall) (j : S) (node : ℕ)
  /-- `init_ts`: about to stamp the version. -/
  | initCas (call : InitCall) (j : S) (node : ℕ) (globalTs : ℤ)
  /-- `read`: about to load `vhead` for `init_ts`. -/
  | readHead (j : S) (value : Val)
  /-- `read`: about to load `vhead` for its value. -/
  | readValue (j : S) (value : Val)
  /-- `vCAS`: about to load `head`. -/
  | vcasHead (j : S) (value oldValue : Val)
  /-- `vCAS`: about to link the new version in front of `head`. -/
  | vcasLink (j : S) (value : Val) (head : ℕ)
  /-- `getVersionedValue`: about to load `vhead`. -/
  | getHead (j : S) (currTs : ℤ)
  /-- `getVersionedValue`: about to load `curr_vhead->ts`. -/
  | getTest (j : S) (currTs : ℤ) (curr : ℕ)
deriving DecidableEq, Repr

namespace VersionedArray

/-- `VersionedArray::VersionedArray` -/
def new (value : Val) : VersionedArray where
  vhead := 1
  size := 2
  version _ := ⟨value, -1, 0⟩
  born _ := TrackerList.initialHead

/-- `compare_exchange_strong` on the stamp of a version, from -1. -/
def stamp (c : VersionedArray) (a : ℕ) (ts : ℤ) : VersionedArray :=
  if (c.version a).ts = -1 then
    { c with version := Function.update c.version a { c.version a with ts := ts } }
  else c

/-- Place a version at the next fresh address and make it the newest one. -/
def link (c : VersionedArray) (v : Vnode) (tail : ℕ) : VersionedArray where
  vhead := c.size
  size := c.size + 1
  version := Function.update c.version c.size v
  born := Function.update c.born c.size tail

/-- What `getVersionedValue` returns when its loop stops at `curr_vhead`. -/
def valueAt (c : VersionedArray) (curr : ℕ) : Val :=
  if curr ≠ 0 ∧ (c.version curr).value ≠ -1 then (c.version curr).value else -1

end VersionedArray

namespace VersionStore

variable {S : Type}

/-- The loop test of `getVersionedValue` on a pointer, before the load of its timestamp. -/
def getLoop (c : VersionedArray) (j : S) (currTs : ℤ) (curr : ℕ) : VersionPc S :=
  if curr = 0 then .ret (.value j currTs (c.valueAt curr)) else .getTest j currTs curr

/-- The local computation after `init_ts(node)` has returned. Values never change, so it may read
them. -/
def initReturn (c : VersionedArray) (j : S) (node : ℕ) : InitCall → VersionPc S
  | .read value => .readValue j value
  | .vCAS value oldValue =>
    if (c.version node).value ≠ oldValue then .readHead j value
    else if (c.version node).value = value then .ret (.inserted none)
    else .vcasLink j value node
  | .linked => .ret (.inserted (some (j, node)))
  | .versioned currTs => getLoop c j currTs node

variable [DecidableEq S]

/-- Write one slot. -/
def setSlot (s : VersionStore S) (j : S) (c : VersionedArray) : VersionStore S :=
  { s with slot := Function.update s.slot j c }

/-- The next atomic access of a thread inside a call, and the local computation after it. -/
def step (s : VersionStore S) : VersionPc S → Option (VersionStore S × VersionPc S)
  | .ret _ => none
  | .tracker pc =>
    (s.tracker.step pc).map fun r =>
      ({ s with tracker := r.1 },
        match r.2 with
        | .ret (.added a) => .ret (.added a)
        | pc' => .tracker pc')
  | .initTest call j node =>
    if ((s.slot j).version node).ts = -1 then some (s, .initLoad call j node)
    else some (s, initReturn (s.slot j) j node call)
  | .initLoad call j node => some (s, .initCas call j node s.tracker.getLatestTimestamp)
  | .initCas call j node globalTs =>
    some (s.setSlot j ((s.slot j).stamp node globalTs), initReturn (s.slot j) j node call)
  | .readHead j value => some (s, .initTest (.read value) j (s.slot j).vhead)
  | .readValue j value =>
    let currValue := ((s.slot j).version (s.slot j).vhead).value
    if currValue = value then some (s, .ret (.inserted none))
    else some (s, .vcasHead j value currValue)
  | .vcasHead j value oldValue => some (s, .initTest (.vCAS value oldValue) j (s.slot j).vhead)
  | .vcasLink j value head =>
    if (s.slot j).vhead = head then
      some (s.setSlot j ((s.slot j).link ⟨value, -1, head⟩ s.tracker.tail),
        .initTest .linked j (s.slot j).size)
    else some (s, .readHead j value)
  | .getHead j currTs => some (s, .initTest (.versioned currTs) j (s.slot j).vhead)
  | .getTest j currTs curr =>
    if ((s.slot j).version curr).ts ≥ currTs then
      some (s, getLoop (s.slot j) j currTs ((s.slot j).version curr).nextv)
    else some (s, .ret (.value j currTs ((s.slot j).valueAt curr)))

/-- The first program point of a call. -/
def enter : VersionOp S → VersionPc S
  | .addTimestamp => .tracker .addLoad
  | .insert j value => .readHead j value
  | .getVersionedValue j currTs => .getHead j currTs

/-- A versioned read takes a timestamp that `add_timestamp` has returned before. All of those have
been reached by `tail`, which is what the machine asks for. -/
def Allowed (s : VersionStore S) : VersionOp S → Prop
  | .getVersionedValue _ currTs => currTs ≤ s.tracker.getLatestTimestamp
  | _ => True

instance (s : VersionStore S) (op : VersionOp S) : Decidable (s.Allowed op) := by
  cases op <;> unfold Allowed <;> infer_instance

end VersionStore

/-- The program of a thread on one store. Between two calls the input is the next call. -/
def versionMachine (S : Type) [DecidableEq S] :
    Machine (VersionStore S) (VersionPc S) (VersionOp S) where
  next s pc op :=
    match pc with
    | .ret _ => if s.Allowed op then some (s, VersionStore.enter op) else none
    | pc => s.step pc

/-- A fresh tracker and one unstamped version in each slot, every thread before its first call. -/
def versionInit {ι S : Type} (value : S → Val) : Config ι (VersionStore S) (VersionPc S) :=
  ⟨⟨.new, fun j => .new (value j)⟩, fun _ => .ret .none⟩

end KanvaRS
