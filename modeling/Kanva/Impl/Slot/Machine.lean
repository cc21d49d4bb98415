import Kanva.Impl.Bin.Machine
import Kanva.Impl.Model.Operations

/-!
# A slot of a model as an interleaving machine

The word of a slot points at nothing, at a bin, or at the model that a sealed bin was retrained
into. The threads run `insert_model_or_bin`, `remove_model_or_bin` and what `find_retrain` does with
a slot; inside a call on a bin their steps are those of the machine of the bin, and a call on a
model goes on in a slot of that model. A thread is stuck where the source has no defined result.

The address of a slot is its way down from the outermost one: `i :: p` is slot `i` of the model in
slot `p`, and `[]` the outermost slot. The word of a slot only goes from null to a bin and from
there to a model, so there is one bin and one model for each address. A bin or a model that loses
its CAS stays private and is not part of the memory. The arrays of a model are never written once it
is published, except for its values.
-/

namespace KanvaImpl

open Interleaving Kanva

deriving instance DecidableEq for Call

/-- The address of a slot: its positions on the way down, the last one first. -/
abbrev SlotAddr := List ℕ

/-- What the word of a slot points at. The bin is in the memory, under the address of the slot. -/
inductive SlotWord (K : Type) where
  | null
  | bin
  | ai (m : ModelOver K SlotAddr)

/-- The memory of a slot and of the slots below it. -/
structure SlotMem (K : Type) where
  /-- The words of the slots. -/
  mobsLf : SlotAddr → SlotWord K
  bin : SlotAddr → BinMem K

/-- A call on a slot. -/
inductive SlotOp (K : Type) where
  /-- `insert_retrain` or `remove`. -/
  | change (c : Call K)
  /-- `find_retrain`. -/
  | find (key : K)
deriving DecidableEq

/-- Where `find_retrain` has ended. -/
inductive FindResult where
  | null
  /-- A bin, with the `bool` of its `search`. -/
  | bin (r : Bool)
  /-- The array of a model, with the value at the position of the key. -/
  | entry (val : Val)
deriving DecidableEq

/-- What `find_retrain` returns: the `bool` of the bin becomes a value. -/
def FindResult.val : FindResult → Val
  | .null => -1
  | .bin r => if r then 1 else 0
  | .entry val => val

/-- The key has been found: the bin has it, or the value is no tombstone. -/
def FindResult.present : FindResult → Bool
  | .null => false
  | .bin r => r
  | .entry val => decide (val ≠ -1)

/-- What a call returns. -/
inductive SlotResult (K : Type) where
  | none
  | returned (c : Call K) (r : Bool)
  | found (key : K) (r : FindResult)
deriving DecidableEq

/-- The program points of a thread, between two accesses to the shared memory. -/
inductive SlotPc (K : Type) where
  /-- Between two calls, holding the result of the last one. -/
  | ret (r : SlotResult K)
  /-- About to load the word of a slot. -/
  | load (op : SlotOp K) (p : SlotAddr)
  /-- `insert_model_or_bin`: about to put a new bin into an empty slot. -/
  | publishBin (key : K) (val : Val) (p : SlotAddr)
  /-- Inside the bin's `insert`, `remove` or `search`. -/
  | inBin (op : SlotOp K) (p : SlotAddr) (pc : BinPc K)
  /-- Inside the bin's `collect`. -/
  | collect (c : Call K) (p : SlotAddr) (pc : BinPc K)
  /-- About to put the model of the collected pairs into the slot. -/
  | publishAi (c : Call K) (p : SlotAddr) (pairs : List (K × Val))
  /-- About to look for the key in the array of the model. -/
  | enterAi (op : SlotOp K) (p : SlotAddr)
  /-- About to access the value at the position of the key. -/
  | value (op : SlotOp K) (p : SlotAddr) (pos : ℕ)

/-- The thread is inside an insertion or a removal of the key, or holds its result. -/
def SlotPc.On {K : Type} (key : K) : SlotPc K → Prop
  | .ret (.returned c _) | .collect c _ _ | .publishAi c _ _ => c.key = key
  | .load (.change c) _ | .inBin (.change c) _ _ | .enterAi (.change c) _
  | .value (.change c) _ _ => c.key = key
  | .publishBin k _ _ => k = key
  | _ => False

/-- The thread is inside a search for the key, or holds its result. -/
def SlotPc.Finds {K : Type} (key : K) : SlotPc K → Prop
  | .ret (.found k _) => k = key
  | .load (.find k) _ | .inBin (.find k) _ _ | .enterAi (.find k) _
  | .value (.find k) _ _ => k = key
  | _ => False

instance SlotPc.decidableOn {K : Type} [DecidableEq K] (key : K) (pc : SlotPc K) :
    Decidable (pc.On key) := by
  delta SlotPc.On
  rcases pc with (_ | _ | _) | (_ | _) | _ | (_ | _) | _ | _ | (_ | _) | (_ | _) <;> infer_instance

instance SlotPc.decidableFinds {K : Type} [DecidableEq K] (key : K) (pc : SlotPc K) :
    Decidable (pc.Finds key) := by
  delta SlotPc.Finds
  rcases pc with (_ | _ | _) | (_ | _) | _ | (_ | _) | _ | _ | (_ | _) | (_ | _) <;> infer_instance

/-- The result of a thread between two calls. -/
def SlotPc.result? {K : Type} : SlotPc K → Option (SlotResult K)
  | .ret r => some r
  | _ => none

theorem SlotPc.eq_ret {K : Type} {pc : SlotPc K} {r : SlotResult K} (h : pc.result? = some r) :
    pc = .ret r := by
  cases pc with
  | ret r => exact congrArg SlotPc.ret (Option.some.inj h)
  | _ => cases h

/-- The key of a call. -/
def SlotOp.key {K : Type} : SlotOp K → K
  | .change c => c.key
  | .find key => key

/-- The update a bin gets. -/
def Call.update {K : Type} : Call K → Update K
  | .insert key val => .insert key val
  | .remove key => .remove key

/-- The call a bin gets. -/
def SlotOp.listOp {K : Type} : SlotOp K → ListOp K
  | .change c => .update c.update
  | .find key => .search key

/-- Where the search for the key in the array of a model ends. -/
def SlotOp.pos? {K Slot : Type} [LinearOrder K] (m : ModelOver K Slot) : SlotOp K → Option ModelPos
  | .change (.insert key _) => m.insertPos? key
  | .change (.remove key) => m.removePos? key
  | .find key => m.findPos? key

/-- The key of a call lies strictly between the sentinel keys of the lists. -/
def SlotOp.InRange {K : Type} [LinearOrder K] [BoundedOrder K] (op : SlotOp K) : Prop :=
  ⊥ < op.key ∧ op.key < ⊤

instance {K : Type} [LinearOrder K] [BoundedOrder K] (op : SlotOp K) : Decidable op.InRange := by
  unfold SlotOp.InRange
  infer_instance

namespace SlotMem

variable {K : Type}

/-- An empty slot. The bin that will come into it is a new one. -/
def new [LE K] [BoundedOrder K] : SlotMem K where
  mobsLf _ := .null
  bin _ := .new

/-- Store the word of a slot. -/
def setMob (s : SlotMem K) (p : SlotAddr) (w : SlotWord K) : SlotMem K :=
  { s with mobsLf := Function.update s.mobsLf p w }

/-- Write the bin of a slot. -/
def setBin (s : SlotMem K) (p : SlotAddr) (b : BinMem K) : SlotMem K :=
  { s with bin := Function.update s.bin p b }

/-- What a call does with the word of a slot. -/
def enter (op : SlotOp K) (p : SlotAddr) : SlotWord K → SlotPc K
  | .null =>
    match op with
    | .change (.insert key val) => .publishBin key val p
    | .change (.remove key) => .ret (.returned (.remove key) false)
    | .find key => .ret (.found key .null)
  | .bin => .inBin op p (.loadRoot op.listOp)
  | .ai _ => .enterAi op p

/-- What an update does after the `bool` of the bin. An insertion that gets false retrains the bin.
A removal keeps the `bool` in an `int`, and compares that with -2 and -1. -/
def binReturn (c : Call K) (p : SlotAddr) (r : Bool) : SlotPc K :=
  match c with
  | .insert _ _ => if r then .ret (.returned c true) else .collect c p (.loadRoot .collect)
  | .remove _ =>
    let res : ℤ := if r then 1 else 0
    if res = -2 then .ret (.returned c false)
    else if res = -1 then .collect c p (.loadRoot .collect)
    else .ret (.returned c true)

/-- What a call does after a step of its bin. -/
def afterBin (p : SlotAddr) : SlotOp K → BinPc K → SlotPc K
  | .change c, .ret (.updated _ r) => binReturn c p r
  | .find key, .ret (.found _ r) => .ret (.found key (.bin r))
  | op, pc => .inBin op p pc

/-- What an update does when the slot has changed before its model was published: the failed CAS of
an insertion has loaded the new word, a removal loads it again. -/
def retry (c : Call K) (p : SlotAddr) (w : SlotWord K) : SlotPc K :=
  match c with
  | .insert _ _ => enter (.change c) p w
  | .remove _ => .load (.change c) p

/-- A model in a slot. -/
def modelAt (p : SlotAddr) (m : KanvaModel K) : ModelOver K SlotAddr :=
  ⟨m.model, m.maxErr, m.capacity, m.keys, m.vals, fun i => i :: p⟩

section Step

variable [LinearOrder K] [BoundedOrder K] [Zero K]

/-- The next access of a thread inside a call, and the local computation after it. -/
def step (fit : List K → LinearRegressionModel K) (s : SlotMem K) :
    SlotPc K → Option (SlotMem K × SlotPc K)
  | .ret _ => none
  | .load op p => some (s, enter op p (s.mobsLf p))
  | .publishBin key val p =>
    match s.mobsLf p with
    | .null => some (s.setMob p .bin, enter (.change (.insert key val)) p .bin)
    | w => some (s, enter (.change (.insert key val)) p w)
  | .inBin op p pc =>
    ((s.bin p).step pc).map fun (b, pc') => (s.setBin p b, afterBin p op pc')
  | .collect c p pc =>
    ((s.bin p).step pc).map fun (b, pc') =>
      (s.setBin p b,
        match pc' with
        | .ret (.vectors keys vals) => .publishAi c p (keys.zip vals)
        | pc' => .collect c p pc')
  | .publishAi c p pairs =>
    (retrained? fit pairs).map fun ai =>
      match s.mobsLf p with
      | .bin => (s.setMob p (.ai (modelAt p ai)), .enterAi (.change c) p)
      | w => (s, retry c p w)
  | .enterAi op p =>
    match s.mobsLf p with
    | .ai m =>
      (op.pos? m).map fun
        | .entry pos => (s, .value op p pos)
        | .slot i => (s, .load op (m.mobsLf i))
    | _ => none
  | .value op p pos =>
    match s.mobsLf p with
    | .ai m =>
      match op with
      | .change (.insert key val) =>
        some (s, .ret (.returned (.insert key val) (decide (m.vals pos ≠ -1))))
      | .change (.remove key) =>
        some (s.setMob p (.ai (m.setVal pos (-1))), .ret (.returned (.remove key) true))
      | .find key => some (s, .ret (.found key (.entry (m.vals pos))))
    | _ => none

end Step

end SlotMem

/-- The program of a thread on one slot. Between two calls the input is the next call; callers
promise keys strictly between the sentinels. -/
def slotMachine {K : Type} [LinearOrder K] [BoundedOrder K] [Zero K]
    (fit : List K → LinearRegressionModel K) : Machine (SlotMem K) (SlotPc K) (SlotOp K) where
  next s pc op :=
    match pc with
    | .ret _ => if op.InRange then some (s, .load op []) else none
    | pc => s.step fit pc

/-- An empty slot, every thread between two calls. -/
def slotInit {ι K : Type} [LE K] [BoundedOrder K] : Config ι (SlotMem K) (SlotPc K) :=
  ⟨.new, fun _ => .ret .none⟩

end KanvaImpl
