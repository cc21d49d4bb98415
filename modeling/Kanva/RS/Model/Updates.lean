import Kanva.RS.Model.Training

/-!
# The updates of Kanva_RS

`insert`, `remove` and `find` go down the same way for a key: to the model `find_model` selects, to
the entry `locate_in_levelbin` finds if it has the key, else into the slot before or after it. An
update writes a new version, or links a new node; a removal writes the version -1. A list that has
reached `threshhold` nodes refuses both with -2, upon which an insertion makes a model of it.

The calls are those of one thread without interference, so no compare-and-swap fails. What
`reclaimMem` gives back is not part of the model. An access beyond an array is `none`.

## Main results

* `VersionedKey.update_key` and `VersionedKey.update_getValue`: what a written version leaves and
  what it shows.
-/

namespace KanvaRS

open Kanva SortedArray

/-- `threshhold` -/
def threshhold : ℕ := 10

namespace VersionedKey

variable {K : Type}

/-- `vCAS` with the value just read, which is not the new one. -/
def vCAS (e : VersionedKey K) (newValue : Val) (globalTs : ℤ) : VersionedKey K :=
  ({ e with vhead := ⟨newValue, -1⟩ :: e.vhead } : VersionedKey K).initTs globalTs

/-- The loop that writes a value: it returns after `read` if the newest version has the value, else
`vCAS` puts a new version on the chain. -/
def update (e : VersionedKey K) (value : Val) (globalTs : ℤ) : VersionedKey K :=
  if (e.initTs globalTs).getValue = value then e.initTs globalTs
  else (e.initTs globalTs).vCAS value globalTs

/-- `VersionedArray::insert`. It returns false if the value is there, and after the loop
`return 0`. -/
def insert (e : VersionedKey K) (value : Val) (globalTs : ℤ) : VersionedKey K × Bool :=
  (e.update value globalTs, false)

@[simp] theorem initTs_getValue (e : VersionedKey K) (globalTs : ℤ) :
    (e.initTs globalTs).getValue = e.getValue := by
  obtain ⟨key, _ | ⟨v, vs⟩⟩ := e
  · rfl
  · simp only [initTs, getValue]
    split <;> rfl

@[simp] theorem update_key (e : VersionedKey K) (value : Val) (globalTs : ℤ) :
    (e.update value globalTs).key = e.key := by
  rw [update]
  split <;> simp [vCAS]

@[simp] theorem update_getValue (e : VersionedKey K) (value : Val) (globalTs : ℤ) :
    (e.update value globalTs).getValue = value := by
  rw [update]
  split
  · next h => exact h
  · rw [vCAS, initTs_getValue, getValue]

end VersionedKey

namespace VersionedList

variable {K : Type}

/-- `Linked_List::Linked_List` -/
def new : VersionedList K := ⟨[], [⟨0, -1⟩], 0⟩

variable [LinearOrder K] [BoundedOrder K]

omit [BoundedOrder K] in
/-- A new node before the first one that is not less. -/
def link (l : VersionedList K) (key : K) (value : Val) (globalTs : ℤ) : VersionedList K :=
  { l with
    nodes := l.nodes.takeWhile (fun e => e.key < key) ++
      (VersionedKey.new key value).initTs globalTs :: l.nodes.dropWhile fun e => e.key < key
    size := l.size + 1 }

/-- `insert`: -2 for retraining, 0 if the size stays, 1 for a new node. -/
def insert (l : VersionedList K) (key : K) (value : Val) (globalTs : ℤ) : VersionedList K × ℤ :=
  if threshhold ≤ l.size then (l, -2)
  else
    -- `find`: the first node that is not less, or the max sentinel
    match l.nodes.dropWhile fun e => e.key < key with
    | right :: nodes =>
      if right.key = key then
        ({ l with
          nodes := l.nodes.takeWhile (fun e => e.key < key) ++
            right.update value globalTs :: nodes },
          0)
      else if value = -1 then (l, 0)
      else (l.link key value globalTs, 1)
    | [] =>
      if (⊤ : K) = key then
        let max : VersionedKey K := ⟨⊤, l.maxVhead⟩
        ({ l with maxVhead := (max.update value globalTs).vhead }, 0)
      else if value = -1 then (l, 0)
      else (l.link key value globalTs, 1)

/-- `remove` -/
def remove (l : VersionedList K) (key : K) (globalTs : ℤ) : VersionedList K × ℤ :=
  l.insert key (-1) globalTs

/-- `search`. Its argument `value` is a copy of the caller's variable. -/
def search (l : VersionedList K) (key : K) (value : Val) : Bool :=
  let head : VersionedKey K := ⟨⊥, [⟨0, -1⟩]⟩
  let max : VersionedKey K := ⟨⊤, l.maxVhead⟩
  match (head :: l.nodes ++ [max]).dropWhile fun e => e.key < key with
  | [] => false
  | curr :: _ => curr.key = key ∧ curr.getValue = value

end VersionedList

/-- `Kanva_RSModel::Kanva_RSModel` on what `collect` has gathered: the keys with their chains. -/
def KanvaRSModel.ofVersions {K : Type} (lrmodel : LinearRegressionModel K)
    (nodes : List (VersionedKey K)) : KanvaRSModel K where
  model := lrmodel.predict
  modelArray := nodes
  mobsLf _ := .null

namespace RSModelOver

variable {K Slot : Type} [LinearOrder K] [Zero K]

/-- The slot of a key that is not in the array. -/
def binPos (m : RSModelOver K Slot) (key : K) : ℕ :=
  if key < m.keys (m.locate key) then m.locate key else m.locate key + 1

omit [LinearOrder K] [Zero K] in
/-- The store to an entry. -/
def setEntry (m : RSModelOver K Slot) (i : ℕ) (e : VersionedKey K) : RSModelOver K Slot :=
  { m with modelArray := m.modelArray.set i e }

omit [LinearOrder K] [Zero K] in
/-- The store to a slot. -/
def setMob (m : RSModelOver K Slot) (i : ℕ) (mob : Slot) : RSModelOver K Slot :=
  { m with mobsLf := Function.update m.mobsLf i mob }

/-- What `insert_retrain` and `remove` share: they go on with the entry that has the key, or with a
slot. -/
def updateAt (m : RSModelOver K Slot) (key : K) (atEntry : VersionedKey K → VersionedKey K × Bool)
    (atSlot : ℕ → Option (Slot × Bool)) : Option (RSModelOver K Slot × Bool) :=
  match m.modelArray[m.locate key]? with
  | none => none
  | some e =>
    if key = e.key then some (m.setEntry (m.locate key) (atEntry e).1, (atEntry e).2)
    else (atSlot (m.binPos key)).map fun p => (m.setMob (m.binPos key) p.1, p.2)

/-- `find_retrain`, where `findSlot` goes on with a slot. The variable `val` is the caller's. -/
def findRetrain (m : RSModelOver K Slot) (key : K) (val : Val)
    (findSlot : ℕ → Option (Bool × Val)) :
    Option (Bool × Val) :=
  match m.modelArray[m.locate key]? with
  | none => none
  | some e =>
    if key = e.key then
      if e.getValue ≠ -1 then some (true, e.getValue) else some (false, val)
    else findSlot (m.binPos key)

end RSModelOver

section Calls

variable {K : Type} [LinearOrder K] [BoundedOrder K] [Zero K]

omit [BoundedOrder K] in
/-- An update of the slot and what is below it. -/
def ModelOrBin.update (key : K) (atEntry : VersionedKey K → VersionedKey K × Bool)
    (atNull : ModelOrBin K × Bool) (atBin : VersionedList K → Option (ModelOrBin K × Bool)) :
    ModelOrBin K → Option (ModelOrBin K × Bool)
  | .null => some atNull
  | .bin lflb => atBin lflb
  | .ai ⟨model, modelArray, mobsLf⟩ =>
    let m : KanvaRSModel K := ⟨model, modelArray, mobsLf⟩
    (m.updateAt key atEntry fun i => (mobsLf i).update key atEntry atNull atBin).map fun p =>
      (.ai p.1, p.2)

omit [LinearOrder K] [BoundedOrder K] [Zero K] in
/-- `insert_retrain` at an entry with the key. -/
def insertEntry (val : Val) (globalTs : ℤ) (e : VersionedKey K) : VersionedKey K × Bool :=
  if e.getValue ≠ -1 then (e, false) else e.insert val globalTs

omit [Zero K] in
/-- `insert_model_or_bin` at an empty slot: the insertion into a new list, which is not full. -/
def insertNull (key : K) (val : Val) (globalTs : ℤ) : ModelOrBin K × Bool :=
  let p := VersionedList.new.insert key val globalTs
  (.bin p.1, 0 ≤ p.2)

/-- `insert_model_or_bin` at a bin. A full one becomes a model, all of whose slots are empty. -/
def insertBin (fit : List K → LinearRegressionModel K) (key : K) (val : Val) (globalTs : ℤ)
    (lflb : VersionedList K) : Option (ModelOrBin K × Bool) :=
  let p := lflb.insert key val globalTs
  if p.2 = -2 then
    let ai := KanvaRSModel.ofVersions (fit (lflb.nodes.map VersionedKey.key)) lflb.nodes
    (ai.updateAt key (insertEntry val globalTs) fun _ => some (insertNull key val globalTs)).map
      fun p => (.ai p.1, p.2)
  else some (.bin p.1, 0 ≤ p.2)

/-- `insert_model_or_bin` -/
def ModelOrBin.insertModelOrBin (fit : List K → LinearRegressionModel K) (key : K) (val : Val)
    (globalTs : ℤ) (mob : ModelOrBin K) : Option (ModelOrBin K × Bool) :=
  mob.update key (insertEntry val globalTs) (insertNull key val globalTs)
    (insertBin fit key val globalTs)

/-- `insert_retrain` -/
def KanvaRSModel.insertRetrain (m : KanvaRSModel K) (fit : List K → LinearRegressionModel K)
    (key : K)
    (val : Val) (globalTs : ℤ) : Option (KanvaRSModel K × Bool) :=
  m.updateAt key (insertEntry val globalTs) fun i =>
    (m.mobsLf i).insertModelOrBin fit key val globalTs

omit [LinearOrder K] [BoundedOrder K] [Zero K] in
/-- `remove` at an entry with the key. -/
def removeEntry (globalTs : ℤ) (e : VersionedKey K) : VersionedKey K × Bool :=
  if e.getValue ≠ -1 then e.insert (-1) globalTs else (e, false)

omit [Zero K] in
/-- `remove_model_or_bin` at a bin. The code for -2 is commented out. -/
def removeBin (key : K) (globalTs : ℤ) (lflb : VersionedList K) : Option (ModelOrBin K × Bool) :=
  let p := lflb.remove key globalTs
  some (.bin p.1, if p.2 = -2 then false else 0 ≤ p.2)

/-- `remove_model_or_bin` -/
def ModelOrBin.removeModelOrBin (key : K) (globalTs : ℤ) (mob : ModelOrBin K) :
    Option (ModelOrBin K × Bool) :=
  mob.update key (removeEntry globalTs) (.null, false) (removeBin key globalTs)

/-- `remove` -/
def KanvaRSModel.remove (m : KanvaRSModel K) (key : K) (globalTs : ℤ) :
    Option (KanvaRSModel K × Bool) :=
  m.updateAt key (removeEntry globalTs) fun i => (m.mobsLf i).removeModelOrBin key globalTs

/-- `find_retrain`, from a slot on. -/
def ModelOrBin.findRetrain (key : K) (val : Val) : ModelOrBin K → Option (Bool × Val)
  | .null => some (false, val)
  | .bin lflb => some (lflb.search key val, val)
  | .ai ⟨model, modelArray, mobsLf⟩ =>
    let m : KanvaRSModel K := ⟨model, modelArray, mobsLf⟩
    m.findRetrain key val fun i => (mobsLf i).findRetrain key val

namespace KanvaRSState

omit [BoundedOrder K] in
/-- The model `find_model` selects for a key. -/
def findModel (st : KanvaRSState K) (key : K) : Option (KanvaRSModel K) :=
  st.index.aimodels[st.index.modelPos key]?

omit [BoundedOrder K] in
/-- The state after a call on the selected model. -/
def setModel (st : KanvaRSState K) (key : K) (m : KanvaRSModel K) : KanvaRSState K :=
  { st with index.aimodels := st.index.aimodels.set (st.index.modelPos key) m }

/-- `insert` -/
def insert (fit : List K → LinearRegressionModel K) (st : KanvaRSState K) (key : K) (val : Val) :
    Option (KanvaRSState K × Bool) :=
  (st.findModel key).bind fun m =>
    (m.insertRetrain fit key val st.versionTracker.getLatestTimestamp).map fun p =>
      (st.setModel key p.1, p.2)

/-- `remove` -/
def remove (st : KanvaRSState K) (key : K) : Option (KanvaRSState K × Bool) :=
  (st.findModel key).bind fun m =>
    (m.remove key st.versionTracker.getLatestTimestamp).map fun p => (st.setModel key p.1, p.2)

/-- `find`: the status, and the caller's variable afterwards. -/
def find (st : KanvaRSState K) (key : K) (val : Val) : Option (Bool × Val) :=
  (st.findModel key).bind fun m => (ModelOrBin.ai m).findRetrain key val

end KanvaRSState

/-- The states that insertions and removals lead to. -/
inductive Updated (fit : List K → LinearRegressionModel K) (st₀ : KanvaRSState K) :
    KanvaRSState K → Prop
  | refl : Updated fit st₀ st₀
  | insert {st st'} {key : K} {val : Val} {ok : Bool} : Updated fit st₀ st → val ≠ -1 →
      st.insert fit key val = some (st', ok) → Updated fit st₀ st'
  | remove {st st'} {key : K} {ok : Bool} : Updated fit st₀ st →
      st.remove key = some (st', ok) → Updated fit st₀ st'

end Calls

end KanvaRS
