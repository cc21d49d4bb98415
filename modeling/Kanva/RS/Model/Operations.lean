import Kanva.Common
import Kanva.ExponentialSearch

/-!
# The models of Kanva_RS

A `Kanva_RSModel` keeps its keys in an array of `VersionedArray`s, each with a chain of versions,
and has a slot before the first key, between any two, and after the last. A slot is empty, or has a
versioned list, or has the model a full list was retrained into.

`scan` walks the array and the slots from the position `locate_in_levelbin` computes. It stamps the
newest version of every key it looks at and reads the newest version that is older than its own
timestamp. The steps are those of one thread without interference; all tag bits are clear.

## Main results

* `RSModelOver.locate_keys`: a key of the array is found at its position, whatever the prediction.
* `RSModelOver.keys_lt_of_lt_locate`: where the walk starts, no smaller position has a key that is
  not less than the one searched for.
-/

namespace KanvaRS

open Kanva SortedArray

/-- A `Vnode`, without its link to the next older one. -/
structure Version where
  value : Val
  ts : ℤ
deriving DecidableEq, Repr

/-- A `VersionedArray`, or an `ll_Node` of a list: a key and its versions, the newest first. -/
structure VersionedKey (K : Type) where
  key : K
  vhead : List Version
deriving DecidableEq, Repr

/-- `Kanva_RSModel`, over the type of its slots. Its `maxErr`, `err` and `valid_flag` are left out:
nothing reads them. -/
structure RSModelOver (K Slot : Type) where
  /-- The weights of the linear model, as the prediction they make. -/
  model : K → ℕ
  modelArray : List (VersionedKey K)
  mobsLf : ℕ → Slot

/-- `Linked_List`, when one thread runs alone: the nodes between its sentinels, and `size`. -/
structure VersionedList (K : Type) where
  nodes : List (VersionedKey K)
  /-- The versions of the max sentinel; those of `head` never change. -/
  maxVhead : List Version
  size : ℕ
deriving DecidableEq, Repr

/-- A pointer to a `model_or_bin_t`. -/
inductive ModelOrBin (K : Type) where
  | null
  | bin (lflb : VersionedList K)
  | ai (ai : RSModelOver K (ModelOrBin K))

/-- `Kanva_RSModel` -/
abbrev KanvaRSModel (K : Type) := RSModelOver K (ModelOrBin K)

namespace VersionedKey

variable {K : Type}

/-- `VersionedArray::VersionedArray` -/
def new (key : K) (value : Val) : VersionedKey K := ⟨key, [⟨value, -1⟩]⟩

/-- `init_ts` on the newest version, when `globalTs` is the latest timestamp. -/
def initTs (e : VersionedKey K) (globalTs : ℤ) : VersionedKey K :=
  match e.vhead with
  | [] => e
  | v :: nextv => { e with vhead := (if v.ts = -1 then { v with ts := globalTs } else v) :: nextv }

/-- The loop of `getVersionedValue` and of `range_query` over the versions, with the value `-1` when
it runs off the chain. -/
def versionedValue (e : VersionedKey K) (currTs : ℤ) : Val :=
  match e.vhead.dropWhile fun v => currTs ≤ v.ts with
  | [] => -1
  | v :: _ => v.value

/-- `getValue` -/
def getValue (e : VersionedKey K) : Val :=
  match e.vhead with
  | [] => -1
  | v :: _ => v.value

/-- The key with its newest value. -/
def pair (e : VersionedKey K) : K × Val := (e.key, e.getValue)

@[simp] theorem initTs_key (e : VersionedKey K) (globalTs : ℤ) :
    (e.initTs globalTs).key = e.key := by
  rw [initTs]
  split <;> rfl

end VersionedKey

namespace RSModelOver

variable {K Slot : Type} [LinearOrder K] [Zero K]

omit [LinearOrder K] [Zero K] in
/-- The number of keys. -/
def capacity (m : RSModelOver K Slot) : ℕ := m.modelArray.length

omit [LinearOrder K] in
/-- `model_array[i]->key` -/
def keys (m : RSModelOver K Slot) (i : ℕ) : K := (m.modelArray.map VersionedKey.key).getD i 0

omit [LinearOrder K] [Zero K] in
/-- `predict` -/
def predict (m : RSModelOver K Slot) (key : K) : ℕ :=
  if m.model key < m.capacity then m.model key else toSize (m.capacity - 1)

/-- `locate_in_levelbin`. Each of its loops ends within as many rounds as there are entries. -/
def locateInLevelbin (m : RSModelOver K Slot) (key : K) (pos : ℕ) : ℕ :=
  let indexPos := toInt32 pos
  let upbound := toInt32 (m.capacity - 1)
  if indexPos < 0 ∨ upbound < indexPos then toSize (-1)
  else
    let i := gallopUp m.keys key upbound m.capacity indexPos 0
    let right := if upbound < i then upbound else i
    if right < 0 ∨ upbound < right then toSize (-1)
    else
      let i := gallopDown m.keys key m.capacity right 1
      let left := if i < 0 then 0 else i
      toSize (binarySearch m.keys key m.capacity left right)

/-- The position that every operation computes first. -/
def locate (m : RSModelOver K Slot) (key : K) : ℕ := m.locateInLevelbin key (m.predict key)

/-- The positions of the array: its keys strictly increase. -/
def StrictKeys (m : RSModelOver K Slot) : Prop :=
  ∀ i j, i < j → j < m.capacity → m.keys i < m.keys j

/-! ### Where the walk starts -/

variable {m : RSModelOver K Slot} {key : K}

omit [LinearOrder K] [Zero K] in
theorem predict_lt (hpos : 0 < m.capacity) (hsize : m.capacity < 2 ^ 31) (key : K) :
    m.predict key < m.capacity := by
  rw [predict, toSize]
  split <;> omega

/-- The two runs around the predicted position leave a window of the array, with the key inside if
it is there. -/
theorem locate_window (hpos : 0 < m.capacity) (hsize : m.capacity < 2 ^ 31) (key : K) :
    ∃ left right : ℤ, 0 ≤ left ∧ right < m.capacity ∧
      m.locate key = toSize (binarySearch m.keys key m.capacity left right) ∧
      ∀ i < m.capacity, m.StrictKeys → m.keys i = key → left ≤ i ∧ i ≤ right := by
  have hpred := predict_lt hpos hsize key
  have hup : toInt32 (m.capacity - 1) = m.capacity - 1 := by
    have h := toInt32_of_lt (n := m.capacity - 1) (by omega)
    rwa [Nat.cast_sub (by omega), Nat.cast_one] at h
  rw [locate, locateInLevelbin, hup, toInt32_of_lt (by omega)]
  simp only
  rw [if_neg (by omega)]
  obtain ⟨hge, hright⟩ := gallopUp_spec (a := m.keys) (k := key) (m.capacity - 1) m.capacity
    (m.predict key) 0 (by omega)
  set i := gallopUp m.keys key (m.capacity - 1) m.capacity (m.predict key) 0
  set right : ℤ := if (m.capacity - 1 : ℤ) < i then m.capacity - 1 else i with hr
  have hbounds : 0 ≤ right ∧ right ≤ m.capacity - 1 := by
    rw [hr]
    split <;> omega
  rw [if_neg (by omega)]
  obtain ⟨hle, hleft⟩ := gallopDown_spec (a := m.keys) (k := key) m.capacity right 1 (by omega)
  set j := gallopDown m.keys key m.capacity right 1
  refine ⟨if j < 0 then 0 else j, right, by split <;> omega, by omega, rfl, ?_⟩
  -- a run that has not been cut has stopped beyond the key
  rintro p hp hkeys rfl
  constructor
  · by_contra hlt
    split at hlt
    · omega
    · exact absurd (hkeys p j.toNat (by omega) (by omega)) (not_lt.mpr (hleft (by omega)))
  · by_contra hgt
    rw [hr] at hgt
    split at hgt
    · omega
    · next hi =>
      exact absurd (hkeys i.toNat p (by omega) hp) (not_lt.mpr (hright (by omega)))

/-- A key of the array is found at its own position, whatever the prediction. -/
theorem locate_keys (hkeys : m.StrictKeys) (hsize : m.capacity < 2 ^ 31) {i : ℕ}
    (hi : i < m.capacity) : m.locate (m.keys i) = i := by
  obtain ⟨left, right, hleft, hright, hloc, hwin⟩ :=
    locate_window (m := m) (by omega) hsize (m.keys i)
  obtain ⟨hli, hir⟩ := hwin i hi hkeys rfl
  rw [hloc, binarySearch_eq hkeys m.capacity hleft hli hir hright (by omega), toSize]
  omega

/-- Where the walk starts, no smaller position has a key that is not less. -/
theorem keys_lt_of_lt_locate (hkeys : m.StrictKeys) (hpos : 0 < m.capacity)
    (hsize : m.capacity < 2 ^ 31) (key : K) :
    m.locate key < m.capacity ∧ ∀ i < m.locate key, m.keys i < key := by
  obtain ⟨left, right, hleft, hright, hloc, -⟩ := locate_window hpos hsize key
  rw [hloc, toSize]
  rcases binarySearch_cases (a := m.keys) (k := key) m.capacity left right with h | ⟨hl, hr, heq⟩
  · rw [h]
    exact ⟨hpos, fun i hi => absurd hi (Nat.not_lt_zero i)⟩
  · set p := binarySearch m.keys key m.capacity left right
    have hp : (p % 2 ^ 64).toNat = p.toNat := by omega
    rw [hp]
    refine ⟨by omega, fun i hi => ?_⟩
    rw [← heq]
    exact hkeys i p.toNat hi (by omega)

end RSModelOver

/-- The variables of `scan`: the model it walks, its output and the number of keys wanted. -/
structure ScanState (K Slot : Type) where
  model : RSModelOver K Slot
  result : List (K × Val)
  remaining : ℕ

section Scan

variable {K Slot : Type} [LinearOrder K] [Zero K]

-- the start key, the latest timestamp of the tracker, and the timestamp of the query
variable (key : K) (globalTs ts : ℤ)

omit [Zero K] in
/-- The entry of the array at a position. -/
def ScanState.visitEntry (st : ScanState K Slot) (pos : ℕ) : ScanState K Slot :=
  match st.model.modelArray[pos]? with
  | none => st
  | some e =>
    if key ≤ e.key then
      let e := e.initTs globalTs
      let value := e.versionedValue ts
      let model := { st.model with modelArray := st.model.modelArray.set pos e }
      if value ≠ -1 then ⟨model, st.result ++ [(e.key, value)], st.remaining - 1⟩
      else ⟨model, st.result, st.remaining⟩
    else st

omit [LinearOrder K] [Zero K] in
/-- The slot at a position, where `scanSlot` tells what becomes of it. -/
def ScanState.visitSlot (scanSlot : ℕ → List (K × Val) → ℕ → Slot × List (K × Val) × ℕ)
    (st : ScanState K Slot) (pos : ℕ) : ScanState K Slot :=
  let (mob, result, remaining) := scanSlot pos st.result st.remaining
  ⟨{ st.model with mobsLf := Function.update st.model.mobsLf pos mob }, result, remaining⟩

omit [Zero K] in
/-- The loop of `scan`, over at most the given number of positions. No position is visited twice. -/
def scanLoop (scanSlot : ℕ → List (K × Val) → ℕ → Slot × List (K × Val) × ℕ) :
    ℕ → ℕ → ScanState K Slot → ScanState K Slot
  | 0, _, st => st
  | n + 1, pos, st =>
    if st.remaining = 0 then st
    else
      let st := st.visitEntry key globalTs ts pos
      if st.remaining = 0 then st
      else if st.model.capacity < pos + 1 then st
      else scanLoop scanSlot n (pos + 1) (st.visitSlot scanSlot (pos + 1))

/-- The walk of `scan` over the positions up to the capacity. -/
def RSModelOver.walk (scanSlot : ℕ → List (K × Val) → ℕ → Slot × List (K × Val) × ℕ)
    (m : RSModelOver K Slot) (n : ℕ) (result : List (K × Val)) : ScanState K Slot :=
  scanLoop key globalTs ts scanSlot (m.capacity + 1 - m.locate key) (m.locate key) ⟨m, result, n⟩

omit [LinearOrder K] [Zero K] in
/-- The second loop of `range_query`. -/
def rangeQueryLoop : List (VersionedKey K) → ℤ → List (K × Val) →
    List (VersionedKey K) × List (K × Val) × ℤ
  | [], remaining, result => ([], result, remaining)
  | e :: es, remaining, result =>
    if 0 < remaining then
      let e := e.initTs globalTs
      let value := e.versionedValue ts
      let (es, out) :=
        if value ≠ -1 then rangeQueryLoop es (remaining - 1) (result ++ [(e.key, value)])
        else rangeQueryLoop es remaining result
      (e :: es, out)
    else (e :: es, result, remaining)

omit [Zero K] in
/-- `range_query`. The count goes in as an `int64_t` and comes out as an `int`. -/
def rangeQuery (lflb : VersionedList K) (remaining : ℤ) (result : List (K × Val)) :
    VersionedList K × List (K × Val) × ℤ :=
  let out :=
    rangeQueryLoop globalTs ts (lflb.nodes.dropWhile fun e => e.key < key) remaining result
  ({ lflb with nodes := lflb.nodes.takeWhile (fun e => e.key < key) ++ out.1 }, out.2.1,
    toInt32 out.2.2)

/-- What `scan` does at a slot. The counts that come back are `int`s. -/
def ModelOrBin.scan : ModelOrBin K → List (K × Val) → ℕ → ModelOrBin K × List (K × Val) × ℕ
  | .null, result, remaining => (.null, result, remaining)
  | .bin lflb, result, remaining =>
    let (lflb, result, r) := rangeQuery key globalTs ts lflb (toInt64 remaining) result
    (.bin lflb, result, toSize r)
  | .ai ⟨model, modelArray, mobsLf⟩, result, remaining =>
    let m : KanvaRSModel K := ⟨model, modelArray, mobsLf⟩
    let st := m.walk key globalTs ts (fun i => (mobsLf i).scan) remaining result
    (.ai st.model, st.result, toSize (toInt32 st.remaining))

/-- `scan` -/
def KanvaRSModel.scan (m : KanvaRSModel K) (n : ℕ) (result : List (K × Val)) :
    KanvaRSModel K × List (K × Val) × ℤ :=
  let st := m.walk key globalTs ts (fun i => (m.mobsLf i).scan key globalTs ts) n result
  (st.model, st.result, toInt32 st.remaining)

end Scan

end KanvaRS
