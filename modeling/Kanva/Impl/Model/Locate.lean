import Kanva.Common
import Kanva.SortedArray

/-!
# The search of a model

A `KanvaModel` keeps the keys it was trained on in an array, with a slot before the first key,
between any two, and after the last. A key is looked up in a window of the array around the position
the linear model predicts for it.

`locate` is this search on whole numbers, which says what is found. `locate?` has the integer types
of the source and checked accesses: a failed assertion, a position outside an array and an `int`
overflow are `none`. The right end of the window is the sum of a position and `maxErr`, two
`size_t`s. When the sum wraps around, the window ends before it begins and the assertion fails. The
slot number is an `int`.

## Main results

* `ModelOver.locate_keys`: a key of the array is found at its position when the prediction is as
  good as the recorded error says.
* `ModelOver.locate?_of_fits`: without a wrap the search makes no bad access, and its result is
  `locate`.
* `ModelOver.findPos?_of_fits`: where the search of a model ends.
* `BoundedModel.search_exact_iff`: the search is exact unless the sum wraps around or the slot
  number does not fit.
-/

namespace KanvaImpl

open Kanva SortedArray

/-- `KanvaModel`, over the type of its slots. Its `err` and `valid_flag` are left out: nothing reads
them. -/
structure ModelOver (K Slot : Type) where
  /-- The weights of the linear model, as the prediction they make. -/
  model : K → ℕ
  maxErr : ℕ
  capacity : ℕ
  keys : ℕ → K
  vals : ℕ → Val
  mobsLf : ℕ → Slot

namespace ModelOver

variable {K Slot : Type} [LinearOrder K]

/-- `predict` -/
def predict (m : ModelOver K Slot) (key : K) : ℕ :=
  if m.model key < m.capacity then m.model key else m.capacity - 1

/-- The window of `locate_in_levelbin` around a position, as whole numbers: no sum wraps around. -/
def window (m : ModelOver K Slot) (key : K) (pos : ℕ) : ℕ × ℕ :=
  let upbound := m.capacity - 1
  if m.keys pos < key then
    let lo := if pos + 1 < upbound then pos + 1 else upbound
    (lo, if lo + m.maxErr < upbound then lo + m.maxErr else upbound)
  else (if pos > m.maxErr then pos - m.maxErr else 0, pos)

/-- The search of this window. The loop ends within as many rounds as the window has entries. -/
def locateInLevelbin (m : ModelOver K Slot) (key : K) (pos : ℕ) : ℕ :=
  lastLe m.keys key ((m.window key pos).2 - (m.window key pos).1) (m.window key pos).1
    (m.window key pos).2

/-- The position at which the search on whole numbers ends. -/
def locate (m : ModelOver K Slot) (key : K) : ℕ := m.locateInLevelbin key (m.predict key)

/-- The slot next to that position, for a key that is not the one of its entry. -/
def binPos (m : ModelOver K Slot) (key : K) : ℕ :=
  if key < m.keys (m.locate key) then m.locate key else m.locate key + 1

/-- Write a slot. -/
def setMob (m : ModelOver K Slot) (i : ℕ) (mob : Slot) : ModelOver K Slot :=
  { m with mobsLf := Function.update m.mobsLf i mob }

/-- Write a value. -/
def setVal (m : ModelOver K Slot) (i : ℕ) (val : Val) : ModelOver K Slot :=
  { m with vals := Function.update m.vals i val }

/-- The positions of the array: its keys strictly increase. -/
def StrictKeys (m : ModelOver K Slot) : Prop :=
  ∀ i j, i < j → j < m.capacity → m.keys i < m.keys j

/-- The prediction for the key at every position is as good as the recorded error says. -/
def WithinError (m : ModelOver K Slot) : Prop :=
  ∀ i < m.capacity, m.predict (m.keys i) ≤ i + m.maxErr ∧ i ≤ m.predict (m.keys i) + m.maxErr

theorem StrictKeys.monotone {m : ModelOver K Slot} (hkeys : m.StrictKeys) :
    ∀ i j, i ≤ j → j < m.capacity → m.keys i ≤ m.keys j := by
  intro i j hij hj
  rcases Nat.lt_or_eq_of_le hij with h | rfl
  · exact (hkeys i j h hj).le
  · exact le_rfl

/-- The keys of the array are ordered as their positions. -/
theorem StrictKeys.lt_iff {m : ModelOver K Slot} (hkeys : m.StrictKeys) {i j : ℕ}
    (hi : i < m.capacity) (hj : j < m.capacity) : m.keys i < m.keys j ↔ i < j := by
  refine ⟨fun hlt => ?_, fun hij => hkeys i j hij hj⟩
  by_contra hge
  exact absurd (hkeys.monotone j i (not_lt.mp hge) hi) hlt.not_ge

omit [LinearOrder K] in
theorem predict_lt (m : ModelOver K Slot) (hpos : 0 < m.capacity) (key : K) :
    m.predict key < m.capacity := by
  rw [predict]
  split <;> omega

/-- The assertion of `locate_in_levelbin`, and the bounds of its accesses. -/
theorem window_le (m : ModelOver K Slot) (key : K) {pos : ℕ} (hpos : pos < m.capacity) :
    (m.window key pos).1 ≤ (m.window key pos).2 ∧ (m.window key pos).2 < m.capacity := by
  simp only [window]
  split_ifs <;> omega

/-- A position is in the array, whatever its keys are. -/
theorem locate_lt_capacity (m : ModelOver K Slot) (hpos : 0 < m.capacity) (key : K) :
    m.locate key < m.capacity := by
  obtain ⟨hle, hlt⟩ := m.window_le key (m.predict_lt hpos key)
  exact (lastLe_le _ _ _ hle).trans_lt hlt

/-- A key of the array is found at its own position. -/
theorem locate_keys (m : ModelOver K Slot) (hkeys : m.StrictKeys) (herr : m.WithinError) {i : ℕ}
    (hi : i < m.capacity) : m.locate (m.keys i) = i := by
  have hpred := m.predict_lt (by omega) (m.keys i)
  obtain ⟨hhi, hlo⟩ := herr i hi
  obtain ⟨hle, hlt⟩ := m.window_le (m.keys i) hpred
  refine lastLe_eq hkeys ?_ ?_ hlt le_rfl <;> simp only [window]
  -- the window extends from the predicted position towards the key
  all_goals
    by_cases hkey : m.keys (m.predict (m.keys i)) < m.keys i
    · have hpi : m.predict (m.keys i) < i := (hkeys.lt_iff hpred hi).mp hkey
      rw [if_pos hkey]
      simp only
      split_ifs <;> omega
    · have hip : i ≤ m.predict (m.keys i) := not_lt.mp (mt (hkeys.lt_iff hpred hi).mpr hkey)
      rw [if_neg hkey]
      simp only
      first | exact hip | (split_ifs <;> omega)

end ModelOver

/-- Where the search of a model ends: at the entry of the key, or at the slot it goes to. -/
inductive ModelPos where
  | entry (pos : ℕ)
  | slot (i : ℕ)
deriving DecidableEq, Repr

namespace ModelOver

variable {K Slot : Type} [LinearOrder K] (m : ModelOver K Slot) (key : K)

/-- The window of `locate_in_levelbin`, on `size_t`. -/
def sizeWindow (pos : ℕ) : ℕ × ℕ :=
  let upbound := toSize (m.capacity - 1)
  if m.keys pos < key then
    let lo := if toSize (pos + 1) < upbound then toSize (pos + 1) else upbound
    (lo, if toSize (lo + m.maxErr) < upbound then toSize (lo + m.maxErr) else upbound)
  else (if pos > m.maxErr then toSize (pos - m.maxErr) else 0, pos)

/-- The loop of `locate_in_levelbin`, of at most the given number of rounds. -/
def locateLoop : ℕ → ℕ → ℕ → Option ℕ
  | 0, lo, hi => if lo = hi then some lo else none
  | n + 1, lo, hi =>
    if lo = hi then some lo
    else
      let mid := toSize (hi + lo + 2) / 2
      (readAt? m.keys m.capacity mid).bind fun e =>
        if e ≤ key then locateLoop n mid hi else locateLoop n lo (toSize (mid - 1))

/-- `locate_in_levelbin`, with as many rounds as the array has entries. -/
def locateInLevelbin? (pos : ℕ) : Option ℕ :=
  (readAt? m.keys m.capacity pos).bind fun _ =>
    let window := m.sizeWindow key pos
    if window.1 ≤ window.2 then m.locateLoop key m.capacity window.1 window.2 else none

/-- The position `find_retrain`, `insert_retrain` and `remove` compute for a key. -/
def locate? : Option ℕ := m.locateInLevelbin? key (m.predict key)

/-- The `bin_pos` of `find_retrain` -/
def findBinPos? : Option ℤ :=
  (m.locate? key).bind fun pos =>
    (readAt? m.keys m.capacity pos).bind fun e =>
      slotIndex? m.capacity (toInt32 (if key < e then pos else toSize (pos + 1)))

/-- The `bin_pos` of `remove`, computed as in `find_retrain`. -/
def removeBinPos? : Option ℤ := m.findBinPos? key

/-- The `bin_pos` of `insert_retrain`: the position is an `int` already when the entry is read. -/
def insertBinPos? : Option ℤ :=
  (m.locate? key).bind fun pos =>
    let binPos := toInt32 pos
    (readAt? m.keys m.capacity binPos).bind fun e =>
      if key < e then slotIndex? m.capacity binPos
      else if binPos + 1 < 2 ^ 31 then slotIndex? m.capacity (binPos + 1)
      else none

/-- The entry of the key, or else the slot with this number. -/
def posOr? (binPos : Option ℤ) : Option ModelPos :=
  (m.locate? key).bind fun pos =>
    (readAt? m.keys m.capacity pos).bind fun e =>
      if key = e then some (.entry pos) else binPos.map fun i => .slot i.toNat

/-- The search of `find_retrain` -/
def findPos? : Option ModelPos := m.posOr? key (m.findBinPos? key)

/-- The search of `insert_retrain` -/
def insertPos? : Option ModelPos := m.posOr? key (m.insertBinPos? key)

/-- The search of `remove` -/
def removePos? : Option ModelPos := m.posOr? key (m.removeBinPos? key)

/-- The number of array keys that are smaller than a key. -/
def rank : ℕ := Nat.count (fun i => m.keys i < key) m.capacity

/-- The sum of a position and `maxErr` in the search for a key fits in a `size_t`, if it is
computed: the keys behind the predicted position are searched only when its key is smaller. -/
def SumFits : Prop :=
  m.keys (m.predict key) < key → min (m.predict key + 1) (m.capacity - 1) + m.maxErr < 2 ^ 64

/-! ### What the search depends on -/

section SameArray

variable {Slot' : Type} {m' : ModelOver K Slot'}

/-- The two models have the same keys, and predict and search in the same way. -/
structure SameArray (m : ModelOver K Slot) (m' : ModelOver K Slot') : Prop where
  model : m'.model = m.model
  maxErr : m'.maxErr = m.maxErr
  capacity : m'.capacity = m.capacity
  keys : m'.keys = m.keys

variable {m key}

theorem SameArray.locateLoop_eq (h : m.SameArray m') (n lo hi : ℕ) :
    m'.locateLoop key n lo hi = m.locateLoop key n lo hi := by
  induction n generalizing lo hi with
  | zero => rfl
  | succ n ih => simp only [locateLoop, h.keys, h.capacity, ih]

theorem SameArray.locate?_eq (h : m.SameArray m') : m'.locate? key = m.locate? key := by
  have hpred : m'.predict key = m.predict key := by
    rw [predict, predict, h.model, h.capacity]
  have hwindow : ∀ pos, m'.sizeWindow key pos = m.sizeWindow key pos := by
    intro pos
    rw [sizeWindow, sizeWindow, h.maxErr, h.capacity, h.keys]
  rw [locate?, locate?, hpred, locateInLevelbin?, locateInLevelbin?, h.keys, h.capacity, hwindow]
  simp only [h.locateLoop_eq]

theorem SameArray.findPos?_eq (h : m.SameArray m') : m'.findPos? key = m.findPos? key := by
  simp only [findPos?, posOr?, findBinPos?, h.locate?_eq, h.capacity, h.keys]

theorem SameArray.insertPos?_eq (h : m.SameArray m') : m'.insertPos? key = m.insertPos? key := by
  simp only [insertPos?, posOr?, insertBinPos?, h.locate?_eq, h.capacity, h.keys]

omit [LinearOrder K] in
/-- Writing a slot leaves the array alone. -/
theorem sameArray_setMob (m : ModelOver K Slot) (i : ℕ) (mob : Slot) :
    m.SameArray (m.setMob i mob) := ⟨rfl, rfl, rfl, rfl⟩

omit [LinearOrder K] in
/-- Writing a value leaves the keys alone. -/
theorem sameArray_setVal (m : ModelOver K Slot) (i : ℕ) (val : Val) :
    m.SameArray (m.setVal i val) := ⟨rfl, rfl, rfl, rfl⟩

end SameArray

/-! ### The search without a wrap -/

variable {m key}

/-- The loop is the search for the last entry not greater than the key, with all its accesses inside
the array. An array has fewer than `2 ^ 63` bytes, so the sum of two positions does not wrap. -/
theorem locateLoop_eq (hcap : m.capacity < 2 ^ 63) {n lo hi : ℕ} (hle : lo ≤ hi)
    (hhi : hi < m.capacity) (hn : hi - lo ≤ n) :
    m.locateLoop key n lo hi = some (lastLe m.keys key n lo hi) := by
  induction n generalizing lo hi with
  | zero => exact if_pos (by omega)
  | succ n ih =>
    rw [locateLoop, lastLe]
    split
    · rfl
    next hne =>
    obtain ⟨mid, hmid⟩ : ∃ mid, mid = (hi + lo + 2) / 2 := ⟨_, rfl⟩
    have hsum : toSize (hi + lo + 2) / 2 = mid := by
      rw [toSize]
      omega
    have hpred : toSize (mid - 1) = mid - 1 := by
      rw [toSize]
      omega
    simp only [hsum, ← hmid, readAt?_natCast m.keys (show mid < m.capacity by omega), hpred,
      Option.bind_some]
    split
    · exact ih (by omega) hhi (by omega)
    · exact ih (by omega) (by omega) (by omega)

/-- The rounds of the loop need not be more than the window has entries. -/
theorem lastLe_rounds {a : ℕ → K} {n n' lo hi : ℕ} (hle : lo ≤ hi) (hn : hi - lo ≤ n)
    (hn' : hi - lo ≤ n') : lastLe a key n lo hi = lastLe a key n' lo hi := by
  induction n generalizing n' lo hi with
  | zero =>
    have heq : lo = hi := by omega
    cases n' <;> simp [lastLe, heq]
  | succ n ih =>
    rcases Nat.lt_or_eq_of_le hle with hlt | rfl
    · obtain ⟨n', rfl⟩ : ∃ k, n' = k + 1 := ⟨n' - 1, by omega⟩
      rw [lastLe, lastLe, if_neg hlt.ne, if_neg hlt.ne]
      simp only
      split
      · exact ih (by omega) (by omega) (by omega)
      · exact ih (by omega) (by omega) (by omega)
    · cases n' <;> simp [lastLe]

/-- Without a wrap the window is the one of `locate`. -/
theorem sizeWindow_eq (hcap : m.capacity < 2 ^ 63) (hpos : 0 < m.capacity) (hfits : m.SumFits key) :
    m.sizeWindow key (m.predict key) = m.window key (m.predict key) := by
  have hpred := m.predict_lt hpos key
  have hup : toSize (m.capacity - 1) = m.capacity - 1 := by
    rw [toSize]
    omega
  have hnext : toSize (m.predict key + 1) = m.predict key + 1 := by
    rw [toSize]
    omega
  have hdiff : m.predict key > m.maxErr → toSize (m.predict key - m.maxErr) =
      m.predict key - m.maxErr := by
    rw [toSize]
    omega
  -- the window goes up from the prediction, where the sum is computed, or down from it
  rw [sizeWindow, window, hup, hnext]
  simp only
  split
  · next hlt =>
    have hsum := hfits hlt
    rw [min_def] at hsum
    have hlo : ∀ lo : ℕ, lo + m.maxErr < 2 ^ 64 → toSize (lo + m.maxErr) = lo + m.maxErr := by
      intro lo h
      rw [toSize]
      omega
    rw [hlo]
    split_ifs at hsum ⊢ <;> omega
  · split
    · next hgt => rw [hdiff hgt]
    · rfl

/-- When the sum wraps around, the window ends before it begins. -/
theorem sizeWindow_lt (hcap : m.capacity < 2 ^ 63) (hpos : 0 < m.capacity)
    (hmax : m.maxErr < 2 ^ 64) (hwrap : ¬ m.SumFits key) :
    (m.sizeWindow key (m.predict key)).2 < (m.sizeWindow key (m.predict key)).1 := by
  obtain ⟨hlt, hsum⟩ := Classical.not_imp.mp hwrap
  have hpred := m.predict_lt hpos key
  have hup : toSize (m.capacity - 1) = m.capacity - 1 := by
    rw [toSize]
    omega
  have hnext : toSize (m.predict key + 1) = m.predict key + 1 := by
    rw [toSize]
    omega
  rw [sizeWindow, hup, hnext]
  simp only
  rw [if_pos hlt]
  obtain ⟨lo, hlo⟩ : ∃ lo, lo = if m.predict key + 1 < m.capacity - 1 then m.predict key + 1
      else m.capacity - 1 := ⟨_, rfl⟩
  have hmin : min (m.predict key + 1) (m.capacity - 1) = lo := by
    rw [hlo]
    split <;> omega
  have hle : lo ≤ m.capacity - 1 := by omega
  rw [hmin] at hsum
  have hsize : toSize (lo + m.maxErr) < lo := by
    rw [toSize]
    omega
  rw [← hlo, if_pos (by omega)]
  exact hsize

/-- Without a wrap the search makes no bad access, its assertion holds and its loop ends. -/
theorem locate?_of_fits (hcap : m.capacity < 2 ^ 63) (hpos : 0 < m.capacity)
    (hfits : m.SumFits key) : m.locate? key = some (m.locate key) := by
  have hpred := m.predict_lt hpos key
  obtain ⟨hle, hlt⟩ := m.window_le key hpred
  rw [locate?, locateInLevelbin?, readAt?_natCast m.keys hpred, Option.bind_some]
  simp only
  rw [sizeWindow_eq hcap hpos hfits, if_pos hle, locateLoop_eq hcap hle hlt (by omega), locate,
    locateInLevelbin, lastLe_rounds hle (by omega) le_rfl]

/-- With a wrap the assertion fails. -/
theorem locate?_of_wrap (hcap : m.capacity < 2 ^ 63) (hpos : 0 < m.capacity)
    (hmax : m.maxErr < 2 ^ 64) (hwrap : ¬ m.SumFits key) : m.locate? key = none := by
  rw [locate?, locateInLevelbin?, readAt?_natCast m.keys (m.predict_lt hpos key), Option.bind_some]
  exact if_neg (not_le.mpr (sizeWindow_lt hcap hpos hmax hwrap))

/-! ### Where the search ends -/

/-- The slot numbers are the position among the slots, if it is an `int`. -/
theorem slots_of_fits (hcap : m.capacity < 2 ^ 63) (hpos : 0 < m.capacity) (hfits : m.SumFits key)
    (hint : m.binPos key < 2 ^ 31) : m.findBinPos? key = some (m.binPos key : ℤ) ∧
      m.insertBinPos? key = some (m.binPos key : ℤ) := by
  have hloc := locate?_of_fits hcap hpos hfits
  have hlt := m.locate_lt_capacity hpos key
  have hsize : toSize (m.locate key + 1) = m.locate key + 1 := by
    rw [toSize]
    omega
  -- the position itself is at most the slot number
  have hint' : m.locate key < 2 ^ 31 := by
    rw [binPos] at hint
    split at hint
    · exact hint
    · exact (Nat.lt_succ_self _).trans hint
  rw [findBinPos?, insertBinPos?, hloc, Option.bind_some, Option.bind_some]
  simp only
  rw [toInt32_of_lt hint', readAt?_natCast m.keys hlt, Option.bind_some, Option.bind_some, hsize]
  rw [binPos] at hint ⊢
  -- the slot in front of the entry, or the one behind it
  by_cases hk : key < m.keys (m.locate key)
  · rw [if_pos hk, if_pos hk, if_pos hk, toInt32_of_lt hint', slotIndex?_natCast hlt.le]
    exact ⟨rfl, rfl⟩
  · rw [if_neg hk] at hint
    rw [if_neg hk, if_neg hk, if_neg hk, toInt32_of_lt hint, ← Nat.cast_succ,
      slotIndex?_natCast hlt]
    exact ⟨rfl, if_pos (by exact_mod_cast hint)⟩

/-- A search that ends at an entry has found the key there. -/
theorem keys_of_posOr? {binPos : Option ℤ} {pos : ℕ}
    (h : m.posOr? key binPos = some (.entry pos)) : pos < m.capacity ∧ m.keys pos = key := by
  obtain ⟨pos', -, h⟩ := Option.bind_eq_some_iff.mp h
  obtain ⟨e, he, h⟩ := Option.bind_eq_some_iff.mp h
  split at h
  · next hkey =>
    obtain rfl := ModelPos.entry.inj (Option.some.inj h)
    obtain ⟨hlt, he⟩ := lt_of_readAt? he
    exact ⟨hlt, he.trans hkey.symm⟩
  · obtain ⟨i, -, heq⟩ := Option.map_eq_some_iff.mp h
    cases heq

/-- The entry of the key does not depend on the slot number. -/
theorem posOr?_entry {binPos binPos' : Option ℤ} {pos : ℕ}
    (h : m.posOr? key binPos = some (.entry pos)) : m.posOr? key binPos' = some (.entry pos) := by
  obtain ⟨pos', hpos, h⟩ := Option.bind_eq_some_iff.mp h
  obtain ⟨e, he, h⟩ := Option.bind_eq_some_iff.mp h
  refine Option.bind_eq_some_iff.mpr ⟨pos', hpos, Option.bind_eq_some_iff.mpr ⟨e, he, ?_⟩⟩
  split at h
  · next hkey => rw [if_pos hkey, h]
  · obtain ⟨i, -, heq⟩ := Option.map_eq_some_iff.mp h
    cases heq

/-- The search of `insert_retrain` ends where the one of `find_retrain` does, in an array whose
positions are `int`s. -/
theorem insertPos?_eq (hcap : m.capacity + 1 < 2 ^ 31) : m.insertPos? key = m.findPos? key := by
  rw [insertPos?, findPos?, posOr?, posOr?]
  refine Option.bind_congr fun pos hpos => Option.bind_congr fun e he => ?_
  obtain ⟨hlt, -⟩ := lt_of_readAt? he
  have hint : toInt32 pos = pos := toInt32_of_lt (by omega)
  have hnext : toInt32 (toSize (pos + 1)) = pos + 1 := by
    have hsize : toSize (pos + 1) = (pos + 1 : ℕ) := by
      rw [toSize]
      omega
    rw [hsize, toInt32_of_lt (by omega), Nat.cast_succ]
  have hslot : m.insertBinPos? key = m.findBinPos? key := by
    rw [insertBinPos?, findBinPos?, hpos, Option.bind_some, Option.bind_some]
    simp only [hint, he, Option.bind_some]
    split
    · rw [hint]
    · rw [if_pos (by omega), hnext]
  rw [hslot]

/-- Where the search ends in an array whose positions are `int`s. -/
theorem findPos?_of_fits (hcap : m.capacity + 1 < 2 ^ 31) (hpos : 0 < m.capacity)
    (hfits : m.SumFits key) : m.findPos? key =
      some (if key = m.keys (m.locate key) then .entry (m.locate key)
        else .slot (m.binPos key)) := by
  have hlt := m.locate_lt_capacity hpos key
  have hslot : m.binPos key ≤ m.capacity := by
    rw [binPos]
    split <;> omega
  obtain ⟨hfind, -⟩ := slots_of_fits (by omega) hpos hfits (by omega)
  rw [findPos?, posOr?, locate?_of_fits (by omega) hpos hfits, Option.bind_some,
    readAt?_natCast m.keys hlt, Option.bind_some, hfind, Option.map_some, Int.toNat_natCast]
  split <;> rfl

/-- The search of `find_retrain` ends unless the sum wraps around. -/
theorem findPos?_isSome_iff (hcap : m.capacity + 1 < 2 ^ 31) (hpos : 0 < m.capacity)
    (hmax : m.maxErr < 2 ^ 64) : (m.findPos? key).isSome ↔ m.SumFits key := by
  by_cases hfits : m.SumFits key
  · simp [findPos?_of_fits hcap hpos hfits, hfits]
  · simp [findPos?, posOr?, locate?_of_wrap (by omega) hpos hmax hfits, hfits]

/-! ### The slot of a key that is not in the array -/

variable (m key) in
theorem rank_le : m.rank key ≤ m.capacity := Nat.count_le _

/-- The keys before the rank are the smaller ones. -/
theorem StrictKeys.lt_rank_iff (hkeys : m.StrictKeys) {i : ℕ} (hi : i < m.capacity) :
    i < m.rank key ↔ m.keys i < key := by
  rw [rank, count_lt hkeys.monotone]
  exact lt_lowerBound_iff hkeys.monotone hi

/-- With a monotone prediction, the window around the prediction for a key that is not in the array
has the insertion point in reach: the error bounds of its two neighbours say so. -/
theorem binPos_eq_rank (hpos : 0 < m.capacity) (hkeys : m.StrictKeys) (herr : m.WithinError)
    (hpredict : Monotone m.predict) (habsent : ∀ i < m.capacity, m.keys i ≠ key) :
    m.binPos key = m.rank key := by
  have hpred := m.predict_lt hpos key
  obtain ⟨hle, hlt⟩ := m.window_le key hpred
  have hrank := m.rank_le key
  have hbelow : ∀ j < m.rank key, m.keys j < key := fun j hj =>
    (hkeys.lt_rank_iff (by omega)).mp hj
  have habove : ∀ j, m.rank key ≤ j → j < m.capacity → key < m.keys j := by
    intro j hj hjn
    have hge : ¬ m.keys j < key := fun h => absurd ((hkeys.lt_rank_iff hjn).mpr h) (not_lt.mpr hj)
    exact lt_of_le_of_ne (not_lt.mp hge) (habsent j hjn).symm
  have hreach : (m.window key (m.predict key)).1 ≤ m.rank key ∧
      m.rank key ≤ (m.window key (m.predict key)).2 + 1 := by
    rw [window]
    simp only
    split
    · next hsmall =>
      -- the predecessor has a prediction that is not larger
      have hp := (hkeys.lt_rank_iff hpred).mpr hsmall
      have hneighbour := hpredict (hbelow (m.rank key - 1) (by omega)).le
      obtain ⟨-, hbound⟩ := herr (m.rank key - 1) (by omega)
      simp only
      split_ifs <;> omega
    · next hlarge =>
      -- the successor has a prediction that is not smaller
      have hp := mt (hkeys.lt_rank_iff hpred).mp hlarge
      have hneighbour := hpredict (habove (m.rank key) le_rfl (by omega)).le
      obtain ⟨hbound, -⟩ := herr (m.rank key) (by omega)
      simp only
      split_ifs <;> omega
  exact lastLe_rank hkeys.monotone hbelow habove hle hlt hreach.1 hreach.2 le_rfl

end ModelOver

/-- A model with strictly increasing keys and an error bound that holds for each of them. -/
structure BoundedModel (K Slot : Type) [LinearOrder K] extends ModelOver K Slot where
  capacity_pos : 0 < capacity
  /-- An array has fewer than `2 ^ 63` bytes. -/
  capacity_lt : capacity < 2 ^ 63
  /-- A `size_t`. -/
  maxErr_lt : maxErr < 2 ^ 64
  strictKeys : toModelOver.StrictKeys
  withinError : toModelOver.WithinError

namespace BoundedModel

variable {K Slot : Type} [LinearOrder K] (m : BoundedModel K Slot) {key : K}

/-- The search gives a position when the sum fits. -/
theorem locate?_isSome_iff : (m.locate? key).isSome ↔ m.SumFits key := by
  by_cases hfits : m.SumFits key
  · simp [ModelOver.locate?_of_fits m.capacity_lt m.capacity_pos hfits, hfits]
  · simp [ModelOver.locate?_of_wrap m.capacity_lt m.capacity_pos m.maxErr_lt hfits, hfits]

/-- The slot numbers are the position among the slots, if it is an `int`. -/
theorem slots_of_fits (hfits : m.SumFits key) (hint : m.binPos key < 2 ^ 31) :
    m.findBinPos? key = some (m.binPos key : ℤ) ∧
      m.insertBinPos? key = some (m.binPos key : ℤ) :=
  ModelOver.slots_of_fits m.capacity_lt m.capacity_pos hfits hint

/-- The search is exact if and only if the sum it computes does not wrap around. The slot number of
a key between the keys of the array, or beside them, is right if and only if it is an `int`, too. -/
theorem search_exact_iff :
    (∀ i < m.capacity, m.locate? (m.keys i) = some i ↔ m.SumFits (m.keys i)) ∧
    (Monotone m.predict → ∀ key, (∀ i < m.capacity, m.keys i ≠ key) →
      (m.findBinPos? key = some (m.rank key : ℤ) ∧ m.insertBinPos? key = some (m.rank key : ℤ) ∧
          m.removeBinPos? key = some (m.rank key : ℤ) ↔
        m.SumFits key ∧ m.rank key < 2 ^ 31)) := by
  constructor
  · intro i hi
    constructor
    · intro h
      exact m.locate?_isSome_iff.mp (Option.isSome_of_eq_some h)
    · intro hfits
      rw [ModelOver.locate?_of_fits m.capacity_lt m.capacity_pos hfits,
        m.locate_keys m.strictKeys m.withinError hi]
  · intro hpredict key habsent
    have hrank := ModelOver.binPos_eq_rank m.capacity_pos m.strictKeys m.withinError hpredict
        habsent
    constructor
    · rintro ⟨hfind, -, -⟩
      obtain ⟨pos, hpos, hslot⟩ := Option.bind_eq_some_iff.mp hfind
      obtain ⟨e, -, hindex⟩ := Option.bind_eq_some_iff.mp hslot
      refine ⟨m.locate?_isSome_iff.mp (Option.isSome_of_eq_some hpos), ?_⟩
      -- the slot number is an `int`
      have hint := toInt32_lt (if key < e then pos else toSize (pos + 1))
      rw [← slotIndex?_eq_some hindex] at hint
      exact Int.ofNat_lt.mp hint
    · rintro ⟨hfits, hint⟩
      rw [← hrank] at hint
      obtain ⟨hfind, hinsert⟩ := m.slots_of_fits hfits hint
      rw [← hrank]
      exact ⟨hfind, hinsert, hfind⟩

/-- The array 1, 2, 3 with a prediction of 0 for every key, and the largest error bound. -/
def wide : BoundedModel ℤ Unit where
  model _ := 0
  maxErr := 2 ^ 64 - 1
  capacity := 3
  keys i := i + 1
  vals _ := 0
  mobsLf _ := ()
  capacity_pos := by decide
  capacity_lt := by decide
  maxErr_lt := by decide
  strictKeys i j hij _ := add_lt_add_left (Int.ofNat_lt.mpr hij) 1
  withinError i hi :=
    have hi : i < 3 := hi
    ⟨Nat.zero_le _, (hi.le.trans (by decide)).trans (Nat.le_add_left _ _)⟩

/-- With the largest error bound the search for the key at position 1 fails its assertion. -/
theorem wide_locate_fails : wide.keys 1 = 2 ∧ wide.locate? (wide.keys 1) = none := by
  decide

end BoundedModel

end KanvaImpl
