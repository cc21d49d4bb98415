import Kanva.RS.Model.Updates

/-!
# The search of a model with its accesses

`locate_in_levelbin` and the slot numbers of its callers with checked accesses: a position outside
an array and an `int` overflow are `none`.

The loops find a key of the array. For any other key the binary search ends with nothing found, and
the result is 0: the slot is the first or the second one, wherever the key belongs.

## Main results

* `RSModelOver.locate?_eq`: in an array of less than `2 ^ 30` entries no check fails, and the result
  is `locate`.
* `RSModelOver.slots_exact_iff`: the slot of a key that is not in the array is the right one if and
  only if the key belongs before the second entry.
-/

namespace KanvaRS

open Kanva SortedArray

namespace RSModelOver

variable {K Slot : Type} [LinearOrder K] [Zero K] (m : RSModelOver K Slot) (key : K)

/-- `locate_in_levelbin`. Each of its loops ends within as many rounds as there are entries. -/
def locateInLevelbin? (pos : ℕ) : Option ℤ :=
  let indexPos := toInt32 pos
  let upbound := toInt32 (m.capacity - 1)
  if indexPos < 0 ∨ upbound < indexPos then some (-1)
  else
    (gallopUp? m.keys key m.capacity (2 ^ 31) upbound (m.capacity + 1) indexPos 0).bind fun i =>
      let right := if upbound < i then upbound else i
      if right < 0 ∨ upbound < right then some (-1)
      else
        (gallopDown? m.keys key m.capacity (2 ^ 31) (m.capacity + 1) right 1).bind fun i =>
          let left := if i < 0 then 0 else i
          binarySearch? m.keys key m.capacity (2 ^ 31) (m.capacity + 1) left right

/-- The position that every operation computes first, as the `size_t` it is returned as. -/
def locate? : Option ℕ := (m.locateInLevelbin? key (m.predict key)).map toSize

/-- The `bin_pos` of `find_retrain` -/
def findBinPos? : Option ℤ :=
  (m.locate? key).bind fun pos =>
    (readAt? m.keys m.capacity pos).bind fun e =>
      slotIndex? m.capacity (toInt32 (if key < e then pos else toSize (pos + 1)))

/-- The `bin_pos` of `remove`, computed as in `find_retrain`. -/
def removeBinPos? : Option ℤ := m.findBinPos? key

/-- The `bin_pos` of `insert_retrain`: the position is an `int` already when the entry is read. -/
def insertBinPos? : Option ℤ :=
  (m.locate? key).bind fun pos =>
    let binPos := toInt32 pos
    (readAt? m.keys m.capacity binPos).bind fun e =>
      if key < e then slotIndex? m.capacity binPos
      else if binPos + 1 < 2 ^ 31 then slotIndex? m.capacity (binPos + 1)
      else none

/-- The number of array keys that are smaller than a key. -/
def rank : ℕ := Nat.count (fun i => m.keys i < key) m.capacity

/-- The predicted position is in range as an `int`. -/
def InRange (pos : ℕ) : Prop := 0 ≤ toInt32 pos ∧ toInt32 pos ≤ toInt32 (m.capacity - 1)

variable {m key}

theorem StrictKeys.monotone (hkeys : m.StrictKeys) :
    ∀ i j, i ≤ j → j < m.capacity → m.keys i ≤ m.keys j := by
  intro i j hij hj
  rcases Nat.lt_or_eq_of_le hij with h | rfl
  · exact (hkeys i j h hj).le
  · exact le_rfl

omit [LinearOrder K] [Zero K] in
theorem upbound_lt (hpos : 0 < m.capacity) : toInt32 (m.capacity - 1) < m.capacity := by
  have hle := toInt32_le (m.capacity - 1)
  rw [Nat.cast_sub (by omega), Nat.cast_one] at hle
  omega

/-- When the entries that the run to the right passes are far below `2 ^ 31`, no check fails. -/
theorem locateInLevelbin?_eq (key : K) {pos : ℕ} (hpos : 0 < m.capacity) (hrange : m.InRange pos)
    (hroom : ∀ j : ℤ, 0 ≤ j → j ≤ toInt32 (m.capacity - 1) → m.keys j.toNat < key →
      2 * j + 1 < 2 ^ 31) :
    ∃ r, m.locateInLevelbin? key pos = some r ∧ m.locateInLevelbin key pos = toSize r ∧
      (r = 0 ∨ readAt? m.keys m.capacity r = some key) := by
  obtain ⟨h0, hup⟩ := hrange
  have hupcap := m.upbound_lt hpos
  have hup31 := toInt32_lt (m.capacity - 1)
  rw [locateInLevelbin?, locateInLevelbin]
  generalize toInt32 pos = indexPos at *
  generalize toInt32 (m.capacity - 1) = upbound at *
  simp only
  -- the run to the right; where it ends is cut to the last index
  rw [if_neg (by omega), if_neg (by omega),
    gallopUp?_eq m.capacity hupcap h0 (by omega) (fun j hj => hroom j (by omega)) (by omega),
    Option.bind_some]
  obtain ⟨hge, -⟩ := gallopUp_spec (a := m.keys) (k := key) upbound m.capacity indexPos 0 (by omega)
  generalize gallopUp m.keys key upbound m.capacity indexPos 0 = i at *
  obtain ⟨right, hright⟩ : ∃ right, right = if upbound < i then upbound else i := ⟨_, rfl⟩
  have hbounds : 0 ≤ right ∧ right ≤ upbound := by
    rw [hright]
    split <;> omega
  -- the run to the left; where it ends is cut to 0
  rw [← hright, if_neg (by omega), if_neg (by omega),
    gallopDown?_eq m.capacity (by omega) (show right < 2 ^ 31 by omega) le_rfl (by omega)
      (by omega),
    Option.bind_some]
  obtain ⟨hle, -⟩ := gallopDown_spec (a := m.keys) (k := key) m.capacity right 1 (by omega)
  generalize gallopDown m.keys key m.capacity right 1 = j at *
  obtain ⟨left, hleft⟩ : ∃ left, left = if j < 0 then 0 else j := ⟨_, rfl⟩
  have hleft0 : 0 ≤ left ∧ left ≤ right := by
    rw [hleft]
    split <;> omega
  rw [← hleft]
  -- the binary search between the two
  have hsmall : ∀ j, left ≤ j → j ≤ right → m.keys j.toNat < key → j + 1 < (2 : ℤ) ^ 31 := by
    intro j hj hj' hlt
    have := hroom j (by omega) (by omega) hlt
    omega
  have hsearch := binarySearch?_eq m.capacity hleft0.1 (show right < m.capacity by omega) hsmall
    (by omega)
  exact ⟨_, hsearch, rfl, binarySearch?_cases hsearch⟩

/-- A predicted position that is out of range as an `int`. -/
theorem locateInLevelbin?_out {pos : ℕ} (hrange : ¬ m.InRange pos) :
    m.locateInLevelbin? key pos = some (-1) := by
  rw [locateInLevelbin?, InRange] at *
  exact if_pos (by omega)

/-- For a key that is not in the array the result is 0, unless it is -1. -/
theorem locateInLevelbin?_absent {pos : ℕ} {r : ℤ} (habsent : ∀ i < m.capacity, m.keys i ≠ key)
    (h : m.locateInLevelbin? key pos = some r) : r = 0 ∨ r = -1 := by
  rw [locateInLevelbin?] at h
  simp only at h
  split at h
  · exact .inr (Option.some.inj h).symm
  obtain ⟨i, -, h⟩ := Option.bind_eq_some_iff.mp h
  generalize (if toInt32 (m.capacity - 1) < i then toInt32 (m.capacity - 1) else i) = right at h
  split at h
  · exact .inr (Option.some.inj h).symm
  obtain ⟨j, -, h⟩ := Option.bind_eq_some_iff.mp h
  rcases binarySearch?_cases h with h | h
  · exact .inl h
  · rw [readAt?] at h
    split at h
    · exact absurd (Option.some.inj h) (habsent _ (by omega))
    · exact absurd h (by simp)

/-- In an array of less than `2 ^ 30` entries no check fails, and the result is `locate`. -/
theorem locate?_eq (hpos : 0 < m.capacity) (hsize : m.capacity < 2 ^ 30) (key : K) :
    m.locate? key = some (m.locate key) := by
  have hpred := m.predict_lt hpos (by omega) key
  have hup : toInt32 (m.capacity - 1) = m.capacity - 1 := by
    have h := toInt32_of_lt (n := m.capacity - 1) (by omega)
    rwa [Nat.cast_sub (by omega), Nat.cast_one] at h
  have hrange : m.InRange (m.predict key) := by
    rw [InRange, hup, toInt32_of_lt (by omega)]
    omega
  obtain ⟨r, hr, hloc, -⟩ := locateInLevelbin?_eq key hpos hrange fun j hj hj' _ => by
    rw [hup] at hj'
    omega
  rw [locate?, hr, Option.map_some, locate, hloc]

/-- The slot number in such an array. -/
theorem findBinPos?_eq (hkeys : m.StrictKeys) (hpos : 0 < m.capacity) (hsize : m.capacity < 2 ^ 30)
    (key : K) : m.findBinPos? key = some (m.binPos key : ℤ) := by
  obtain ⟨hlt, -⟩ := keys_lt_of_lt_locate hkeys hpos (by omega) key
  have hnext : toSize (m.locate key + 1) = m.locate key + 1 := by
    rw [toSize]
    omega
  rw [findBinPos?, locate?_eq hpos hsize, Option.bind_some, readAt?_natCast m.keys hlt,
    Option.bind_some, hnext, binPos]
  split
  · rw [toInt32_of_lt (by omega), slotIndex?_natCast hlt.le]
  · rw [toInt32_of_lt (by omega), slotIndex?_natCast hlt]

/-! ### The slot of a key that is not in the array -/

variable (m key) in
theorem rank_le : m.rank key ≤ m.capacity := Nat.count_le _

/-- The keys before the rank are the smaller ones. -/
theorem StrictKeys.lt_rank_iff (hkeys : m.StrictKeys) (key : K) {i : ℕ} (hi : i < m.capacity) :
    i < m.rank key ↔ m.keys i < key := by
  rw [rank, count_lt hkeys.monotone]
  exact lt_lowerBound_iff hkeys.monotone hi

/-- The key belongs before the second entry. -/
def BeforeSecond (m : RSModelOver K Slot) (key : K) : Prop := m.capacity = 1 ∨ key < m.keys 1

theorem beforeSecond_iff (hpos : 0 < m.capacity) (hkeys : m.StrictKeys)
    (habsent : ∀ i < m.capacity, m.keys i ≠ key) : m.BeforeSecond key ↔ m.rank key ≤ 1 := by
  have hle := m.rank_le key
  rw [BeforeSecond]
  rcases Nat.lt_or_eq_of_le (Nat.succ_le_of_lt hpos) with hlt | heq
  · have hiff := hkeys.lt_rank_iff key hlt
    constructor
    · rintro (h | h)
      · omega
      · exact not_lt.mp (mt hiff.mp h.not_gt)
    · intro h
      exact .inr (lt_of_le_of_ne (not_lt.mp (mt hiff.mpr (not_lt.mpr h))) (habsent 1 hlt).symm)
  · exact iff_of_true (.inl heq.symm) (by omega)

/-- Before the second entry no run passes another entry than the first, so no check fails. -/
theorem locate?_of_beforeSecond (hpos : 0 < m.capacity) (hkeys : m.StrictKeys)
    (habsent : ∀ i < m.capacity, m.keys i ≠ key) (hrange : m.InRange (m.predict key))
    (hbefore : m.BeforeSecond key) : m.locate? key = some 0 := by
  have hupcap := m.upbound_lt hpos
  obtain ⟨r, hr, -, hcases⟩ := locateInLevelbin?_eq key hpos hrange fun j hj hj' hlt => by
    have hrank := (beforeSecond_iff hpos hkeys habsent).mp hbefore
    have hjr := (hkeys.lt_rank_iff key (show j.toNat < m.capacity by omega)).mpr hlt
    omega
  rcases hcases with rfl | hentry
  · rw [locate?, hr]
    rfl
  · rw [readAt?] at hentry
    split at hentry
    · exact absurd (Option.some.inj hentry) (habsent _ (by omega))
    · exact absurd hentry (by simp)

/-- The slot numbers of the callers when the position is 0. -/
theorem slots_of_zero (hpos : 0 < m.capacity) (hloc : m.locate? key = some 0) :
    m.findBinPos? key = some (if key < m.keys 0 then 0 else 1) ∧
      m.insertBinPos? key = some (if key < m.keys 0 then 0 else 1) := by
  have hslot : ∀ i : ℕ, i ≤ m.capacity → slotIndex? m.capacity i = some (i : ℤ) := fun _ hi =>
    slotIndex?_natCast hi
  rw [findBinPos?, insertBinPos?, hloc, Option.bind_some, Option.bind_some]
  simp only
  rw [show toInt32 ((0 : ℕ) : ℤ) = (0 : ℕ) from rfl, readAt?_natCast m.keys hpos, Option.bind_some,
    Option.bind_some]
  split
  · exact ⟨hslot 0 (Nat.zero_le _), hslot 0 (Nat.zero_le _)⟩
  · refine ⟨hslot 1 hpos, ?_⟩
    rw [if_pos (by decide)]
    exact hslot 1 hpos

/-- The slot of a key that is not in the array is the right one, for every operation, if and only if
the key belongs before the second entry and its predicted position is in range as an `int`. An array
has fewer than `2 ^ 63` bytes. -/
theorem slots_exact_iff (hpos : 0 < m.capacity) (hcap : m.capacity < 2 ^ 63) (hkeys : m.StrictKeys)
    (habsent : ∀ i < m.capacity, m.keys i ≠ key) :
    (m.findBinPos? key = some (m.rank key : ℤ) ∧ m.insertBinPos? key = some (m.rank key : ℤ) ∧
        m.removeBinPos? key = some (m.rank key : ℤ)) ↔
      m.InRange (m.predict key) ∧ m.BeforeSecond key := by
  rw [beforeSecond_iff hpos hkeys habsent]
  constructor
  · rintro ⟨hfind, -, -⟩
    have hslot := hfind
    obtain ⟨pos, hpos', hrest⟩ := Option.bind_eq_some_iff.mp hfind
    obtain ⟨e, hentry, -⟩ := Option.bind_eq_some_iff.mp hrest
    obtain ⟨r, hr, rfl⟩ := Option.map_eq_some_iff.mp hpos'
    -- the entry is read, so the position is not -1
    have hlt : toSize r < m.capacity := by
      rw [readAt?] at hentry
      split at hentry
      · omega
      · exact absurd hentry (by simp)
    obtain rfl : r = 0 := by
      rcases locateInLevelbin?_absent habsent hr with h | rfl
      · exact h
      · exact absurd hlt (by rw [show toSize (-1) = 2 ^ 64 - 1 from rfl]; omega)
    constructor
    · by_contra hrange
      rw [locateInLevelbin?_out hrange] at hr
      exact absurd hr (by decide)
    · rw [(slots_of_zero hpos hpos').1] at hslot
      have hrank := Option.some.inj hslot
      split at hrank <;> omega
  · rintro ⟨hrange, hrank⟩
    have hbefore := (beforeSecond_iff hpos hkeys habsent).mpr hrank
    have hloc := locate?_of_beforeSecond hpos hkeys habsent hrange hbefore
    have hzero := hkeys.lt_rank_iff key hpos
    have hbin : (if key < m.keys 0 then 0 else 1 : ℤ) = m.rank key := by
      split
      · next h =>
        have := mt hzero.mp h.not_gt
        omega
      · next h =>
        have := hzero.mpr (lt_of_le_of_ne (not_lt.mp h) (habsent 0 hpos))
        omega
    obtain ⟨hfind, hinsert⟩ := slots_of_zero hpos hloc
    rw [hbin] at hfind hinsert
    exact ⟨hfind, hinsert, hfind⟩

/-- The keys 1, 3 and 5, with a prediction of 0 for every key. -/
def oddKeys : RSModelOver ℤ Unit where
  model _ := 0
  modelArray := [.new 1 10, .new 3 30, .new 5 50]
  mobsLf _ := ()

theorem oddKeys_strictKeys : oddKeys.StrictKeys := by
  have h : ∀ j < 3, ∀ i < j, oddKeys.keys i < oddKeys.keys j := by decide
  exact fun i j hij hj => h j hj i hij

/-- A key between the first two entries. -/
theorem slots_exact_between : (oddKeys.findBinPos? 2 = some (oddKeys.rank 2 : ℤ) ∧
      oddKeys.insertBinPos? 2 = some (oddKeys.rank 2 : ℤ) ∧
      oddKeys.removeBinPos? 2 = some (oddKeys.rank 2 : ℤ)) ↔
    oddKeys.InRange (oddKeys.predict 2) ∧ oddKeys.BeforeSecond 2 :=
  slots_exact_iff (by decide) (by decide) oddKeys_strictKeys (by decide)

/-- The key 4 has two smaller keys and goes to the slot between the first two. -/
theorem oddKeys_misplaced : (∀ i < oddKeys.capacity, oddKeys.keys i ≠ 4) ∧ oddKeys.StrictKeys ∧
    oddKeys.predict 4 < oddKeys.capacity ∧ oddKeys.rank 4 = 2 ∧ oddKeys.findBinPos? 4 = some 1 ∧
    oddKeys.insertBinPos? 4 = some 1 ∧ oddKeys.removeBinPos? 4 = some 1 :=
  ⟨by decide, oddKeys_strictKeys, by decide, by decide, by decide, by decide, by decide⟩

end RSModelOver

end KanvaRS
