import Kanva.Impl.Model.Training
import Kanva.Util

/-!
# The segment of a key

`find_model` searches the last keys of the segments with `binary_search_branchless`, as far as they
count in an `int`, and turns the result into a `size_t`. A position behind the last model becomes
the one of the last model.

## Main results

* `KanvaIndex.findModel?_eq`: the checked `find_model` makes good accesses only, and its result is
  `findModel`.
* `KanvaIndex.segment_search_exact`: the search is the lower bound, and `find_model` picks the first
  segment whose last key is not less than the key.
-/

namespace KanvaImpl

open Kanva SortedArray

namespace KanvaIndex

variable {K : Type} [LinearOrder K] [Zero K]

/-- `find_model`, as a position in `aimodels`, with the integer types of the source and checked
accesses. -/
def findModel? (kv : KanvaIndex K) (fuel : ℕ) (key : K) : Option ℕ :=
  (Util.binarySearchBranchless? (fun i => kv.modelKeys.getD i 0) kv.modelKeys.length fuel
    (toInt32 kv.modelKeys.length) key).bind fun pos =>
      let modelPos := toSize pos
      let modelPos :=
        if kv.aimodels.length ≤ modelPos then toSize (kv.aimodels.length - 1) else modelPos
      if modelPos < kv.aimodels.length then some modelPos else none

/-- What `find_model` relies on. The number of models is asserted by `train`. -/
structure Searchable (kv : KanvaIndex K) : Prop where
  sorted : kv.modelKeys.Pairwise (· ≤ ·)
  length_lt : kv.modelKeys.length < 2 ^ 31
  length_eq : kv.aimodels.length = kv.modelKeys.length
  ne_nil : kv.aimodels ≠ []

variable {kv : KanvaIndex K}

/-- The last keys of the segments as an array. -/
theorem Searchable.mono (h : kv.Searchable) : ∀ i j, i ≤ j → j < kv.modelKeys.length →
    kv.modelKeys.getD i 0 ≤ kv.modelKeys.getD j 0 := by
  intro i j hij hj
  rcases Nat.lt_or_eq_of_le hij with hlt | rfl
  · have hle := List.pairwise_iff_getElem.mp h.sorted i j (hlt.trans hj) hj hlt
    simpa [List.getD, hlt.trans hj, hj] using hle
  · exact le_rfl

/-- The search for a segment ends at the lower bound, or at the last segment. -/
theorem Searchable.findModel_eq (h : kv.Searchable) (key : K) : kv.findModel key =
    min (lowerBound (fun i => kv.modelKeys.getD i 0) key kv.modelKeys.length)
      (kv.aimodels.length - 1) := by
  have hlen := h.length_eq
  have hpos := List.length_pos_iff.mpr h.ne_nil
  rw [findModel, toInt32_of_lt h.length_lt, binarySearchBranchless_eq h.mono, Int.toNat_natCast]
  split <;> omega

/-- The checked `find_model` has a result, and it is the one of `findModel`. -/
theorem findModel?_eq (h : kv.Searchable) {fuel : ℕ} (hfuel : 31 ≤ fuel) (key : K) :
    kv.findModel? fuel key = some (kv.findModel key) := by
  have hlen := h.length_eq
  have hlt := h.length_lt
  have hpos := List.length_pos_iff.mpr h.ne_nil
  have hle := lowerBound_le (fun i => kv.modelKeys.getD i 0) key kv.modelKeys.length
  rw [h.findModel_eq, findModel?, toInt32_of_lt hlt,
    Util.binarySearchBranchless?_spec hlt h.mono hfuel, Option.bind_some]
  obtain ⟨pos, hp⟩ : ∃ pos, pos =
      lowerBound (fun i => kv.modelKeys.getD i 0) key kv.modelKeys.length := ⟨_, rfl⟩
  rw [← hp] at hle ⊢
  -- both positions are less than `2 ^ 31`, so they survive the conversion
  have hsize : toSize pos = pos := by
    rw [toSize]
    omega
  have hlast : toSize (kv.aimodels.length - 1) = kv.aimodels.length - 1 := by
    rw [toSize]
    omega
  simp only [hsize, hlast]
  split
  · rw [if_pos (by omega), Nat.min_eq_right (by omega)]
  · rw [if_pos (by omega), Nat.min_eq_left (by omega)]

/-- In every sorted array of fewer than `2 ^ 31` entries the branchless search reads inside the
array, ends, and returns the least index whose entry is not less than the key, or the length. So
`find_model` picks the first segment whose last key is not less than the key, and the last segment
for larger keys. -/
theorem segment_search_exact :
    (∀ (arr : ℕ → K) (n : ℕ), n < 2 ^ 31 → (∀ i j, i ≤ j → j < n → arr i ≤ arr j) →
      ∀ key fuel, 31 ≤ fuel → ∃ i : ℕ,
        Util.binarySearchBranchless? arr n fuel n key = some (i : ℤ) ∧ i ≤ n ∧
          (∀ j < i, arr j < key) ∧ (i < n → key ≤ arr i)) ∧
    ∀ kv : KanvaIndex K, kv.Searchable → ∀ key fuel, 31 ≤ fuel → ∃ i : ℕ,
      kv.findModel? fuel key = some i ∧ i < kv.modelKeys.length ∧
        (∀ j < i, kv.modelKeys.getD j 0 < key) ∧
        (key ≤ kv.modelKeys.getD i 0 ∨ i + 1 = kv.modelKeys.length) := by
  constructor
  · intro arr n hn hmono key fuel hfuel
    exact ⟨_, Util.binarySearchBranchless?_spec hn hmono hfuel, lowerBound_le arr key n,
      fun j hj => lt_of_lt_lowerBound hj, le_key_lowerBound⟩
  · intro kv h key fuel hfuel
    have hlen := h.length_eq
    have hpos := List.length_pos_iff.mpr h.ne_nil
    refine ⟨_, findModel?_eq h hfuel key, ?_, fun j hj => ?_, ?_⟩
    · rw [h.findModel_eq]
      omega
    · rw [h.findModel_eq] at hj
      exact lt_of_lt_lowerBound (n := kv.modelKeys.length) (hj.trans_le (Nat.min_le_left _ _))
    · -- the position is cut to the last segment
      rw [h.findModel_eq]
      rcases Nat.lt_or_ge (lowerBound (fun i => kv.modelKeys.getD i 0) key kv.modelKeys.length)
        kv.modelKeys.length with hlt | hge
      · rw [Nat.min_eq_left (by omega)]
        exact .inl (le_key_lowerBound hlt)
      · right
        omega

/-- Five segments of one pair each. Two of them have the same last key. -/
def fiveSegments : KanvaIndex ℕ :=
  ⟨[1, 3, 3, 5, 8], [1, 3, 3, 5, 8].map fun key => .new ⟨fun _ => 0, 0⟩ [(key, 0)] 64, 64, 1⟩

/-- The key 3 is in the first segment that ends with it, and the key 9 in the last one. -/
theorem segment_search_exact_five :
    fiveSegments.findModel? 31 3 = some 1 ∧ fiveSegments.findModel? 31 9 = some 4 ∧
      ∃ i : ℕ, fiveSegments.findModel? 31 3 = some i ∧ i < fiveSegments.modelKeys.length ∧
        (∀ j < i, fiveSegments.modelKeys.getD j 0 < 3) ∧
        (3 ≤ fiveSegments.modelKeys.getD i 0 ∨ i + 1 = fiveSegments.modelKeys.length) := by
  have h : fiveSegments.Searchable := ⟨by decide, by decide, by decide, by simp [fiveSegments]⟩
  refine ⟨by decide +kernel, by decide +kernel, ?_⟩
  exact segment_search_exact.2 fiveSegments h 3 31 le_rfl

end KanvaIndex

end KanvaImpl
