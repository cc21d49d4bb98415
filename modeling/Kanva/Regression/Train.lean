import Kanva.LeastSquares
import Kanva.Regression.MaxError
import Mathlib.Data.Int.ConditionallyCompleteOrder
import Mathlib.Data.Rat.Floor

/-!
# Training in exact arithmetic

`LinearRegressionModel` over the rationals instead of `double`: the sums of `train`, its assertions,
the weights and `predict`. The keys are integers, and every key has its index as its position.

## Main results

* `ExactModel.weights_eq`: the weights are those of the least squares line.
* `ExactModel.train_exact`: for two or more increasing keys that are not negative, no assertion
  fails, the weights are the best ones, and the prediction increases with the key.
-/

namespace Kanva

/-- `LinearRegressionModel` with exact weights. -/
structure ExactModel where
  weights : ℚ × ℚ
  maxErr : ℕ
deriving DecidableEq

/-- The four sums of `train`, and the means that they become. -/
structure Expected where
  x : ℚ
  y : ℚ
  xy : ℚ
  xSquare : ℚ
deriving DecidableEq

namespace Expected

/-- One round of the loop over the keys. -/
def add (s : Expected) (key : ℚ) (pos : ℕ) : Expected :=
  ⟨s.x + key, s.y + pos, s.xy + key * pos, s.xSquare + key * key⟩

/-- The loop over the keys. -/
def sums (keys : List ℤ) (positions : List ℕ) : Expected :=
  (keys.zip positions).foldl (fun s p => s.add p.1 p.2) ⟨0, 0, 0, 0⟩

/-- The four assertions behind the loop. -/
def Asserted (s : Expected) : Prop := 0 < s.x ∧ 0 < s.y ∧ 0 < s.xSquare ∧ 0 < s.xy

instance (s : Expected) : Decidable s.Asserted := inferInstanceAs (Decidable (_ ∧ _))

/-- The divisions by the number of positions. -/
def div (s : Expected) (n : ℕ) : Expected := ⟨s.x / n, s.y / n, s.xy / n, s.xSquare / n⟩

/-- The common denominator of the weights. -/
def denominator (s : Expected) : ℚ := s.xSquare - s.x * s.x

/-- The two weights. -/
def weights (s : Expected) : ℚ × ℚ :=
  ((s.xy - s.x * s.y) / s.denominator, (s.xSquare * s.y - s.x * s.xy) / s.denominator)

end Expected

namespace ExactModel

/-- `predict`: the truncation of a positive result. -/
def predict (weights : ℚ × ℚ) (key : ℤ) : ℕ :=
  let res := weights.1 * key + weights.2
  if 0 < res then ⌊res⌋.toNat else 0

/-- `train`. Fewer than two keys leave the error as it is. -/
def train? (m : ExactModel) (keys : List ℤ) (positions : List ℕ) : Option ExactModel :=
  if keys.length ≠ positions.length then none
  else
    match positions with
    | [] => some m
    | [pos] => some { m with weights := (0, pos) }
    | _ =>
      let s := Expected.sums keys positions
      if s.Asserted then
        let weights := (s.div positions.length).weights
        (LinearRegressionModel.maxError? (predict weights) keys positions).map (⟨weights, ·⟩)
      else none

open Finset LeastSquares

/-- The key at an index, as a `double`. -/
def point (keys : List ℤ) (i : ℕ) : ℚ := keys.getD i 0

/-- The weights after training with the indices as positions. -/
def trained (keys : List ℤ) : ℚ × ℚ :=
  ((Expected.sums keys (List.range keys.length)).div keys.length).weights

variable {keys : List ℤ}

/-- The sums of the loop. -/
theorem sums_eq (keys : List ℤ) : Expected.sums keys (List.range keys.length) =
    ⟨∑ i ∈ range keys.length, point keys i, ∑ i ∈ range keys.length, (i : ℚ),
      ∑ i ∈ range keys.length, point keys i * i,
      ∑ i ∈ range keys.length, point keys i * point keys i⟩ := by
  rw [Expected.sums, LinearRegressionModel.zip_range, List.foldl_map]
  induction keys.length with
  | zero => rfl
  | succ n ih =>
    rw [List.range_succ, List.foldl_append, ih]
    simp only [sum_range_succ]
    rfl

/-- The weights are the slope and the intercept of the least squares line. -/
theorem weights_eq (keys : List ℤ) : trained keys =
    (LeastSquares.slope (range keys.length) (point keys) (fun i => (i : ℚ)),
      intercept (range keys.length) (point keys) fun i => (i : ℚ)) := by
  rw [trained, sums_eq, LeastSquares.slope, intercept, covariance, covariance, mean, mean, mean,
    mean, card_range]
  rfl

/-- Training data that fixes a line: two or more keys that increase, none of them negative. -/
structure Increasing (keys : List ℤ) : Prop where
  two_le : 2 ≤ keys.length
  sorted : keys.Pairwise (· < ·)
  nonneg : ∀ key ∈ keys, 0 ≤ key

namespace Increasing

variable (h : Increasing keys)

include h

/-- A later key is larger by at least as much as its index. -/
theorem gap {i j : ℕ} (hij : i ≤ j) (hj : j < keys.length) :
    ((j : ℚ) - i) ≤ point keys j - point keys i := by
  induction j, hij using Nat.le_induction with
  | base => simp
  | succ j hij ih =>
    have hlt := List.pairwise_iff_getElem.mp h.sorted j (j + 1) (by omega) hj (Nat.lt_succ_self j)
    have hnext : point keys j + 1 ≤ point keys (j + 1) := by
      have hle : keys.getD j 0 < keys.getD (j + 1) 0 := by
        simpa [List.getD, hj, (Nat.lt_succ_self j).trans hj] using hlt
      rw [point, point]
      exact_mod_cast Int.add_one_le_of_lt hle
    have hprev := ih (by omega)
    push_cast
    linarith

theorem point_nonneg {i : ℕ} (hi : i < keys.length) : 0 ≤ point keys i := by
  have hmem := h.nonneg _ (List.getElem_mem hi)
  have hle : 0 ≤ keys.getD i 0 := by simpa [List.getD, hi] using hmem
  rw [point]
  exact_mod_cast hle

/-- A key is at least its index. -/
theorem index_le {i : ℕ} (hi : i < keys.length) : (i : ℚ) ≤ point keys i := by
  have hgap := h.gap (Nat.zero_le i) hi
  have hzero := h.point_nonneg (show 0 < keys.length by omega)
  push_cast at hgap
  linarith

theorem nonempty : (range keys.length).Nonempty :=
  nonempty_range_iff.mpr (by have := h.two_le; omega)

/-- Two keys and their indices are ordered in the same way, and the keys are farther apart. -/
theorem distances {i j : ℕ} (hi : i < keys.length) (hj : j < keys.length) (hij : i ≠ j) :
    0 < (point keys i - point keys j) * ((i : ℚ) - j) ∧
      (point keys i - point keys j) * ((i : ℚ) - j) ≤
        (point keys i - point keys j) * (point keys i - point keys j) := by
  -- the product does not change when the two indices are exchanged
  wlog hlt : j < i generalizing i j
  · obtain ⟨hpos, hle⟩ := this hj hi hij.symm (by omega)
    have hneg : (point keys i - point keys j) * ((i : ℚ) - j) =
        (point keys j - point keys i) * ((j : ℚ) - i) := by ring
    have hneg' : (point keys i - point keys j) * (point keys i - point keys j) =
        (point keys j - point keys i) * (point keys j - point keys i) := by ring
    rw [hneg, hneg']
    exact ⟨hpos, hle⟩
  · have hgap := h.gap hlt.le hi
    have hindex : (0 : ℚ) < i - j := sub_pos.mpr (Nat.cast_lt.mpr hlt)
    have hkey := hindex.trans_le hgap
    exact ⟨mul_pos hkey hindex, mul_le_mul_of_nonneg_left hgap hkey.le⟩

/-- The denominator and the numerator of the slope are positive. -/
theorem covariance_pos :
    0 < covariance (range keys.length) (point keys) (point keys) ∧
      0 < covariance (range keys.length) (point keys) (fun i => (i : ℚ)) := by
  have hcard : 1 < #(range keys.length) := by
    rw [card_range]
    exact h.two_le
  constructor
  · refine LeastSquares.covariance_pos hcard fun i hi j hj hij => ?_
    obtain ⟨hpos, hle⟩ := h.distances (mem_range.mp hi) (mem_range.mp hj) hij
    exact hpos.trans_le hle
  · refine LeastSquares.covariance_pos hcard fun i hi j hj hij => ?_
    exact (h.distances (mem_range.mp hi) (mem_range.mp hj) hij).1

/-- The four assertions hold: the key and the position at index 1 are positive. -/
theorem asserted : (Expected.sums keys (List.range keys.length)).Asserted := by
  have hone : 1 < keys.length := h.two_le
  have hkey : 0 < point keys 1 := by
    have hle := h.index_le hone
    push_cast at hle
    linarith
  -- the term of index 1 makes the sums positive
  have hpos : ∀ f : ℕ → ℚ, (∀ i < keys.length, 0 ≤ f i) → 0 < f 1 →
      0 < ∑ i ∈ range keys.length, f i := by
    intro f hf hf1
    exact sum_pos' (fun i hi => hf i (mem_range.mp hi)) ⟨1, mem_range.mpr hone, hf1⟩
  have hnonneg : ∀ i < keys.length, 0 ≤ point keys i := fun i hi => h.point_nonneg hi
  rw [sums_eq]
  refine ⟨hpos _ hnonneg hkey, hpos _ (fun i _ => Nat.cast_nonneg i) (by simp), ?_, ?_⟩
  · exact hpos _ (fun i _ => mul_self_nonneg _) (mul_pos hkey hkey)
  · exact hpos _ (fun i hi => mul_nonneg (hnonneg i hi) (Nat.cast_nonneg i)) (by simpa using hkey)

/-- The slope is positive, and at most 1. -/
theorem slope_bounds : 0 < (trained keys).1 ∧ (trained keys).1 ≤ 1 := by
  obtain ⟨hvar, hcov⟩ := h.covariance_pos
  rw [weights_eq]
  refine ⟨div_pos hcov hvar, slope_le_one h.nonempty hvar fun i hi j hj => ?_⟩
  by_cases hij : i = j
  · simp [hij]
  · exact (h.distances (mem_range.mp hi) (mem_range.mp hj) hij).2

/-- The line stays below the key, or below the last index. -/
theorem line_le (key : ℤ) :
    (trained keys).1 * key + (trained keys).2 ≤ (max key (keys.length - 1) : ℤ) := by
  obtain ⟨hvar, -⟩ := h.covariance_pos
  obtain ⟨hpos, hone⟩ := h.slope_bounds
  have hcard : (0 : ℚ) < #(range keys.length) := Nat.cast_pos.mpr h.nonempty.card_pos
  have hcast : ((max key (keys.length - 1) : ℤ) : ℚ) = max (key : ℚ) (keys.length - 1) := by
    push_cast
    rfl
  -- the line goes through the mean point
  obtain ⟨mx, hmx⟩ : ∃ mx, mx = mean (range keys.length) (point keys) := ⟨_, rfl⟩
  obtain ⟨my, hmy⟩ : ∃ my, my = mean (range keys.length) fun i => (i : ℚ) := ⟨_, rfl⟩
  have hline : (trained keys).2 = my - (trained keys).1 * mx := by
    rw [hmx, hmy, weights_eq]
    exact intercept_eq hvar.ne'
  have hmean : my ≤ mx := by
    rw [hmx, hmy, mean, mean]
    exact div_le_div_of_nonneg_right (sum_le_sum fun i hi => h.index_le (mem_range.mp hi)) hcard.le
  have hlast : my ≤ keys.length - 1 := by
    rw [hmy, mean, div_le_iff₀ hcard, mul_comm, ← nsmul_eq_mul]
    refine sum_le_card_nsmul _ _ _ fun i hi => ?_
    rw [le_sub_iff_add_le]
    exact_mod_cast mem_range.mp hi
  rw [hcast, hline]
  -- up to the mean point the line is below the last index, and from there on it does not rise
  -- faster than the key
  rcases le_total (key : ℚ) mx with hle | hge
  · refine le_trans ?_ (le_max_right _ _)
    have hprod := mul_le_mul_of_nonneg_left hle hpos.le
    linarith
  · refine le_trans ?_ (le_max_left _ _)
    have hprod := mul_le_mul_of_nonneg_right hone (sub_nonneg.mpr hge)
    linarith

/-- With at most `2 ^ 20` keys, the line passes within `2 ^ 30` of every point: no point is farther
off than the line that is 0 everywhere costs. -/
theorem line_near (hlen : keys.length ≤ 2 ^ 20) {i : ℕ} (hi : i < keys.length) :
    |(trained keys).1 * point keys i + (trained keys).2 - i| ≤ 2 ^ 30 := by
  obtain ⟨hvar, -⟩ := h.covariance_pos
  have hn : (keys.length : ℚ) ≤ 2 ^ 20 := by exact_mod_cast hlen
  -- every index is less than the number of keys
  have hcost : squaredError (range keys.length) (point keys) (fun i => (i : ℚ)) 0 0 ≤
      keys.length * (keys.length : ℚ) ^ 2 := by
    rw [squaredError, ← nsmul_eq_mul]
    nth_rewrite 2 [← card_range keys.length]
    refine sum_le_card_nsmul _ _ _ fun j hj => ?_
    have hj : (j : ℚ) ≤ keys.length := Nat.cast_le.mpr (mem_range.mp hj).le
    rw [zero_mul, zero_add, zero_sub, neg_sq]
    gcongr
  have hres := sq_residual_le (y := fun j : ℕ => (j : ℚ)) h.nonempty hvar.ne' 0 0
    (mem_range.mpr hi)
  rw [weights_eq]
  refine abs_le_of_sq_le_sq ?_ (by positivity)
  calc _ ≤ keys.length * (keys.length : ℚ) ^ 2 := hres.trans hcost
    _ ≤ 2 ^ 20 * (2 ^ 20) ^ 2 := by gcongr
    _ = (2 ^ 30) ^ 2 := by norm_num

/-- With at most `2 ^ 20` keys, every prediction for a key is less than `2 ^ 31` off. -/
theorem predict_near (hlen : keys.length ≤ 2 ^ 20) {i : ℕ} (hi : i < keys.length) :
    ((predict (trained keys) (keys.getD i 0) : ℤ) - i).natAbs < 2 ^ 31 := by
  have hline := abs_le.mp (h.line_near hlen hi)
  have hi' : (i : ℚ) ≤ 2 ^ 20 := by exact_mod_cast hi.le.trans hlen
  rw [point] at hline
  rw [predict]
  split
  · next hpos =>
    obtain ⟨hlo, hhi⟩ := hline
    rw [Int.toNat_of_nonneg (Int.floor_nonneg.mpr hpos.le)]
    -- the truncation of a positive line value is its floor
    have hle : (⌊(trained keys).1 * (keys.getD i 0 : ℤ) + (trained keys).2⌋ : ℤ) ≤
        (i : ℤ) + 2 ^ 30 := by
      refine Int.floor_le_iff.mpr ?_
      push_cast
      linarith
    have hge : (i : ℤ) - 2 ^ 30 ≤
        ⌊(trained keys).1 * (keys.getD i 0 : ℤ) + (trained keys).2⌋ := by
      refine Int.le_floor.mpr ?_
      push_cast
      linarith
    omega
  · omega

/-- `train` gets as far as measuring the error of the weights. -/
theorem train?_eq (m : ExactModel) : m.train? keys (List.range keys.length) =
    (LinearRegressionModel.maxError? (predict (trained keys)) keys
      (List.range keys.length)).map (⟨trained keys, ·⟩) := by
  have htwo := h.two_le
  have hlen : (List.range keys.length).length = keys.length := List.length_range
  unfold train?
  rw [if_neg (not_not.mpr hlen.symm)]
  split
  · next heq =>
    rw [heq] at hlen
    simp only [List.length_nil] at hlen
    omega
  · next heq =>
    rw [heq] at hlen
    simp only [List.length_singleton] at hlen
    omega
  · simp only [if_pos h.asserted, hlen]
    rfl

end Increasing

/-- A line that does not fall predicts positions that do not fall. -/
theorem predict_monotone {weights : ℚ × ℚ} (hw : 0 ≤ weights.1) : Monotone (predict weights) := by
  intro key key' hle
  have hline : weights.1 * key + weights.2 ≤ weights.1 * key' + weights.2 := by
    have hprod := mul_le_mul_of_nonneg_left (Int.cast_le (R := ℚ).mpr hle) hw
    linarith
  rw [predict, predict]
  split_ifs with hpos hpos'
  · exact Int.toNat_le_toNat (Int.floor_mono hline)
  · exact absurd (hpos.trans_le hline) hpos'
  · exact Nat.zero_le _
  · exact le_rfl

/-- The prediction stays below the key, or below the last index, so it is a `size_t` for every key
of 64 bits. -/
theorem predict_le (h : Increasing keys) (key : ℤ) :
    (predict (trained keys) key : ℤ) ≤ max key (keys.length - 1) := by
  have hlast : (0 : ℤ) ≤ keys.length - 1 := by
    have := h.two_le
    omega
  rw [predict]
  split
  · next hpos =>
    rw [Int.toNat_of_nonneg (Int.floor_nonneg.mpr hpos.le)]
    have hfloor := (Int.floor_le _).trans (h.line_le key)
    exact_mod_cast hfloor
  · exact hlast.trans (le_max_right _ _)

/-- For every strictly increasing sequence of two or more keys that are not negative, in exact
arithmetic: the assertions of `train` hold, the common denominator and the slope are positive, the
weights minimise the sum of squared differences, and the prediction does not decrease when the key
increases. -/
theorem train_exact (h : Increasing keys) (m : ExactModel) :
    (Expected.sums keys (List.range keys.length)).Asserted ∧
      0 < ((Expected.sums keys (List.range keys.length)).div keys.length).denominator ∧
      m.train? keys (List.range keys.length) =
        (LinearRegressionModel.maxError? (predict (trained keys)) keys
          (List.range keys.length)).map (⟨trained keys, ·⟩) ∧
      0 < (trained keys).1 ∧
      (∀ a b : ℚ,
        ∑ i ∈ range keys.length, ((trained keys).1 * point keys i + (trained keys).2 - i) ^ 2 ≤
          ∑ i ∈ range keys.length, (a * point keys i + b - i) ^ 2) ∧
      Monotone (predict (trained keys)) ∧
      ∀ key : ℤ, (predict (trained keys) key : ℤ) ≤ max key (keys.length - 1) := by
  obtain ⟨hvar, -⟩ := h.covariance_pos
  have hslope := h.slope_bounds.1
  refine ⟨h.asserted, ?_, h.train?_eq m, hslope, fun a b => ?_, predict_monotone hslope.le,
    predict_le h⟩
  · have hcov : ((Expected.sums keys (List.range keys.length)).div keys.length).denominator =
        covariance (range keys.length) (point keys) (point keys) := by
      rw [sums_eq, covariance, mean, mean, card_range]
      rfl
    rw [hcov]
    exact hvar
  · rw [weights_eq]
    exact squaredError_le h.nonempty hvar.ne' a b

/-- The line through the keys 0, 2 and 3. -/
theorem train_exact_three : trained [0, 2, 3] = (9 / 14, -1 / 14) ∧
    Monotone (predict (trained [0, 2, 3])) := by
  have h : Increasing [0, 2, 3] := ⟨by decide, by decide, by decide⟩
  exact ⟨by decide +kernel, (train_exact h ⟨(0, 0), 0⟩).2.2.2.2.2.1⟩

end ExactModel

end Kanva
