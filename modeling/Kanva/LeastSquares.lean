import Mathlib.Algebra.BigOperators.Field
import Mathlib.Algebra.Order.BigOperators.Group.Finset
import Mathlib.Algebra.Order.Field.Basic
import Mathlib.Tactic.LinearCombination
import Mathlib.Tactic.Positivity
import Mathlib.Tactic.Ring

/-!
# The least squares line

The line that fits finitely many points best, over an ordered field. Its slope is the covariance of
the two coordinates over the variance of the first, and both are computed from the means of the
coordinates, of their product and of the square.

## Main results

* `covariance_eq`: the covariance as a sum over pairs of points.
* `covariance_pos`: points that increase have a positive covariance, and a positive variance.
* `slope_le_one`: points that rise less than they advance have a slope of at most 1.
* `squaredError_add`: what another line costs more than the least squares line.
-/

namespace LeastSquares

variable {ι F : Type*} [Field F] (s : Finset ι) (x y : ι → F)

open Finset

/-- The mean of a family over a finite set. -/
def mean (f : ι → F) : F := (∑ i ∈ s, f i) / #s

/-- The covariance of two families. -/
def covariance : F := mean s (fun i => x i * y i) - mean s x * mean s y

/-- The slope of the least squares line. -/
def slope : F := covariance s x y / covariance s x x

/-- The value of the least squares line at 0. -/
def intercept : F :=
  (mean s (fun i => x i * x i) * mean s y - mean s x * mean s fun i => x i * y i) /
    covariance s x x

/-- The sum of the squared differences between a line and the points. -/
def squaredError (a b : F) : F := ∑ i ∈ s, (a * x i + b - y i) ^ 2

variable {s x y}

theorem sum_eq_mean [CharZero F] (hs : s.Nonempty) (f : ι → F) : ∑ i ∈ s, f i = #s * mean s f := by
  have hcard : (#s : F) ≠ 0 := Nat.cast_ne_zero.mpr hs.card_ne_zero
  rw [mean, mul_div_cancel₀ _ hcard]

/-- The covariance is half the mean over all pairs of points of the product of their distances. -/
theorem covariance_eq [CharZero F] (hs : s.Nonempty) :
    2 * (#s : F) ^ 2 * covariance s x y =
      ∑ i ∈ s, ∑ j ∈ s, (x i - x j) * (y i - y j) := by
  -- for a fixed point, the product multiplied out and summed
  have hinner : ∀ i ∈ s, ∑ j ∈ s, (x i - x j) * (y i - y j) =
      #s * (x i * y i) - x i * (#s * mean s y) - y i * (#s * mean s x) +
        #s * mean s fun j => x j * y j := by
    intro i _
    rw [← sum_eq_mean hs, ← sum_eq_mean hs, ← sum_eq_mean hs, mul_sum, mul_sum, ← nsmul_eq_mul,
      ← sum_const, ← sum_sub_distrib, ← sum_sub_distrib, ← sum_add_distrib]
    exact sum_congr rfl fun j _ => by ring
  rw [sum_congr rfl hinner, sum_add_distrib, sum_sub_distrib, sum_sub_distrib, ← mul_sum,
    ← sum_mul, ← sum_mul, sum_const, nsmul_eq_mul, sum_eq_mean hs x, sum_eq_mean hs y,
    sum_eq_mean hs fun i => x i * y i, covariance]
  ring

/-- The least squares line goes through the mean point. -/
theorem intercept_eq (hvar : covariance s x x ≠ 0) :
    intercept s x y = mean s y - slope s x y * mean s x := by
  rw [intercept, slope, div_eq_iff hvar, sub_mul, div_mul_eq_mul_div, div_mul_eq_mul_div,
    mul_div_assoc, div_self hvar]
  rw [covariance, covariance]
  ring

/-- The differences between the least squares line and the points cancel out, also when they are
weighted with the first coordinate. -/
theorem sum_residual [CharZero F] (hs : s.Nonempty) (hvar : covariance s x x ≠ 0) :
    ∑ i ∈ s, (slope s x y * x i + intercept s x y - y i) = 0 ∧
      ∑ i ∈ s, (slope s x y * x i + intercept s x y - y i) * x i = 0 := by
  -- the two normal equations of the line
  have hslope : slope s x y * covariance s x x = covariance s x y := div_mul_cancel₀ _ hvar
  constructor
  · rw [sum_sub_distrib, sum_add_distrib, ← mul_sum, sum_const, nsmul_eq_mul, sum_eq_mean hs x,
      sum_eq_mean hs y, intercept_eq hvar]
    ring
  · have hsplit : ∀ i ∈ s, (slope s x y * x i + intercept s x y - y i) * x i =
        slope s x y * (x i * x i) + intercept s x y * x i - x i * y i := fun i _ => by ring
    rw [sum_congr rfl hsplit, sum_sub_distrib, sum_add_distrib, ← mul_sum, ← mul_sum,
      sum_eq_mean hs x, sum_eq_mean hs (fun i => x i * x i), sum_eq_mean hs fun i => x i * y i,
      intercept_eq hvar]
    rw [covariance, covariance] at hslope
    linear_combination (#s : F) * hslope

/-- Another line costs as much more as it differs from the least squares line at the points. -/
theorem squaredError_add [CharZero F] (hs : s.Nonempty) (hvar : covariance s x x ≠ 0) (a b : F) :
    squaredError s x y a b = squaredError s x y (slope s x y) (intercept s x y) +
      ∑ i ∈ s, ((a - slope s x y) * x i + (b - intercept s x y)) ^ 2 := by
  obtain ⟨hsum, hsumx⟩ := sum_residual (y := y) hs hvar
  -- by the normal equations, what another line adds is orthogonal to the residuals
  have hcross : ∑ i ∈ s, (slope s x y * x i + intercept s x y - y i) *
      ((a - slope s x y) * x i + (b - intercept s x y)) = 0 := by
    have hsplit : ∀ i ∈ s, (slope s x y * x i + intercept s x y - y i) *
        ((a - slope s x y) * x i + (b - intercept s x y)) =
          (a - slope s x y) * ((slope s x y * x i + intercept s x y - y i) * x i) +
            (b - intercept s x y) * (slope s x y * x i + intercept s x y - y i) :=
      fun i _ => by ring
    rw [sum_congr rfl hsplit, sum_add_distrib, ← mul_sum, ← mul_sum, hsum, hsumx, mul_zero,
      mul_zero, add_zero]
  have hsquare : ∀ i ∈ s, (a * x i + b - y i) ^ 2 =
      (slope s x y * x i + intercept s x y - y i) ^ 2 +
        ((a - slope s x y) * x i + (b - intercept s x y)) ^ 2 +
          2 * ((slope s x y * x i + intercept s x y - y i) *
            ((a - slope s x y) * x i + (b - intercept s x y))) := fun i _ => by ring
  rw [squaredError, sum_congr rfl hsquare, sum_add_distrib, sum_add_distrib, ← mul_sum, hcross,
    mul_zero, add_zero, squaredError]

section Order

variable [LinearOrder F] [IsStrictOrderedRing F]

/-- Points that are ordered in the same way by both coordinates have a positive covariance. -/
theorem covariance_pos (hs : 1 < #s)
    (hxy : ∀ i ∈ s, ∀ j ∈ s, i ≠ j → 0 < (x i - x j) * (y i - y j)) : 0 < covariance s x y := by
  obtain ⟨i, hi, j, hj, hij⟩ := one_lt_card.mp hs
  have hne : s.Nonempty := ⟨i, hi⟩
  have hcard : (0 : F) < #s := Nat.cast_pos.mpr hne.card_pos
  have hnonneg : ∀ i ∈ s, ∀ j ∈ s, 0 ≤ (x i - x j) * (y i - y j) := by
    intro i hi j hj
    by_cases heq : i = j
    · simp [heq]
    · exact (hxy i hi j hj heq).le
  -- one pair of different points is enough for a positive sum
  have hinner : 0 < ∑ j ∈ s, (x i - x j) * (y i - y j) :=
    sum_pos' (hnonneg i hi) ⟨j, hj, hxy i hi j hj hij⟩
  have hsum : 0 < ∑ i ∈ s, ∑ j ∈ s, (x i - x j) * (y i - y j) :=
    sum_pos' (fun i hi => sum_nonneg (hnonneg i hi)) ⟨i, hi, hinner⟩
  rw [← covariance_eq hne] at hsum
  exact pos_of_mul_pos_right hsum (by positivity)

/-- Points that rise at most as far as they advance have a slope of at most 1. -/
theorem slope_le_one (hs : s.Nonempty) (hvar : 0 < covariance s x x)
    (hle : ∀ i ∈ s, ∀ j ∈ s, (x i - x j) * (y i - y j) ≤ (x i - x j) * (x i - x j)) :
    slope s x y ≤ 1 := by
  have hcard : (0 : F) < #s := Nat.cast_pos.mpr hs.card_pos
  have hsum : 2 * (#s : F) ^ 2 * covariance s x y ≤ 2 * (#s : F) ^ 2 * covariance s x x := by
    rw [covariance_eq hs, covariance_eq hs]
    exact sum_le_sum fun i hi => sum_le_sum fun j hj => hle i hi j hj
  rw [slope, div_le_one hvar]
  exact le_of_mul_le_mul_left hsum (by positivity)

/-- No line has a smaller sum of squared differences than the least squares line. -/
theorem squaredError_le (hs : s.Nonempty) (hvar : covariance s x x ≠ 0) (a b : F) :
    squaredError s x y (slope s x y) (intercept s x y) ≤ squaredError s x y a b := by
  rw [squaredError_add hs hvar a b]
  exact le_add_of_nonneg_right (sum_nonneg fun i _ => sq_nonneg _)

/-- No point is farther from the least squares line than another line costs. -/
theorem sq_residual_le (hs : s.Nonempty) (hvar : covariance s x x ≠ 0) (a b : F) {i : ι}
    (hi : i ∈ s) :
    (slope s x y * x i + intercept s x y - y i) ^ 2 ≤ squaredError s x y a b :=
  calc (slope s x y * x i + intercept s x y - y i) ^ 2
    _ ≤ squaredError s x y (slope s x y) (intercept s x y) :=
      single_le_sum (f := fun j => (slope s x y * x j + intercept s x y - y j) ^ 2)
        (fun _ _ => sq_nonneg _) hi
    _ ≤ squaredError s x y a b := squaredError_le hs hvar a b

end Order

end LeastSquares
