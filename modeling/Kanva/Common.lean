import Kanva.TaggedPtr
import Mathlib.Data.ZMod.Defs

/-!
# What both indexes share

The conversions between the integer types of the source, and the linear models.

## Main results

* `toSize_toInt32`: a count that is returned as an `int` and kept in a `size_t`.
-/

namespace Kanva

/-- The conversion of an integer to `size_t`. -/
def toSize (z : ℤ) : ℕ := (z % 2 ^ 64).toNat

/-- The conversion of an integer to `uint32_t`. -/
def toUint32 (z : ℤ) : ℕ := (z % 2 ^ 32).toNat

/-- The conversion of an integer to `int`. -/
def toInt32 (z : ℤ) : ℤ := z.bmod (2 ^ 32)

/-- The conversion of an integer to `int64_t`. -/
def toInt64 (z : ℤ) : ℤ := z.bmod (2 ^ 64)

-- the key types and thread numbers of the concrete runs have a 0, under a name of its own
instance neZero_two : NeZero 2 := ⟨by decide⟩
instance neZero_eight : NeZero 8 := ⟨by decide⟩
instance neZero_sixtyFour : NeZero 64 := ⟨by decide⟩

/-- An index of `mobs_lf`, which has one entry more than the array of a model. -/
def slotIndex? (capacity : ℕ) (binPos : ℤ) : Option ℤ :=
  if 0 ≤ binPos ∧ binPos ≤ capacity then some binPos else none

theorem slotIndex?_eq_some {capacity : ℕ} {binPos i : ℤ} (h : slotIndex? capacity binPos = some i) :
    i = binPos := by
  rw [slotIndex?] at h
  split at h
  · exact (Option.some.inj h).symm
  · exact absurd h (Option.some_ne_none i).symm

theorem slotIndex?_natCast {capacity i : ℕ} (hi : i ≤ capacity) :
    slotIndex? capacity i = some (i : ℤ) :=
  if_pos ⟨Int.natCast_nonneg i, Int.ofNat_le.mpr hi⟩

/-- A loop whose steps all succeed, as long as an invariant holds, is a loop without failures. -/
theorem foldlM_eq_some {α β : Type*} {step? : β → α → Option β} {step : β → α → β} (P : β → Prop)
    {l : List α} (hstep : ∀ x, ∀ a ∈ l, P x → step? x a = some (step x a) ∧ P (step x a)) {x : β}
    (hx : P x) : l.foldlM step? x = some (l.foldl step x) ∧ P (l.foldl step x) := by
  induction l generalizing x with
  | nil => exact ⟨rfl, hx⟩
  | cons a l ih =>
    obtain ⟨ha, hnext⟩ := hstep x a List.mem_cons_self hx
    rw [List.foldlM_cons, ha]
    exact ih (fun x a hmem => hstep x a (List.mem_cons_of_mem _ hmem)) hnext

/-- A trained `LinearRegressionModel`: its prediction as a whole number, and the error it has
recorded. Its weights and their floating-point arithmetic are left open. -/
structure LinearRegressionModel (K : Type) where
  predict : K → ℕ
  maxErr : ℕ

/-- The prediction for every key is off by at most the recorded error. -/
def LinearRegressionModel.Accurate {K : Type} [Zero K] (model : LinearRegressionModel K)
    (keys : List K) : Prop :=
  ∀ i < keys.length, min (model.predict (keys.getD i 0)) (keys.length - 1) ≤ i + model.maxErr ∧
    i ≤ min (model.predict (keys.getD i 0)) (keys.length - 1) + model.maxErr

theorem toInt32_lt (z : ℤ) : toInt32 z < 2 ^ 31 := by
  have hlt := Int.bmod_lt (x := z) (m := 2 ^ 32) (by decide)
  rw [toInt32]
  omega

/-- A number below `2 ^ 31` is its own `int`. -/
theorem toInt32_of_lt {n : ℕ} (hn : n < 2 ^ 31) : toInt32 n = n :=
  Int.bmod_eq_of_le_mul_two (by omega) (by omega)

/-- A number below `2 ^ 63` is its own `int64_t`. -/
theorem toInt64_of_lt {n : ℕ} (hn : n < 2 ^ 63) : toInt64 n = n :=
  Int.bmod_eq_of_le_mul_two (by omega) (by omega)

/-- A `size_t` from `2 ^ 63` on is negative as an `int64_t`. -/
theorem toInt64_of_ge {n : ℕ} (hn : 2 ^ 63 ≤ n) (hlt : n < 2 ^ 64) : toInt64 n = n - 2 ^ 64 := by
  rw [toInt64, Int.bmod_def]
  split_ifs <;> omega

/-- A conversion to `int` makes no number larger. -/
theorem toInt32_le (n : ℕ) : toInt32 n ≤ n := by
  rw [toInt32, Int.bmod_def]
  have hmod : (n : ℤ) % (2 ^ 32 : ℕ) ≤ n := by omega
  split_ifs <;> omega

theorem toInt32_congr {m n : ℕ} (h : m % 2 ^ 32 = n % 2 ^ 32) : toInt32 m = toInt32 n := by
  have hmod : (m : ℤ) % (2 ^ 32 : ℕ) = (n : ℤ) % (2 ^ 32 : ℕ) := by omega
  rw [toInt32, toInt32, Int.bmod_def, Int.bmod_def, hmod]

/-- A count that an `int` result carries into a `size_t`: below `2 ^ 31` it is kept, below `2 ^ 32`
it becomes a count of more than `2 ^ 63`, and only its lowest 32 bits matter. -/
theorem toSize_toInt32 (n : ℕ) :
    toSize (toInt32 n) =
      if n % 2 ^ 32 < 2 ^ 31 then n % 2 ^ 32 else n % 2 ^ 32 + (2 ^ 64 - 2 ^ 32) := by
  rw [toSize, toInt32, Int.bmod_def]
  split_ifs <;> omega

end Kanva
