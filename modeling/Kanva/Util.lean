import Kanva.Common
import Kanva.SortedArray

/-!
# The search of `util.h`

`binary_search_branchless` with the types of the source: the step is a shifted `intptr_t`, the loop
runs while it is positive, and every read is checked against the size of the array. The loop is
given a bound on its rounds, and has no result when the bound is too small. The sums of the search
lie between -1 and `n`, so its `intptr_t` arithmetic is exact.

## Main results

* `Util.bsr_eq`: `bsr` is the logarithm to base 2.
* `Util.binarySearchBranchless?_eq`: the search reads inside the array only, ends within 31 rounds,
  and is the search by halving steps.
* `Util.binarySearchBranchless?_spec`: in a sorted array it returns the lower bound.
-/

namespace Kanva.Util

open SortedArray

/-- `__builtin_clz`, which is undefined for 0. -/
def builtinClz (x : BitVec 32) : Option ℤ := if x = 0#32 then none else some x.clz.toNat

/-- `bsr` -/
def bsr (x : BitVec 32) : Option (BitVec 32) := (builtinClz x).map fun z => BitVec.ofInt 32 (31 - z)

section Search

variable {K : Type*} [LE K] [LT K] [DecidableRel (α := K) (· ≤ ·)] [DecidableRel (α := K) (· < ·)]

/-- The loop `while (step > 0)`, in an array with `size` entries. -/
def stepLoop? (arr : ℕ → K) (size : ℕ) (key : K) : ℕ → ℤ → ℤ → Option ℤ
  | 0, _, _ => none
  | fuel + 1, pos, step =>
    if 0 < step then
      (readAt? arr size (pos + step)).bind fun x =>
        stepLoop? arr size key fuel (if x < key then pos + step else pos) (step >>> (1 : ℕ))
    else some pos

/-- `binary_search_branchless` in an array with `size` entries. The result is an `int`. -/
def binarySearchBranchless? (arr : ℕ → K) (size fuel : ℕ) (n : ℤ) (key : K) : Option ℤ :=
  if n ≤ 0 then some 0
  else if n = 1 then (readAt? arr size 0).map fun x => if key ≤ x then 0 else 1
  else
    (bsr (BitVec.ofInt 32 (n - 1))).bind fun logstep =>
      let step := (1 : ℤ) <<< logstep.toNat
      (readAt? arr size (-1 + n - step)).bind fun x =>
        let pos := if x < key then -1 + n - step else -1
        (stepLoop? arr size key fuel pos (step >>> (1 : ℕ))).bind fun pos =>
          (readAt? arr size (pos + 1)).map fun x => toInt32 (if key ≤ x then pos + 1 else n)

end Search

/-- `bsr` is the position of the highest bit. -/
theorem bsr_eq {x : ℕ} (hpos : 0 < x) (hlt : x < 2 ^ 32) :
    bsr (BitVec.ofNat 32 x) = some (BitVec.ofNat 32 (Nat.log 2 x)) := by
  have hx : (BitVec.ofNat 32 x).toNat = x := by
    rw [BitVec.toNat_ofNat]
    exact Nat.mod_eq_of_lt hlt
  have hne : BitVec.ofNat 32 x ≠ 0#32 := by
    intro h
    rw [h] at hx
    exact hpos.ne hx
  have hle := BitVec.two_pow_sub_clz_le_toNat_of_ne_zero (by decide) hne
  have hgt := BitVec.toNat_lt_two_pow_sub_clz (x := BitVec.ofNat 32 x)
  rw [hx] at hle hgt
  obtain ⟨z, hz⟩ : ∃ z, z = (BitVec.ofNat 32 x).clz.toNat := ⟨_, rfl⟩
  rw [← hz] at hle hgt
  -- a number that is not 0 has a highest bit
  have hz31 : z ≤ 31 := by
    by_contra h
    rw [Nat.sub_eq_zero_of_le (by omega : 32 ≤ z)] at hgt
    omega
  have hlog : Nat.log 2 x = 31 - z := by
    refine (Nat.log_eq_iff (.inr ⟨Nat.one_lt_two, hpos.ne'⟩)).mpr ⟨hle, ?_⟩
    rwa [show 31 - z + 1 = 32 - z by omega]
  have hcast : (31 : ℤ) - z = (31 - z : ℕ) := by omega
  rw [bsr, builtinClz, if_neg hne, Option.map_some, ← hz, hcast, hlog]
  rfl

variable {K : Type*} [LinearOrder K] {arr : ℕ → K} {size : ℕ} {key : K}

/-- The loop makes the halving steps. -/
theorem stepLoop?_eq {j fuel : ℕ} (hfuel : j < fuel) (pos : ℤ) :
    stepLoop? arr size key fuel pos ((2 : ℤ) ^ j >>> (1 : ℕ)) =
      halvingSteps? arr size key j pos := by
  induction j generalizing fuel pos with
  | zero =>
    obtain ⟨fuel, rfl⟩ : ∃ m, fuel = m + 1 := ⟨fuel - 1, by omega⟩
    rfl
  | succ j ih =>
    obtain ⟨fuel, rfl⟩ : ∃ m, fuel = m + 1 := ⟨fuel - 1, by omega⟩
    have hhalf : (2 : ℤ) ^ (j + 1) >>> (1 : ℕ) = 2 ^ j := by
      rw [Int.shiftRight_eq_div_pow, pow_succ]
      omega
    rw [hhalf, stepLoop?, if_pos (by positivity), halvingSteps?]
    exact congrArg _ (funext fun x => ih (by omega) _)

/-- The search is the one by halving steps: its reads are inside an array of at least `n` entries,
and its loop ends within 31 rounds. -/
theorem binarySearchBranchless?_eq {n : ℤ} (hsize : n ≤ size) (hn : n < 2 ^ 31) {fuel : ℕ}
    (hfuel : 31 ≤ fuel) : binarySearchBranchless? arr size fuel n key =
      some (toInt32 (binarySearchBranchless arr n key)) := by
  have heq : binarySearchBranchless? arr size fuel n key =
      (SortedArray.binarySearchBranchless? arr size n key).map toInt32 := by
    rw [binarySearchBranchless?, SortedArray.binarySearchBranchless?]
    split
    · rfl
    split
    · rw [Option.map_map]
      refine congrArg (Option.map · _) (funext fun x => ?_)
      by_cases hk : key ≤ x <;> simp [hk, toInt32]
    next hpos hone =>
    obtain ⟨m, hm⟩ : ∃ m : ℕ, n - 1 = m := ⟨(n - 1).toNat, by omega⟩
    have hlog : Nat.log 2 m < 31 := Nat.log_lt_of_lt_pow (by omega) (by omega)
    have hsmall : (BitVec.ofNat 32 (Nat.log 2 m)).toNat = Nat.log 2 m := by
      rw [BitVec.toNat_ofNat]
      exact Nat.mod_eq_of_lt (by omega)
    have hstep : (1 : ℤ) <<< Nat.log 2 m = 2 ^ Nat.log 2 m := by
      rw [Int.shiftLeft_eq, one_mul]
    rw [hm, BitVec.ofInt_natCast, bsr_eq (by omega) (by omega), Option.bind_some]
    simp only [hsmall, hstep, Int.toNat_natCast]
    rw [Option.map_bind]
    refine congrArg _ (funext fun x => ?_)
    simp only [Function.comp_apply]
    rw [stepLoop?_eq (by omega), Option.map_bind]
    refine congrArg _ (funext fun pos => ?_)
    rw [Function.comp_apply, Option.map_map]
    rfl
  rw [heq, SortedArray.binarySearchBranchless?_eq hsize, Option.map_some]

/-- In a sorted array with `n` entries the search returns the lower bound of the key. -/
theorem binarySearchBranchless?_spec {n : ℕ} (hn : n < 2 ^ 31)
    (hmono : ∀ i j, i ≤ j → j < n → arr i ≤ arr j) {fuel : ℕ} (hfuel : 31 ≤ fuel) :
    binarySearchBranchless? arr n fuel n key = some (lowerBound arr key n : ℤ) := by
  have hle := lowerBound_le arr key n
  rw [binarySearchBranchless?_eq le_rfl (by omega) hfuel, binarySearchBranchless_eq hmono,
    toInt32_of_lt (by omega)]

end Kanva.Util
