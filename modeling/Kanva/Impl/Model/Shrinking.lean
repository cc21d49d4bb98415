import Kanva.Impl.Model.Training

/-!
# Shrinking a segment

`train` shrinks a segment that does not fit with `backward_train`, which tries the prefixes that are
shorter by `step`, `2 * step`, and so on. When none of them fits and the last one is not reached at
0 exactly, the next `size` is a negative number taken as unsigned, no prefix is tried any more, and
the assertion on `step` fails. And a segment of at most 10 keys is tried with 9 keys, whether there
are as many left in the training data or not.

`Shrinks` says this of the keys and the errors of their slices, without the index. The error is any
function of a slice that is 0 on slices of one key.

## Main results

* `KanvaIndex.shrinks_of_backwardTrain`, `KanvaIndex.Shrinks.returns`: `backward_train` returns the
  size of the prefix that the segment can be shrunk to.
-/

namespace KanvaImpl

open Kanva

/-- `int(step*learning_rate)` for the default `learning_rate`: the product is rounded to a `float`,
and for the powers of ten that `step` takes that is the tenth. -/
def tenth (step : ℤ) : ℤ := step / 10

namespace KanvaIndex

variable {K : Type} [Zero K]

/-- The recorded error of the model of a slice. -/
def errorOf (fit : List K → LinearRegressionModel K) (keys : List K) : ℕ := (fit keys).maxErr

section Conditions

-- the error of a slice, the keys of the training data, and the bound
variable (err : List K → ℕ) (keys : List K) (maxErr : ℤ)

/-- The error of the `size` keys from `start` on is within the bound. -/
def Fits (start size : ℕ) : Prop := err ((keys.drop start).take size) ≤ toSize maxErr

instance (start size : ℕ) : Decidable (Fits err keys maxErr start size) :=
  inferInstanceAs (Decidable (_ ≤ _))

/-- The slots of a segment of this size are counted in an `int`. -/
def Appendable (size : ℕ) : Prop := size + 1 < 2 ^ 31

instance (size : ℕ) : Decidable (Appendable size) := inferInstanceAs (Decidable (_ < _))

/-- The first of `stop`, `stop - step`, … that is the size of a prefix that fits, or not
positive. -/
def firstFit (start : ℕ) (step : ℤ) : ℕ → ℤ → ℤ
  | 0, stop => stop
  | n + 1, stop =>
    if 0 < stop ∧ ¬ Fits err keys maxErr start stop.toNat then
      firstFit start step n (stop - step)
    else stop

/-- The size of the prefix of at most 9 keys that takes the place of a segment of at most 10
keys. -/
def tailEnd (start : ℕ) : ℤ := firstFit err keys maxErr start 1 9 9

/-- A segment of this size can be shrunk with this step, to a prefix of this size. -/
inductive Shrinks (start : ℕ) : ℕ → ℤ → ℤ → Prop
  /-- At most 10 keys, and there are 9. -/
  | short {size step} : size ≤ 10 → start + 9 ≤ keys.length →
      Shrinks start size step (tailEnd err keys maxErr start)
  /-- One of the prefixes fits. -/
  | fits {size step fuel s} : 10 < size → shrinkStep tenth size fuel step = some s → 0 < s →
      (size : ℤ) - s < 2 ^ 31 → 0 < firstFit err keys maxErr start s size (size - s) →
      Appendable (firstFit err keys maxErr start s size (size - s)).toNat →
      Shrinks start size step (firstFit err keys maxErr start s size (size - s))
  /-- None fits, but the step divides the size. -/
  | divides {size step fuel s} : 10 < size → shrinkStep tenth size fuel step = some s → 0 < s →
      (size : ℤ) - s < 2 ^ 31 → firstFit err keys maxErr start s size (size - s) = 0 →
      Shrinks start size step (tailEnd err keys maxErr start)
  /-- The size of the first prefix is no `int`, and the prefix becomes the segment. -/
  | large {size step fuel s offset} : 10 < size → shrinkStep tenth size fuel step = some s →
      0 < s → 2 ^ 31 ≤ (size : ℤ) - s → Shrinks start (size - s.toNat) (tenth s) offset →
      Shrinks start size step offset

end Conditions

variable {fit : List K → LinearRegressionModel K} {data : List (K × Val)} {kv kv' : KanvaIndex K}
  {start stop : ℕ}

/-! ### The bounds on the rounds -/

theorem shrinkStep_mono {scale : ℤ → ℤ} {size fuel : ℕ} {step s : ℤ}
    (h : shrinkStep scale size fuel step = some s) {fuel' : ℕ} (hle : fuel ≤ fuel') :
    shrinkStep scale size fuel' step = some s := by
  induction fuel generalizing step fuel' with
  | zero => cases h
  | succ fuel ih =>
    obtain ⟨n, rfl⟩ := Nat.exists_eq_add_of_le' hle
    rw [shrinkStep] at h
    rw [← Nat.add_assoc, shrinkStep]
    split at h
    · next hlt => rw [if_pos hlt]; exact ih h (by omega)
    · next hlt => rw [if_neg hlt]; exact h

theorem backwardLoop_mono {fuel : ℕ} {step stop : ℤ} {r : KanvaIndex K × ℤ}
    (h : backwardLoop fit data start step fuel kv stop = some r) {fuel' : ℕ} (hle : fuel ≤ fuel') :
    backwardLoop fit data start step fuel' kv stop = some r := by
  induction fuel generalizing stop fuel' with
  | zero => cases h
  | succ fuel ih =>
    obtain ⟨n, rfl⟩ := Nat.exists_eq_add_of_le' hle
    rw [backwardLoop] at h
    rw [← Nat.add_assoc, backwardLoop]
    split at h
    · next hpos =>
      rw [if_pos hpos]
      split at h
      · cases h
      · next seg hseg =>
        simp only at h ⊢
        split at h
        · next herr => rw [if_pos herr]; exact h
        · next herr => rw [if_neg herr]; exact ih h (by omega)
    · next hpos => rw [if_neg hpos]; exact h

theorem backwardTrain_mono {scale : ℤ → ℤ} {fuel size : ℕ} {step : ℤ} {r : KanvaIndex K × ℤ}
    (h : backwardTrain fit scale data start fuel kv size step = some r) {fuel' : ℕ}
    (hle : fuel ≤ fuel') : backwardTrain fit scale data start fuel' kv size step = some r := by
  -- the bound is shared by the reduction of the step, the loop over the sizes and the next call
  induction fuel generalizing kv size step fuel' with
  | zero => cases h
  | succ fuel ih =>
    obtain ⟨n, rfl⟩ := Nat.exists_eq_add_of_le' hle
    rw [backwardTrain] at h
    rw [← Nat.add_assoc, backwardTrain]
    split at h
    · cases h
    next size' step' hsel =>
    have hsel' : (if size ≤ 10 then some (10, 1)
        else (shrinkStep scale size (n + fuel) step).map (size, ·)) = some (size', step') := by
      split at hsel
      · next hsize => rw [if_pos hsize]; exact hsel
      · next hsize =>
        rw [if_neg hsize]
        obtain ⟨s, hs, heq⟩ := Option.map_eq_some_iff.mp hsel
        rw [shrinkStep_mono hs (by omega), Option.map_some, heq]
    rw [hsel']
    simp only at h ⊢
    split at h
    · cases h
    · next hstep =>
      rw [if_neg hstep]
      split at h
      · cases h
      · next kv₁ stop₁ hloop =>
        rw [backwardLoop_mono hloop (by omega)]
        simp only
        split at h
        · next hpos => rw [if_pos hpos]; exact h
        · next hpos => rw [if_neg hpos]; exact ih h (by omega)

/-! ### Shrinking a segment -/

section Slices

variable {err : List K → ℕ} {keys : List K}

omit [Zero K] in
/-- The first prefix that fits is not longer than the first one tried, and a step too far at
most. -/
theorem firstFit_bounds (err : List K → ℕ) (keys : List K) (start : ℕ) (maxErr : ℤ) {step : ℤ}
    (hstep : 1 ≤ step) (n : ℕ) (stop : ℤ) (hpos : 0 < stop) (hn : stop ≤ n) :
    firstFit err keys maxErr start step n stop ≤ stop ∧
      -step < firstFit err keys maxErr start step n stop ∧
      (0 < firstFit err keys maxErr start step n stop →
        Fits err keys maxErr start (firstFit err keys maxErr start step n stop).toNat) := by
  induction n generalizing stop with
  | zero => omega
  | succ n ih =>
    rw [firstFit]
    split
    · next hno =>
      by_cases hnext : 0 < stop - step
      · obtain ⟨hle, hlt, hfit⟩ := ih (stop - step) hnext (by omega)
        exact ⟨by omega, hlt, hfit⟩
      · -- the next number is not positive, so the search stops there
        have hend : firstFit err keys maxErr start step n (stop - step) = stop - step := by
          cases n with
          | zero => rfl
          | succ n => rw [firstFit, if_neg (fun h => hnext h.1)]
        rw [hend]
        exact ⟨by omega, by omega, fun h => absurd h hnext⟩
    · next hfits =>
      refine ⟨le_rfl, by omega, fun _ => ?_⟩
      by_contra hno
      exact hfits ⟨hpos, hno⟩

omit [Zero K] in
/-- A slice of one key fits. -/
theorem fits_one (herr : ∀ k, err [k] = 0) (hlt : start < keys.length) (maxErr : ℤ) :
    Fits err keys maxErr start 1 := by
  have hslice : (keys.drop start).take 1 = [keys[start]] := by
    rw [List.drop_eq_getElem_cons hlt]
    rfl
  rw [Fits, hslice, herr]
  exact Nat.zero_le _

omit [Zero K] in
/-- In a tail of 9 keys, a prefix fits. -/
theorem tailEnd_bounds (herr : ∀ k, err [k] = 0) (hlt : start < keys.length) (maxErr : ℤ) :
    0 < tailEnd err keys maxErr start ∧ tailEnd err keys maxErr start ≤ 9 := by
  obtain ⟨hle, hlt', -⟩ := firstFit_bounds err keys start maxErr le_rfl 9 9 (by decide) le_rfl
  refine ⟨?_, hle⟩
  -- the search goes down by 1, so it does not pass the prefix of one key
  have hone : ∀ (n : ℕ) (stop : ℤ), 0 < stop → stop ≤ n →
      0 < firstFit err keys maxErr start 1 n stop := by
    intro n
    induction n with
    | zero => exact fun stop hpos hn => hpos
    | succ n ih =>
      intro stop hpos hn
      rw [firstFit]
      split
      · next hno =>
        have hne : stop ≠ 1 := by
          rintro rfl
          exact hno.2 (fits_one herr hlt maxErr)
        exact ih _ (by omega) (by omega)
      · exact hpos
  exact hone 9 9 (by decide) le_rfl

omit [Zero K] in
/-- The error of a slice of the training data. -/
theorem fits_iff {maxErr : ℤ} {size : ℕ} :
    Fits (errorOf fit) (data.map Prod.fst) maxErr start size ↔
      (fit (((data.drop start).take size).map Prod.fst)).maxErr ≤ toSize maxErr := by
  rw [Fits, errorOf, List.map_take, List.map_drop]

end Slices

/-- The `learning_step` is at most the size. -/
theorem growStep_le {n k : ℕ} (fuel step : ℕ) (h : n < 10 ^ k) :
    growStep fuel n step ≤ step * 10 ^ k := by
  induction fuel generalizing n k step with
  | zero => exact Nat.le_mul_of_pos_right step (Nat.pow_pos (by decide))
  | succ fuel ih =>
    rw [growStep]
    split
    · exact Nat.le_mul_of_pos_right step (Nat.pow_pos (by decide))
    · next hne =>
      cases k with
      | zero => omega
      | succ k =>
        rw [Nat.pow_succ'] at h
        calc growStep fuel (n / 10) (step * 10) ≤ step * 10 * 10 ^ k := ih _ (by omega)
          _ = step * 10 ^ (k + 1) := by rw [Nat.pow_succ', Nat.mul_assoc]

/-- `learning_step` does not overflow before the number of slots does. -/
theorem Appendable.growStep_lt {size : ℕ} (h : Appendable size) :
    growStep size (toInt32 (size / 10 : ℕ)).natAbs 1 < 2 ^ 31 := by
  have hsize : size + 1 < 2 ^ 31 := h
  have hint : (toInt32 (size / 10 : ℕ)).natAbs = size / 10 := by
    rw [toInt32_of_lt (by omega), Int.natAbs_natCast]
  rw [hint]
  exact (growStep_le (k := 9) size 1 (by omega)).trans_lt (by decide)

/-- Appending a slice that fits fails only when it has too many slots. -/
theorem appendModel_isSome {seg : List (K × Val)} (hpos : 0 ≤ kv.maxErr) (hlt : kv.maxErr < 2 ^ 31)
    (hfits : (fit (seg.map Prod.fst)).maxErr ≤ toSize kv.maxErr) :
    (kv.appendModel (fit (seg.map Prod.fst)) seg).isSome ↔ Appendable seg.length := by
  have hsize : (toSize kv.maxErr : ℤ) = kv.maxErr := by
    rw [toSize]
    omega
  have herr : toInt32 (fit (seg.map Prod.fst)).maxErr ≤ kv.maxErr := by
    rw [toInt32_of_lt (by omega)]
    omega
  rw [appendModel]
  split
  · next h => exact iff_of_true rfl h.2.1
  · next h => exact iff_of_false Bool.false_ne_true fun happ => h ⟨happ.growStep_lt, happ, herr⟩

/-- The loop of `backward_train` stops at the first prefix that fits, and appends it. -/
theorem backwardLoop_eq {fuel : ℕ} {step stop stop' : ℤ} (hstep : 1 ≤ step) {n : ℕ} (hn : stop ≤ n)
    (hloop : backwardLoop fit data start step fuel kv stop = some (kv', stop')) :
    stop' = firstFit (errorOf fit) (data.map Prod.fst) kv.maxErr start step n stop ∧
      (0 < stop → start + stop ≤ data.length) ∧
      (0 < stop' → kv.appendModel (fit (((data.drop start).take stop'.toNat).map Prod.fst))
        ((data.drop start).take stop'.toNat) = some kv') ∧ (¬ 0 < stop' → kv' = kv) := by
  -- the rounds of the loop are those of `firstFit`, until a prefix fits or none is left
  induction fuel generalizing n stop with
  | zero => cases hloop
  | succ fuel ih =>
    rw [backwardLoop] at hloop
    split at hloop
    · next hpos =>
      split at hloop
      · cases hloop
      next seg hseg =>
      obtain ⟨hle, rfl⟩ := readSlice_eq_some.mp hseg
      obtain ⟨n, rfl⟩ : ∃ m, n = m + 1 := ⟨n - 1, by omega⟩
      rw [firstFit]
      simp only at hloop
      split at hloop
      · next herr =>
        rw [if_neg (fun h => h.2 (fits_iff.mpr herr))]
        obtain ⟨kv₁, happ, heq⟩ := Option.map_eq_some_iff.mp hloop
        obtain ⟨rfl, rfl⟩ := Prod.ext_iff.mp heq
        exact ⟨rfl, fun _ => by omega, fun _ => happ, fun h => absurd hpos h⟩
      · next herr =>
        rw [if_pos ⟨hpos, mt fits_iff.mp herr⟩]
        obtain ⟨heq, -, happ, hkv⟩ := ih (n := n) (by omega) hloop
        exact ⟨heq, fun _ => by omega, happ, hkv⟩
    · next hpos =>
      obtain ⟨rfl, rfl⟩ := Prod.ext_iff.mp (Option.some.inj hloop)
      have hend : firstFit (errorOf fit) (data.map Prod.fst) kv.maxErr start step n stop =
          stop := by
        cases n with
        | zero => rfl
        | succ n => rw [firstFit, if_neg (fun h => hpos h.1)]
      exact ⟨hend.symm, fun h => absurd h hpos, fun h => absurd h hpos, fun _ => rfl⟩

/-- The loop ends, if all prefixes can be read and the one that fits can be appended. -/
theorem backwardLoop_returns (fit : List K → LinearRegressionModel K) (data : List (K × Val))
    (start : ℕ) (kv : KanvaIndex K) {step : ℤ} (hstep : 1 ≤ step) (stop : ℤ) (n : ℕ)
    (hpos : 0 ≤ kv.maxErr) (hlt : kv.maxErr < 2 ^ 31) (hn : stop ≤ n)
    (hread : start + stop ≤ data.length)
    (happ : 0 < firstFit (errorOf fit) (data.map Prod.fst) kv.maxErr start step n stop →
      Appendable (firstFit (errorOf fit) (data.map Prod.fst) kv.maxErr start step n stop).toNat) :
    ∃ fuel kv', backwardLoop fit data start step fuel kv stop =
      some (kv', firstFit (errorOf fit) (data.map Prod.fst) kv.maxErr start step n stop) := by
  -- a prefix that does not fit is left behind; one that fits has to be appended
  induction n generalizing stop with
  | zero =>
    refine ⟨1, kv, ?_⟩
    rw [backwardLoop, if_neg (by omega)]
    rfl
  | succ n ih =>
    rw [firstFit] at happ ⊢
    by_cases hno : 0 < stop ∧
        ¬ Fits (errorOf fit) (data.map Prod.fst) kv.maxErr start stop.toNat
    · rw [if_pos hno] at happ ⊢
      obtain ⟨fuel, kv', hloop⟩ := ih (stop - step) (by omega) (by omega) happ
      have herr := mt fits_iff.mpr hno.2
      refine ⟨fuel + 1, kv', ?_⟩
      rw [backwardLoop, if_pos hno.1, readSlice, if_pos (by omega)]
      simp only
      rw [if_neg herr]
      exact hloop
    · rw [if_neg hno] at happ ⊢
      by_cases hstop : 0 < stop
      · have hfits : Fits (errorOf fit) (data.map Prod.fst) kv.maxErr start stop.toNat := by
          by_contra hn
          exact hno ⟨hstop, hn⟩
        have hlen : ((data.drop start).take stop.toNat).length = stop.toNat := by
          rw [List.length_take, List.length_drop]
          omega
        have hfits := fits_iff.mp hfits
        have hsome := (appendModel_isSome hpos hlt hfits).mpr (by rw [hlen]; exact happ hstop)
        obtain ⟨kv', hkv⟩ := Option.isSome_iff_exists.mp hsome
        refine ⟨1, kv', ?_⟩
        rw [backwardLoop, if_pos hstop, readSlice, if_pos (by omega)]
        simp only
        rw [if_pos hfits, hkv, Option.map_some]
      · refine ⟨1, kv, ?_⟩
        rw [backwardLoop, if_neg hstop]

/-- The step is reduced until it is less than the size. -/
theorem shrinkStep_spec {size fuel : ℕ} {step s : ℤ} (hsize : 10 < size) (hstep : 0 ≤ step)
    (hlt : step < 2 ^ 31) (h : shrinkStep tenth size fuel step = some s) :
    0 ≤ s ∧ s ≤ step ∧ s < size := by
  induction fuel generalizing step with
  | zero => cases h
  | succ fuel ih =>
    have hu : (toUint32 step : ℤ) = step := by
      rw [toUint32]
      omega
    rw [shrinkStep] at h
    split at h
    · rw [tenth] at h
      obtain ⟨hge, hle, hlt'⟩ := ih (by omega) (by omega) h
      exact ⟨hge, by omega, hlt'⟩
    · obtain rfl := Option.some.inj h
      exact ⟨hstep, le_rfl, by omega⟩

/-- The reduction of the step ends with a positive step. -/
theorem shrinkStep_returns {size : ℕ} (step : ℤ) (hsize : 10 < size) (hstep : 1 ≤ step)
    (hlt : step < 2 ^ 31) : ∃ fuel s, shrinkStep tenth size fuel step = some s ∧ 1 ≤ s := by
  have hu : (toUint32 step : ℤ) = step := by
    rw [toUint32]
    omega
  by_cases hle : size ≤ toUint32 step
  · obtain ⟨fuel, s, hs, hpos⟩ := shrinkStep_returns (tenth step) hsize
      (by rw [tenth]; omega) (by rw [tenth]; omega)
    exact ⟨fuel + 1, s, by rw [shrinkStep, if_pos hle, hs], hpos⟩
  · exact ⟨1, step, by rw [shrinkStep, if_neg hle], hstep⟩
termination_by step.toNat
decreasing_by rw [tenth]; omega

/-- `backward_train` on at most 10 keys. -/
theorem backwardTrain_short {scale : ℤ → ℤ} {fuel size : ℕ} {step : ℤ} (hsize : size ≤ 10) :
    backwardTrain fit scale data start (fuel + 1) kv size step =
      match backwardLoop fit data start 1 fuel kv 9 with
      | none => none
      | some (kv', stop) =>
        if 0 < stop then some (kv', stop)
        else backwardTrain fit scale data start fuel kv' (toUint32 stop) (scale 1) := by
  have hnine : toInt32 (((10 : ℕ) : ℤ) - 1) = 9 := toInt32_of_lt (n := 9) (by norm_num)
  rw [backwardTrain, if_pos hsize]
  simp only
  rw [if_neg (by decide)]
  cases hback : backwardLoop fit data start 1 fuel kv 9 with
  | none => rw [hnine, hback]
  | some p => rw [hnine, hback]

/-- `backward_train` on more than 10 keys, after the step has been reduced. -/
theorem backwardTrain_long {scale : ℤ → ℤ} {fuel size : ℕ} {step s : ℤ} (hsize : 10 < size)
    (hs : shrinkStep scale size fuel step = some s) (hpos : 0 < s) :
    backwardTrain fit scale data start (fuel + 1) kv size step =
      match backwardLoop fit data start s fuel kv (toInt32 (size - s)) with
      | none => none
      | some (kv', stop) =>
        if 0 < stop then some (kv', stop)
        else backwardTrain fit scale data start fuel kv' (toUint32 stop) (scale s) := by
  rw [backwardTrain, if_neg (by omega), hs, Option.map_some]
  simp only
  cases backwardLoop fit data start s fuel kv (toInt32 (size - s)) with
  | none => rw [if_neg (by omega)]
  | some p => rw [if_neg (by omega)]

/-- The assertion on the step of `backward_train`. -/
theorem backwardTrain_step_pos {scale : ℤ → ℤ} {fuel size : ℕ} {step : ℤ} {r : KanvaIndex K × ℤ}
    (hsize : 10 < size) (h : backwardTrain fit scale data start (fuel + 1) kv size step = some r) :
    ∃ s, shrinkStep scale size fuel step = some s ∧ 0 < s := by
  rw [backwardTrain, if_neg (by omega)] at h
  cases hs : shrinkStep scale size fuel step with
  | none =>
    rw [hs] at h
    cases h
  | some s =>
    rw [hs, Option.map_some] at h
    simp only at h
    split at h
    · cases h
    · exact ⟨s, rfl, by omega⟩

theorem toInt32_of_mem {z : ℤ} (hge : -2 ^ 31 ≤ z) (hlt : z < 2 ^ 31) : toInt32 z = z :=
  Int.bmod_eq_of_le_mul_two (by omega) (by omega)

theorem toInt32_sub {z : ℤ} (hge : 2 ^ 31 ≤ z) (hlt : z < 2 ^ 32) : toInt32 z = z - 2 ^ 32 := by
  rw [toInt32, Int.bmod_def]
  split_ifs <;> omega

/-- A negative size makes the step run out: the assertion fails. -/
theorem backwardTrain_negative {fuel : ℕ} {stop step : ℤ} (hneg : stop < 0) (hstep : 0 ≤ step)
    (hge : -2 ^ 31 ≤ stop - 2 * step) :
    backwardTrain fit tenth data start fuel kv (toUint32 stop) step = none := by
  induction fuel generalizing stop step with
  | zero => rfl
  | succ fuel ih =>
    have hsize : (toUint32 stop : ℤ) = stop + 2 ^ 32 := by
      rw [toUint32]
      omega
    -- as a `uint32_t` the size is large, but the first prefix has a negative size again
    rw [Option.eq_none_iff_forall_ne_some]
    intro r hr
    obtain ⟨s, hs, hpos⟩ := backwardTrain_step_pos (by omega) hr
    obtain ⟨-, hle, -⟩ := shrinkStep_spec (by omega) hstep (by omega) hs
    have hstop : toInt32 (toUint32 stop - s) = stop - s := by
      rw [hsize, toInt32_sub (by omega) (by omega)]
      omega
    rw [backwardTrain_long (by omega) hs hpos, hstop] at hr
    split at hr
    · cases hr
    next kv₁ stop₁ hloop =>
    obtain ⟨fuel, rfl⟩ : ∃ n, fuel = n + 1 := by
      cases fuel with
      | zero => cases hs
      | succ n => exact ⟨n, rfl⟩
    rw [backwardLoop, if_neg (by omega)] at hloop
    obtain ⟨rfl, rfl⟩ := Prod.ext_iff.mp (Option.some.inj hloop)
    simp only at hr
    rw [if_neg (by omega), ih (by omega) (by rw [tenth]; omega) (by rw [tenth]; omega)] at hr
    cases hr

/-- The size of the first prefix, when it is an `int`. -/
theorem toInt32_leading {size : ℕ} {s : ℤ} (hlt : s < size) (hint : (size : ℤ) - s < 2 ^ 31) :
    toInt32 (size - s) = size - s := toInt32_of_mem (by omega) hint

/-- Shrinking a segment of at most 10 keys. -/
theorem backwardTrain_short_iff (hfit : ∀ k, (fit [k]).maxErr = 0) (hpos : 0 ≤ kv.maxErr)
    (hlt : kv.maxErr < 2 ^ 31) (size : ℕ) (step offset : ℤ) (hshort : size ≤ 10)
    (hroom : start < data.length) :
    (∃ fuel kv', backwardTrain fit tenth data start fuel kv size step = some (kv', offset)) ↔
      start + 9 ≤ data.length ∧
        offset = tailEnd (errorOf fit) (data.map Prod.fst) kv.maxErr start := by
  have hmap : start < (data.map Prod.fst).length := by rwa [List.length_map]
  have herr : ∀ k, errorOf fit [k] = 0 := hfit
  have htail := tailEnd_bounds herr hmap kv.maxErr
  constructor
  · -- the first size tried is 9, whatever is left of the data
    rintro ⟨fuel, kv', h⟩
    obtain ⟨fuel, rfl⟩ : ∃ n, fuel = n + 1 := by
      cases fuel with
      | zero => cases h
      | succ n => exact ⟨n, rfl⟩
    rw [backwardTrain_short hshort] at h
    split at h
    · cases h
    next kv₁ stop₁ hloop =>
    obtain ⟨rfl, hle, happ, -⟩ := backwardLoop_eq (n := 9) le_rfl le_rfl hloop
    have hroom' := hle (by decide)
    have hoffset := (Prod.ext_iff.mp (Option.some.inj ((if_pos htail.1).symm.trans h))).2
    exact ⟨by omega, hoffset.symm⟩
  -- the descent from 9 ends at the latest with a single key
  · rintro ⟨hle, rfl⟩
    obtain ⟨fuel, kv', hloop⟩ := backwardLoop_returns fit data start kv le_rfl 9 9
      hpos hlt le_rfl (by omega) (fun _ => show (tailEnd (errorOf fit) (data.map Prod.fst)
        kv.maxErr start).toNat + 1 < 2 ^ 31 by omega)
    refine ⟨fuel + 1, kv', ?_⟩
    rw [backwardTrain_short hshort, hloop]
    exact if_pos htail.1

/-- When `backward_train` returns, the segment could be shrunk to the prefix it has appended. -/
theorem shrinks_of_backwardTrain (hfit : ∀ k, (fit [k]).maxErr = 0) (hpos : 0 ≤ kv.maxErr)
    (hlt : kv.maxErr < 2 ^ 31) {fuel size : ℕ} {step offset : ℤ}
    (hroom : start < data.length) (hread : start + size ≤ data.length) (hsize : size < 2 ^ 32)
    (hstep : 0 ≤ step) (hstep' : step < 2 ^ 28)
    (h : backwardTrain fit tenth data start fuel kv size step = some (kv', offset)) :
    Shrinks (errorOf fit) (data.map Prod.fst) kv.maxErr start size step offset := by
  induction fuel generalizing size step with
  | zero => cases h
  | succ fuel ih =>
    rcases le_or_gt size 10 with hshort | hlong
    · obtain ⟨hle, rfl⟩ := (backwardTrain_short_iff hfit hpos hlt _ _ _ hshort hroom).mp ⟨_, _, h⟩
      exact .short hshort (by rwa [List.length_map])
    · obtain ⟨s, hs, hspos⟩ := backwardTrain_step_pos hlong h
      obtain ⟨-, hle, hslt⟩ := shrinkStep_spec hlong hstep (by omega) hs
      rw [backwardTrain_long hlong hs hspos] at h
      split at h
      · cases h
      next kv₁ stop₁ hloop =>
      -- a first size that is no `int` is negative, and the next call is shorter by one step
      rcases lt_or_ge ((size : ℤ) - s) (2 ^ 31) with hint | hbig
      · rw [toInt32_leading hslt hint] at hloop
        obtain ⟨hstop, -, happ, hkv⟩ := backwardLoop_eq (n := size) (by omega) (by omega) hloop
        obtain ⟨hub, hlb, hfits⟩ := firstFit_bounds (errorOf fit) (data.map Prod.fst) start
          kv.maxErr hspos size (size - s) (by omega) (by omega)
        rw [← hstop] at hub hlb hfits
        rcases lt_trichotomy stop₁ 0 with hneg | hzero | hstop₁
        · -- the sizes tried jump over 0
          obtain rfl := hkv (by omega)
          rw [if_neg (by omega), backwardTrain_negative hneg (by rw [tenth]; omega)
            (by rw [tenth]; omega)] at h
          cases h
        · obtain rfl := hkv (by omega)
          subst hzero
          rw [if_neg (by omega)] at h
          obtain ⟨-, rfl⟩ :=
            (backwardTrain_short_iff hfit hpos hlt _ _ _ (by decide) hroom).mp ⟨_, _, h⟩
          exact .divides hlong hs hspos hint hstop.symm
        · -- a prefix fits
          have hlen : ((data.drop start).take stop₁.toNat).length = stop₁.toNat := by
            rw [List.length_take, List.length_drop]
            omega
          have hsome := (appendModel_isSome hpos hlt (fits_iff.mp (hfits hstop₁))).mp
            (Option.isSome_iff_exists.mpr ⟨_, happ hstop₁⟩)
          rw [if_pos hstop₁] at h
          obtain ⟨-, rfl⟩ := Prod.ext_iff.mp (Option.some.inj h)
          rw [hlen, hstop] at hsome
          rw [hstop]
          exact .fits hlong hs hspos hint (by rwa [← hstop]) hsome
      · rw [toInt32_sub hbig (by omega)] at hloop
        obtain ⟨fuel, rfl⟩ : ∃ n, fuel = n + 1 := by
          cases fuel with
          | zero => cases hs
          | succ n => exact ⟨n, rfl⟩
        rw [backwardLoop, if_neg (by omega)] at hloop
        obtain ⟨rfl, rfl⟩ := Prod.ext_iff.mp (Option.some.inj hloop)
        have hnext : toUint32 (size - s - 2 ^ 32) = size - s.toNat := by
          rw [toUint32]
          omega
        simp only at h
        rw [if_neg (by omega), hnext] at h
        exact .large hlong hs hspos hbig
          (ih (by omega) (by omega) (by rw [tenth]; omega) (by rw [tenth]; omega) h)

/-- A segment that can be shrunk to a prefix is shrunk to it. -/
theorem Shrinks.returns (hfit : ∀ k, (fit [k]).maxErr = 0) (hpos : 0 ≤ kv.maxErr)
    (hlt : kv.maxErr < 2 ^ 31) {size : ℕ} {step offset : ℤ} (hroom : start < data.length)
    (hread : start + size ≤ data.length) (hsize : size < 2 ^ 32) (hstep : 0 ≤ step)
    (hstep' : step < 2 ^ 28)
    (h : Shrinks (errorOf fit) (data.map Prod.fst) kv.maxErr start size step offset) :
    ∃ fuel kv', backwardTrain fit tenth data start fuel kv size step = some (kv', offset) := by
  -- the bounds on the rounds are put together by their maximum
  induction h with
  | short hshort hle =>
    rw [List.length_map] at hle
    exact (backwardTrain_short_iff hfit hpos hlt _ _ _ hshort hroom).mpr ⟨hle, rfl⟩
  | @fits size step fuel s hlong hs hspos hint hstop hfits =>
    obtain ⟨-, hle, hslt⟩ := shrinkStep_spec hlong hstep (by omega) hs
    obtain ⟨fuel', kv', hloop⟩ := backwardLoop_returns fit data start kv
      (show 1 ≤ s by omega) (size - s) size hpos hlt (by omega) (by omega) (fun _ => hfits)
    refine ⟨max fuel fuel' + 1, kv', ?_⟩
    rw [backwardTrain_long hlong (shrinkStep_mono hs (le_max_left _ _)) hspos,
      toInt32_leading hslt hint, backwardLoop_mono hloop (le_max_right _ _)]
    exact if_pos hstop
  | @divides size step fuel s hlong hs hspos hint hstop =>
    obtain ⟨-, hle, hslt⟩ := shrinkStep_spec hlong hstep (by omega) hs
    obtain ⟨fuel', kv', hloop⟩ := backwardLoop_returns fit data start kv
      (show 1 ≤ s by omega) (size - s) size hpos hlt (by omega) (by omega) (fun h => by omega)
    obtain ⟨-, -, -, hkv⟩ := backwardLoop_eq (n := size) (by omega) (by omega) hloop
    rw [hstop] at hloop hkv
    obtain rfl := hkv (by decide)
    -- the next call has the size 0
    obtain ⟨fuel'', kv₁, hrec⟩ := (backwardTrain_short_iff hfit hpos hlt (toUint32 0) (tenth s) _
      (by decide) hroom).mpr ⟨by omega, rfl⟩
    refine ⟨max fuel (max fuel' fuel'') + 1, kv₁, ?_⟩
    rw [backwardTrain_long hlong (shrinkStep_mono hs (le_max_left _ _)) hspos,
      toInt32_leading hslt hint, backwardLoop_mono hloop (le_max_of_le_right (le_max_left _ _))]
    simp only
    rw [if_neg (by decide)]
    exact backwardTrain_mono hrec (le_max_of_le_right (le_max_right _ _))
  | @large size step fuel s offset hlong hs hspos hbig _ ih =>
    obtain ⟨-, hle, hslt⟩ := shrinkStep_spec hlong hstep (by omega) hs
    obtain ⟨fuel', kv₁, hrec⟩ := ih (by omega) (by omega) (by rw [tenth]; omega)
      (by rw [tenth]; omega)
    have hnext : toUint32 (size - s - 2 ^ 32) = size - s.toNat := by
      rw [toUint32]
      omega
    refine ⟨max fuel (fuel' + 1) + 1, kv₁, ?_⟩
    rw [backwardTrain_long hlong (shrinkStep_mono hs (le_max_left _ _)) hspos,
      toInt32_sub hbig (by omega)]
    -- the loop ends at once, as the size is negative
    have hloop : backwardLoop fit data start s (max fuel (fuel' + 1)) kv (size - s - 2 ^ 32) =
        some (kv, size - s - 2 ^ 32) := by
      have hone : backwardLoop fit data start s 1 kv (size - s - 2 ^ 32) =
          some (kv, size - s - 2 ^ 32) := by
        rw [backwardLoop, if_neg (by omega)]
      exact backwardLoop_mono hone (by omega)
    rw [hloop]
    simp only
    rw [if_neg (by omega), hnext]
    exact backwardTrain_mono hrec (by omega)

end KanvaIndex

end KanvaImpl
