import Kanva.Impl.Model.Fidelity
import Kanva.Impl.Model.Locate
import Kanva.Regression.Train

/-!
# Models with a measured error

The model of a retrained bin has the error that `max_error` has measured as its `maxErr`. An error
is kept in an `int`, which drops all but the lowest 32 bits of a difference, and a negative one
becomes a `size_t` of more than `2 ^ 63`.

A prediction that is `2 ^ 31` or more positions off may so be recorded as a small error. The bound
then holds only when another error is recorded as at least as large. A bound of more than `2 ^ 63`
dominates every error, but the sum of it and a position may wrap around in the search.

## Main results

* `TrainingKeys.bounded_iff`: when the measured error bounds all errors.
* `TrainingKeys.located_iff`: when the keys of a model with a bound are located.
* `TrainingKeys.maxError_sound_iff`: when both hold.
* `exact_retraining`: in exact arithmetic, a retrained bin of moderate size is searched without
  fault.
-/

namespace KanvaImpl

open Kanva LinearRegressionModel

/-- The keys that a model is trained on. A vector has fewer than `2 ^ 63` entries. -/
structure TrainingKeys (K : Type) [LinearOrder K] where
  keys : List K
  ne_nil : keys ≠ []
  sorted : keys.Pairwise (· < ·)
  length_lt : keys.length < 2 ^ 63

namespace TrainingKeys

variable {K : Type} [LinearOrder K] [Zero K] (t : TrainingKeys K) (predict : K → Fin (2 ^ 64))

omit [LinearOrder K] [Zero K] in
/-- A model that makes these predictions, with an error. -/
def measured (e : ℕ) : LinearRegressionModel K := ⟨fun key => predict key, e⟩

/-- The prediction for the key at an index. -/
def prediction (i : ℕ) : ℕ := predict (t.keys.getD i 0)

/-- How far the prediction for the key at an index is off inside the array. -/
def offBy (i : ℕ) : ℕ :=
  (((min (t.prediction predict i) (t.keys.length - 1) : ℕ) : ℤ) - i).natAbs

/-- The difference that `max_error` computes for the key at an index. -/
def distance (i : ℕ) : ℕ := difference (fun key => (predict key : ℕ)) (t.keys.getD i 0) i

/-- The errors of these predictions survive their conversions. -/
structure ErrorsRecorded : Prop where
  /-- No difference overflows. -/
  no_overflow : ∀ i < t.keys.length, t.distance predict i < 2 ^ 63
  /-- An error that an `int` cannot hold is dominated by a recorded one. -/
  covered : ∀ i < t.keys.length, 2 ^ 31 ≤ ((t.prediction predict i : ℤ) - i).natAbs →
    ∃ j < t.keys.length, 2 ^ 31 ≤ t.distance predict j % 2 ^ 32 ∨
      t.offBy predict i ≤ t.distance predict j % 2 ^ 32
  /-- A bound that was a negative `int` does not wrap around behind a low prediction. -/
  no_wrap : ∀ i < t.keys.length, ∀ j < t.keys.length, t.prediction predict i < i →
    2 ^ 31 ≤ t.distance predict j % 2 ^ 32 →
      t.prediction predict i + 1 + t.distance predict j % 2 ^ 32 < 2 ^ 32

variable {t predict} {e i : ℕ}

/-- A prediction that is near and does not overflow is recorded with its own error. -/
theorem distance_eq (hi : i < t.keys.length) (hfits : t.distance predict i < 2 ^ 63)
    (hnear : ((t.prediction predict i : ℤ) - i).natAbs < 2 ^ 31) :
    t.distance predict i = ((t.prediction predict i : ℤ) - i).natAbs := by
  have hlen := t.length_lt
  have hlt : t.prediction predict i < 2 ^ 64 := (predict (t.keys.getD i 0)).isLt
  have hdist : t.distance predict i =
      (toInt64 i - toInt64 (t.prediction predict i)).natAbs := rfl
  rw [toInt64_of_lt (hi.trans hlen)] at hdist
  rcases Nat.lt_or_ge (t.prediction predict i) (2 ^ 63) with hsmall | hlarge
  · rw [toInt64_of_lt hsmall] at hdist
    omega
  · -- a negative `long long` is far from every index
    rw [toInt64_of_ge hlarge hlt] at hdist
    omega

theorem offBy_le (hi : i < t.keys.length) :
    t.offBy predict i ≤ ((t.prediction predict i : ℤ) - i).natAbs := by
  rw [offBy]
  omega

/-- The error of a near prediction is recorded. -/
theorem offBy_le_recorded (hi : i < t.keys.length) (hfits : t.distance predict i < 2 ^ 63)
    (hnear : ((t.prediction predict i : ℤ) - i).natAbs < 2 ^ 31) :
    t.offBy predict i ≤ recorded (t.distance predict i) := by
  have hdist := distance_eq hi hfits hnear
  have hle : t.offBy predict i ≤ _ := offBy_le hi
  rw [recorded_eq]
  split <;> omega

/-- The measured error bounds all errors if and only if every error that an `int` cannot hold is
dominated by a recorded one. -/
theorem bounded_iff (h : maxError? (fun key => (predict key : ℕ)) t.keys
    (List.range t.keys.length) = some e) :
    (∀ i < t.keys.length, t.offBy predict i ≤ e) ↔
      ∀ i < t.keys.length, 2 ^ 31 ≤ ((t.prediction predict i : ℤ) - i).natAbs →
        ∃ j < t.keys.length, 2 ^ 31 ≤ t.distance predict j % 2 ^ 32 ∨
          t.offBy predict i ≤ t.distance predict j % 2 ^ 32 := by
  obtain ⟨hall, hex⟩ := maxError?_spec h
  have hfits := maxError?_isSome_iff.mp (Option.isSome_of_eq_some h)
  have hrec : ∀ j < t.keys.length, recorded (t.distance predict j) ≤ e := hall
  -- the measured error is 0 or one of the records, and a near error is recorded as it is
  constructor
  · intro hle i hi _
    rcases hex with rfl | ⟨j, hj, heq⟩
    · exact ⟨i, hi, .inr ((hle i hi).trans (Nat.zero_le _))⟩
    · refine ⟨j, hj, ?_⟩
      -- a record is the lowest 32 bits, or more than `2 ^ 63` when these are a negative `int`
      have hoff := hle i hi
      have heq : e = recorded (t.distance predict j) := heq
      rw [heq, recorded_eq] at hoff
      split at hoff
      · exact .inr hoff
      · left
        omega
  · intro hcovered i hi
    rcases Nat.lt_or_ge ((t.prediction predict i : ℤ) - i).natAbs (2 ^ 31) with hnear | hfar
    · exact (offBy_le_recorded hi (hfits i hi) hnear).trans (hrec i hi)
    · obtain ⟨j, hj, hlow⟩ := hcovered i hi hfar
      refine le_trans ?_ (hrec j hj)
      have hlen := t.length_lt
      have hoff : t.offBy predict i < 2 ^ 63 := by
        rw [offBy]
        omega
      rw [recorded_eq]
      split <;> omega

/-! ### The search -/

section Model

variable {pairs : List (K × Val)}

/-- The model that a bin with these pairs is retrained into. -/
theorem keys_retrained (hp : pairs.map Prod.fst = t.keys) :
    (retrained (fun _ => measured predict e) pairs).capacity = t.keys.length ∧
      (retrained (fun _ => measured predict e) pairs).keys = fun i => t.keys.getD i 0 := by
  rw [← hp, List.length_map]
  exact ⟨rfl, rfl⟩

theorem predict_retrained (hp : pairs.map Prod.fst = t.keys) (i : ℕ) :
    (retrained (fun _ => measured predict e) pairs).predict (t.keys.getD i 0) =
      min (t.prediction predict i) (t.keys.length - 1) := by
  have hpos := List.length_pos_iff.mpr t.ne_nil
  rw [ModelOver.predict, (keys_retrained hp).1]
  show (if t.prediction predict i < t.keys.length then t.prediction predict i else _) = _
  split <;> omega

theorem strictKeys_retrained (hp : pairs.map Prod.fst = t.keys) :
    (retrained (fun _ => measured predict e) pairs).StrictKeys := by
  have hsorted := t.sorted
  rw [← hp, List.pairwise_map] at hsorted
  exact strictKeys_new _ hsorted _

/-- The keys of a model whose error is a bound are located if and only if no sum wraps around. -/
theorem located_iff (he : e < 2 ^ 64) (hbound : ∀ i < t.keys.length, t.offBy predict i ≤ e)
    (hp : pairs.map Prod.fst = t.keys) :
    (∀ i < t.keys.length, (retrained (fun _ => measured predict e) pairs).locate?
        (t.keys.getD i 0) = some i) ↔
      ∀ i < t.keys.length, t.prediction predict i < i →
        t.prediction predict i + 1 + e < 2 ^ 64 := by
  -- what the search needs of the retrained model
  obtain ⟨m, hm⟩ : ∃ m, m = retrained (fun _ => measured predict e) pairs := ⟨_, rfl⟩
  have hlen := t.length_lt
  have hpos := List.length_pos_iff.mpr t.ne_nil
  have hcap : m.capacity = t.keys.length := hm ▸ (keys_retrained hp).1
  have hkeys : ∀ i, m.keys i = t.keys.getD i 0 := fun i => hm ▸ congrFun (keys_retrained hp).2 i
  have hpred : ∀ i, m.predict (t.keys.getD i 0) =
      min (t.prediction predict i) (t.keys.length - 1) := fun i => hm ▸ predict_retrained hp i
  have hmax : m.maxErr = e := by rw [hm]; rfl
  have hstrict : m.StrictKeys := hm ▸ strictKeys_retrained hp
  have hwithin : m.WithinError := by
    intro i hi
    rw [hcap] at hi
    have hoff := hbound i hi
    rw [offBy] at hoff
    rw [hkeys, hpred, hmax]
    omega
  -- the sum is computed for a key behind its predicted position
  have hsum : ∀ i < t.keys.length, m.SumFits (t.keys.getD i 0) ↔
      (t.prediction predict i < i → t.prediction predict i + 1 + e < 2 ^ 64) := by
    intro i hi
    have hlt : m.keys (m.predict (t.keys.getD i 0)) < t.keys.getD i 0 ↔
        t.prediction predict i < i := by
      have hidx : m.predict (t.keys.getD i 0) < m.capacity := by
        rw [hpred, hcap]
        omega
      have hiff := hstrict.lt_iff hidx (show i < m.capacity by omega)
      rw [hkeys i] at hiff
      rw [hiff, hpred]
      omega
    rw [ModelOver.SumFits, hlt, hpred, hcap, hmax]
    refine forall_congr' fun hlow => ?_
    rw [Nat.min_eq_left (by omega), Nat.min_eq_left (by omega)]
  rw [← hm]
  refine forall₂_congr fun i hi => ?_
  rw [← hsum i hi]
  constructor
  · intro hloc
    by_contra hwrap
    rw [ModelOver.locate?_of_wrap (by omega) (by omega) (by omega) hwrap] at hloc
    cases hloc
  · intro hfits
    rw [ModelOver.locate?_of_fits (by omega) (by omega) hfits, ← hkeys i,
      m.locate_keys hstrict hwithin (by omega)]

/-- Only a bound that was a negative `int` can wrap around. -/
theorem no_wrap_iff (h : maxError? (fun key => (predict key : ℕ)) t.keys
    (List.range t.keys.length) = some e) :
    (∀ i < t.keys.length, t.prediction predict i < i →
        t.prediction predict i + 1 + e < 2 ^ 64) ↔
      ∀ i < t.keys.length, ∀ j < t.keys.length, t.prediction predict i < i →
        2 ^ 31 ≤ t.distance predict j % 2 ^ 32 →
          t.prediction predict i + 1 + t.distance predict j % 2 ^ 32 < 2 ^ 32 := by
  obtain ⟨hall, hex⟩ := maxError?_spec h
  have hrec : ∀ j < t.keys.length, recorded (t.distance predict j) ≤ e := hall
  have hlen := t.length_lt
  constructor
  · intro hfits i hi j hj hlow hlarge
    have hsum := hfits i hi hlow
    have hle := hrec j hj
    rw [recorded_eq, if_neg (by omega)] at hle
    omega
  · intro hwrap i hi hlow
    rcases hex with rfl | ⟨j, hj, heq⟩
    · omega
    · have heq : e = recorded (t.distance predict j) := heq
      have hsum := hwrap i hi j hj hlow
      rw [recorded_eq] at heq
      split at heq <;> omega

end Model

/-- `max_error` returns a bound on all errors, and a model that is retrained with this bound locates
each of its keys at its own index, if and only if the errors survive their conversions. -/
theorem maxError_sound_iff (t : TrainingKeys K) (predict : K → Fin (2 ^ 64)) :
    (∃ e, maxError? (fun key => (predict key : ℕ)) t.keys (List.range t.keys.length) = some e ∧
      (∀ i < t.keys.length, t.offBy predict i ≤ e) ∧
      ∀ pairs : List (K × Val), pairs.map Prod.fst = t.keys → ∀ i < t.keys.length,
        (retrained (fun _ => measured predict e) pairs).locate? (t.keys.getD i 0) = some i) ↔
      t.ErrorsRecorded predict := by
  constructor
  · rintro ⟨e, he, hbound, hlocated⟩
    have hlt := maxError?_lt he
    have hzero : (t.keys.map fun key => (key, (0 : Val))).map Prod.fst = t.keys := by
      simp [Function.comp_def]
    refine ⟨maxError?_isSome_iff.mp (Option.isSome_of_eq_some he), (bounded_iff he).mp hbound, ?_⟩
    exact (no_wrap_iff he).mp ((located_iff hlt hbound hzero).mp (hlocated _ hzero))
  · intro h
    obtain ⟨e, he⟩ := Option.isSome_iff_exists.mp (maxError?_isSome_iff.mpr h.no_overflow)
    have hbound := (bounded_iff he).mpr h.covered
    refine ⟨e, he, hbound, fun pairs hp => ?_⟩
    exact (located_iff (maxError?_lt he) hbound hp).mpr ((no_wrap_iff he).mpr h.no_wrap)

/-- The keys 0 and 1. -/
def zeroOne : TrainingKeys ℕ := ⟨[0, 1], by decide, by decide, by decide⟩

/-- The line with slope 1 through `2 ^ 32`. -/
def farAhead (key : ℕ) : Fin (2 ^ 64) := Fin.ofNat (2 ^ 64) (key + 2 ^ 32)

/-- Both predictions are off by `2 ^ 32`, which is 0 as an `int`. The measured error is 0, the
prediction for the key 0 is off by 1 inside the array, and the key is located at index 1. -/
theorem maxError_unsound :
    maxError? (fun key => (farAhead key : ℕ)) zeroOne.keys (List.range zeroOne.keys.length) =
      some 0 ∧
    ¬ zeroOne.offBy farAhead 0 ≤ 0 ∧
    (retrained (fun _ => measured farAhead 0) [(0, 7), (1, 7)]).locate? 0 = some 1 := by
  decide

end TrainingKeys

/-! ### Exact arithmetic -/

open ExactModel in
/-- In exact arithmetic the predictions for at most `2 ^ 20` keys are never far off. A bin with two
or more pairs is then retrained into a model that locates each of its keys, and the slot of every
other key. -/
theorem exact_retraining {pairs : List (ℤ × Val)} (h : Increasing (pairs.map Prod.fst))
    (hlen : pairs.length ≤ 2 ^ 20) (m₀ : ExactModel) :
    ∃ m, m₀.train? (pairs.map Prod.fst) (List.range (pairs.map Prod.fst).length) = some m ∧
      ∀ km, km = retrained (fun _ => ⟨predict m.weights, m.maxErr⟩) pairs →
        (∀ i < pairs.length, km.locate? ((pairs.map Prod.fst).getD i 0) = some i) ∧
        ∀ key, key ∉ pairs.map Prod.fst → km.findBinPos? key = some (km.rank key : ℤ) ∧
          km.insertBinPos? key = some (km.rank key : ℤ) := by
  have hkeys : (pairs.map Prod.fst).length = pairs.length := List.length_map _
  have htwo : 2 ≤ pairs.length := hkeys ▸ h.two_le
  have hsorted : SortedAssoc.Sorted pairs := List.pairwise_map.mp h.sorted
  have hnear : ∀ i < (pairs.map Prod.fst).length,
      ((predict (trained (pairs.map Prod.fst)) ((pairs.map Prod.fst).getD i 0) : ℤ) - i).natAbs <
        2 ^ 31 := fun i hi => h.predict_near (by omega) hi
  obtain ⟨e, he, hmax, hacc⟩ := maxError?_of_near (by omega) hnear
  refine ⟨⟨trained (pairs.map Prod.fst), e⟩, ?_, ?_⟩
  · rw [h.train?_eq, hmax, Option.map_some]
  · rintro km hkm
    obtain ⟨b, rfl⟩ : ∃ b : BoundedModel ℤ (ModelOrBin ℤ), b.toModelOver = km := by
      have hpos : 0 < pairs.length := by omega
      have hsize : pairs.length < 2 ^ 63 := by omega
      have herr : e < 2 ^ 64 := by omega
      subst hkm
      exact ⟨⟨_, hpos, hsize, herr, strictKeys_new _ hsorted _, withinError_new hacc le_rfl⟩, rfl⟩
    have hcap : b.capacity = pairs.length := congrArg ModelOver.capacity hkm
    have herr : b.maxErr = e := congrArg ModelOver.maxErr hkm
    have hkey : b.keys = fun i => (pairs.map Prod.fst).getD i 0 := congrArg ModelOver.keys hkm
    have hpredict : Monotone b.predict := by
      have hmodel : b.model = predict (trained (pairs.map Prod.fst)) := congrArg ModelOver.model hkm
      intro x y hxy
      have hmono := predict_monotone h.slope_bounds.1.le hxy
      rw [ModelOver.predict, ModelOver.predict, hmodel]
      split <;> split <;> omega
    -- the bound is an `int`, so no sum wraps around
    have hfits : ∀ key, b.SumFits key := fun key _ => by omega
    refine ⟨fun i hi => ?_, fun key habsent => ?_⟩
    · have hloc := b.locate_keys b.strictKeys b.withinError (hcap ▸ hi)
      rw [hkey] at hloc
      rw [ModelOver.locate?_of_fits b.capacity_lt b.capacity_pos (hfits _), hloc]
    · have hne : ∀ i < b.capacity, b.keys i ≠ key := by
        intro i hi heq
        rw [hcap] at hi
        rw [hkey] at heq
        simp only [SortedAssoc.getD_map_of_lt Prod.fst hi] at heq
        exact habsent (heq ▸ List.mem_map_of_mem (List.getElem_mem hi))
      have hrank := ModelOver.binPos_eq_rank b.capacity_pos b.strictKeys b.withinError hpredict hne
      have hle := b.rank_le key
      rw [← hrank]
      exact b.slots_of_fits (hfits key) (by omega)

end KanvaImpl
