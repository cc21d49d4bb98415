import Kanva.Common
import Mathlib.Algebra.Order.Group.Int
import Mathlib.Data.List.Basic
import Mathlib.Order.Defs.LinearOrder

/-!
# The measured error of a linear model

`max_error` takes the greatest difference between the position of a key and its prediction. The
difference is one of two `long long`s, the error is an `int`, and the running maximum is a `size_t`
again, so an error with its highest bit set counts as more than `2 ^ 63`.

## Main results

* `LinearRegressionModel.maxError?_isSome_iff`: `max_error` returns when no difference overflows.
* `LinearRegressionModel.maxError?_spec`: the result is the greatest converted difference.
* `LinearRegressionModel.maxError?_of_near`: it is a bound when no prediction is far off.
-/

namespace Kanva

/-- `std::abs` of the difference of two `long long`s. There is no result on overflow. -/
def absDiff? (actual pred : ℤ) : Option ℕ :=
  if (actual - pred).natAbs < 2 ^ 63 then some (actual - pred).natAbs else none

namespace LinearRegressionModel

variable {K : Type} (predict : K → ℕ)

/-- The loop of `max_error`, from a maximum on. A key without a position is read out of bounds. -/
def maxErrorLoop? : ℕ → List K → List ℕ → Option ℕ
  | max, [], _ => some max
  | _, _ :: _, [] => none
  | max, key :: keys, pos :: positions =>
    (absDiff? (toInt64 pos) (toInt64 (predict key))).bind fun d =>
      let error := toInt32 d
      maxErrorLoop? (if toSize error > max then toSize error else max) keys positions

/-- `max_error` -/
def maxError? (keys : List K) (positions : List ℕ) : Option ℕ :=
  maxErrorLoop? predict 0 keys positions

/-- The difference between a position and the prediction for its key, as `long long`s. -/
def difference (key : K) (pos : ℕ) : ℕ := (toInt64 pos - toInt64 (predict key)).natAbs

/-- The `size_t` that a difference is compared and stored as. -/
def recorded (d : ℕ) : ℕ := toSize (toInt32 d)

theorem recorded_eq (d : ℕ) :
    recorded d = if d % 2 ^ 32 < 2 ^ 31 then d % 2 ^ 32 else d % 2 ^ 32 + (2 ^ 64 - 2 ^ 32) :=
  toSize_toInt32 d

theorem recorded_lt (d : ℕ) : recorded d < 2 ^ 64 := by
  rw [recorded_eq]
  split <;> omega

variable {predict} {keys : List K} {positions : List ℕ}

/-- One round of the loop. -/
theorem maxErrorLoop?_cons (m : ℕ) (key : K) (pos : ℕ) :
    maxErrorLoop? predict m (key :: keys) (pos :: positions) =
      if difference predict key pos < 2 ^ 63 then
        maxErrorLoop? predict (max m (recorded (difference predict key pos))) keys positions
      else none := by
  rw [maxErrorLoop?, absDiff?]
  show (if difference predict key pos < 2 ^ 63 then some (difference predict key pos)
    else none).bind _ = _
  split
  · rw [Option.bind_some]
    refine congrArg (maxErrorLoop? predict · keys positions) ?_
    show (if recorded (difference predict key pos) > m then recorded (difference predict key pos)
      else m) = _
    rw [max_def]
    split_ifs <;> omega
  · rfl

/-- The loop returns when no difference overflows. -/
theorem maxErrorLoop?_isSome_iff (hlen : keys.length = positions.length) (m : ℕ) :
    (maxErrorLoop? predict m keys positions).isSome ↔
      ∀ p ∈ keys.zip positions, difference predict p.1 p.2 < 2 ^ 63 := by
  induction keys generalizing positions m with
  | nil => simp [maxErrorLoop?]
  | cons key keys ih =>
    cases positions with
    | nil => simp at hlen
    | cons pos positions =>
      rw [maxErrorLoop?_cons, List.zip_cons_cons, List.forall_mem_cons]
      split
      · next hlt =>
        rw [ih (Nat.succ.inj hlen)]
        exact (and_iff_right hlt).symm
      · next hge => exact ⟨fun h => (by cases h), fun h => absurd h.1 hge⟩

/-- The loop keeps the greatest converted difference. -/
theorem maxErrorLoop?_spec {m e : ℕ} (h : maxErrorLoop? predict m keys positions = some e) :
    m ≤ e ∧ (∀ p ∈ keys.zip positions, recorded (difference predict p.1 p.2) ≤ e) ∧
      (e = m ∨ ∃ p ∈ keys.zip positions, e = recorded (difference predict p.1 p.2)) := by
  induction keys generalizing positions m with
  | nil =>
    obtain rfl : m = e := by simpa [maxErrorLoop?] using h
    simp
  | cons key keys ih =>
    cases positions with
    | nil => simp [maxErrorLoop?] at h
    | cons pos positions =>
      rw [maxErrorLoop?_cons] at h
      split at h
      · obtain ⟨hle, hall, hex⟩ := ih h
        rw [List.zip_cons_cons, List.forall_mem_cons]
        obtain ⟨hm, hrec⟩ := max_le_iff.mp hle
        refine ⟨hm, ⟨hrec, hall⟩, ?_⟩
        -- the maximum of the rest is the one that this round has left, or one of its records
        rcases hex with heq | ⟨p, hp, heq⟩
        · rcases max_choice m (recorded (difference predict key pos)) with hmax | hmax
          · exact .inl (heq.trans hmax)
          · exact .inr ⟨_, List.mem_cons_self, heq.trans hmax⟩
        · exact .inr ⟨p, List.mem_cons_of_mem _ hp, heq⟩
      · cases h

/-! ### The positions of `train` -/

section Range

variable [Zero K]

/-- `train` gives every key its index as its position. -/
theorem zip_range (keys : List K) :
    keys.zip (List.range keys.length) =
      (List.range keys.length).map fun i => (keys.getD i 0, i) := by
  refine List.ext_getElem (by simp) fun i hi hi' => ?_
  have hlt : i < keys.length := by simpa using hi'
  simp [List.getD, hlt]

theorem forall_mem_zip_range {P : K × ℕ → Prop} :
    (∀ p ∈ keys.zip (List.range keys.length), P p) ↔
      ∀ i < keys.length, P (keys.getD i 0, i) := by
  rw [zip_range]
  simp

theorem exists_mem_zip_range {P : K × ℕ → Prop} :
    (∃ p ∈ keys.zip (List.range keys.length), P p) ↔
      ∃ i < keys.length, P (keys.getD i 0, i) := by
  rw [zip_range]
  simp

/-- `max_error` returns when no difference overflows. -/
theorem maxError?_isSome_iff : (maxError? predict keys (List.range keys.length)).isSome ↔
    ∀ i < keys.length, difference predict (keys.getD i 0) i < 2 ^ 63 :=
  (maxErrorLoop?_isSome_iff List.length_range.symm 0).trans
    (forall_mem_zip_range (P := fun p => difference predict p.1 p.2 < 2 ^ 63))

/-- The result of `max_error` is the greatest converted difference. -/
theorem maxError?_spec {e : ℕ}
    (h : maxError? predict keys (List.range keys.length) = some e) :
    (∀ i < keys.length, recorded (difference predict (keys.getD i 0) i) ≤ e) ∧
      (e = 0 ∨ ∃ i < keys.length, e = recorded (difference predict (keys.getD i 0) i)) := by
  obtain ⟨-, hall, hex⟩ := maxErrorLoop?_spec h
  refine ⟨forall_mem_zip_range.mp hall, hex.imp id fun h => ?_⟩
  exact (exists_mem_zip_range (P := fun p => e = recorded (difference predict p.1 p.2))).mp h

theorem maxError?_lt {e : ℕ} (h : maxError? predict keys (List.range keys.length) = some e) :
    e < 2 ^ 64 := by
  obtain ⟨-, heq | ⟨i, -, heq⟩⟩ := maxError?_spec h
  · omega
  · rw [heq]
    exact recorded_lt _

omit [Zero K] in
/-- The difference of a near prediction is its own one. -/
theorem difference_of_near {key : K} {pos : ℕ} (hpos : pos < 2 ^ 62)
    (hnear : ((predict key : ℤ) - pos).natAbs < 2 ^ 31) :
    difference predict key pos = ((predict key : ℤ) - pos).natAbs := by
  rw [difference, toInt64_of_lt (by omega), toInt64_of_lt (by omega)]
  omega

/-- When no prediction is `2 ^ 31` or more off, the measured error is a bound. -/
theorem maxError?_of_near (hlen : keys.length ≤ 2 ^ 62)
    (hnear : ∀ i < keys.length, ((predict (keys.getD i 0) : ℤ) - i).natAbs < 2 ^ 31) :
    ∃ e < 2 ^ 31, maxError? predict keys (List.range keys.length) = some e ∧
      (⟨predict, e⟩ : LinearRegressionModel K).Accurate keys := by
  -- such an error is what the difference is, fits in an `int`, and is recorded as it is
  have hdiff : ∀ i < keys.length, difference predict (keys.getD i 0) i =
      ((predict (keys.getD i 0) : ℤ) - i).natAbs := fun i hi =>
    difference_of_near (by omega) (hnear i hi)
  have hrec : ∀ i < keys.length, recorded (difference predict (keys.getD i 0) i) =
      ((predict (keys.getD i 0) : ℤ) - i).natAbs := by
    intro i hi
    have hlt := hnear i hi
    rw [recorded_eq, hdiff i hi, if_pos (by omega)]
    omega
  have hfits : ∀ i < keys.length, difference predict (keys.getD i 0) i < 2 ^ 63 := by
    intro i hi
    have hlt := hnear i hi
    rw [hdiff i hi]
    omega
  obtain ⟨e, he⟩ := Option.isSome_iff_exists.mp (maxError?_isSome_iff.mpr hfits)
  obtain ⟨hall, hex⟩ := maxError?_spec he
  refine ⟨e, ?_, he, fun i hi => ?_⟩
  · rcases hex with heq | ⟨i, hi, heq⟩
    · omega
    · rw [heq, hrec i hi]
      exact hnear i hi
  · -- cutting a prediction to the last index takes it no farther off
    have hle := hall i hi
    rw [hrec i hi] at hle
    show min (predict (keys.getD i 0)) (keys.length - 1) ≤ i + e ∧
      i ≤ min (predict (keys.getD i 0)) (keys.length - 1) + e
    omega

end Range

end LinearRegressionModel

end Kanva
