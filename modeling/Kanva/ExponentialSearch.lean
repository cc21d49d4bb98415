import Kanva.SortedArray
import Mathlib.Tactic.Positivity

/-!
# Exponential search in sorted arrays

A search around a start position: `gallopUp` runs to the right in doubling steps until an entry is
not less than the key, `gallopDown` to the left until one is not greater, and `binarySearch` looks
for the key between the two ends. Positions are integers, as they may leave the array.

`gallopUp?`, `gallopDown?` and `binarySearch?` are the same loops with checks: a read outside the
array, a position that is not below a bound, and a missing round are `none`.

## Main results

* `binarySearch_eq`: an entry of a strictly sorted array is found at its position.
* `binarySearch_cases`: the result is a position of the key, or 0.
* `gallopUp?_eq`, `gallopDown?_eq`, `binarySearch?_eq`: when no check fails.
-/

namespace SortedArray

variable {K : Type*}

section Loops

variable [LT K] [DecidableRel (α := K) (· < ·)] (a : ℕ → K) (k : K)

/-- Doubling steps to the right, while the position is at most `hi` and its entry is less than
`k`. -/
def gallopUp (hi : ℤ) : ℕ → ℤ → ℕ → ℤ
  | 0, i, _ => i
  | n + 1, i, e => if i ≤ hi ∧ a i.toNat < k then gallopUp hi n (i + 2 ^ e) (e + 1) else i

/-- Doubling steps to the left, while the position is positive and its entry is greater than `k`. -/
def gallopDown : ℕ → ℤ → ℕ → ℤ
  | 0, i, _ => i
  | n + 1, i, e => if 0 < i ∧ k < a i.toNat then gallopDown n (i - 2 ^ e) (e + 1) else i

/-- The search for an entry equal to `k` between `left` and `right`; 0 when there is none. -/
def binarySearch [DecidableEq K] : ℕ → ℤ → ℤ → ℤ
  | 0, _, _ => 0
  | n + 1, left, right =>
    if left ≤ right then
      let m := left + (right - left) / 2
      if a m.toNat = k then m
      else if a m.toNat < k then binarySearch n (m + 1) right
      else binarySearch n left (m - 1)
    else 0

-- the number of entries, and the bound of the positions
variable (n : ℕ) (bound : ℤ)

/-- `gallopUp` with checks. -/
def gallopUp? (hi : ℤ) : ℕ → ℤ → ℕ → Option ℤ
  | 0, _, _ => none
  | fuel + 1, i, e =>
    if i ≤ hi then
      (readAt? a n i).bind fun x =>
        if x < k then if i + 2 ^ e < bound then gallopUp? hi fuel (i + 2 ^ e) (e + 1) else none
        else some i
    else some i

/-- `gallopDown` with checks. -/
def gallopDown? : ℕ → ℤ → ℕ → Option ℤ
  | 0, _, _ => none
  | fuel + 1, i, e =>
    if 0 < i then
      (readAt? a n i).bind fun x =>
        if k < x then if -bound ≤ i - 2 ^ e then gallopDown? fuel (i - 2 ^ e) (e + 1) else none
        else some i
    else some i

/-- `binarySearch` with checks. -/
def binarySearch? [DecidableEq K] : ℕ → ℤ → ℤ → Option ℤ
  | 0, _, _ => none
  | fuel + 1, left, right =>
    if left ≤ right then
      let m := left + (right - left) / 2
      (readAt? a n m).bind fun x =>
        if x = k then some m
        else if x < k then if m + 1 < bound then binarySearch? fuel (m + 1) right else none
        else binarySearch? fuel left (m - 1)
    else some 0

end Loops

variable [LinearOrder K] {a : ℕ → K} {k : K}

/-- The run to the right ends beyond `hi`, or at an entry that is not less than the key. -/
theorem gallopUp_spec (hi : ℤ) (fuel : ℕ) (i : ℤ) (e : ℕ) (hfuel : hi + 1 - i ≤ fuel) :
    i ≤ gallopUp a k hi fuel i e ∧
      (gallopUp a k hi fuel i e ≤ hi → k ≤ a (gallopUp a k hi fuel i e).toNat) := by
  induction fuel generalizing i e with
  | zero => exact ⟨le_rfl, fun h => by rw [gallopUp] at h; omega⟩
  | succ fuel ih =>
    rw [gallopUp]
    split
    · have hstep : (0 : ℤ) < 2 ^ e := by positivity
      obtain ⟨hle, hend⟩ := ih (i + 2 ^ e) (e + 1) (by omega)
      exact ⟨by omega, hend⟩
    · next hstop => exact ⟨le_rfl, fun h => not_lt.mp fun hlt => hstop ⟨h, hlt⟩⟩

/-- The run to the left ends before the array, or at an entry that is not greater than the key. -/
theorem gallopDown_spec (fuel : ℕ) (i : ℤ) (e : ℕ) (hfuel : i ≤ fuel) :
    gallopDown a k fuel i e ≤ i ∧
      (0 < gallopDown a k fuel i e → a (gallopDown a k fuel i e).toNat ≤ k) := by
  induction fuel generalizing i e with
  | zero => exact ⟨le_rfl, fun h => by rw [gallopDown] at h; omega⟩
  | succ fuel ih =>
    rw [gallopDown]
    split
    · have hstep : (0 : ℤ) < 2 ^ e := by positivity
      obtain ⟨hle, hend⟩ := ih (i - 2 ^ e) (e + 1) (by omega)
      exact ⟨by omega, hend⟩
    · next hstop => exact ⟨le_rfl, fun h => not_lt.mp fun hlt => hstop ⟨h, hlt⟩⟩

/-- The result is a position of the key between the two ends, or 0. -/
theorem binarySearch_cases (fuel : ℕ) (left right : ℤ) :
    binarySearch a k fuel left right = 0 ∨
      left ≤ binarySearch a k fuel left right ∧ binarySearch a k fuel left right ≤ right ∧
        a (binarySearch a k fuel left right).toNat = k := by
  induction fuel generalizing left right with
  | zero => exact .inl rfl
  | succ fuel ih =>
    rw [binarySearch]
    split
    · next hle =>
      simp only
      split
      · next heq => exact .inr ⟨by omega, by omega, heq⟩
      split
      · rcases ih (left + (right - left) / 2 + 1) right with h | ⟨hl, hr, heq⟩
        · exact .inl h
        · exact .inr ⟨by omega, hr, heq⟩
      · rcases ih left (left + (right - left) / 2 - 1) with h | ⟨hl, hr, heq⟩
        · exact .inl h
        · exact .inr ⟨hl, by omega, heq⟩
    · exact .inl rfl

/-- An entry of a strictly sorted array is found at its position. -/
theorem binarySearch_eq {n i : ℕ} (hmono : ∀ i j, i < j → j < n → a i < a j) (fuel : ℕ)
    {left right : ℤ} (hleft : 0 ≤ left) (hli : left ≤ i) (hir : i ≤ right) (hright : right < n)
    (hfuel : right - left < fuel) : binarySearch a (a i) fuel left right = i := by
  induction fuel generalizing left right with
  | zero => omega
  | succ fuel ih =>
    rw [binarySearch, if_pos (hli.trans hir)]
    simp only
    obtain ⟨m, hm⟩ : ∃ m : ℕ, left + (right - left) / 2 = m :=
      ⟨(left + (right - left) / 2).toNat, by omega⟩
    rw [hm, Int.toNat_natCast]
    -- the position stays in the half that is kept
    rcases lt_trichotomy m i with h | rfl | h
    · have hlt := hmono m i h (by omega)
      rw [if_neg hlt.ne, if_pos hlt]
      exact ih (by omega) (by omega) hir hright (by omega)
    · exact if_pos rfl
    · have hlt := hmono i m h (by omega)
      rw [if_neg hlt.ne', if_neg hlt.not_gt]
      exact ih hleft hli (by omega) (by omega) (by omega)

/-! ### Checks -/

variable {n : ℕ} {bound : ℤ}

/-- No check of the run to the right fails when the entries it passes are far below the bound. The
steps double, so each is at most as long as the way behind. -/
theorem gallopUp?_eq {hi i : ℤ} {e : ℕ} (fuel : ℕ) (hhi : hi < n) (hi0 : 0 ≤ i)
    (hstep : (2 : ℤ) ^ e ≤ i + 1)
    (hroom : ∀ j, i ≤ j → j ≤ hi → a j.toNat < k → 2 * j + 1 < bound) (hfuel : hi + 1 - i ≤ fuel) :
    gallopUp? a k n bound hi (fuel + 1) i e = some (gallopUp a k hi fuel i e) := by
  have hpow : (0 : ℤ) < 2 ^ e := by positivity
  induction fuel generalizing i e with
  | zero =>
    rw [gallopUp?, gallopUp, if_neg (by omega)]
  | succ fuel ih =>
    rw [gallopUp?, gallopUp]
    by_cases hle : i ≤ hi
    · rw [if_pos hle, readAt?_eq_some a hi0 (by omega), Option.bind_some]
      by_cases hlt : a i.toNat < k
      · have hbound := hroom i le_rfl hle hlt
        rw [if_pos hlt, if_pos (by omega), if_pos ⟨hle, hlt⟩]
        -- the next step is at most as long as the new way behind
        refine ih (by omega) ?_ (fun j hj => hroom j (by omega)) (by omega) (by positivity)
        rw [pow_succ]
        omega
      · rw [if_neg hlt, if_neg fun h => hlt h.2]
    · rw [if_neg hle, if_neg fun h => hle h.1]

/-- No check of the run to the left fails when it starts below the bound. -/
theorem gallopDown?_eq {start i : ℤ} {e : ℕ} (fuel : ℕ) (hin : i < n) (hstart : start < bound)
    (hle : i ≤ start) (hstep : (2 : ℤ) ^ e ≤ start - i + 2) (hfuel : i ≤ fuel) :
    gallopDown? a k n bound (fuel + 1) i e = some (gallopDown a k fuel i e) := by
  have hpow : (0 : ℤ) < 2 ^ e := by positivity
  induction fuel generalizing i e with
  | zero =>
    rw [gallopDown?, gallopDown, if_neg (by omega)]
  | succ fuel ih =>
    rw [gallopDown?, gallopDown]
    by_cases hpos : 0 < i
    · rw [if_pos hpos, readAt?_eq_some a hpos.le hin, Option.bind_some]
      by_cases hlt : k < a i.toNat
      · rw [if_pos hlt, if_pos (by omega), if_pos ⟨hpos, hlt⟩]
        -- the steps add up to the way back, so the position stays above the negative bound
        refine ih (by omega) (by omega) ?_ (by omega) (by positivity)
        rw [pow_succ]
        omega
      · rw [if_neg hlt, if_neg fun h => hlt h.2]
    · rw [if_neg hpos, if_neg fun h => hpos h.1]

/-- No check of the search between the two ends fails when they are in the array, and the smaller
entries between them below the bound. -/
theorem binarySearch?_eq {left right : ℤ} (fuel : ℕ) (hleft : 0 ≤ left) (hright : right < n)
    (hroom : ∀ j, left ≤ j → j ≤ right → a j.toNat < k → j + 1 < bound)
    (hfuel : right - left < fuel) :
    binarySearch? a k n bound (fuel + 1) left right = some (binarySearch a k fuel left right) := by
  induction fuel generalizing left right with
  | zero => rw [binarySearch?, binarySearch, if_neg (by omega)]
  | succ fuel ih =>
    rw [binarySearch?, binarySearch]
    by_cases hle : left ≤ right
    · obtain ⟨m, hm⟩ : ∃ m, m = left + (right - left) / 2 := ⟨_, rfl⟩
      rw [if_pos hle, if_pos hle]
      simp only
      rw [← hm, readAt?_eq_some a (by omega) (by omega), Option.bind_some]
      by_cases heq : a m.toNat = k
      · rw [if_pos heq, if_pos heq]
      by_cases hlt : a m.toNat < k
      · have hbound := hroom m (by omega) (by omega) hlt
        rw [if_neg heq, if_neg heq, if_pos hlt, if_pos hlt, if_pos hbound]
        exact ih (by omega) hright (fun j hj => hroom j (by omega)) (by omega)
      · rw [if_neg heq, if_neg heq, if_neg hlt, if_neg hlt]
        exact ih hleft (by omega) (fun j hj hj' => hroom j hj (by omega)) (by omega)
    · rw [if_neg hle, if_neg hle]

/-- The result of the checked search is a position of the key, or 0. -/
theorem binarySearch?_cases {fuel : ℕ} {left right r : ℤ}
    (h : binarySearch? a k n bound fuel left right = some r) : r = 0 ∨ readAt? a n r = some k := by
  induction fuel generalizing left right with
  | zero => exact absurd h (by simp [binarySearch?])
  | succ fuel ih =>
    rw [binarySearch?] at h
    split at h
    · obtain ⟨x, hx, h⟩ := Option.bind_eq_some_iff.mp h
      split at h
      · next heq =>
        obtain rfl := Option.some.inj h
        exact .inr (heq ▸ hx)
      split at h
      · split at h
        · exact ih h
        · exact absurd h (by simp)
      · exact ih h
    · exact .inl (Option.some.inj h).symm

end SortedArray
