import Mathlib.Data.Nat.Count
import Mathlib.Data.Nat.Log
import Mathlib.Order.Lattice
import Mathlib.Tactic.Linarith

/-!
# Searches in sorted arrays

An array is a function on positions of which the first `n` matter. `lowerBound` is the position of
the first entry that is not less than a key, by a scan; `binarySearchBranchless` is the search that
halves its step without looking at the result of a comparison; `lastLe` is the search for the last
entry that is not greater than a key, in a window. `readAt?` is a read that fails outside the array,
and `binarySearchBranchless?` the search with such reads.

## Main results

* `lowerBound_eq`: the position is determined by the comparisons on its two sides.
* `count_lt`: the position is the number of smaller entries.
* `binarySearchBranchless_eq`: halving steps compute `lowerBound`.
* `lastLe_eq`: a key inside the window is found at its own position.
* `lastLe_rank`: for any other key, the entries before the insertion point next to the result are
  the smaller ones.
-/

namespace SortedArray

variable {K : Type*}

/-- The entry at position `i` of an array with `n` entries. -/
def readAt? (a : ℕ → K) (n : ℕ) (i : ℤ) : Option K :=
  if 0 ≤ i ∧ i < n then some (a i.toNat) else none

theorem readAt?_eq_some (a : ℕ → K) {n : ℕ} {i : ℤ} (hi : 0 ≤ i) (hlt : i < n) :
    readAt? a n i = some (a i.toNat) :=
  if_pos ⟨hi, hlt⟩

theorem readAt?_natCast (a : ℕ → K) {n i : ℕ} (hi : i < n) : readAt? a n i = some (a i) :=
  readAt?_eq_some a (Int.natCast_nonneg i) (Int.ofNat_lt.mpr hi)

/-- A read that succeeds is inside the array. -/
theorem lt_of_readAt? {a : ℕ → K} {n i : ℕ} {x : K} (h : readAt? a n i = some x) :
    i < n ∧ a i = x := by
  rw [readAt?] at h
  split at h
  · next hin => exact ⟨Int.ofNat_lt.mp hin.2, Option.some.inj h⟩
  · cases h

/-- The scan of `lowerBound` from position `i`, over `n` entries. -/
def lowerBoundFrom [LT K] [DecidableRel (α := K) (· < ·)] (a : ℕ → K) (k : K) (i : ℕ) : ℕ → ℕ
  | 0 => i
  | n + 1 => if a i < k then lowerBoundFrom a k (i + 1) n else i

/-- The position of the first of `n` entries that is not less than `k`, or `n`. -/
def lowerBound [LT K] [DecidableRel (α := K) (· < ·)] (a : ℕ → K) (k : K) (n : ℕ) : ℕ :=
  lowerBoundFrom a k 0 n

/-- The steps `2 ^ (j - 1)`, …, 1 of `binarySearchBranchless`, from the position `pos`. -/
def halvingSteps [LT K] [DecidableRel (α := K) (· < ·)] (a : ℕ → K) (k : K) : ℕ → ℤ → ℤ
  | 0, pos => pos
  | j + 1, pos => halvingSteps a k j (if a (pos + 2 ^ j).toNat < k then pos + 2 ^ j else pos)

/-- The search by halving steps among `n` entries. The first step is the greatest power of two below
`n`, and may overlap the others. -/
def binarySearchBranchless [LE K] [LT K] [DecidableRel (α := K) (· ≤ ·)]
    [DecidableRel (α := K) (· < ·)]
    (a : ℕ → K) (n : ℤ) (k : K) : ℤ :=
  if n ≤ 0 then 0
  else if n = 1 then if k ≤ a 0 then 0 else 1
  else
    let logstep := Nat.log 2 (n - 1).toNat
    let pos := if a (-1 + n - 2 ^ logstep).toNat < k then -1 + n - 2 ^ logstep else -1
    let pos := halvingSteps a k logstep pos + 1
    if k ≤ a pos.toNat then pos else n

/-- `halvingSteps` with checked reads, in an array with `size` entries. -/
def halvingSteps? [LT K] [DecidableRel (α := K) (· < ·)] (a : ℕ → K) (size : ℕ) (k : K) :
    ℕ → ℤ → Option ℤ
  | 0, pos => some pos
  | j + 1, pos => (readAt? a size (pos + 2 ^ j)).bind fun x =>
      halvingSteps? a size k j (if x < k then pos + 2 ^ j else pos)

/-- `binarySearchBranchless` with checked reads. -/
def binarySearchBranchless? [LE K] [LT K] [DecidableRel (α := K) (· ≤ ·)]
    [DecidableRel (α := K) (· < ·)] (a : ℕ → K) (size : ℕ) (n : ℤ) (k : K) : Option ℤ :=
  if n ≤ 0 then some 0
  else if n = 1 then (readAt? a size 0).map fun x => if k ≤ x then 0 else 1
  else
    let logstep := Nat.log 2 (n - 1).toNat
    (readAt? a size (-1 + n - 2 ^ logstep)).bind fun x =>
      (halvingSteps? a size k logstep (if x < k then -1 + n - 2 ^ logstep else -1)).bind fun pos =>
        (readAt? a size (pos + 1)).map fun x => if k ≤ x then pos + 1 else n

/-- The search for the last entry that is not greater than `k` between `lo` and `hi`, in at most the
given number of rounds; `lo` itself is not looked at. -/
def lastLe [LE K] [DecidableRel (α := K) (· ≤ ·)] (a : ℕ → K) (k : K) : ℕ → ℕ → ℕ → ℕ
  | 0, lo, _ => lo
  | n + 1, lo, hi =>
    if lo = hi then lo
    else
      let mid := (hi + lo + 2) / 2
      if a mid ≤ k then lastLe a k n mid hi else lastLe a k n lo (mid - 1)

variable [LinearOrder K] (a : ℕ → K) (k : K)

/-! ### `lowerBound` -/

private theorem lowerBoundFrom_spec (i n : ℕ) :
    i ≤ lowerBoundFrom a k i n ∧ lowerBoundFrom a k i n ≤ i + n ∧
      (∀ j, i ≤ j → j < lowerBoundFrom a k i n → a j < k) ∧
      (lowerBoundFrom a k i n < i + n → k ≤ a (lowerBoundFrom a k i n)) := by
  induction n generalizing i with
  | zero => exact ⟨le_rfl, le_rfl, fun j h h' => by simp only [lowerBoundFrom] at h'; omega,
      fun h => absurd h (lt_irrefl _)⟩
  | succ n ih =>
    rw [lowerBoundFrom]
    split
    · next hlt =>
      obtain ⟨hge, hle, hbefore, hat⟩ := ih (i + 1)
      refine ⟨by omega, by omega, fun j hj hj' => ?_, fun h => hat (by omega)⟩
      rcases Nat.lt_or_eq_of_le hj with hij | rfl
      · exact hbefore j hij hj'
      · exact hlt
    · next hnlt =>
      exact ⟨le_rfl, by omega, fun j h h' => by omega, fun _ => not_lt.mp hnlt⟩

theorem lowerBound_le (n : ℕ) : lowerBound a k n ≤ n := by
  have hle := (lowerBoundFrom_spec a k 0 n).2.1
  rwa [Nat.zero_add] at hle

variable {a k} {n i : ℕ}

/-- Every entry before the position is less than the key. -/
theorem lt_of_lt_lowerBound (hi : i < lowerBound a k n) : a i < k :=
  (lowerBoundFrom_spec a k 0 n).2.2.1 i (Nat.zero_le i) hi

/-- The entry at the position is not less than the key. -/
theorem le_key_lowerBound (hlt : lowerBound a k n < n) : k ≤ a (lowerBound a k n) :=
  (lowerBoundFrom_spec a k 0 n).2.2.2 (by rwa [Nat.zero_add])

/-- The position is the only one between smaller and larger entries. -/
theorem lowerBound_eq (hi : i ≤ n) (hlt : ∀ j < i, a j < k) (hge : i < n → k ≤ a i) :
    lowerBound a k n = i := by
  have hle := lowerBound_le a k n
  rcases lt_trichotomy (lowerBound a k n) i with h | h | h
  · exact absurd (hlt _ h) (not_lt.mpr (le_key_lowerBound (by omega)))
  · exact h
  · exact absurd (lt_of_lt_lowerBound h) (not_lt.mpr (hge (by omega)))

/-- The position in an array of one entry. -/
theorem lowerBound_one : lowerBound a k 1 = if k ≤ a 0 then 0 else 1 := by
  split
  · next hk => exact lowerBound_eq (Nat.zero_le 1) (fun j hj => absurd hj j.not_lt_zero) fun _ => hk
  · next hk =>
    refine lowerBound_eq le_rfl (fun j hj => ?_) fun hlt => absurd hlt (lt_irrefl 1)
    obtain rfl : j = 0 := by omega
    exact not_le.mp hk

/-- The position among fewer entries. -/
theorem lowerBound_of_le {m : ℕ} (hm : m ≤ n) : lowerBound a k m = min (lowerBound a k n) m := by
  refine lowerBound_eq (Nat.min_le_right _ _)
    (fun j hj => lt_of_lt_lowerBound (n := n) ?_) fun h => ?_
  · exact hj.trans_le (Nat.min_le_left _ _)
  · have hlt : lowerBound a k n < m := by omega
    rw [Nat.min_eq_left hlt.le]
    exact le_key_lowerBound (hlt.trans_le hm)

/-- In a sorted array the entries before the position are exactly the smaller ones. -/
theorem lt_lowerBound_iff (hmono : ∀ i j, i ≤ j → j < n → a i ≤ a j) (hi : i < n) :
    i < lowerBound a k n ↔ a i < k := by
  refine ⟨lt_of_lt_lowerBound, fun hlt => ?_⟩
  by_contra hge
  have hge : lowerBound a k n ≤ i := not_lt.mp hge
  exact absurd ((le_key_lowerBound (by omega)).trans (hmono _ i hge hi)) (not_le.mpr hlt)

/-- In a sorted array the position is the number of smaller entries. -/
theorem count_lt (hmono : ∀ i j, i ≤ j → j < n → a i ≤ a j) :
    Nat.count (fun i => a i < k) n = lowerBound a k n := by
  have hle := lowerBound_le a k n
  have hbelow : Nat.count (fun i => a i < k) (lowerBound a k n) = lowerBound a k n :=
    Nat.count_of_forall fun j hj => lt_of_lt_lowerBound hj
  have habove : Nat.count (fun j => a (lowerBound a k n + j) < k) (n - lowerBound a k n) = 0 := by
    refine Nat.count_of_forall_not fun j hj => ?_
    exact fun hlt => absurd ((lt_lowerBound_iff hmono (by omega)).mpr hlt) (by omega)
  have hsplit := Nat.count_add (fun i => a i < k) (lowerBound a k n) (n - lowerBound a k n)
  rw [Nat.add_sub_cancel' hle, hbelow, habove] at hsplit
  exact hsplit

/-! ### Halving steps -/

/-- The steps reach the last of the first `n - 1` entries that is less than the key, when it lies at
most the sum of the steps ahead. -/
private theorem halvingSteps_spec (hmono : ∀ i j, i ≤ j → j < n → a i ≤ a j) (j : ℕ) (pos : ℤ)
    (hlo : -1 ≤ pos) (hbelow : pos < lowerBound a k n) (hroom : pos + 2 ^ j < n)
    (hreach : min (lowerBound a k n : ℤ) (n - 1) ≤ pos + 2 ^ j) :
    halvingSteps a k j pos + 1 = min (lowerBound a k n : ℤ) (n - 1) := by
  induction j generalizing pos with
  | zero =>
    rw [halvingSteps]
    rw [pow_zero] at hroom hreach
    omega
  | succ j ih =>
    rw [halvingSteps]
    have hpow : (0 : ℤ) < 2 ^ j := by positivity
    rw [pow_succ] at hroom hreach
    obtain ⟨q, hq⟩ : ∃ q : ℕ, pos + 2 ^ j = q := ⟨(pos + 2 ^ j).toNat, by omega⟩
    have hiff := lt_lowerBound_iff (k := k) hmono (show q < n by omega)
    rw [hq, Int.toNat_natCast, ← hq]
    split
    · next hlt =>
      have hqlt := hiff.mpr hlt
      exact ih _ (by omega) (by omega) (by omega) (by omega)
    · next hnlt =>
      have hqge : ¬ q < lowerBound a k n := fun h => hnlt (hiff.mp h)
      exact ih _ hlo hbelow (by omega) (by omega)

/-- The search by halving steps finds the first entry that is not less than the key. -/
theorem binarySearchBranchless_eq (hmono : ∀ i j, i ≤ j → j < n → a i ≤ a j) :
    binarySearchBranchless a n k = lowerBound a k n := by
  have hle := lowerBound_le a k n
  rw [binarySearchBranchless]
  split
  · omega
  split
  · next hone =>
    obtain rfl : n = 1 := by omega
    have hiff := lt_lowerBound_iff (k := k) hmono Nat.one_pos
    split
    · next hk =>
      have : ¬ 0 < lowerBound a k 1 := fun h => absurd (hiff.mp h) (not_lt.mpr hk)
      omega
    · next hk =>
      have := hiff.mpr (not_le.mp hk)
      omega
  next hpos hone =>
  simp only
  have hm : (↑n - 1 : ℤ).toNat = n - 1 := by omega
  rw [hm]
  obtain ⟨s, hs⟩ : ∃ s : ℕ, s = 2 ^ Nat.log 2 (n - 1) := ⟨_, rfl⟩
  have hsle : s ≤ n - 1 := hs ▸ Nat.pow_log_le_self 2 (by omega)
  have hslt : n - 1 < s * 2 := by
    rw [hs, ← pow_succ]
    exact Nat.lt_pow_succ_log_self (by omega) _
  have hcast : (2 : ℤ) ^ Nat.log 2 (n - 1) = s := by
    rw [hs]
    push_cast
    rfl
  have hsteps : ∀ pos : ℤ, -1 ≤ pos → pos < lowerBound a k n → pos + s < n →
      min (lowerBound a k n : ℤ) (n - 1) ≤ pos + s →
      halvingSteps a k (Nat.log 2 (n - 1)) pos + 1 = min (lowerBound a k n : ℤ) (n - 1) :=
    fun pos h₁ h₂ h₃ h₄ => halvingSteps_spec hmono _ pos h₁ h₂ (hcast ▸ h₃) (hcast ▸ h₄)
  -- after the first step the rest of the array is within reach of the others
  have hfirst : halvingSteps a k (Nat.log 2 (n - 1))
      (if a (-1 + n - 2 ^ Nat.log 2 (n - 1) : ℤ).toNat < k
        then -1 + n - 2 ^ Nat.log 2 (n - 1) else -1) + 1 = min (lowerBound a k n : ℤ) (n - 1) := by
    rw [hcast]
    have hidx : (-1 + n - s : ℤ).toNat = n - 1 - s := by omega
    have hiff := lt_lowerBound_iff (k := k) hmono (show n - 1 - s < n by omega)
    rw [hidx]
    split
    · next hlt =>
      have := hiff.mpr hlt
      exact hsteps _ (by omega) (by omega) (by omega) (by omega)
    · next hnlt =>
      have : ¬ n - 1 - s < lowerBound a k n := fun h => hnlt (hiff.mp h)
      exact hsteps _ (by omega) (by omega) (by omega) (by omega)
  rw [hfirst]
  have hiff := lt_lowerBound_iff (k := k) hmono
    (show (min (lowerBound a k n : ℤ) (n - 1)).toNat < n by omega)
  split
  · next hk =>
    have := mt hiff.mp (not_lt.mpr hk)
    omega
  · next hk =>
    have := hiff.mpr (not_le.mp hk)
    omega

private theorem halvingSteps?_eq {size : ℕ} {n : ℤ} (hn : n ≤ size) (j : ℕ) (pos : ℤ)
    (hlo : -1 ≤ pos) (hroom : pos + 2 ^ j < n) :
    halvingSteps? a size k j pos = some (halvingSteps a k j pos) ∧
      -1 ≤ halvingSteps a k j pos ∧ halvingSteps a k j pos + 1 < n := by
  induction j generalizing pos with
  | zero =>
    rw [pow_zero] at hroom
    exact ⟨rfl, hlo, hroom⟩
  | succ j ih =>
    have hpow : (0 : ℤ) < 2 ^ j := by positivity
    rw [pow_succ] at hroom
    rw [halvingSteps?, halvingSteps, readAt?_eq_some a (by omega) (by omega), Option.bind_some]
    split
    · exact ih _ (by omega) (by omega)
    · exact ih _ hlo (by omega)

/-- All reads of the search are inside the array when it has at least `n` entries. -/
theorem binarySearchBranchless?_eq {size : ℕ} {n : ℤ} (hn : n ≤ size) :
    binarySearchBranchless? a size n k = some (binarySearchBranchless a n k) := by
  rw [binarySearchBranchless?, binarySearchBranchless]
  split
  · rfl
  split
  · rw [readAt?_eq_some a le_rfl (by omega)]
    rfl
  next hpos hone =>
  simp only
  have hle : 2 ^ Nat.log 2 (n - 1).toNat ≤ (n - 1).toNat := Nat.pow_log_le_self 2 (by omega)
  have hstep : (2 : ℤ) ^ Nat.log 2 (n - 1).toNat ≤ n - 1 := by
    have hcast := Int.ofNat_le.mpr hle
    push_cast at hcast
    omega
  have hpow : (0 : ℤ) < 2 ^ Nat.log 2 (n - 1).toNat := by positivity
  rw [readAt?_eq_some a (by omega) (by omega), Option.bind_some]
  have hsteps : ∀ pos : ℤ, -1 ≤ pos → pos + 2 ^ Nat.log 2 (n - 1).toNat < n →
      ((halvingSteps? a size k (Nat.log 2 (n - 1).toNat) pos).bind fun pos =>
        (readAt? a size (pos + 1)).map fun x => if k ≤ x then pos + 1 else n) =
      some (if k ≤ a (halvingSteps a k (Nat.log 2 (n - 1).toNat) pos + 1).toNat
        then halvingSteps a k (Nat.log 2 (n - 1).toNat) pos + 1 else n) := by
    intro pos hlo hroom
    obtain ⟨heq, hge, hlt⟩ := halvingSteps?_eq (a := a) (k := k) hn _ pos hlo hroom
    rw [heq, Option.bind_some, readAt?_eq_some a (by omega) (by omega), Option.map_some]
  exact hsteps _ (by split <;> omega) (by split <;> omega)

/-! ### The last entry in a window -/

/-- The result of `lastLe` is in the window, whatever the entries are. -/
theorem lastLe_le (fuel lo hi : ℕ) (hle : lo ≤ hi) : lastLe a k fuel lo hi ≤ hi := by
  induction fuel generalizing lo hi with
  | zero => exact hle
  | succ fuel ih =>
    rw [lastLe]
    split
    · exact hle
    · simp only
      split
      · exact ih _ _ (by omega)
      · exact (ih _ _ (by omega)).trans (by omega)

/-- The result of `lastLe` is in the window, is not greater than the key unless it is the left end,
and is followed by greater entries. -/
theorem lastLe_spec (hmono : ∀ i j, i ≤ j → j < n → a i ≤ a j) (fuel lo hi : ℕ) (hlo : lo ≤ hi)
    (hhi : hi < n) (hfuel : hi - lo ≤ fuel) :
    lo ≤ lastLe a k fuel lo hi ∧ lastLe a k fuel lo hi ≤ hi ∧
      (lo < lastLe a k fuel lo hi → a (lastLe a k fuel lo hi) ≤ k) ∧
      ∀ j, lastLe a k fuel lo hi < j → j ≤ hi → k < a j := by
  -- the window always has the answer, and shrinks in every round
  induction fuel generalizing lo hi with
  | zero =>
    rw [lastLe]
    exact ⟨le_rfl, hlo, fun h => absurd h (lt_irrefl _), fun j hj hj' => by omega⟩
  | succ fuel ih =>
    rw [lastLe]
    split
    · exact ⟨le_rfl, hlo, fun h => absurd h (lt_irrefl _), fun j hj hj' => by omega⟩
    next hne =>
    simp only
    -- the middle is behind the left end, so both halves are shorter than the window
    obtain ⟨mid, hmid⟩ : ∃ mid, mid = (hi + lo + 2) / 2 := ⟨_, rfl⟩
    rw [← hmid]
    split
    · next hk =>
      obtain ⟨h₁, h₂, h₃, h₄⟩ := ih mid hi (by omega) hhi (by omega)
      refine ⟨by omega, h₂, fun _ => ?_, h₄⟩
      rcases Nat.lt_or_eq_of_le h₁ with hlt | heq
      · exact h₃ hlt
      · rwa [← heq]
    · next hk =>
      obtain ⟨h₁, h₂, h₃, h₄⟩ := ih lo (mid - 1) (by omega) (by omega) (by omega)
      refine ⟨h₁, by omega, h₃, fun j hj hj' => ?_⟩
      rcases Nat.lt_or_ge (mid - 1) j with hlt | hge
      · exact (not_le.mp hk).trans_le (hmono mid j (by omega) (by omega))
      · exact h₄ j hj hge

/-- A key inside the window is found at its own position. -/
theorem lastLe_eq (hmono : ∀ i j, i < j → j < n → a i < a j) {fuel lo hi : ℕ} (hlo : lo ≤ i)
    (hi' : i ≤ hi) (hhi : hi < n) (hfuel : hi - lo ≤ fuel) : lastLe a (a i) fuel lo hi = i := by
  have hle : ∀ i j, i ≤ j → j < n → a i ≤ a j := fun i j hij hj => by
    rcases Nat.lt_or_eq_of_le hij with h | rfl
    · exact (hmono i j h hj).le
    · exact le_rfl
  obtain ⟨h₁, h₂, h₃, h₄⟩ := lastLe_spec (k := a i) hle fuel lo hi (by omega) hhi hfuel
  rcases lt_trichotomy (lastLe a (a i) fuel lo hi) i with h | h | h
  · exact absurd (h₄ i h hi') (lt_irrefl _)
  · exact h
  · exact absurd (hmono i _ h (by omega)) (not_lt.mpr (h₃ (by omega)))

/-- For a key that is in no entry, when the `r` entries before position `r` are the smaller ones and
`r` is in reach of the window: the entry at the result is the last smaller one, or the first of the
greater ones. -/
theorem lastLe_rank (hmono : ∀ i j, i ≤ j → j < n → a i ≤ a j) {r fuel lo hi : ℕ}
    (hbelow : ∀ j < r, a j < k) (habove : ∀ j, r ≤ j → j < n → k < a j) (hlo : lo ≤ hi)
    (hhi : hi < n) (hlor : lo ≤ r) (hrhi : r ≤ hi + 1) (hfuel : hi - lo ≤ fuel) :
    (if k < a (lastLe a k fuel lo hi) then lastLe a k fuel lo hi else lastLe a k fuel lo hi + 1)
      = r := by
  obtain ⟨hge, hle, hres, hafter⟩ := lastLe_spec (k := k) hmono fuel lo hi hlo hhi hfuel
  set res := lastLe a k fuel lo hi
  have hlt_iff : k < a res ↔ r ≤ res := by
    constructor
    · intro hk
      by_contra hlt
      exact absurd (hbelow res (not_le.mp hlt)) hk.not_gt
    · exact fun h => habove res h (by omega)
  -- nothing smaller follows the result in the window
  have hlast : r ≤ res + 1 := by
    by_contra hgt
    exact absurd (hbelow (res + 1) (by omega)) (hafter (res + 1) (by omega) (by omega)).not_gt
  split
  · next hk =>
    have hr := hlt_iff.mp hk
    rcases Nat.lt_or_eq_of_le hge with hlt | heq
    · exact absurd (hres hlt) (not_le.mpr hk)
    · omega
  · next hk =>
    have hr : ¬ r ≤ res := fun h => hk (hlt_iff.mpr h)
    omega

end SortedArray
