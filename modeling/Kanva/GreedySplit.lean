import Mathlib.Order.Nat
import Mathlib.Tactic.Common

/-!
# The fewest parts of a range

A range is divided from left to right, and each part is made as long as a property allows. If the
property passes on to smaller ranges, no other division has fewer parts.

## Main results

* `Divides.length_le`: a division whose parts cannot be extended has the fewest parts.
-/

namespace GreedySplit

variable {P : ℕ → ℕ → Prop} {n a a' b : ℕ} {l l' : List (ℕ × ℕ)}

/-- A division of the numbers from `a` below `n` into consecutive parts with a property. -/
inductive Divides (P : ℕ → ℕ → Prop) (n : ℕ) : ℕ → List (ℕ × ℕ) → Prop
  | nil : Divides P n n []
  | cons {a b : ℕ} {l : List (ℕ × ℕ)} :
      a < b → P a b → Divides P n b l → Divides P n a ((a, b) :: l)

theorem Divides.le (h : Divides P n a l) : a ≤ n := by
  induction h with
  | nil => exact le_rfl
  | cons hlt _ _ ih => exact hlt.le.trans ih

theorem Divides.imp {Q : ℕ → ℕ → Prop} (h : Divides P n a l) (hQ : ∀ q ∈ l, Q q.1 q.2) :
    Divides Q n a l := by
  induction h with
  | nil => exact .nil
  | cons hlt _ _ ih =>
    exact .cons hlt (hQ _ List.mem_cons_self) (ih fun q hq => hQ q (List.mem_cons_of_mem _ hq))

/-- One more part behind a division. -/
theorem Divides.snoc (h : Divides P a b l) (hlt : a < n) (hP : P a n) :
    Divides P n b (l ++ [(a, n)]) := by
  induction h with
  | nil => exact .cons hlt hP .nil
  | cons hab hab' _ ih => exact .cons hab hab' ih

/-- A division stays ahead of every other one, and so has the fewest parts. -/
theorem Divides.length_le (hP : ∀ a b a' b', a ≤ a' → b' ≤ b → P a b → P a' b')
    (h : Divides P n a l) (hmax : ∀ q ∈ l, q.2 = n ∨ ¬ P q.1 (q.2 + 1)) (h' : Divides P n a' l')
    (ha : a' ≤ a) : l.length ≤ l'.length := by
  induction h' generalizing a l with
  | nil =>
    cases h with
    | nil => exact le_rfl
    | cons hlt _ hrest => exact absurd (ha.trans_lt hlt) hrest.le.not_gt
  | @cons a' b' l' hlt' hP' hrest' ih =>
    cases h with
    | nil => exact Nat.zero_le _
    | @cons _ b l hlt hPab hrest =>
      -- the other part does not end behind this one
      have hb : b' ≤ b := by
        by_contra hlt
        rcases hmax (a, b) List.mem_cons_self with heq | hnot
        · exact hlt (hrest'.le.trans heq.ge)
        · exact hnot (hP _ _ _ _ ha (Nat.succ_le_of_lt (not_le.mp hlt)) hP')
      exact Nat.succ_le_succ
        (ih hrest (fun q hq => hmax q (List.mem_cons_of_mem _ hq)) hb)

end GreedySplit
