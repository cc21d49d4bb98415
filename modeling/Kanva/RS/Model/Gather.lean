import Kanva.Common
import Mathlib.Data.List.Flatten

/-!
# The counts of a range query

`rangequery` keeps the number of keys it still wants as a `size_t`. Every `scan` takes this number
and hands the rest back as an `int`. `gather` follows the count from model to model, where a model
is the list of what it has to offer.

## Main results

* `gather_exact`: a count that is small enough when the first model has been scanned does its work.
* `gather_early`: with any larger one the loop ends too early.
-/

namespace KanvaRS

open Kanva

variable {α : Type}

/-- What the loop of `rangequery` takes from the models, and the number of keys still wanted: each
model hands it back as an `int`, and the loop keeps it as a `size_t`. -/
def gather : List (List α) → ℕ → List α × ℕ
  | [], n => ([], n)
  | xs :: xss, n =>
    if 0 < n then
      let (out, r) := gather xss (toSize (toInt32 (n - (xs.take n).length : ℕ)))
      (xs.take n ++ out, r)
    else ([], n)

theorem gather_sublist (xss : List (List α)) (n : ℕ) : (gather xss n).1.Sublist xss.flatten := by
  induction xss generalizing n with
  | nil => exact List.Sublist.refl _
  | cons xs xss ih =>
    rw [gather]
    split
    · exact (List.take_sublist _ _).append (ih _)
    · exact List.nil_sublist _

theorem gather_zero (xss : List (List α)) : gather xss 0 = ([], 0) := by
  cases xss with
  | nil => rfl
  | cons xs xss => rw [gather, if_neg (lt_irrefl 0)]

/-- The loop wants `n` keys where it should want `N`. -/
structure Tracks (n N : ℕ) : Prop where
  mod : n % 2 ^ 32 = N % 2 ^ 32
  le : N ≤ n
  eq : N < 2 ^ 31 → n = N

theorem Tracks.refl (n : ℕ) : Tracks n n := ⟨rfl, le_rfl, fun _ => rfl⟩

/-- The conversions keep a count below `2 ^ 32`. -/
theorem Tracks.converted {n N : ℕ} (h : n % 2 ^ 32 = N % 2 ^ 32) (hN : N < 2 ^ 32) :
    Tracks (toSize (toInt32 n)) N := by
  rw [toSize_toInt32, h]
  refine ⟨?_, ?_, fun hlt => ?_⟩ <;> split <;> omega

/-- When the entries wanted are all seen, and the count is small enough at the first model, the loop
takes exactly these. -/
theorem gather_exact {p : α → Prop} [DecidablePred p] (xss : List (List α)) {n N : ℕ}
    (hn : Tracks n N) (hlen : ∀ xs ∈ xss, xs.length < 2 ^ 31)
    (hp : ∀ x ∈ xss.flatten.take N, p x) (hret : N - min N xss.flatten.length < 2 ^ 31)
    (hfirst : N < 2 ^ 32 + (xss.head?.map List.length).getD 0) :
    gather (xss.map fun xs => xs.filter p) n =
      (xss.flatten.take N, N - min N xss.flatten.length) := by
  -- `n` is what the loop still wants, and `N` what is still missing
  induction xss generalizing n N with
  | nil =>
    rw [List.flatten_nil, List.length_nil, Nat.min_zero, Nat.sub_zero] at hret ⊢
    rw [List.take_nil, List.map_nil, gather, hn.eq hret]
  | cons xs xss ih =>
    have hxs := hlen xs List.mem_cons_self
    have hN : N < 2 ^ 32 + xs.length := hfirst
    rw [List.flatten_cons] at hp hret ⊢
    rw [List.length_append] at hret ⊢
    rw [List.map_cons, gather]
    by_cases hle : N ≤ xs.length
    · -- the first model has enough
      have hnN := hn.eq (by omega)
      rw [List.take_append_of_le_length hle] at hp ⊢
      have htake : (xs.filter p).take N = xs.take N := by
        conv_lhs => rw [← List.take_append_drop N xs]
        rw [List.filter_append, List.filter_eq_self.mpr (by simpa using hp),
          List.take_append_of_le_length (by simp [hle]), List.take_take, min_self]
      rw [hnN, min_eq_left (by omega), Nat.sub_self, htake]
      split
      · simp only [List.length_take, min_eq_left hle, Nat.sub_self]
        rw [show toSize (toInt32 (0 : ℕ)) = 0 from rfl, gather_zero, List.append_nil]
      · rw [show N = 0 by omega, List.take_zero]
    · -- the first model has too few, and all of them are seen
      have hall : xs.filter p = xs := List.filter_eq_self.mpr fun x hx => by
        rw [List.take_append, List.take_of_length_le (by omega)] at hp
        exact decide_eq_true (hp x (List.mem_append_left _ hx))
      have hnle := hn.le
      have hmod := hn.mod
      rw [hall, if_pos (by omega), List.take_of_length_le (show xs.length ≤ n by omega)]
      have htail : Tracks (toSize (toInt32 (n - xs.length : ℕ))) (N - xs.length) :=
        Tracks.converted (by omega) (by omega)
      have hrest := ih htail (fun ys hys => hlen ys (List.mem_cons_of_mem _ hys)) ?_ (by omega)
        (by omega)
      · simp only [hrest]
        rw [List.take_append, List.take_of_length_le (show xs.length ≤ N by omega)]
        refine Prod.ext rfl ?_
        simp only
        omega
      · intro x hx
        refine hp x ?_
        rw [List.take_append]
        exact List.mem_append_right _ hx

/-- When the count is too large after a model, the loop ends too early. -/
theorem gather_length (xss : List (List α)) {n N : ℕ} (hn : n % 2 ^ 32 = N % 2 ^ 32)
    (hN : 2 ^ 32 ≤ N) (hlen : ∀ xs ∈ xss, xs.length < 2 ^ 31) :
    (gather xss (toSize (toInt32 n))).1.length + 2 ^ 32 ≤ N := by
  induction xss generalizing n N with
  | nil =>
    rw [gather, List.length_nil]
    omega
  | cons xs xss ih =>
    rw [gather]
    split
    · next hpos =>
      have hxs := hlen xs List.mem_cons_self
      rw [toSize_toInt32 n, hn] at hpos ⊢
      generalize hr : (if N % 2 ^ 32 < 2 ^ 31 then N % 2 ^ 32
        else N % 2 ^ 32 + (2 ^ 64 - 2 ^ 32)) = r at hpos ⊢
      have hrest := ih (n := r - (xs.take r).length) (N := N - (xs.take r).length)
        (by rw [List.length_take]; split at hr <;> omega)
        (by rw [List.length_take]; split at hr <;> omega)
        (fun ys hys => hlen ys (List.mem_cons_of_mem _ hys))
      rw [List.length_append]
      omega
    · rw [List.length_nil]
      omega

theorem gather_early {p : α → Prop} [DecidablePred p] (xss : List (List α)) {n : ℕ}
    (hlen : ∀ xs ∈ xss, xs.length < 2 ^ 31)
    (hn : 2 ^ 32 + (xss.head?.map List.length).getD 0 ≤ n) :
    (gather (xss.map fun xs => xs.filter p) n).1.length + 2 ^ 32 ≤ n := by
  cases xss with
  | nil =>
    rw [List.map_nil, gather, List.length_nil]
    omega
  | cons xs xss =>
    have hn : 2 ^ 32 + xs.length ≤ n := hn
    have hle := List.length_filter_le p xs
    have hrest := gather_length (xss.map fun xs => xs.filter p)
      (n := n - ((xs.filter p).take n).length) rfl
      (by rw [List.length_take]; omega) ?_
    · rw [List.map_cons, gather, if_pos (by omega), List.length_append]
      omega
    · intro ys hys
      obtain ⟨zs, hzs, rfl⟩ := List.mem_map.mp hys
      exact lt_of_le_of_lt (List.length_filter_le _ _) (hlen zs (List.mem_cons_of_mem _ hzs))

end KanvaRS
