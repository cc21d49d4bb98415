import Mathlib.Data.List.Nodup
import Mathlib.Order.Lattice
import Mathlib.Data.List.Sort

/-!
# The smallest elements of a list that is not sorted

A walk meets elements in some order, and takes the first `n` it meets. These are the `n` smallest of
a sorted list if and only if the walk meets each of those, and nothing larger before it.

## Main results

* `take_eq_take_iff`: when the first elements of a walk are the smallest ones.
* `leads_append_right`: an element of the later part of a walk leads if it does so there, and the
  earlier part has smaller elements only.
-/

namespace InOrder

variable {α K : Type*} [LinearOrder K] {f : α → K} {X Y W : List α} {w : α}

/-- The walk meets the element, and only smaller ones before. -/
def Leads (f : α → K) (X : List α) (w : α) : Prop :=
  ∃ l₁ l₂, X = l₁ ++ w :: l₂ ∧ ∀ x ∈ l₁, f x < f w

theorem Leads.mem (h : Leads f X w) : w ∈ X := by
  obtain ⟨l₁, l₂, rfl, -⟩ := h
  exact List.mem_append_right _ List.mem_cons_self

/-- Every element of a sorted walk leads. -/
theorem leads_of_sorted (hs : X.Pairwise fun a b => f a < f b) (hw : w ∈ X) : Leads f X w := by
  obtain ⟨l₁, l₂, rfl⟩ := List.append_of_mem hw
  exact ⟨l₁, l₂, rfl, fun x hx => (List.pairwise_append.mp hs).2.2 x hx w List.mem_cons_self⟩

/-- A function that tells the elements of a set apart tells apart the lists of them. -/
theorem map_eq_map_iff {β : Type*} {g : α → β} (hinj : ∀ a ∈ W, ∀ b ∈ W, g a = g b → a = b)
    (hX : X ⊆ W) (hY : Y ⊆ W) : X.map g = Y.map g ↔ X = Y := by
  refine ⟨fun heq => ?_, fun heq => by rw [heq]⟩
  induction X generalizing Y with
  | nil => exact (List.map_eq_nil_iff.mp heq.symm).symm
  | cons x X ih =>
    cases Y with
    | nil => cases heq
    | cons y Y =>
      rw [List.map_cons, List.map_cons, List.cons_eq_cons] at heq
      obtain ⟨hxX, hXW⟩ := List.cons_subset.mp hX
      obtain ⟨hyY, hYW⟩ := List.cons_subset.mp hY
      rw [hinj x hxX y hyY heq.1, ih hXW hYW heq.2]

/-- In a sorted list the elements from a bound on are what is left without those before it. -/
theorem dropWhile_eq_filter (hs : X.Pairwise fun a b => f a < f b) (k : K) :
    (X.dropWhile fun x => f x < k) = X.filter fun x => k ≤ f x := by
  induction X with
  | nil => rfl
  | cons x X ih =>
    obtain ⟨hfirst, hrest⟩ := List.pairwise_cons.mp hs
    by_cases hlt : f x < k
    · rw [List.dropWhile_cons_of_pos (by simpa using hlt),
        List.filter_cons_of_neg (by simpa using hlt), ih hrest]
    · rw [List.dropWhile_cons_of_neg (by simpa using hlt), eq_comm, List.filter_eq_self]
      intro y hy
      rcases List.mem_cons.mp hy with rfl | hy
      · exact decide_eq_true (not_lt.mp hlt)
      · exact decide_eq_true ((not_lt.mp hlt).trans (hfirst y hy).le)

theorem leads_append_left (hw : w ∉ Y) : Leads f (X ++ Y) w ↔ Leads f X w := by
  constructor
  · rintro ⟨l₁, l₂, heq, hlt⟩
    rcases List.append_eq_append_iff.mp heq with ⟨l, rfl, hY⟩ | ⟨l, rfl, hcons⟩
    · exact absurd (hY ▸ List.mem_append_right _ List.mem_cons_self) hw
    · cases l with
      | nil => exact absurd (by rw [← List.nil_append Y, ← hcons]; exact List.mem_cons_self) hw
      | cons x l =>
        obtain ⟨rfl, -⟩ := List.cons_eq_cons.mp hcons
        exact ⟨l₁, l, rfl, hlt⟩
  · rintro ⟨l₁, l₂, rfl, hlt⟩
    exact ⟨l₁, l₂ ++ Y, by rw [List.append_assoc, List.cons_append], hlt⟩

theorem leads_append_right (hw : w ∉ X) :
    Leads f (X ++ Y) w ↔ (∀ x ∈ X, f x < f w) ∧ Leads f Y w := by
  constructor
  · rintro ⟨l₁, l₂, heq, hlt⟩
    rcases List.append_eq_append_iff.mp heq with ⟨l, rfl, rfl⟩ | ⟨l, rfl, hcons⟩
    · exact ⟨fun x hx => hlt x (List.mem_append_left _ hx), l, l₂, rfl,
        fun x hx => hlt x (List.mem_append_right _ hx)⟩
    · cases l with
      | nil => exact ⟨fun x hx => hlt x (by simpa using hx), [], l₂, hcons.symm, by simp⟩
      | cons x l =>
        obtain ⟨rfl, -⟩ := List.cons_eq_cons.mp hcons
        exact absurd (List.mem_append_right _ List.mem_cons_self) hw
  · rintro ⟨hX, l₁, l₂, rfl, hlt⟩
    refine ⟨X ++ l₁, l₂, by rw [List.append_assoc], fun x hx => ?_⟩
    rcases List.mem_append.mp hx with hx | hx
    · exact hX x hx
    · exact hlt x hx

/-- The first `n` elements of a walk are the `n` smallest exactly when each of these leads. -/
theorem take_eq_take_iff (hs : W.Pairwise fun a b => f a < f b) (hX : X.Nodup) (hsub : X ⊆ W)
    (n : ℕ) : X.take n = W.take n ↔ ∀ w ∈ W.take n, Leads f X w := by
  constructor
  · intro heq w hw
    have hsorted : (X.take n).Pairwise fun a b => f a < f b := by
      rw [heq]
      exact hs.sublist (List.take_sublist n W)
    rw [← heq] at hw
    obtain ⟨l₁, l₂, htake, hlt⟩ := leads_of_sorted hsorted hw
    refine ⟨l₁, l₂ ++ X.drop n, ?_, hlt⟩
    rw [← List.cons_append, ← List.append_assoc, ← htake, List.take_append_drop]
  · induction W generalizing X n with
    | nil =>
      rw [List.subset_nil.mp hsub]
      exact fun _ => rfl
    | cons w W ih =>
      intro hleads
      cases n with
      | zero => rfl
      | succ n =>
        -- nothing is smaller than the first element, so the walk starts with it
        obtain ⟨hfirst, hrest⟩ := List.pairwise_cons.mp hs
        obtain ⟨l₁, l₂, rfl, hlt⟩ := hleads w List.mem_cons_self
        have hnil : l₁ = [] := by
          refine List.eq_nil_iff_forall_not_mem.mpr fun x hx => ?_
          rcases List.mem_cons.mp (hsub (List.mem_append_left _ hx)) with rfl | hmem
          · exact lt_irrefl _ (hlt x hx)
          · exact lt_asymm (hlt x hx) (hfirst x hmem)
        subst hnil
        rw [List.nil_append] at hX hsub hleads ⊢
        obtain ⟨hnot, hnodup⟩ := List.nodup_cons.mp hX
        rw [List.take_succ_cons, List.take_succ_cons,
          ih hrest hnodup (fun x hx => ?_) n fun w' hw' => ?_]
        · rcases List.mem_cons.mp (hsub (List.mem_cons_of_mem w hx)) with rfl | hmem
          · exact absurd hx hnot
          · exact hmem
        · have hne : w ≠ w' := by
            rintro rfl
            exact lt_irrefl _ (hfirst w (List.mem_of_mem_take hw'))
          have hleads' := hleads w' (List.mem_cons_of_mem w hw')
          rw [← List.singleton_append, leads_append_right (by simpa using hne.symm)] at hleads'
          exact hleads'.2

end InOrder
