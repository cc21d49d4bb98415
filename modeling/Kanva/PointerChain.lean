import Mathlib.Data.List.Chain
import Mathlib.Data.List.Nodup
import Mathlib.Logic.Function.Iterate
import Mathlib.Order.Lattice

/-!
# Sorted chains of successor pointers

A singly linked structure is a successor function `succ : α → α` with a key on every node. A
`Spine succ key a z l` is the finite chain `l` that starts at `a`, follows `succ`, has strictly
increasing keys and ends at `z`. The lemmas describe what the two pointer writes of a linked list
do to a spine: `Spine.insert` splices a node in after a member, `Spine.unlink` takes the member
after it out, and `Spine.congr` covers every write that leaves the successors of the members alone.
-/

namespace PointerChain

variable {α β : Type*} [Preorder β]

/-- `l` is the chain of `succ` from `a` to `z`, with strictly increasing keys. -/
structure Spine (succ : α → α) (key : α → β) (a z : α) (l : List α) : Prop where
  head : l.head? = some a
  last : l.getLast? = some z
  path : l.IsChain fun x y => succ x = y
  sorted : l.Pairwise fun x y => key x < key y

namespace Spine

variable {succ succ' : α → α} {key key' : α → β} {a z p n r : α} {l l₁ l₂ : List α}

/-- The start of a spine is a member. -/
theorem start_mem (h : Spine succ key a z l) : a ∈ l := List.mem_of_mem_head? h.head

/-- The end of a spine is a member. -/
theorem end_mem (h : Spine succ key a z l) : z ∈ l := List.mem_of_mem_getLast? h.last

/-- A spine repeats no node. -/
theorem nodup (h : Spine succ key a z l) : l.Nodup :=
  h.sorted.imp fun hlt heq => by
    subst heq
    exact lt_irrefl _ hlt

/-- The members of a spine differ in their keys. -/
theorem key_inj (h : Spine succ key a z l) (hp : p ∈ l) (hn : n ∈ l) (heq : key p = key n) :
    p = n := by
  have hkeys : (l.map key).Nodup := List.pairwise_map.mpr (h.sorted.imp fun hlt => hlt.ne)
  exact List.inj_on_of_nodup_map hkeys hp hn heq

/-- A member other than the end is followed by its successor. -/
theorem split_at (h : Spine succ key a z l) (hp : p ∈ l) (hz : p ≠ z) :
    ∃ l₁ l₂, l = l₁ ++ p :: succ p :: l₂ := by
  obtain ⟨l₁, l₂, rfl⟩ := List.append_of_mem hp
  cases l₂ with
  | nil =>
    have hlast : p = z := by simpa using h.last
    exact absurd hlast hz
  | cons q l₂ =>
    have hpq : succ p = q := (List.isChain_append_cons_cons.mp h.path).2.1
    exact ⟨l₁, l₂, by rw [hpq]⟩

/-- The members of a spine are the iterates of its successors. -/
theorem getElem?_eq_iterate (h : Spine succ key a z l) {i : ℕ} (hi : i < l.length) :
    l[i]? = some (succ^[i] a) := by
  induction i with
  | zero =>
    rw [← List.head?_eq_getElem?]
    exact h.head
  | succ i ih =>
    have hstep : succ l[i] = l[i + 1] := List.isChain_iff_getElem.mp h.path i hi
    have hprev := List.getElem?_eq_some_iff.mp (ih (Nat.lt_of_succ_lt hi))
    rw [Function.iterate_succ_apply', ← hprev.2, hstep, List.getElem?_eq_getElem hi]

/-- The rest of a spine after its start. -/
theorem tail {b : α} (h : Spine succ key a z (a :: b :: l)) :
    succ a = b ∧ Spine succ key b z (b :: l) := by
  obtain ⟨hab, hpath⟩ := List.isChain_cons_cons.mp h.path
  have hlast := h.last
  rw [List.getLast?_cons_cons] at hlast
  exact ⟨hab, rfl, hlast, hpath, (List.pairwise_cons.mp h.sorted).2⟩

/-- A path that agrees with the successors of all its members but the last stays a path. -/
private theorem path_congr :
    ∀ {l : List α}, l.IsChain (fun x y => succ x = y) → l.Nodup →
      (∀ x ∈ l, some x ≠ l.getLast? → succ' x = succ x) → l.IsChain (fun x y => succ' x = y)
  | [], _, _, _ => .nil
  | [x], _, _, _ => .singleton x
  | x :: y :: l, hp, hn, hs => by
      rw [List.isChain_cons_cons] at hp ⊢
      rw [List.nodup_cons] at hn
      refine ⟨?_, path_congr hp.2 hn.2 fun w hw hlast => ?_⟩
      · rw [hs x (by simp) ?_, hp.1]
        intro hx
        rw [List.getLast?_cons_cons] at hx
        exact hn.1 (List.mem_of_mem_getLast? hx.symm)
      · exact hs w (List.mem_cons_of_mem _ hw) (by rwa [List.getLast?_cons_cons])

/-- Writes that leave the keys of the members and the successors of all but the end alone leave
the spine alone. -/
theorem congr (h : Spine succ key a z l) (hsucc : ∀ x ∈ l, x ≠ z → succ' x = succ x)
    (hkey : ∀ x ∈ l, key' x = key x) : Spine succ' key' a z l where
  head := h.head
  last := h.last
  path := path_congr h.path h.nodup fun x hx hlast => hsucc x hx fun hz => hlast (hz ▸ h.last.symm)
  sorted := h.sorted.imp_of_mem fun hx hy hlt => by rwa [hkey _ hx, hkey _ hy]

/-- A write to the successor of `p` leaves the path up to `p` and the path after `p` alone. -/
private theorem path_around (h : Spine succ key a z (l₁ ++ p :: r :: l₂))
    (hsucc : ∀ x ∈ l₁ ++ p :: r :: l₂, x ≠ p → x ≠ z → succ' x = succ x) :
    (l₁ ++ [p]).IsChain (fun x y => succ' x = y) ∧ (r :: l₂).IsChain fun x y => succ' x = y := by
  have hnodup := h.nodup
  obtain ⟨hpre, -, hpost⟩ := List.isChain_append_cons_cons.mp h.path
  have hlast : (r :: l₂).getLast? = some z := by simpa using h.last
  -- `p` ends the first path and is not in the second, and `z` is the end of the second
  have hpr : p ∉ r :: l₂ := (List.nodup_cons.mp (List.nodup_append.mp hnodup).2.1).1
  have hzl : z ∈ r :: l₂ := List.mem_of_mem_getLast? hlast
  constructor
  · refine path_congr hpre (hnodup.sublist (by simp)) fun x hx hne => ?_
    have hxp : x ≠ p := fun hxp => hne (by simp [hxp])
    have hxl : x ∈ l₁ := by simpa [hxp] using hx
    refine hsucc x (List.mem_append_left _ hxl) hxp fun hxz => ?_
    exact List.disjoint_of_nodup_append hnodup hxl (List.mem_cons_of_mem _ (hxz ▸ hzl))
  · refine path_congr hpost (hnodup.sublist (by simp)) fun x hx hne => ?_
    refine hsucc x (List.mem_append_right _ (List.mem_cons_of_mem _ hx)) ?_ ?_
    · exact fun hxp => hpr (hxp ▸ hx)
    · exact fun hxz => hne (by rw [hlast, hxz])

/-- Splicing a node `n` between the adjacent members `p` and `r`. -/
theorem insert (h : Spine succ key a z (l₁ ++ p :: r :: l₂))
    (hpn : key p < key' n) (hnr : key' n < key r) (hp : succ' p = n) (hr : succ' n = r)
    (hsucc : ∀ x ∈ l₁ ++ p :: r :: l₂, x ≠ p → x ≠ z → succ' x = succ x)
    (hkey : ∀ x ∈ l₁ ++ p :: r :: l₂, key' x = key x) :
    Spine succ' key' a z (l₁ ++ p :: n :: r :: l₂) := by
  obtain ⟨hpre, hpost⟩ := h.path_around hsucc
  refine ⟨?_, ?_, ?_, ?_⟩
  · cases l₁ <;> simpa using h.head
  · simpa using h.last
  · rw [List.isChain_append_cons_cons]
    exact ⟨hpre, hp, List.isChain_cons_cons.mpr ⟨hr, hpost⟩⟩
  · have hsorted : (l₁ ++ p :: r :: l₂).Pairwise fun x y => key' x < key' y :=
      h.sorted.imp_of_mem fun hx hy hlt => by rwa [hkey _ hx, hkey _ hy]
    rw [← hkey p (by simp)] at hpn
    rw [← hkey r (by simp)] at hnr
    simp only [List.pairwise_append, List.pairwise_cons, List.mem_cons, forall_eq_or_imp]
      at hsorted ⊢
    obtain ⟨h1, ⟨⟨h2, h3⟩, h4, h5⟩, h6⟩ := hsorted
    refine ⟨h1, ⟨⟨hpn, h2, h3⟩, ⟨hnr, fun y hy => lt_trans hnr (h4 y hy)⟩, h4, h5⟩,
      fun x hx => ?_⟩
    obtain ⟨hxp, hxr, hxl⟩ := h6 x hx
    exact ⟨hxp, lt_trans hxp hpn, hxr, hxl⟩

/-- Taking the member `r` after `p` out, by pointing `p` at the successor of `r`. -/
theorem unlink (h : Spine succ key a z (l₁ ++ p :: r :: n :: l₂)) (hp : succ' p = n)
    (hsucc : ∀ x ∈ l₁ ++ p :: r :: n :: l₂, x ≠ p → x ≠ z → succ' x = succ x)
    (hkey : ∀ x ∈ l₁ ++ p :: r :: n :: l₂, key' x = key x) :
    Spine succ' key' a z (l₁ ++ p :: n :: l₂) := by
  obtain ⟨hpre, hpost⟩ := h.path_around hsucc
  have hsub : (l₁ ++ p :: n :: l₂).Sublist (l₁ ++ p :: r :: n :: l₂) := by simp
  refine ⟨?_, ?_, ?_, ?_⟩
  · cases l₁ <;> simpa using h.head
  · simpa using h.last
  · exact List.isChain_append_cons_cons.mpr ⟨hpre, hp, (List.isChain_cons_cons.mp hpost).2⟩
  · exact (h.sorted.sublist hsub).imp_of_mem fun hx hy hlt => by
      rwa [hkey _ (hsub.subset hx), hkey _ (hsub.subset hy)]

end Spine

end PointerChain
