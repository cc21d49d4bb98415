import Mathlib.Algebra.Order.Field.Basic
import Mathlib.Data.List.Chain
import Mathlib.Tactic.FieldSimp
import Mathlib.Tactic.Linarith
import Mathlib.Tactic.Ring

/-!
# Lines between two sets of points

A line above the points of one set and below those of another is found by keeping the two extreme
lines, the least steep and the steepest one, and for each set the chain of those points that a later
extreme line can go through.

The two sets are mirror images of each other: `side σ` is the orientation of three points for
`σ = 1` and its mirror image for `σ = -1`, and every rule is stated once, for any `σ`.

## Main definitions

* `Bounds`: a line with a set on one side.
* `Half`: the chain of one set, between the two extreme lines.
* `Fan`: the two halves.

## Main results

* `Touches.bounds`: the line from a vertex of the chain to an outer point bounds the set, if the
  vertex is where a walk along the chain stops.
* `Fan.cut`, `Fan.add`: the extreme lines and the chains after one more point.
-/

namespace StabbingLine

/-- A point of the plane. -/
structure Point (R : Type*) where
  x : R
  y : R
  deriving DecidableEq

section Orientation

variable {R : Type*} [CommRing R]

/-- The orientation of three points: positive for a left turn. -/
def cross (o a b : Point R) : R := (a.x - o.x) * (b.y - o.y) - (a.y - o.y) * (b.x - o.x)

/-- The orientation, or its mirror image. -/
def side (σ : R) (o a b : Point R) : R := σ * cross o a b

@[simp] theorem side_neg (σ : R) (o a b : Point R) : side (-σ) o a b = -side σ o a b := by
  rw [side, side, neg_mul]

@[simp] theorem side_left (σ : R) (o a : Point R) : side σ o a o = 0 := by
  simp only [side, cross]
  ring

@[simp] theorem side_right (σ : R) (o a : Point R) : side σ o a a = 0 := by
  simp only [side, cross]
  ring

/-- How far a point is from the line through two others, measured from a third line. -/
theorem side_chord (σ : R) (a b h q p : Point R) :
    (b.x - a.x) * side σ h q p =
      side σ a b p * (q.x - h.x) - side σ a b h * (q.x - p.x) - side σ a b q * (p.x - h.x) := by
  simp only [side, cross]
  ring

end Orientation

variable {R : Type*} [CommRing R] [LinearOrder R] {σ : R} {S T : Set (Point R)}
  {a b c d h q o p g : Point R} {l r l' r' chain chain' : List (Point R)}

/-- The set is on one side of the line through two points. -/
structure Bounds (σ : R) (S : Set (Point R)) (a b : Point R) : Prop where
  lt : a.x < b.x
  side_le : ∀ p ∈ S, side σ a b p ≤ 0

theorem Bounds.insert (hb : Bounds σ S a b) (hp : side σ a b p ≤ 0) :
    Bounds σ (insert p S) a b := by
  refine ⟨hb.lt, fun r hr => ?_⟩
  rcases Set.mem_insert_iff.mp hr with rfl | hr
  · exact hp
  · exact hb.side_le r hr

/-- The line from `h` to the outer point `q` is between two lines through `h`, one on each side. -/
structure Touches (σ : R) (S : Set (Point R)) (h q : Point R) : Prop where
  left : ∃ a b, Bounds σ S a b ∧ side σ a b h = 0 ∧ side σ a b q ≤ 0
  right : ∃ a b, Bounds σ S a b ∧ side σ a b h = 0 ∧ 0 ≤ side σ a b q

/-- The vertex where a walk along a chain stops, seen from the outer point `q`: the point is on the
inner side of the edge before and on the outer side of the edge behind. -/
structure Stops (σ : R) (q : Point R) (l : List (Point R)) (h : Point R) (r : List (Point R)) :
    Prop where
  left : ∀ g ∈ l.getLast?, side σ g h q ≤ 0
  right : ∀ g ∈ r.head?, 0 ≤ side σ h g q

/-- The chain of a set, from the line through `a` and `b` at its head to the line through `c` and
`d` at its end. -/
structure Half (σ : R) (S : Set (Point R)) (a b c d : Point R) (chain : List (Point R)) :
    Prop where
  edges : chain.IsChain (Bounds σ S)
  head : chain.head? = some a
  last : chain.getLast? = some d
  mem : ∀ p ∈ chain, p ∈ S
  left : Bounds σ S a b
  right : Bounds σ S c d

/-- The two sets are on the two sides of both extreme lines. -/
structure Fan (σ : R) (S T : Set (Point R)) (a b c d : Point R) (chain chain' : List (Point R)) :
    Prop where
  near : Half σ S a b c d chain
  far : Half (-σ) T c d a b chain'

theorem Fan.swap (hf : Fan σ S T a b c d chain chain') : Fan (-σ) T S c d a b chain' chain :=
  ⟨hf.far, by rw [neg_neg]; exact hf.near⟩

/-! ### Turning a line around a point -/

variable [IsStrictOrderedRing R]

theorem Touches.bounds (ht : Touches σ S h q) (hhq : h.x < q.x) : Bounds σ S h q := by
  refine ⟨hhq, fun p hp => ?_⟩
  have hlen : 0 ≤ q.x - h.x := sub_nonneg.mpr hhq.le
  rcases le_total p.x h.x with hph | hhp
  · obtain ⟨a, b, hb, hh, hq⟩ := ht.left
    have hchord := side_chord σ a b h q p
    have hset : side σ a b p * (q.x - h.x) ≤ 0 :=
      mul_nonpos_of_nonpos_of_nonneg (hb.side_le p hp) hlen
    have hturn : 0 ≤ side σ a b q * (p.x - h.x) :=
      mul_nonneg_of_nonpos_of_nonpos hq (sub_nonpos.mpr hph)
    rw [hh, zero_mul] at hchord
    exact nonpos_of_mul_nonpos_right (by linarith) (sub_pos.mpr hb.lt)
  · obtain ⟨a, b, hb, hh, hq⟩ := ht.right
    have hchord := side_chord σ a b h q p
    have hset : side σ a b p * (q.x - h.x) ≤ 0 :=
      mul_nonpos_of_nonpos_of_nonneg (hb.side_le p hp) hlen
    have hturn : 0 ≤ side σ a b q * (p.x - h.x) := mul_nonneg hq (sub_nonneg.mpr hhp)
    rw [hh, zero_mul] at hchord
    exact nonpos_of_mul_nonpos_right (by linarith) (sub_pos.mpr hb.lt)

/-- The line that touches one set leaves the other one on its other side. -/
theorem Fan.bounds_far (hf : Fan σ S T a b c d chain chain') (hh : h ∈ S) (hab : side σ a b o ≤ 0)
    (hcd : 0 ≤ side σ c d o) (hho : h.x < o.x) (hT : ∀ p ∈ T, p.x ≤ o.x) : Bounds (-σ) T h o := by
  refine ⟨hho, fun p hp => ?_⟩
  rw [side_neg, neg_nonpos]
  have hlen : 0 ≤ o.x - h.x := sub_nonneg.mpr hho.le
  have hpo : 0 ≤ o.x - p.x := sub_nonneg.mpr (hT p hp)
  rcases le_total p.x h.x with hph | hhp
  · -- on the left the line through `c` and `d` is below
    have hpt := hf.far.left.side_le p hp
    rw [side_neg, neg_nonpos] at hpt
    have hchord := side_chord σ c d h o p
    have hset := mul_nonneg hpt hlen
    have hown := mul_nonpos_of_nonpos_of_nonneg (hf.near.right.side_le h hh) hpo
    have hturn := mul_nonpos_of_nonneg_of_nonpos hcd (sub_nonpos.mpr hph)
    exact nonneg_of_mul_nonneg_right (by linarith) (sub_pos.mpr hf.near.right.lt)
  · have hpt := hf.far.right.side_le p hp
    rw [side_neg, neg_nonpos] at hpt
    have hchord := side_chord σ a b h o p
    have hset := mul_nonneg hpt hlen
    have hown := mul_nonpos_of_nonpos_of_nonneg (hf.near.left.side_le h hh) hpo
    have hturn := mul_nonpos_of_nonpos_of_nonneg hab (sub_nonneg.mpr hhp)
    exact nonneg_of_mul_nonneg_right (by linarith) (sub_pos.mpr hf.near.left.lt)

/-! ### The chain -/

/-- A point on the inner side of the last edge is on the inner side of all of them. -/
theorem edges_insert (hedges : (l ++ [h]).IsChain (Bounds σ S)) (hmem : ∀ p ∈ l ++ [h], p ∈ S)
    (hlast : ∀ g ∈ l.getLast?, side σ g h q ≤ 0) (hhq : h.x ≤ q.x) :
    (l ++ [h]).IsChain (Bounds σ (insert q S)) := by
  induction l using List.reverseRecOn generalizing h with
  | nil => exact List.isChain_singleton h
  | append_singleton l g ih =>
    obtain ⟨hrest, -, hedge⟩ := List.isChain_append.mp hedges
    have hgh : Bounds σ S g h := hedge g (by simp) h (by simp)
    have hq : side σ g h q ≤ 0 := hlast g (by simp)
    have hgq : g.x ≤ q.x := hgh.lt.le.trans hhq
    have hlast' : ∀ f ∈ l.getLast?, side σ f g q ≤ 0 := by
      intro f hf
      have hfg : Bounds σ S f g := (List.isChain_append.mp hrest).2.2 f hf g (by simp)
      have hchord := side_chord σ f g g h q
      have hown := mul_nonpos_of_nonneg_of_nonpos (sub_nonneg.mpr hfg.lt.le) hq
      have hturn := mul_nonpos_of_nonpos_of_nonneg (hfg.side_le h (hmem h (by simp)))
        (sub_nonneg.mpr hgq)
      rw [side_right, zero_mul] at hchord
      exact nonpos_of_mul_nonpos_left (by linarith) (sub_pos.mpr hgh.lt)
    refine List.isChain_append.mpr ⟨ih hrest (fun p hp => hmem p ?_) hlast' hgq,
      List.isChain_singleton h, fun x hx y hy => ?_⟩
    · exact List.mem_append_left _ hp
    · obtain rfl : g = x := by simpa using hx
      obtain rfl : h = y := by simpa using hy
      exact hgh.insert hq

omit [IsStrictOrderedRing R] in
/-- The vertex where a walk along the chain stops. -/
theorem Half.touches (hh : Half σ S a b c d (l ++ h :: r)) (hs : Stops σ q l h r)
    (hleft : side σ a b q ≤ 0) (hright : 0 ≤ side σ c d q) : Touches σ S h q := by
  obtain ⟨-, hbehind, hbefore⟩ := List.isChain_append.mp hh.edges
  constructor
  · cases hl : l.getLast? with
    | none =>
      -- the head of the chain is on the line through `a` and `b`
      obtain rfl := List.getLast?_eq_none_iff.mp hl
      obtain rfl : h = a := by simpa using hh.head
      exact ⟨h, b, hh.left, side_left σ h b, hleft⟩
    | some g => exact ⟨g, h, hbefore g hl h (by simp), side_right σ g h, hs.left g hl⟩
  · cases r with
    | nil =>
      obtain rfl : h = d := by simpa using hh.last
      exact ⟨c, h, hh.right, side_right σ c h, hright⟩
    | cons g r =>
      exact ⟨h, g, (List.isChain_cons_cons.mp hbehind).1, side_left σ h g, hs.right g rfl⟩

omit [IsStrictOrderedRing R] in
/-- The chain from the vertex on that a new line touches. -/
theorem Half.cut (hh : Half σ S a b c d (l ++ h :: r)) (ht : Bounds σ S h o) :
    Half σ S h o c d (h :: r) where
  edges := (List.isChain_append.mp hh.edges).2.1
  head := rfl
  last := by simpa using hh.last
  mem p hp := hh.mem p (List.mem_append_right l hp)
  left := ht
  right := hh.right

/-- The chain with a new last point. -/
theorem Half.push (hh : Half σ S a b c d (l ++ h :: r)) (hs : Stops σ q l h r)
    (hleft : side σ a b q ≤ 0) (hright : 0 ≤ side σ c d q) (hx : ∀ p ∈ S, p.x < q.x)
    (hnew : Bounds σ (insert q S) g q) :
    Half σ (insert q S) a b g q (l ++ [h, q]) := by
  have hhS : h ∈ S := hh.mem h (by simp)
  have hhq := ((hh.touches hs hleft hright).bounds (hx h hhS)).insert (side_right σ h q).le
  have hedges : (l ++ [h]).IsChain (Bounds σ S) := by
    obtain ⟨hl, hr, hlr⟩ := List.isChain_append.mp hh.edges
    exact List.isChain_append.mpr ⟨hl, List.isChain_singleton h, hlr⟩
  have hmem : ∀ p ∈ l ++ [h], p ∈ S := fun p hp => hh.mem p (by
    rcases List.mem_append.mp hp with hp | hp
    · exact List.mem_append_left _ hp
    · exact List.mem_append_right _ (List.mem_singleton.mp hp ▸ List.mem_cons_self))
  have hall := edges_insert hedges hmem hs.left (hx h hhS).le
  have hsplit : l ++ [h, q] = (l ++ [h]) ++ [q] := by simp
  refine ⟨?_, ?_, by simp, fun p hp => ?_, hh.left.insert hleft, hnew⟩
  · rw [hsplit]
    refine List.isChain_append.mpr ⟨hall, List.isChain_singleton q, fun x hx y hy => ?_⟩
    obtain rfl : h = x := by simpa using hx
    obtain rfl : q = y := by simpa using hy
    exact hhq
  · have hhead := hh.head
    cases l with
    | nil => exact hhead
    | cons f l => exact hhead
  · rw [hsplit] at hp
    rcases List.mem_append.mp hp with hp | hp
    · exact Set.mem_insert_of_mem q (hmem p hp)
    · exact List.mem_singleton.mp hp ▸ Set.mem_insert q S

/-- A point between the two lines leaves the chain as it is. -/
theorem Half.add (hh : Half σ S a b c d chain) (hleft : side σ a b q ≤ 0)
    (hright : side σ c d q ≤ 0) (hx : d.x ≤ q.x) : Half σ (insert q S) a b c d chain := by
  refine ⟨?_, hh.head, hh.last, fun p hp => Set.mem_insert_of_mem q (hh.mem p hp),
    hh.left.insert hleft, hh.right.insert hright⟩
  obtain ⟨l, rfl⟩ : ∃ l, chain = l ++ [d] := by
    obtain ⟨hne, hlast⟩ := List.getLast?_eq_some_iff.mp hh.last
    exact ⟨hne, hlast⟩
  refine edges_insert hh.edges hh.mem (fun g hg => ?_) hx
  -- the last edge is steeper than the line through `c` and `d`
  have hgd : Bounds σ S g d := (List.isChain_append.mp hh.edges).2.2 g hg d (by simp)
  have hgS : g ∈ S := hh.mem g (List.mem_append_left _ (List.mem_of_getLast? hg))
  have hchord := side_chord σ c d g d q
  have hset := mul_nonpos_of_nonpos_of_nonneg hright (sub_nonneg.mpr hgd.lt.le)
  have hown := mul_nonpos_of_nonpos_of_nonneg (hh.right.side_le g hgS) (sub_nonneg.mpr hx)
  rw [side_right, zero_mul] at hchord
  have hneg : d.x - q.x = -(q.x - d.x) := by ring
  rw [hneg, mul_neg] at hchord
  exact nonpos_of_mul_nonpos_right (by linarith) (sub_pos.mpr hh.right.lt)

/-! ### The two halves -/

/-- A point of the far set on the inner side of the line through `a` and `b` turns that line: it
goes through the point from now on, and through the vertex of the near chain where it touches. -/
theorem Fan.cut (hf : Fan σ S T a b c d (l ++ h :: r) (l' ++ g :: r')) (hs : Stops σ o l h r)
    (hs' : Stops (-σ) o l' g r') (hab : side σ a b o ≤ 0) (hcd : 0 ≤ side σ c d o)
    (hho : h.x < o.x) (hT : ∀ p ∈ T, p.x < o.x) :
    Fan σ S (insert o T) h o c d (h :: r) (l' ++ [g, o]) := by
  have htouch := (hf.near.touches hs hab hcd).bounds hho
  have hhS : h ∈ S := hf.near.mem h (by simp)
  have hfar := (hf.bounds_far hhS hab hcd hho fun p hp => (hT p hp).le).insert
    (side_right (-σ) h o).le
  refine ⟨hf.near.cut htouch, hf.far.push hs' ?_ ?_ hT hfar⟩
  · rw [side_neg, neg_nonpos]
    exact hcd
  · rw [side_neg, neg_nonneg]
    exact hab

/-- A point of the far set outside both lines leaves them as they are. -/
theorem Fan.add (hf : Fan σ S T a b c d chain chain') (hab : 0 ≤ side σ a b o)
    (hcd : 0 ≤ side σ c d o) (hx : b.x ≤ o.x) : Fan σ S (insert o T) a b c d chain chain' := by
  refine ⟨hf.near, hf.far.add ?_ ?_ hx⟩
  · rw [side_neg, neg_nonpos]
    exact hcd
  · rw [side_neg, neg_nonpos]
    exact hab

/-- The extreme lines of two points of each set, one above the other. -/
theorem Fan.pair (hx : a.x < d.x) (hac : c.x = a.x) (hbd : b.x = d.x) (hlo : a.y ≤ c.y)
    (hhi : d.y ≤ b.y) : Fan 1 (insert d {a}) (insert b {c}) a b c d [a, d] [c, b] := by
  have hpos : 0 < d.x - a.x := sub_pos.mpr hx
  have hdiag : side 1 a b d = (d.x - a.x) * (d.y - b.y) ∧ side 1 a b c = (d.x - a.x) * (c.y - a.y) ∧
      side 1 c d a = (d.x - a.x) * (a.y - c.y) ∧ side 1 c d b = (d.x - a.x) * (b.y - d.y) := by
    refine ⟨?_, ?_, ?_, ?_⟩ <;> simp only [side, cross, hac, hbd] <;> ring
  obtain ⟨habd, habc, hcda, hcdb⟩ := hdiag
  have hneg := mul_nonpos_of_nonneg_of_nonpos hpos.le (sub_nonpos.mpr hhi)
  have hneg' := mul_nonpos_of_nonneg_of_nonpos hpos.le (sub_nonpos.mpr hlo)
  have hnonneg := mul_nonneg hpos.le (sub_nonneg.mpr hhi)
  have hnonneg' := mul_nonneg hpos.le (sub_nonneg.mpr hlo)
  have hedge : ∀ {σ : R} {u v : Point R}, u.x < v.x → [u, v].IsChain (Bounds σ (insert v {u})) :=
    fun huv => List.isChain_pair.mpr ⟨huv, by simp⟩
  have hab : a.x < b.x := hbd ▸ hx
  have hcd : c.x < d.x := hac ▸ hx
  have hcb : c.x < b.x := hbd ▸ hcd
  constructor
  · exact ⟨hedge hx, rfl, rfl, by simp, ⟨hab, by simp [habd, hneg]⟩, ⟨hcd, by simp [hcda, hneg']⟩⟩
  · exact ⟨hedge hcb, rfl, rfl, by simp, ⟨hcd, by simp [hcdb, hnonneg]⟩,
      ⟨hab, by simp [habc, hnonneg']⟩⟩

/-- If the sets are the same, a point is not between the two lines. -/
theorem Fan.not_between (hf : Fan σ S S a b c d chain chain') (hcd : 0 ≤ side σ c d o) :
    0 ≤ side σ a b o := by
  have honline : ∀ p ∈ S, side σ c d p = 0 := fun p hp =>
    le_antisymm (hf.near.right.side_le p hp) (by simpa using hf.far.left.side_le p hp)
  have hchord := side_chord σ c d a b o
  rw [honline a (hf.near.mem a (List.mem_of_head? hf.near.head)),
    honline b (hf.far.mem b (List.mem_of_getLast? hf.far.last)), zero_mul, zero_mul, sub_zero,
    sub_zero] at hchord
  have hprod := mul_nonneg hcd (sub_nonneg.mpr hf.near.left.lt.le)
  exact nonneg_of_mul_nonneg_right (hchord ▸ hprod) (sub_pos.mpr hf.near.right.lt)

/-! ### The lines over a field -/

section Field

variable {𝕜 : Type*} [Field 𝕜] [LinearOrder 𝕜] [IsStrictOrderedRing 𝕜] {t k t' k' : 𝕜}
  {S T : Set (Point ℤ)} {a b c d p o : Point ℤ} {chain chain' : List (Point ℤ)}

/-- The line with slope `t` and intercept `k` is above one set and below the other. -/
structure Stabs (t k : 𝕜) (S T : Set (Point ℤ)) : Prop where
  above : ∀ p ∈ S, (p.y : 𝕜) ≤ t * p.x + k
  below : ∀ p ∈ T, t * p.x + k ≤ p.y

/-- The slope of the line through two points. -/
def chordSlope (𝕜 : Type*) [Field 𝕜] (a b : Point ℤ) : 𝕜 := (b.y - a.y) / (b.x - a.x)

/-- The value at 0 of the line through two points. -/
def chordIntercept (𝕜 : Type*) [Field 𝕜] (a b : Point ℤ) : 𝕜 := a.y - chordSlope 𝕜 a b * a.x

omit [IsStrictOrderedRing 𝕜] in
theorem Stabs.mono {S' T' : Set (Point ℤ)} (h : Stabs t k S T) (hS : S' ⊆ S) (hT : T' ⊆ T) :
    Stabs t k S' T' := ⟨fun p hp => h.above p (hS hp), fun p hp => h.below p (hT hp)⟩

/-- The lines between two sets form a convex set. -/
theorem Stabs.convex (h : Stabs t k S T) (h' : Stabs t' k' S T) {w : 𝕜} (h0 : 0 ≤ w) (h1 : w ≤ 1) :
    Stabs (w * t + (1 - w) * t') (w * k + (1 - w) * k') S T := by
  have hw := sub_nonneg.mpr h1
  refine ⟨fun p hp => ?_, fun p hp => ?_⟩
  · have hleft := mul_le_mul_of_nonneg_left (h.above p hp) h0
    have hright := mul_le_mul_of_nonneg_left (h'.above p hp) hw
    linarith
  · have hleft := mul_le_mul_of_nonneg_left (h.below p hp) h0
    have hright := mul_le_mul_of_nonneg_left (h'.below p hp) hw
    linarith

/-- The orientation of a point is its distance from the line through the other two. -/
theorem cast_cross (hab : a.x < b.x) (p : Point ℤ) :
    ((cross a b p : ℤ) : 𝕜) =
      (b.x - a.x) * (p.y - (chordSlope 𝕜 a b * p.x + chordIntercept 𝕜 a b)) := by
  have hne : (b.x - a.x : 𝕜) ≠ 0 := by
    have hlt : (a.x : 𝕜) < b.x := Int.cast_lt.mpr hab
    exact (sub_pos.mpr hlt).ne'
  simp only [cross, chordSlope, chordIntercept]
  push_cast
  field_simp
  ring

theorem le_line_iff (hab : a.x < b.x) :
    (p.y : 𝕜) ≤ chordSlope 𝕜 a b * p.x + chordIntercept 𝕜 a b ↔ cross a b p ≤ 0 := by
  have hlen : (0 : 𝕜) < b.x - a.x := sub_pos.mpr (Int.cast_lt.mpr hab)
  rw [← Int.cast_le (R := 𝕜), cast_cross hab, Int.cast_zero, ← sub_nonpos]
  exact ⟨fun h => mul_nonpos_of_nonneg_of_nonpos hlen.le h,
    fun h => nonpos_of_mul_nonpos_right h hlen⟩

theorem line_le_iff (hab : a.x < b.x) :
    chordSlope 𝕜 a b * p.x + chordIntercept 𝕜 a b ≤ p.y ↔ 0 ≤ cross a b p := by
  have hlen : (0 : 𝕜) < b.x - a.x := sub_pos.mpr (Int.cast_lt.mpr hab)
  rw [← Int.cast_le (R := 𝕜), cast_cross hab, Int.cast_zero, ← sub_nonneg]
  exact ⟨fun h => mul_nonneg hlen.le h, fun h => nonneg_of_mul_nonneg_right h hlen⟩

theorem Fan.mem_near (hf : Fan 1 S T a b c d chain chain') : a ∈ S ∧ d ∈ S :=
  ⟨hf.near.mem a (List.mem_of_head? hf.near.head),
    hf.near.mem d (List.mem_of_getLast? hf.near.last)⟩

theorem Fan.mem_far (hf : Fan 1 S T a b c d chain chain') : c ∈ T ∧ b ∈ T :=
  ⟨hf.far.mem c (List.mem_of_head? hf.far.head), hf.far.mem b (List.mem_of_getLast? hf.far.last)⟩

/-- The steepest line. -/
theorem Fan.stabs_left (hf : Fan 1 S T a b c d chain chain') :
    Stabs (chordSlope 𝕜 a b) (chordIntercept 𝕜 a b) S T := by
  refine ⟨fun p hp => (le_line_iff hf.near.left.lt).mpr ?_,
    fun p hp => (line_le_iff hf.near.left.lt).mpr ?_⟩
  · simpa [side] using hf.near.left.side_le p hp
  · simpa [side] using hf.far.right.side_le p hp

/-- The least steep line. -/
theorem Fan.stabs_right (hf : Fan 1 S T a b c d chain chain') :
    Stabs (chordSlope 𝕜 c d) (chordIntercept 𝕜 c d) S T := by
  refine ⟨fun p hp => (le_line_iff hf.near.right.lt).mpr ?_,
    fun p hp => (line_le_iff hf.near.right.lt).mpr ?_⟩
  · simpa [side] using hf.near.right.side_le p hp
  · simpa [side] using hf.far.left.side_le p hp

/-- No line is steeper than the one, or less steep than the other. -/
theorem Fan.slope_le (hf : Fan 1 S T a b c d chain chain') (hs : Stabs t k S T) :
    chordSlope 𝕜 c d ≤ t ∧ t ≤ chordSlope 𝕜 a b := by
  have hcd : (0 : 𝕜) < d.x - c.x := sub_pos.mpr (Int.cast_lt.mpr hf.near.right.lt)
  have hab : (0 : 𝕜) < b.x - a.x := sub_pos.mpr (Int.cast_lt.mpr hf.near.left.lt)
  have ha := hs.above a hf.mem_near.1
  have hd := hs.above d hf.mem_near.2
  have hc := hs.below c hf.mem_far.1
  have hb := hs.below b hf.mem_far.2
  constructor
  · rw [chordSlope, div_le_iff₀ hcd]
    linarith
  · rw [chordSlope, le_div_iff₀ hab]
    linarith

/-- Every slope between the two extreme ones is that of a line. -/
theorem Fan.exists_stabs_iff (hf : Fan 1 S T a b c d chain chain') :
    (∃ k, Stabs t k S T) ↔ chordSlope 𝕜 c d ≤ t ∧ t ≤ chordSlope 𝕜 a b := by
  constructor
  · rintro ⟨k, hs⟩
    exact hf.slope_le hs
  rintro ⟨hlo, hhi⟩
  rcases (hlo.trans hhi).eq_or_lt with heq | hlt
  · obtain rfl : t = chordSlope 𝕜 a b := le_antisymm hhi (heq ▸ hlo)
    exact ⟨_, hf.stabs_left⟩
  · have hpos := sub_pos.mpr hlt
    have hw0 : 0 ≤ (t - chordSlope 𝕜 c d) / (chordSlope 𝕜 a b - chordSlope 𝕜 c d) :=
      div_nonneg (sub_nonneg.mpr hlo) hpos.le
    have hw1 : (t - chordSlope 𝕜 c d) / (chordSlope 𝕜 a b - chordSlope 𝕜 c d) ≤ 1 :=
      (div_le_one hpos).mpr (by linarith)
    have hconvex := hf.stabs_left.convex hf.stabs_right hw0 hw1
    have ht : (t - chordSlope 𝕜 c d) / (chordSlope 𝕜 a b - chordSlope 𝕜 c d) * chordSlope 𝕜 a b +
        (1 - (t - chordSlope 𝕜 c d) / (chordSlope 𝕜 a b - chordSlope 𝕜 c d)) *
          chordSlope 𝕜 c d = t := by
      have hne := hpos.ne'
      field_simp
      ring
    rw [ht] at hconvex
    exact ⟨_, hconvex⟩

theorem line_right (hab : a.x < b.x) : chordSlope 𝕜 a b * b.x + chordIntercept 𝕜 a b = b.y := by
  have hzero : cross a b b = 0 := by simpa [side] using side_right 1 a b
  exact le_antisymm ((line_le_iff hab).mpr hzero.ge) ((le_line_iff hab).mpr hzero.le)

/-- Behind the sets, no line comes below the least steep one. -/
theorem Fan.not_stabs_below (hf : Fan 1 S T a b c d chain chain') (ho : cross c d o < 0)
    (hx : d.x ≤ o.x) : ¬ Stabs t k S (insert o T) := by
  intro hs
  have hlo := (hf.slope_le (hs.mono subset_rfl (Set.subset_insert o T))).1
  have hd := hs.above d hf.mem_near.2
  have hbelow := hs.below o (Set.mem_insert o T)
  have hline : chordSlope 𝕜 c d * d.x + chordIntercept 𝕜 c d = d.y := line_right hf.near.right.lt
  have hox : (0 : 𝕜) ≤ o.x - d.x := sub_nonneg.mpr (Int.cast_le.mpr hx)
  have hturn := mul_le_mul_of_nonneg_right hlo hox
  have hle : chordSlope 𝕜 c d * o.x + chordIntercept 𝕜 c d ≤ o.y := by linarith
  exact ho.not_ge ((line_le_iff hf.near.right.lt).mp hle)

/-- Behind the sets, no line comes above the steepest one. -/
theorem Fan.not_stabs_above (hf : Fan 1 S T a b c d chain chain') (ho : 0 < cross a b o)
    (hx : b.x ≤ o.x) : ¬ Stabs t k (insert o S) T := by
  intro hs
  have hhi := (hf.slope_le (hs.mono (Set.subset_insert o S) subset_rfl)).2
  have hb := hs.below b hf.mem_far.2
  have habove := hs.above o (Set.mem_insert o S)
  have hline : chordSlope 𝕜 a b * b.x + chordIntercept 𝕜 a b = b.y := line_right hf.near.left.lt
  have hox : (0 : 𝕜) ≤ o.x - b.x := sub_nonneg.mpr (Int.cast_le.mpr hx)
  have hturn := mul_le_mul_of_nonneg_right hhi hox
  have hle : (o.y : 𝕜) ≤ chordSlope 𝕜 a b * o.x + chordIntercept 𝕜 a b := by linarith
  exact ho.not_ge ((le_line_iff hf.near.left.lt).mp hle)

end Field

end StabbingLine
