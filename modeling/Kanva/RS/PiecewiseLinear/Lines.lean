import Kanva.RS.PiecewiseLinear.Invariant
import Mathlib.Tactic.LinearCombination

/-!
# The line of a segment

A `CanonicalSegment` keeps the corners of the extreme lines, and gives the line through their
intersection with the mean of their slopes. The `long double` arithmetic is that of the rationals
here.

## Main results

* `CanonicalSegment.Fits.within`: the line of a segment is within `epsilon` of its points.
* `CanonicalSegment.Fits.slopeRange`: the slope range has exactly the slopes of such lines.
-/

namespace KanvaRS

open StabbingLine

namespace CanonicalSegment

/-- `one_point` -/
def onePoint (s : CanonicalSegment) : Bool :=
  s.rectangle.p0.x = s.rectangle.p2.x && s.rectangle.p0.y = s.rectangle.p2.y &&
    s.rectangle.p1.x = s.rectangle.p3.x && s.rectangle.p1.y = s.rectangle.p3.y

/-- `get_intersection` -/
def getIntersection (s : CanonicalSegment) : ℚ × ℚ :=
  let p0 := s.rectangle.p0
  let slope1 := s.rectangle.p2.sub p0
  let slope2 := s.rectangle.p3.sub s.rectangle.p1
  if s.onePoint || slope1.eq slope2 then (p0.x, p0.y)
  else
    let p0p1 := s.rectangle.p1.sub p0
    let a := toInt128 (toInt128 (slope1.dx * slope2.dy) - toInt128 (slope1.dy * slope2.dx))
    let b : ℚ := toInt128 (toInt128 (p0p1.dx * slope2.dy) - toInt128 (p0p1.dy * slope2.dx)) / a
    (p0.x + b * slope1.dx, p0.y + b * slope1.dy)

/-- `get_slope_range` -/
def getSlopeRange (s : CanonicalSegment) : ℚ × ℚ :=
  if s.onePoint then (0, 1)
  else
    let slope1 := s.rectangle.p2.sub s.rectangle.p0
    let slope2 := s.rectangle.p3.sub s.rectangle.p1
    (slope1.dy / slope1.dx, slope2.dy / slope2.dx)

/-- `get_floating_point_segment`: a slope, and the position at the key `origin`. -/
def getFloatingPointSegment (s : CanonicalSegment) (origin : ℤ) : ℚ × ℚ :=
  if s.onePoint then (0, ((s.rectangle.p0.y + s.rectangle.p1.y).tdiv 2 : ℤ))
  else
    let i := s.getIntersection
    let slope := (s.getSlopeRange.1 + s.getSlopeRange.2) / 2
    (slope, i.2 - (i.1 - origin) * slope)

/-- The position that a segment gives for a key. -/
def position (s : CanonicalSegment) (key : ℤ) : ℚ :=
  let line := s.getFloatingPointSegment s.first
  line.1 * (key - s.first) + line.2

/-- The segment has the corners of the points. -/
structure Fits (s : CanonicalSegment) (epsilon : ℕ) (pts : List (ℤ × ℕ)) : Prop where
  inRange : ∀ p ∈ pts, PairInRange epsilon p
  first : pts.head?.map Prod.fst = some s.first
  corners : (∃ p, pts = [p] ∧ s.rectangle = ⟨⟨p.1, p.2 + epsilon⟩, ⟨p.1, p.2 - epsilon⟩,
      ⟨p.1, p.2 + epsilon⟩, ⟨p.1, p.2 - epsilon⟩⟩) ∨
    ∃ lower upper, s.rectangle.Extreme epsilon pts lower upper

variable {s : CanonicalSegment} {epsilon : ℕ} {pts : List (ℤ × ℕ)} {lower upper : List Point}

/-- `get_segment` -/
theorem fits_getSegment {m : OptimalPiecewiseLinearModel} (h : m.Inv pts) :
    m.getSegment.Fits m.epsilon pts := by
  rcases pts with _ | ⟨p, _ | ⟨q, pts⟩⟩
  · exact h.shape.elim
  · have hcount : m.pointsInHull = 1 := h.count
    obtain ⟨hp0, hp1, -⟩ := h.shape
    rw [OptimalPiecewiseLinearModel.getSegment, if_pos hcount]
    exact ⟨h.inRange, h.first, .inl ⟨p, rfl, by rw [hp0, hp1]⟩⟩
  · have hcount : m.pointsInHull ≠ 1 := by
      rw [h.count]
      simp
    rw [OptimalPiecewiseLinearModel.getSegment, if_neg hcount]
    exact ⟨h.inRange, h.first, .inr ⟨_, _, h.shape⟩⟩

theorem not_onePoint (he : s.rectangle.Extreme epsilon pts lower upper) : s.onePoint = false := by
  have hne := he.near.right.lt.ne
  simp [onePoint, hne]

/-- The slopes of the extreme lines. -/
theorem getSlopeRange_eq (he : s.rectangle.Extreme epsilon pts lower upper) :
    s.getSlopeRange = (chordSlope ℚ s.rectangle.p0 s.rectangle.p2,
      chordSlope ℚ s.rectangle.p1 s.rectangle.p3) := by
  simp [getSlopeRange, not_onePoint he, Point.sub, chordSlope]

/-- The range has exactly the slopes of the lines that are within `epsilon`. -/
theorem slopeRange (he : s.rectangle.Extreme epsilon pts lower upper) (t : ℚ) :
    (∃ k, Within t k epsilon pts) ↔ s.getSlopeRange.1 ≤ t ∧ t ≤ s.getSlopeRange.2 := by
  simp only [within_iff, getSlopeRange_eq he]
  exact Fan.exists_stabs_iff he

theorem extreme_inRange (hin : ∀ p ∈ pts, PairInRange epsilon p)
    (he : s.rectangle.Extreme epsilon pts lower upper) :
    s.rectangle.p0.InRange ∧ s.rectangle.p1.InRange ∧ s.rectangle.p2.InRange ∧
      s.rectangle.p3.InRange := by
  have hlow : ∀ q ∈ lowers epsilon pts, q.InRange := by
    rintro _ ⟨p, hp, rfl⟩
    exact (hin p hp).lower
  have hupp : ∀ q ∈ uppers epsilon pts, q.InRange := by
    rintro _ ⟨p, hp, rfl⟩
    exact (hin p hp).upper
  obtain ⟨h1, h2⟩ := Fan.mem_near he
  obtain ⟨h0, h3⟩ := Fan.mem_far he
  exact ⟨hupp _ h0, hlow _ h1, hlow _ h2, hupp _ h3⟩

/-- A difference of two products of slopes. -/
theorem toInt128_det {u v : Slope} (hu : u.Small) (hv : v.Small) :
    toInt128 (toInt128 (u.dx * v.dy) - toInt128 (u.dy * v.dx)) = u.dx * v.dy - u.dy * v.dx := by
  have hleft := abs_mul_lt hu.dx_lt hv.dy_le
  have hright := abs_mul_lt hv.dx_lt hu.dy_le
  have hsub : |u.dx * v.dy - v.dx * u.dy| < 2 ^ 127 := by
    refine (abs_sub _ _).trans_lt ?_
    calc _ < (2 ^ 126 + 2 ^ 126 : ℤ) := add_lt_add hleft hright
      _ = 2 ^ 127 := by norm_num
  rw [toInt128_mul hu.dx_lt hv.dy_le, mul_comm u.dy, toInt128_mul hv.dx_lt hu.dy_le,
    toInt128_eq hsub]

theorem eq_iff {u v : Slope} (hu : u.Small) (hv : v.Small) :
    u.eq v = true ↔ u.dy * v.dx = u.dx * v.dy := by
  rw [Slope.eq, decide_eq_true_eq, toInt128_mul hu.dx_lt hv.dy_le, mul_comm u.dy,
    toInt128_mul hv.dx_lt hu.dy_le]

/-- The intersection is on both extreme lines. -/
theorem getIntersection_on (hin : ∀ p ∈ pts, PairInRange epsilon p)
    (he : s.rectangle.Extreme epsilon pts lower upper) :
    s.getIntersection.2 = chordSlope ℚ s.rectangle.p0 s.rectangle.p2 * s.getIntersection.1 +
        chordIntercept ℚ s.rectangle.p0 s.rectangle.p2 ∧
      s.getIntersection.2 = chordSlope ℚ s.rectangle.p1 s.rectangle.p3 * s.getIntersection.1 +
        chordIntercept ℚ s.rectangle.p1 s.rectangle.p3 := by
  obtain ⟨hr0, hr1, hr2, hr3⟩ := extreme_inRange hin he
  have hflat : (0 : ℚ) < s.rectangle.p2.x - s.rectangle.p0.x :=
    sub_pos.mpr (Int.cast_lt.mpr he.near.right.lt)
  have hsteep : (0 : ℚ) < s.rectangle.p3.x - s.rectangle.p1.x :=
    sub_pos.mpr (Int.cast_lt.mpr he.near.left.lt)
  have hslopes : (s.rectangle.p2.sub s.rectangle.p0).eq (s.rectangle.p3.sub s.rectangle.p1) = true ↔
      chordSlope ℚ s.rectangle.p0 s.rectangle.p2 = chordSlope ℚ s.rectangle.p1 s.rectangle.p3 := by
    rw [eq_iff (hr2.sub hr0) (hr3.sub hr1), chordSlope, chordSlope,
      div_eq_div_iff hflat.ne' hsteep.ne', mul_comm (s.rectangle.p2.sub s.rectangle.p0).dx,
      ← Int.cast_inj (α := ℚ)]
    simp [Point.sub]
  rw [getIntersection, not_onePoint he, Bool.false_or]
  split
  · next heq =>
    -- parallel lines are one line
    have hpar := hslopes.mp heq
    have hline : chordSlope ℚ s.rectangle.p0 s.rectangle.p2 * s.rectangle.p2.x +
        chordIntercept ℚ s.rectangle.p0 s.rectangle.p2 = s.rectangle.p2.y :=
      line_right he.near.right.lt
    have hstab : Stabs (chordSlope ℚ s.rectangle.p1 s.rectangle.p3)
        (chordIntercept ℚ s.rectangle.p1 s.rectangle.p3) _ _ := Fan.stabs_left he
    have hlo := hstab.above _ (Fan.mem_near he).2
    have hhi := hstab.below _ (Fan.mem_far he).1
    rw [← hpar] at hlo hhi ⊢
    have hfirst : (s.rectangle.p0.y : ℚ) = chordSlope ℚ s.rectangle.p0 s.rectangle.p2 *
        s.rectangle.p0.x + chordIntercept ℚ s.rectangle.p0 s.rectangle.p2 := by
      rw [chordIntercept]
      ring
    exact ⟨hfirst, by linarith⟩
  · next hne =>
    have hdet : ((s.rectangle.p2.x : ℚ) - s.rectangle.p0.x) *
        (s.rectangle.p3.y - s.rectangle.p1.y) -
        (s.rectangle.p2.y - s.rectangle.p0.y) * (s.rectangle.p3.x - s.rectangle.p1.x) ≠ 0 := by
      intro hzero
      refine hne (hslopes.mpr ?_)
      rw [chordSlope, chordSlope, div_eq_div_iff hflat.ne' hsteep.ne']
      linarith
    dsimp only
    rw [toInt128_det (hr2.sub hr0) (hr3.sub hr1), toInt128_det (hr1.sub hr0) (hr3.sub hr1)]
    simp only [Point.sub, chordSlope, chordIntercept]
    push_cast
    have hflat' := hflat.ne'
    have hsteep' := hsteep.ne'
    obtain ⟨b, hb⟩ : ∃ b : ℚ, (((s.rectangle.p1.x : ℚ) - s.rectangle.p0.x) *
        (s.rectangle.p3.y - s.rectangle.p1.y) - (s.rectangle.p1.y - s.rectangle.p0.y) *
          (s.rectangle.p3.x - s.rectangle.p1.x)) / (((s.rectangle.p2.x : ℚ) - s.rectangle.p0.x) *
        (s.rectangle.p3.y - s.rectangle.p1.y) - (s.rectangle.p2.y - s.rectangle.p0.y) *
          (s.rectangle.p3.x - s.rectangle.p1.x)) = b := ⟨_, rfl⟩
    rw [hb]
    rw [div_eq_iff hdet] at hb
    constructor
    · field_simp
      ring
    · field_simp
      linear_combination hb

/-- The line of a segment is within `epsilon` of its points. -/
theorem Fits.within (h : s.Fits epsilon pts) {p : ℤ × ℕ} (hp : p ∈ pts) :
    |s.position p.1 - p.2| ≤ epsilon := by
  obtain ⟨hin, hfirst, ⟨q, rfl, hrect⟩ | ⟨lower, upper, he⟩⟩ := h
  · obtain rfl := List.mem_singleton.mp hp
    have hone : s.onePoint = true := by simp [onePoint, hrect]
    have hsum : (p.2 + p.2 : ℤ).tdiv 2 = p.2 := by
      rw [← two_mul]
      exact Int.mul_tdiv_cancel_left _ two_ne_zero
    simp [position, getFloatingPointSegment, hone, hrect, hsum]
  · obtain ⟨hon, hon'⟩ := getIntersection_on hin he
    have hhalf : (0 : ℚ) ≤ 1 / 2 ∧ (1 / 2 : ℚ) ≤ 1 := ⟨by norm_num, by norm_num⟩
    have hwithin := within_iff.mpr ((Fan.stabs_left he).convex (Fan.stabs_right he) hhalf.1 hhalf.2)
      p hp
    have hpos : s.position p.1 = (chordSlope ℚ s.rectangle.p0 s.rectangle.p2 +
        chordSlope ℚ s.rectangle.p1 s.rectangle.p3) / 2 * (p.1 - s.getIntersection.1) +
        s.getIntersection.2 := by
      simp only [position, getFloatingPointSegment, not_onePoint he, getSlopeRange_eq he,
        Bool.false_eq_true, if_false]
      ring
    have hmean : s.position p.1 = (1 / 2 * chordSlope ℚ s.rectangle.p1 s.rectangle.p3 +
        (1 - 1 / 2) * chordSlope ℚ s.rectangle.p0 s.rectangle.p2) * p.1 +
        (1 / 2 * chordIntercept ℚ s.rectangle.p1 s.rectangle.p3 +
          (1 - 1 / 2) * chordIntercept ℚ s.rectangle.p0 s.rectangle.p2) := by
      linear_combination hpos + (hon + hon') / 2
    rw [hmean]
    exact hwithin

/-- A segment has a line over every ordered field. -/
theorem Fits.exists_within (𝕜 : Type*) [Field 𝕜] [LinearOrder 𝕜] [IsStrictOrderedRing 𝕜]
    (h : s.Fits epsilon pts) : ∃ t k : 𝕜, Within t k epsilon pts := by
  obtain ⟨-, -, ⟨p, rfl, -⟩ | ⟨lower, upper, he⟩⟩ := h
  · refine ⟨0, p.2, fun r hr => ?_⟩
    obtain rfl := List.mem_singleton.mp hr
    simp
  · exact ⟨_, _, within_iff.mpr (Fan.stabs_left he)⟩

end CanonicalSegment

end KanvaRS
