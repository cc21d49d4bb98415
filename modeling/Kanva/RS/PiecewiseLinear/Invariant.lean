import Kanva.RS.PiecewiseLinear.Hull

/-!
# The points of a segment

While `add_point` returns true, the rectangle has the corners of the two extreme lines, and the
chains of the hulls have all the points that a later extreme line can go through. It returns false
when the new point is beyond both lines, so that no line is within `epsilon` of all points.

## Main definitions

* `OptimalPiecewiseLinearModel.Inv`: what the model holds of the points of a segment.

## Main results

* `OptimalPiecewiseLinearModel.addPoint_first`, `addPoint_spec`: the steps.
* `OptimalPiecewiseLinearModel.Outside.not_within`: a rejected point fits no line.
-/

namespace KanvaRS

open StabbingLine

/-- The points moved down by `epsilon`. -/
def lowers (epsilon : ℕ) (pts : List (ℤ × ℕ)) : Set Point :=
  {q | ∃ p ∈ pts, q = ⟨p.1, p.2 - epsilon⟩}

/-- The points moved up by `epsilon`. -/
def uppers (epsilon : ℕ) (pts : List (ℤ × ℕ)) : Set Point :=
  {q | ∃ p ∈ pts, q = ⟨p.1, p.2 + epsilon⟩}

/-- The line is within `epsilon` of the points. -/
def Within {𝕜 : Type*} [Field 𝕜] [LinearOrder 𝕜] (t k : 𝕜) (epsilon : ℕ) (pts : List (ℤ × ℕ)) :
    Prop :=
  ∀ p ∈ pts, |t * p.1 + k - p.2| ≤ epsilon

/-- A key of 64 bits and a position that leave room for the products. -/
structure PairInRange (epsilon : ℕ) (p : ℤ × ℕ) : Prop where
  key_nonneg : 0 ≤ p.1
  key_lt : p.1 < 2 ^ 64
  pos_le : p.2 + epsilon ≤ 2 ^ 61

instance pairInRangeDecidable (epsilon : ℕ) (p : ℤ × ℕ) : Decidable (PairInRange epsilon p) :=
  decidable_of_iff (0 ≤ p.1 ∧ p.1 < 2 ^ 64 ∧ p.2 + epsilon ≤ 2 ^ 61)
    ⟨fun h => ⟨h.1, h.2.1, h.2.2⟩, fun h => ⟨h.key_nonneg, h.key_lt, h.pos_le⟩⟩

variable {epsilon : ℕ} {pts : List (ℤ × ℕ)} {x : ℤ} {y : ℕ} {q : Point}

theorem lowers_concat : lowers epsilon (pts ++ [(x, y)]) =
    insert ⟨x, y - epsilon⟩ (lowers epsilon pts) := by
  ext q
  simp [lowers, or_and_right, exists_or, or_comm]

theorem uppers_concat : uppers epsilon (pts ++ [(x, y)]) =
    insert ⟨x, y + epsilon⟩ (uppers epsilon pts) := by
  ext q
  simp [uppers, or_and_right, exists_or, or_comm]

theorem within_iff {𝕜 : Type*} [Field 𝕜] [LinearOrder 𝕜] [IsStrictOrderedRing 𝕜] {t k : 𝕜} :
    Within t k epsilon pts ↔ Stabs t k (lowers epsilon pts) (uppers epsilon pts) := by
  constructor
  · intro h
    constructor
    · rintro _ ⟨p, hp, rfl⟩
      have hle := (abs_le.mp (h p hp)).1
      push_cast
      linarith
    · rintro _ ⟨p, hp, rfl⟩
      have hle := (abs_le.mp (h p hp)).2
      push_cast
      linarith
  · intro h p hp
    have hlo := h.above _ ⟨p, hp, rfl⟩
    have hhi := h.below _ ⟨p, hp, rfl⟩
    push_cast at hlo hhi
    exact abs_le.mpr ⟨by linarith, by linarith⟩

theorem PairInRange.lower {p : ℤ × ℕ} (h : PairInRange epsilon p) :
    Point.InRange ⟨p.1, p.2 - epsilon⟩ := by
  obtain ⟨h0, hlt, hle⟩ := h
  exact ⟨h0, hlt, by show _ ≤ (p.2 : ℤ) - epsilon; omega, by show (p.2 : ℤ) - epsilon ≤ _; omega⟩

theorem PairInRange.upper {p : ℤ × ℕ} (h : PairInRange epsilon p) :
    Point.InRange ⟨p.1, p.2 + epsilon⟩ := by
  obtain ⟨h0, hlt, hle⟩ := h
  exact ⟨h0, hlt, by show _ ≤ (p.2 : ℤ) + epsilon; omega, by show (p.2 : ℤ) + epsilon ≤ _; omega⟩

/-- The extreme lines of a segment. A segment of one point has none. -/
def Rectangle.Extreme (r : Rectangle) (epsilon : ℕ) (pts : List (ℤ × ℕ))
    (lower upper : List Point) : Prop :=
  Fan 1 (lowers epsilon pts) (uppers epsilon pts) r.p1 r.p3 r.p0 r.p2 lower upper

namespace OptimalPiecewiseLinearModel

variable {m m' : OptimalPiecewiseLinearModel}

/-- The hulls are those of this `epsilon`. -/
structure Hulls (m : OptimalPiecewiseLinearModel) : Prop where
  lower : m.lower.epsilon = -m.epsilon
  upper : m.upper.epsilon = m.epsilon

/-- What the first point, or the points after it, leave in the rectangle and the hulls. -/
def Shape (m : OptimalPiecewiseLinearModel) : List (ℤ × ℕ) → Prop
  | [] => False
  | [p] => m.rectangle.p0 = ⟨p.1, p.2 + m.epsilon⟩ ∧ m.rectangle.p1 = ⟨p.1, p.2 - m.epsilon⟩ ∧
      m.lower.points = [⟨p.1, p.2⟩] ∧ m.upper.points = [⟨p.1, p.2⟩] ∧
      m.lowerStart = 0 ∧ m.upperStart = 0
  | pts => m.rectangle.Extreme m.epsilon pts (m.lower.chain m.lowerStart)
      (m.upper.chain m.upperStart)

/-- What the model holds of the points of a segment. -/
structure Inv (m : OptimalPiecewiseLinearModel) (pts : List (ℤ × ℕ)) : Prop where
  hulls : m.Hulls
  count : m.pointsInHull = pts.length
  first : pts.head?.map Prod.fst = some m.firstX
  last : ∀ p ∈ pts, p.1 ≤ m.lastX
  inRange : ∀ p ∈ pts, PairInRange m.epsilon p
  lower_mem : ∀ q ∈ m.lower.points, (q.x, q.y) ∈ pts
  upper_mem : ∀ q ∈ m.upper.points, (q.x, q.y) ∈ pts
  shape : m.Shape pts

/-- The new point is beyond both extreme lines, on one side. -/
def Outside (m : OptimalPiecewiseLinearModel) (x : ℤ) (y : ℕ) : Prop :=
  cross m.rectangle.p0 m.rectangle.p2 ⟨x, y + m.epsilon⟩ < 0 ∨
    0 < cross m.rectangle.p1 m.rectangle.p3 ⟨x, y - m.epsilon⟩

/-- The first point of a segment. -/
theorem addPoint_first (hm : m.Hulls) (hcount : m.pointsInHull = 0)
    (hr : PairInRange m.epsilon (x, y)) :
    ∃ m', m.addPoint x y = .ok (true, m') ∧ m'.Inv [(x, y)] ∧ m'.epsilon = m.epsilon ∧
      m'.lastX = x := by
  have hstep : m.addPoint x y = .ok (true, ({ m with lastX := x }).addFirst x y
      ⟨x, y + m.epsilon⟩ ⟨x, y - m.epsilon⟩) := by
    rw [addPoint, if_neg (by simp [hcount])]
    exact if_pos hcount
  refine ⟨_, hstep, ⟨⟨hm.lower, hm.upper⟩, ?_, rfl, ?_, ?_, ?_, ?_, ?_⟩, rfl, rfl⟩
  · simp [addFirst, hcount]
  · simp [addFirst]
  · simpa [addFirst] using hr
  · simp [addFirst, Hull.push, Hull.clear]
  · simp [addFirst, Hull.push, Hull.clear]
  · simp [Shape, addFirst, Hull.push, Hull.clear]

/-- The second point of a segment. -/
theorem addPoint_second {p : ℤ × ℕ} (h : m.Inv [p]) (hx : m.lastX < x)
    (hr : PairInRange m.epsilon (x, y)) :
    ∃ m', m.addPoint x y = .ok (true, m') ∧ m'.Inv [p, (x, y)] ∧ m'.epsilon = m.epsilon ∧
      m'.lastX = x := by
  have hcount : m.pointsInHull = 1 := h.count
  have hstep : m.addPoint x y = .ok (true, ({ m with lastX := x }).addSecond x y
      ⟨x, y + m.epsilon⟩ ⟨x, y - m.epsilon⟩) := by
    rw [addPoint, if_neg (by simp [hx])]
    simp [hcount]
  obtain ⟨hp0, hp1, hlower, hupper, hls, hus⟩ := h.shape
  have hpx : p.1 < x := (h.last p (List.mem_singleton_self p)).trans_lt hx
  refine ⟨_, hstep, ⟨⟨h.hulls.lower, h.hulls.upper⟩, ?_, h.first, ?_, ?_, ?_, ?_, ?_⟩, rfl, rfl⟩
  · simp [addSecond, hcount]
  · simpa [addSecond] using hpx.le
  · simpa [addSecond, hr] using h.inRange p
  · simp [addSecond, Hull.push, hlower]
  · simp [addSecond, Hull.push, hupper]
  · have hlow : lowers m.epsilon [p, (x, y)] =
        insert ⟨x, y - m.epsilon⟩ {⟨p.1, p.2 - m.epsilon⟩} := by
      ext q
      simp [lowers, or_comm]
    have hupp : uppers m.epsilon [p, (x, y)] =
        insert ⟨x, y + m.epsilon⟩ {⟨p.1, p.2 + m.epsilon⟩} := by
      ext q
      simp [uppers, or_comm]
    have hsum : ∀ z : ℤ, z - m.epsilon ≤ z + m.epsilon := fun z => by omega
    have hfan := Fan.pair (a := ⟨p.1, p.2 - m.epsilon⟩) (b := ⟨x, y + m.epsilon⟩)
      (c := ⟨p.1, p.2 + m.epsilon⟩) (d := ⟨x, y - m.epsilon⟩) hpx rfl rfl (hsum p.2) (hsum y)
    simpa only [Shape, addSecond, Rectangle.Extreme, Hull.chain, Hull.push, hls, hus, hlower,
      hupper, hlow, hupp, hp0, hp1, Hull.shift, h.hulls.lower, h.hulls.upper, List.drop_zero,
      List.cons_append, List.nil_append, List.map_cons, List.map_nil, ← sub_eq_add_neg] using hfan

/-! ### The further points -/

theorem Inv.extreme (h : m.Inv pts) (hlen : 2 ≤ pts.length) :
    m.rectangle.Extreme m.epsilon pts (m.lower.chain m.lowerStart)
      (m.upper.chain m.upperStart) := by
  have hshape := h.shape
  rcases pts with _ | ⟨p, _ | ⟨q, pts⟩⟩
  · simp at hlen
  · simp at hlen
  · exact hshape

theorem lower_inRange (hm : m.Hulls) (hpts : ∀ p ∈ pts, PairInRange m.epsilon p)
    (hmem : ∀ q ∈ m.lower.points, (q.x, q.y) ∈ pts) : m.lower.AllInRange := by
  intro q hq
  have hin := (hpts _ (hmem q hq)).lower
  rwa [sub_eq_add_neg, ← hm.lower] at hin

theorem upper_inRange (hm : m.Hulls) (hpts : ∀ p ∈ pts, PairInRange m.epsilon p)
    (hmem : ∀ q ∈ m.upper.points, (q.x, q.y) ∈ pts) : m.upper.AllInRange := by
  intro q hq
  have hin := (hpts _ (hmem q hq)).upper
  rwa [← hm.upper] at hin

theorem mem_update {pops : ℤ → Bool} {h : Hull} {start : ℕ} {q : Point} {s : StoredPoint}
    (hs : s ∈ (h.update pops start q x y).points) : s ∈ h.points ∨ s = ⟨x, y⟩ := by
  rcases List.mem_append.mp hs with hs | hs
  · exact .inl (List.mem_of_mem_take hs)
  · exact .inr (List.mem_singleton.mp hs)

/-- The model after the upper one of the moved points has been seen to. -/
structure Halfway (m m₁ : OptimalPiecewiseLinearModel) (pts : List (ℤ × ℕ)) (x : ℤ) (y : ℕ) :
    Prop where
  fan : Fan 1 (lowers m.epsilon pts) (insert ⟨x, y + m.epsilon⟩ (uppers m.epsilon pts))
    m₁.rectangle.p1 m₁.rectangle.p3 m₁.rectangle.p0 m₁.rectangle.p2
    (m₁.lower.chain m₁.lowerStart) (m₁.upper.chain m₁.upperStart)
  p0_eq : m₁.rectangle.p0 = m.rectangle.p0
  p2_eq : m₁.rectangle.p2 = m.rectangle.p2
  lower_eq : m₁.lower = m.lower
  hulls : m₁.Hulls
  epsilon_eq : m₁.epsilon = m.epsilon
  count_eq : m₁.pointsInHull = m.pointsInHull
  first_eq : m₁.firstX = m.firstX
  last_eq : m₁.lastX = m.lastX
  upper_mem : ∀ q ∈ m₁.upper.points, (q.x, q.y) ∈ pts ++ [(x, y)]
  steepest : cross m₁.rectangle.p1 m₁.rectangle.p3 ⟨x, y - m.epsilon⟩ ≤ 0
  /-- The new point is in the upper chain only if it has turned the steepest line. -/
  early : ∀ q ∈ m₁.upper.chain m₁.upperStart, q.x < x ∨ 0 < m.epsilon

theorem lowers_x_lt (hx : ∀ p ∈ pts, p.1 < x) : ∀ q ∈ lowers epsilon pts, q.x < x := by
  rintro _ ⟨p, hp, rfl⟩
  exact hx p hp

theorem uppers_x_lt (hx : ∀ p ∈ pts, p.1 < x) : ∀ q ∈ uppers epsilon pts, q.x < x := by
  rintro _ ⟨p, hp, rfl⟩
  exact hx p hp

/-- The two moved points, seen from the left. -/
theorem cross_moved (o : Point) : cross o ⟨x, y + epsilon⟩ ⟨x, y - epsilon⟩ =
    (x - o.x) * -(2 * epsilon) := by
  simp only [cross]
  ring

/-- The upper one of the moved points. -/
theorem halfway (h : m.Inv pts) (hlen : 2 ≤ pts.length) (hx : ∀ p ∈ pts, p.1 < x)
    (hr : PairInRange m.epsilon (x, y))
    (hout : ¬ m.Outside x y) :
    ∃ m₁, m.updateSteepest x y ⟨x, y + m.epsilon⟩ (m.rectangle.p3.sub m.rectangle.p1) = .ok m₁ ∧
      m.Halfway m₁ pts x y := by
  have hfan : Fan 1 (lowers m.epsilon pts) (uppers m.epsilon pts) m.rectangle.p1 m.rectangle.p3
    m.rectangle.p0 m.rectangle.p2 _ _ := h.extreme hlen
  have hlower := lower_inRange h.hulls h.inRange h.lower_mem
  have hupper := upper_inRange h.hulls h.inRange h.upper_mem
  rw [Outside, not_or, not_lt, not_lt] at hout
  obtain ⟨hflat, hsteep⟩ := hout
  have hp1 : Point.InRange ⟨x, y + m.epsilon⟩ := hr.upper
  have hr1 : m.rectangle.p1.InRange := by
    obtain ⟨p, hp, heq⟩ := hfan.mem_near.1
    exact heq ▸ (h.inRange p hp).lower
  have hr3 : m.rectangle.p3.InRange := by
    obtain ⟨p, hp, heq⟩ := hfan.mem_far.2
    exact heq ▸ (h.inRange p hp).upper
  have hr3x : m.rectangle.p3.x < x := uppers_x_lt hx _ hfan.mem_far.2
  have htest := lt_slope_iff hr1 hr3 hp1
  have hcd : 0 ≤ side 1 m.rectangle.p0 m.rectangle.p2 ⟨x, y + m.epsilon⟩ := by
    rw [side, one_mul]
    exact hflat
  rw [updateSteepest]
  split
  · next hlt =>
    have hab := htest.mp hlt
    have hab' : side 1 m.rectangle.p1 m.rectangle.p3 ⟨x, y + m.epsilon⟩ ≤ 0 := by
      rw [side, one_mul]
      exact hab.le
    have hpos : 0 < m.epsilon := by
      by_contra hzero
      have hsame : uppers m.epsilon pts = lowers m.epsilon pts := by
        simp [uppers, lowers, Nat.eq_zero_of_not_pos hzero]
      rw [hsame] at hfan
      have hge := hfan.not_between hcd
      rw [side, one_mul] at hge
      exact hab.not_ge hge
    have hpops : ∀ a b : Point, a.InRange → b.InRange →
        (decide (crossOf a b ⟨x, y + m.epsilon⟩ ≤ 0) = true ↔
          0 ≤ side (-1) a b ⟨x, y + m.epsilon⟩) := by
      intro a b ha hb
      rw [decide_eq_true_eq, crossOf_eq ha hb hp1, side_neg, side, one_mul, neg_nonneg]
    have hshift : m.upper.shift ⟨x, y⟩ = ⟨x, y + m.epsilon⟩ := by rw [Hull.shift, h.hulls.upper]
    obtain ⟨i, hi, hisize, hturn⟩ := Hull.turn Slope.gt (fun c => decide (c ≤ 0)) hfan hlower hupper
      (fun g v => gt_sub_iff hp1) hpops hshift hab' hcd (uppers_x_lt hx) fun i hstop => by
        obtain ⟨p, hp, heq⟩ := m.lower.get_eq_shift hstop.lt
        exact heq ▸ hx _ (h.lower_mem p hp)
    have hstep : m.turnSteepest x y ⟨x, y + m.epsilon⟩ = .ok { m with
        rectangle := { m.rectangle with p1 := m.lower.get i, p3 := ⟨x, y + m.epsilon⟩ }
        lowerStart := i
        upper := m.upper.update (fun c => c ≤ 0) m.upperStart ⟨x, y + m.epsilon⟩ x y } := by
      rw [turnSteepest, hi]
      rfl
    refine ⟨_, hstep, ⟨hturn, rfl, rfl, rfl, ⟨h.hulls.lower, h.hulls.upper⟩, rfl, rfl, rfl, rfl,
      fun q hq => ?_, ?_, fun _ _ => .inr hpos⟩⟩
    · rcases mem_update hq with hq | rfl
      · exact List.mem_append_left _ (h.upper_mem q hq)
      · simp
    · -- the point moved down is below the one moved up
      have hget : (m.lower.get i).x < x := hturn.near.left.lt
      rw [cross_moved]
      exact mul_nonpos_of_nonneg_of_nonpos (sub_nonneg.mpr hget.le) (by simp)
  · next hge =>
    have hab : 0 ≤ side 1 m.rectangle.p1 m.rectangle.p3 ⟨x, y + m.epsilon⟩ := by
      rw [side, one_mul]
      exact not_lt.mp fun hlt => hge (htest.mpr hlt)
    refine ⟨m, rfl, ⟨hfan.add hab hcd hr3x.le, rfl, rfl, rfl, h.hulls, rfl, rfl, rfl, rfl,
      fun q hq => List.mem_append_left _ (h.upper_mem q hq), hsteep, fun q hq => .inl ?_⟩⟩
    exact uppers_x_lt hx q (hfan.far.mem q hq)

/-- A model with the rectangle and the chains of all points keeps the invariant when it counts the
new one. -/
theorem Inv.concat {m₂ : OptimalPiecewiseLinearModel} (h : m.Inv pts) (hlen : 2 ≤ pts.length)
    (hx : ∀ p ∈ pts, p.1 < x) (hr : PairInRange m.epsilon (x, y)) (hhulls : m₂.Hulls)
    (heps : m₂.epsilon = m.epsilon) (hcount : m₂.pointsInHull = m.pointsInHull)
    (hfirst : m₂.firstX = m.firstX) (hlast : m₂.lastX = x)
    (hlo : ∀ q ∈ m₂.lower.points, (q.x, q.y) ∈ pts ++ [(x, y)])
    (hup : ∀ q ∈ m₂.upper.points, (q.x, q.y) ∈ pts ++ [(x, y)])
    (hfan : Fan (-1) (insert ⟨x, y + m.epsilon⟩ (uppers m.epsilon pts))
      (insert ⟨x, y - m.epsilon⟩ (lowers m.epsilon pts)) m₂.rectangle.p0 m₂.rectangle.p2
      m₂.rectangle.p1 m₂.rectangle.p3 (m₂.upper.chain m₂.upperStart)
      (m₂.lower.chain m₂.lowerStart)) :
    ({ m₂ with pointsInHull := m₂.pointsInHull + 1 } : OptimalPiecewiseLinearModel).Inv
      (pts ++ [(x, y)]) := by
  refine ⟨⟨hhulls.lower, hhulls.upper⟩, ?_, ?_, fun p hp => ?_, fun p hp => ?_, hlo, hup, ?_⟩
  · simp [hcount, h.count]
  · rw [List.head?_append, hfirst, ← h.first]
    cases pts <;> simp at hlen ⊢
  · show p.1 ≤ m₂.lastX
    rw [hlast]
    rcases List.mem_append.mp hp with hp | hp
    · exact (hx p hp).le
    · exact List.mem_singleton.mp hp ▸ le_rfl
  · show PairInRange m₂.epsilon p
    rw [heps]
    rcases List.mem_append.mp hp with hp | hp
    · exact h.inRange p hp
    · exact List.mem_singleton.mp hp ▸ hr
  · have hswap := hfan.swap
    rw [neg_neg, ← lowers_concat, ← uppers_concat, ← heps] at hswap
    rcases pts with _ | ⟨p, _ | ⟨q, pts⟩⟩
    · simp at hlen
    · simp at hlen
    · exact hswap

/-- The walk along the upper chain does not come to the new point. -/
theorem Halfway.stop_lt {m₁ : OptimalPiecewiseLinearModel} (hhalf : m.Halfway m₁ pts x y)
    (hx : ∀ p ∈ pts, p.1 < x) {i : ℕ}
    (hstop : Hull.StopsAt (-1) m₁.upper m₁.upperStart ⟨x, y - m.epsilon⟩ i) :
    (m₁.upper.get i).x < x := by
  have hfan := hhalf.fan
  by_contra hge
  have hin := Hull.get_mem_chain hstop.le hstop.lt
  have hpos := (hhalf.early _ hin).resolve_left hge
  have heq : m₁.upper.get i = ⟨x, y + m.epsilon⟩ :=
    (Set.mem_insert_iff.mp (hfan.far.mem _ hin)).resolve_right fun hold =>
      hge (uppers_x_lt hx _ hold)
  have hne : i ≠ m₁.upperStart := by
    rintro rfl
    have hhead := hfan.far.head
    rw [Hull.chain_eq_cons hstop.lt, List.head?_cons, Option.some_inj] at hhead
    exact hge (hhead ▸ hfan.near.right.lt.trans (lowers_x_lt hx _ hfan.mem_near.2))
  have hedge := Hull.edge_of_isChain hfan.far.edges (lt_of_le_of_ne hstop.le hne.symm) hstop.lt
  have hleft := hstop.left hne
  have hlt := hedge.lt
  rw [heq] at hleft hlt
  rw [side_neg, side, one_mul, cross_moved, neg_nonpos] at hleft
  have hlen : 0 < x - (m₁.upper.get (i - 1)).x := sub_pos.mpr hlt
  have hneg := mul_neg_of_pos_of_neg hlen (show -(2 * (m.epsilon : ℤ)) < 0 by omega)
  exact hneg.not_ge hleft

/-- The lower one of the moved points, and the count. -/
theorem Halfway.complete {m₁ : OptimalPiecewiseLinearModel} (hhalf : m.Halfway m₁ pts x y)
    (h : m.Inv pts) (hlen : 2 ≤ pts.length) (hx : ∀ p ∈ pts, p.1 < x) (hlast : m.lastX = x)
    (hr : PairInRange m.epsilon (x, y)) :
    ∃ m₂, m₁.updateFlattest x y ⟨x, y - m.epsilon⟩ (m.rectangle.p2.sub m.rectangle.p0) = .ok m₂ ∧
      ({ m₂ with pointsInHull := m₂.pointsInHull + 1 } : OptimalPiecewiseLinearModel).Inv
        (pts ++ [(x, y)]) ∧ m₂.epsilon = m.epsilon ∧ m₂.lastX = x := by
  have hstop := fun i => hhalf.stop_lt hx (i := i)
  obtain ⟨hfan, hp0, hp2, hlo, hhulls, heps, hcount, hfirst, hlast₁, hmem, hsteep, -⟩ := hhalf
  have hpts : ∀ p ∈ pts ++ [(x, y)], PairInRange m₁.epsilon p := by
    intro p hp
    rw [heps]
    rcases List.mem_append.mp hp with hp | hp
    · exact h.inRange p hp
    · exact List.mem_singleton.mp hp ▸ hr
  have hlower := lower_inRange h.hulls h.inRange h.lower_mem
  rw [← hlo] at hlower
  have hupper := upper_inRange hhulls hpts hmem
  have hp2' : Point.InRange ⟨x, y - m.epsilon⟩ := hr.lower
  have hr0 : m₁.rectangle.p0.InRange := by
    obtain ⟨q, hq, heq⟩ := (h.extreme hlen).mem_far.1
    rw [hp0, heq]
    exact (h.inRange q hq).upper
  have hr2 : m₁.rectangle.p2.InRange := by
    obtain ⟨q, hq, heq⟩ := hfan.mem_near.2
    exact heq ▸ (h.inRange q hq).lower
  have hr2x : m₁.rectangle.p2.x < x := lowers_x_lt hx _ hfan.mem_near.2
  rw [← hp0, ← hp2]
  have htest := gt_slope_iff hr0 hr2 hp2'
  have hcd : 0 ≤ side (-1) m₁.rectangle.p1 m₁.rectangle.p3 ⟨x, y - m.epsilon⟩ := by
    rw [side_neg, side, one_mul, neg_nonneg]
    exact hsteep
  rw [updateFlattest]
  split
  · next hgt =>
    have hab : side (-1) m₁.rectangle.p0 m₁.rectangle.p2 ⟨x, y - m.epsilon⟩ ≤ 0 := by
      rw [side_neg, side, one_mul, neg_nonpos]
      exact (htest.mp hgt).le
    have hpops : ∀ a b : Point, a.InRange → b.InRange →
        (decide (0 ≤ crossOf a b ⟨x, y - m.epsilon⟩) = true ↔
          0 ≤ side (- -1) a b ⟨x, y - m.epsilon⟩) := by
      intro a b ha hb
      rw [decide_eq_true_eq, crossOf_eq ha hb hp2', neg_neg, side, one_mul]
    have hshift : m₁.lower.shift ⟨x, y⟩ = ⟨x, y - m.epsilon⟩ := by
      rw [Hull.shift, hhulls.lower, heps]
      rfl
    obtain ⟨i, hi, hisize, hturn⟩ := Hull.turn Slope.lt (fun c => decide (0 ≤ c)) hfan.swap hupper
      hlower (fun g v => lt_sub_iff hp2') hpops hshift hab hcd (lowers_x_lt hx) hstop
    have hstep : m₁.turnFlattest x y ⟨x, y - m.epsilon⟩ = .ok { m₁ with
        rectangle := { m₁.rectangle with p0 := m₁.upper.get i, p2 := ⟨x, y - m.epsilon⟩ }
        upperStart := i
        lower := m₁.lower.update (fun c => 0 ≤ c) m₁.lowerStart ⟨x, y - m.epsilon⟩ x y } := by
      rw [turnFlattest, hi]
      rfl
    refine ⟨_, hstep, h.concat hlen hx hr ⟨hhulls.lower, hhulls.upper⟩ heps hcount hfirst
      (hlast₁.trans hlast) (fun q hq => ?_) hmem hturn, heps, hlast₁.trans hlast⟩
    rcases mem_update hq with hq | rfl
    · exact List.mem_append_left _ (h.lower_mem q (hlo ▸ hq))
    · simp
  · next hle =>
    have hab : 0 ≤ side (-1) m₁.rectangle.p0 m₁.rectangle.p2 ⟨x, y - m.epsilon⟩ := by
      rw [side_neg, side, one_mul, neg_nonneg]
      exact not_lt.mp fun hlt => hle (htest.mpr hlt)
    refine ⟨m₁, rfl, h.concat hlen hx hr hhulls heps hcount hfirst (hlast₁.trans hlast)
      (fun q hq => List.mem_append_left _ (h.lower_mem q (hlo ▸ hq))) hmem
      (hfan.swap.add hab hcd hr2x.le), heps, hlast₁.trans hlast⟩

/-- The tests of the two extreme lines. -/
theorem outside_iff (h : m.Inv pts) (hlen : 2 ≤ pts.length) (hr : PairInRange m.epsilon (x, y)) :
    ((Point.sub ⟨x, y + m.epsilon⟩ m.rectangle.p2).lt (m.rectangle.p2.sub m.rectangle.p0) ||
      (Point.sub ⟨x, y - m.epsilon⟩ m.rectangle.p3).gt (m.rectangle.p3.sub m.rectangle.p1)) =
        true ↔ m.Outside x y := by
  have hfan : Fan 1 (lowers m.epsilon pts) (uppers m.epsilon pts) m.rectangle.p1 m.rectangle.p3
    m.rectangle.p0 m.rectangle.p2 _ _ := h.extreme hlen
  have hlow : ∀ q ∈ lowers m.epsilon pts, q.InRange := by
    rintro _ ⟨p, hp, rfl⟩
    exact (h.inRange p hp).lower
  have hupp : ∀ q ∈ uppers m.epsilon pts, q.InRange := by
    rintro _ ⟨p, hp, rfl⟩
    exact (h.inRange p hp).upper
  rw [Bool.or_eq_true, lt_line_iff (hupp _ hfan.mem_far.1) (hlow _ hfan.mem_near.2) hr.upper,
    gt_line_iff (hlow _ hfan.mem_near.1) (hupp _ hfan.mem_far.2) hr.lower]
  rfl

/-- A further point of a segment: it is added, or it is beyond an extreme line. -/
theorem addPoint_further (h : m.Inv pts) (hlen : 2 ≤ pts.length) (hx : m.lastX < x)
    (hr : PairInRange m.epsilon (x, y)) :
    (∃ m', m.addPoint x y = .ok (true, m') ∧ m'.Inv (pts ++ [(x, y)]) ∧ m'.epsilon = m.epsilon ∧
      m'.lastX = x) ∨
    m.Outside x y ∧ m.addPoint x y = .ok (false, { m with lastX := x, pointsInHull := 0 }) := by
  have hcount : m.pointsInHull ≠ 0 ∧ m.pointsInHull ≠ 1 := by
    rw [h.count]
    omega
  have hxs : ∀ p ∈ pts, p.1 < x := fun p hp => (h.last p hp).trans_lt hx
  have hmoved : ({ m with lastX := x } : OptimalPiecewiseLinearModel).Inv pts :=
    ⟨⟨h.hulls.lower, h.hulls.upper⟩, h.count, h.first, fun p hp => (hxs p hp).le, h.inRange,
      h.lower_mem, h.upper_mem, h.shape⟩
  by_cases hout : m.Outside x y
  · refine .inr ⟨hout, ?_⟩
    rw [addPoint, if_neg (by simp [hx])]
    simp only [hcount.1, hcount.2, if_false]
    rw [if_pos ((outside_iff h hlen hr).mpr hout)]
  · obtain ⟨m₁, h₁, hhalf⟩ := halfway hmoved hlen hxs hr hout
    obtain ⟨m₂, h₂, hinv, heps, hlast⟩ := hhalf.complete hmoved hlen hxs rfl hr
    refine .inl ⟨_, ?_, hinv, heps, hlast⟩
    rw [addPoint, if_neg (by simp [hx])]
    simp only [hcount.1, hcount.2, if_false]
    rw [if_neg fun htrue => hout ((outside_iff h hlen hr).mp htrue)]
    dsimp only at h₁ h₂
    simp only [h₁, h₂, bind, Except.bind]

/-- A point that is beyond an extreme line fits no line. -/
theorem Outside.not_within {𝕜 : Type*} [Field 𝕜] [LinearOrder 𝕜] [IsStrictOrderedRing 𝕜] {t k : 𝕜}
    (hout : m.Outside x y) (h : m.Inv pts) (hlen : 2 ≤ pts.length) (hx : m.lastX < x) :
    ¬ Within t k m.epsilon (pts ++ [(x, y)]) := by
  have hfan : Fan 1 (lowers m.epsilon pts) (uppers m.epsilon pts) m.rectangle.p1 m.rectangle.p3
    m.rectangle.p0 m.rectangle.p2 _ _ := h.extreme hlen
  have hxs : ∀ p ∈ pts, p.1 < x := fun p hp => (h.last p hp).trans_lt hx
  rw [within_iff, lowers_concat, uppers_concat]
  intro hs
  rcases hout with hout | hout
  · exact hfan.not_stabs_below hout (lowers_x_lt hxs _ hfan.mem_near.2).le
      (hs.mono (Set.subset_insert _ _) subset_rfl)
  · exact hfan.not_stabs_above hout (uppers_x_lt hxs _ hfan.mem_far.2).le
      (hs.mono subset_rfl (Set.subset_insert _ _))

end OptimalPiecewiseLinearModel

end KanvaRS
