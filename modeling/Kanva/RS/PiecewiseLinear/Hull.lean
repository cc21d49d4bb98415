import Kanva.RS.PiecewiseLinear.Model
import Mathlib.Algebra.Order.Group.Abs
import Mathlib.Algebra.Order.Ring.Abs

/-!
# The hulls

The two loops of `add_point` walk along the chain of a hull and stop where the line to the new point
touches it: the one that looks for the extreme slope from the left, the one that updates the hull
from the right. The products they compare have room in 128 bits.

## Main results

* `crossOf_eq`, `Slope.lt_iff`, `Slope.gt_iff`: the comparisons do not wrap.
* `Hull.extremeSlope_stops`, `Hull.updateEnd_stops`: where the loops stop.
-/

namespace KanvaRS

open StabbingLine

/-- A key of 64 bits, and a position moved by `epsilon`. -/
structure Point.InRange (p : Point) : Prop where
  x_nonneg : 0 ≤ p.x
  x_lt : p.x < 2 ^ 64
  y_ge : -2 ^ 61 ≤ p.y
  y_le : p.y ≤ 2 ^ 61

/-- The slope between two such points. -/
structure Slope.Small (s : Slope) : Prop where
  dx_lt : |s.dx| < 2 ^ 64
  dy_le : |s.dy| ≤ 2 ^ 62

theorem Point.InRange.sub {p q : Point} (hp : p.InRange) (hq : q.InRange) : (p.sub q).Small := by
  obtain ⟨hpx, hpx', hpy, hpy'⟩ := hp
  obtain ⟨hqx, hqx', hqy, hqy'⟩ := hq
  constructor
  · show |p.x - q.x| < 2 ^ 64
    exact abs_lt.mpr ⟨by linarith, by linarith⟩
  · show |p.y - q.y| ≤ 2 ^ 62
    exact abs_le.mpr ⟨by linarith, by linarith⟩

theorem toInt128_eq {z : ℤ} (h : |z| < 2 ^ 127) : toInt128 z = z := by
  obtain ⟨hlo, hhi⟩ := abs_lt.mp h
  exact Int.bmod_eq_of_le (by omega) (by omega)

/-- A product of two differences. -/
theorem abs_mul_lt {a b : ℤ} (ha : |a| < 2 ^ 64) (hb : |b| ≤ 2 ^ 62) : |a * b| < 2 ^ 126 := by
  rw [abs_mul]
  calc |a| * |b| ≤ |a| * 2 ^ 62 := mul_le_mul_of_nonneg_left hb (abs_nonneg a)
    _ < 2 ^ 64 * 2 ^ 62 := mul_lt_mul_of_pos_right ha (by norm_num)
    _ = 2 ^ 126 := by norm_num

theorem toInt128_mul {a b : ℤ} (ha : |a| < 2 ^ 64) (hb : |b| ≤ 2 ^ 62) :
    toInt128 (a * b) = a * b :=
  toInt128_eq ((abs_mul_lt ha hb).trans (by norm_num))

/-- A comparison of two slopes is that of an orientation with 0. -/
theorem Slope.lt_iff {s p : Slope} (hs : s.Small) (hp : p.Small) {c : ℤ}
    (hc : s.dy * p.dx - s.dx * p.dy = c) : s.lt p = true ↔ c < 0 := by
  rw [lt, decide_eq_true_eq, toInt128_mul hs.dx_lt hp.dy_le, mul_comm s.dy,
    toInt128_mul hp.dx_lt hs.dy_le, mul_comm p.dx, ← sub_neg, hc]

theorem Slope.gt_iff {s p : Slope} (hs : s.Small) (hp : p.Small) {c : ℤ}
    (hc : s.dy * p.dx - s.dx * p.dy = c) : s.gt p = true ↔ 0 < c := by
  rw [gt, decide_eq_true_eq, gt_iff_lt, toInt128_mul hs.dx_lt hp.dy_le, mul_comm s.dy,
    toInt128_mul hp.dx_lt hs.dy_le, mul_comm p.dx, ← sub_pos, hc]

/-- A point on one side of the line through `o` and `a`, as `add_point` tests it. -/
theorem lt_line_iff {o a b : Point} (ho : o.InRange) (ha : a.InRange) (hb : b.InRange) :
    (b.sub a).lt (a.sub o) = true ↔ cross o a b < 0 :=
  Slope.lt_iff (hb.sub ha) (ha.sub ho) (by
    simp only [Point.sub, cross]
    ring)

theorem gt_line_iff {o a b : Point} (ho : o.InRange) (ha : a.InRange) (hb : b.InRange) :
    (b.sub a).gt (a.sub o) = true ↔ 0 < cross o a b :=
  Slope.gt_iff (hb.sub ha) (ha.sub ho) (by
    simp only [Point.sub, cross]
    ring)

theorem lt_slope_iff {o a b : Point} (ho : o.InRange) (ha : a.InRange) (hb : b.InRange) :
    (b.sub o).lt (a.sub o) = true ↔ cross o a b < 0 :=
  Slope.lt_iff (hb.sub ho) (ha.sub ho) (by
    simp only [Point.sub, cross]
    ring)

theorem gt_slope_iff {o a b : Point} (ho : o.InRange) (ha : a.InRange) (hb : b.InRange) :
    (b.sub o).gt (a.sub o) = true ↔ 0 < cross o a b :=
  Slope.gt_iff (hb.sub ho) (ha.sub ho) (by
    simp only [Point.sub, cross]
    ring)

theorem crossOf_eq {o a b : Point} (ho : o.InRange) (ha : a.InRange) (hb : b.InRange) :
    crossOf o a b = cross o a b := by
  have hoa := ha.sub ho
  have hob := hb.sub ho
  have hleft := abs_mul_lt hoa.dx_lt hob.dy_le
  have hright := abs_mul_lt hob.dx_lt hoa.dy_le
  rw [mul_comm] at hright
  have hsub : |(a.sub o).dx * (b.sub o).dy - (a.sub o).dy * (b.sub o).dx| < 2 ^ 127 := by
    refine (abs_sub _ _).trans_lt ?_
    calc _ < (2 ^ 126 + 2 ^ 126 : ℤ) := add_lt_add hleft hright
      _ = 2 ^ 127 := by norm_num
  show toInt128 (toInt128 _ - toInt128 _) = _
  rw [toInt128_mul hoa.dx_lt hob.dy_le, mul_comm (a.sub o).dy, toInt128_mul hob.dx_lt hoa.dy_le,
    mul_comm (b.sub o).dx, toInt128_eq hsub]
  rfl

/-! ### Where the loops stop -/

/-- The test of the loop for the extreme slope in the lower hull. -/
theorem gt_sub_iff {o g v : Point} (ho : o.InRange) (hg : g.InRange) (hv : v.InRange) :
    (v.sub o).gt (g.sub o) = true ↔ 0 < side 1 g v o :=
  Slope.gt_iff (hv.sub ho) (hg.sub ho) (by
    simp only [Point.sub, side, cross]
    ring)

/-- The test of the loop for the extreme slope in the upper hull. -/
theorem lt_sub_iff {o g v : Point} (ho : o.InRange) (hg : g.InRange) (hv : v.InRange) :
    (v.sub o).lt (g.sub o) = true ↔ 0 < side (-1) g v o := by
  rw [Slope.lt_iff (c := -side (-1) g v o) (hv.sub ho) (hg.sub ho) (by
    simp only [Point.sub, side, cross]
    ring), neg_neg_iff_pos]

namespace Hull

variable {h : Hull} {σ : ℤ} {start k : ℕ} {q : Point}

/-- The points from `start` on. -/
def chain (h : Hull) (start : ℕ) : List Point := (h.points.drop start).map h.shift

/-- The index where the line to `q` touches the chain from `start` on. -/
structure StopsAt (σ : ℤ) (h : Hull) (start : ℕ) (q : Point) (k : ℕ) : Prop where
  le : start ≤ k
  lt : k < h.size
  left : k ≠ start → side σ (h.get (k - 1)) (h.get k) q ≤ 0
  right : k + 1 < h.size → 0 ≤ side σ (h.get k) (h.get (k + 1)) q

theorem getElem?_chain (hle : start ≤ k) (hk : k < h.size) :
    (h.chain start)[k - start]? = some (h.get k) := by
  rw [chain, List.getElem?_map, List.getElem?_drop, Nat.add_sub_cancel' hle, get,
    List.getD_eq_getElem?_getD, List.getElem?_eq_getElem hk]
  rfl

theorem chain_eq_cons (hk : k < h.size) : h.chain k = h.get k :: h.chain (k + 1) := by
  rw [chain, List.drop_eq_getElem_cons hk, List.map_cons, get, List.getD_eq_getElem?_getD,
    List.getElem?_eq_getElem hk]
  rfl

theorem chain_eq_append (hle : start ≤ k) :
    h.chain start = (h.chain start).take (k - start) ++ h.chain k := by
  have hdrop : h.chain k = (h.chain start).drop (k - start) := by
    rw [chain, chain, ← List.map_drop, List.drop_drop, Nat.add_sub_cancel' hle]
  rw [hdrop, List.take_append_drop]

/-- An edge of the chain. -/
theorem edge_of_isChain {r : Point → Point → Prop} (hedges : (h.chain start).IsChain r)
    (hle : start < k) (hk : k < h.size) : r (h.get (k - 1)) (h.get k) := by
  have hpair : h.chain (k - 1) = h.get (k - 1) :: h.get k :: h.chain (k + 1) := by
    rw [chain_eq_cons (by omega), Nat.sub_add_cancel (Nat.one_le_of_lt hle), chain_eq_cons hk]
  rw [chain_eq_append (Nat.le_sub_one_of_lt hle), hpair] at hedges
  exact (List.isChain_cons_cons.mp (List.isChain_append.mp hedges).2.1).1

theorem get_mem_chain (hle : start ≤ k) (hk : k < h.size) : h.get k ∈ h.chain start := by
  rw [chain_eq_append hle, chain_eq_cons hk]
  exact List.mem_append_right _ List.mem_cons_self

/-- The chain around the index where a walk has stopped. -/
theorem StopsAt.chain_eq (hs : StopsAt σ h start q k) :
    h.chain start = (h.chain start).take (k - start) ++ h.get k :: h.chain (k + 1) := by
  rw [← chain_eq_cons hs.lt]
  exact chain_eq_append hs.le

theorem StopsAt.stops (hs : StopsAt σ h start q k) :
    Stops σ q ((h.chain start).take (k - start)) (h.get k) (h.chain (k + 1)) := by
  obtain ⟨hle, hlt, hleft, hright⟩ := hs
  refine ⟨fun g hg => ?_, fun g hg => ?_⟩
  · have hne : k ≠ start := by
      rintro rfl
      simp at hg
    have hpos : k - start ≠ 0 := by omega
    have hlen : (h.chain start).length = h.size - start := by simp [chain, size]
    have hget : g = h.get (k - 1) := by
      have hlast : (h.chain start)[k - 1 - start]? = some (h.get (k - 1)) :=
        getElem?_chain (by omega) (by omega)
      rw [Option.mem_def, List.getLast?_eq_getElem?, List.length_take, hlen,
        Nat.min_eq_left (by omega), List.getElem?_take_of_lt (by omega), Nat.sub_right_comm,
        hlast] at hg
      exact (Option.some.inj hg).symm
    exact hget ▸ hleft hne
  · by_cases hk : k + 1 < h.size
    · rw [chain_eq_cons hk, List.head?_cons, Option.mem_some_iff] at hg
      exact hg ▸ hright hk
    · have hnil : h.chain (k + 1) = [] := by
        rw [chain, List.drop_eq_nil_of_le (not_lt.mp hk), List.map_nil]
      rw [hnil] at hg
      cases hg

/-- The points of the hull are in range. -/
def AllInRange (h : Hull) : Prop := ∀ p ∈ h.points, (h.shift p).InRange

theorem get_eq_shift {i : ℕ} (hi : i < h.size) : ∃ p ∈ h.points, h.get i = h.shift p := by
  refine ⟨h.points.get ⟨i, hi⟩, List.get_mem _ _, ?_⟩
  rw [Hull.get, List.getD_eq_getElem?_getD, List.getElem?_eq_getElem hi]
  rfl

theorem AllInRange.get (hall : h.AllInRange) {i : ℕ} (hi : i < h.size) : (h.get i).InRange := by
  obtain ⟨p, hp, heq⟩ := h.get_eq_shift hi
  exact heq ▸ hall p hp

/-- The loop for the extreme slope stops at the first edge that `q` is outside of. -/
theorem extremeLoop_stops {passes : Slope → Slope → Bool} (hall : h.AllInRange)
    (hpass : ∀ g v : Point, g.InRange → v.InRange →
      (passes (v.sub q) (g.sub q) = true ↔ 0 < side σ g v q))
    {rest : List StoredPoint} {i : ℕ} (hrest : h.points.drop (i + 1) = rest) (hle : start ≤ i)
    (hi : i < h.size) (hleft : i ≠ start → side σ (h.get (i - 1)) (h.get i) q ≤ 0) :
    StopsAt σ h start q (extremeLoop passes h q rest (i + 1) ((h.get i).sub q) i) := by
  induction rest generalizing i with
  | nil =>
    have hlen : h.size ≤ i + 1 := List.drop_eq_nil_iff.mp hrest
    exact ⟨hle, hi, hleft, fun hlt => absurd hlt hlen.not_gt⟩
  | cons p rest ih =>
    have hi' : i + 1 < h.size := by
      by_contra hge
      rw [List.drop_eq_nil_of_le (not_lt.mp hge)] at hrest
      cases hrest
    have hcons := List.drop_eq_getElem_cons hi'
    rw [hrest] at hcons
    obtain ⟨rfl, hrest'⟩ := List.cons_eq_cons.mp hcons
    have hget : h.shift h.points[i + 1] = h.get (i + 1) := by
      rw [get, List.getD_eq_getElem?_getD, List.getElem?_eq_getElem hi']
      rfl
    have hpass' := hpass (h.get i) (h.get (i + 1)) (hall.get hi) (hall.get hi')
    simp only [extremeLoop, hget]
    split
    · next hp => exact ⟨hle, hi, hleft, fun _ => (hpass'.mp hp).le⟩
    · next hp =>
      refine ih hrest'.symm (Nat.le_succ_of_le hle) hi' fun _ => ?_
      rw [Nat.add_sub_cancel]
      exact not_lt.mp fun hlt => hp (hpass'.mpr hlt)

theorem extremeSlope_stops {passes : Slope → Slope → Bool} (hall : h.AllInRange)
    (hpass : ∀ g v : Point, g.InRange → v.InRange →
      (passes (v.sub q) (g.sub q) = true ↔ 0 < side σ g v q)) (hstart : start < h.size) :
    ∃ k, h.extremeSlope passes start q = .ok k ∧ StopsAt σ h start q k := by
  refine ⟨_, if_pos hstart, ?_⟩
  exact extremeLoop_stops hall hpass rfl le_rfl hstart fun hne => absurd rfl hne

/-- The loop of the update, when it has come down to `last`. -/
theorem updateEnd_succ {pops : ℤ → Bool} (hall : h.AllInRange)
    (hpops : ∀ a b : Point, a.InRange → b.InRange →
      (pops (crossOf a b q) = true ↔ 0 ≤ side σ a b q)) {last : ℕ} (hle : start ≤ last)
    (hlast : last < h.size)
    (hright : last + 1 < h.size → 0 ≤ side σ (h.get last) (h.get (last + 1)) q) :
    ∃ k, h.updateEnd pops start q (last + 1) = k + 1 ∧ StopsAt σ h start q k := by
  induction last with
  | zero =>
    refine ⟨0, ?_, hle, hlast, fun hne => absurd (Nat.le_zero.mp hle).symm hne, hright⟩
    rw [updateEnd]
    simp
  | succ last ih =>
    have hpops' := hpops (h.get last) (h.get (last + 1)) (hall.get (Nat.lt_of_succ_lt hlast))
      (hall.get hlast)
    rw [updateEnd, Nat.add_sub_cancel]
    split
    · next hcond =>
      rw [Bool.and_eq_true, decide_eq_true_eq, hpops'] at hcond
      exact ih (by omega) (Nat.lt_of_succ_lt hlast) fun _ => hcond.2
    · next hcond =>
      refine ⟨last + 1, rfl, hle, hlast, fun hne => ?_, hright⟩
      rw [Bool.and_eq_true, decide_eq_true_eq, hpops', not_and] at hcond
      exact (not_le.mp (hcond (by omega))).le

/-- The loop of the update stops behind the last edge that `q` is inside of. -/
theorem updateEnd_stops {pops : ℤ → Bool} (hall : h.AllInRange)
    (hpops : ∀ a b : Point, a.InRange → b.InRange →
      (pops (crossOf a b q) = true ↔ 0 ≤ side σ a b q)) (hstart : start < h.size) :
    ∃ k, h.updateEnd pops start q h.size = k + 1 ∧ StopsAt σ h start q k := by
  obtain ⟨last, hsize⟩ := Nat.exists_eq_add_of_lt (Nat.zero_lt_of_lt hstart)
  rw [Nat.zero_add] at hsize
  rw [hsize]
  exact updateEnd_succ hall hpops (by omega) (by omega) fun hlt => absurd hlt (by omega)

/-- The chain of the updated hull. -/
theorem chain_update {pops : ℤ → Bool} {x : ℤ} {y : ℕ} (hs : StopsAt σ h start q k)
    (hend : h.updateEnd pops start q h.size = k + 1) :
    (h.update pops start q x y).chain start =
      (h.chain start).take (k - start) ++ [h.get k, h.shift ⟨x, y⟩] := by
  have hlt : k < h.points.length := hs.lt
  have hle := hs.le
  have hlast : (h.chain start)[k - start]? = some (h.get k) := getElem?_chain hle hlt
  have hsucc : k + 1 - start = k - start + 1 := by omega
  calc (h.update pops start q x y).chain start
      = ((h.points.take (k + 1) ++ [(⟨x, y⟩ : StoredPoint)]).drop start).map h.shift := by
        rw [← hend]
        rfl
    _ = (h.chain start).take (k - start + 1) ++ [h.shift ⟨x, y⟩] := by
        rw [List.drop_append_of_le_length (by rw [List.length_take]; omega), List.drop_take,
          List.map_append, List.map_take, hsucc]
        rfl
    _ = (h.chain start).take (k - start) ++ [h.get k, h.shift ⟨x, y⟩] := by
        rw [List.take_add_one, hlast]
        simp

/-- A point of the far set below the line through `a` and `b` turns that line. The near hull is
searched for the point it touches, and the far one is updated. -/
theorem turn (passes : Slope → Slope → Bool) (pops : ℤ → Bool) {near far : Hull} {ns fs : ℕ}
    {S T : Set Point} {a b c d : Point} {x : ℤ} {y : ℕ}
    (hf : Fan σ S T a b c d (near.chain ns) (far.chain fs)) (hnear : near.AllInRange)
    (hfar : far.AllInRange) (hpass : ∀ g v : Point, g.InRange → v.InRange →
      (passes (v.sub q) (g.sub q) = true ↔ 0 < side σ g v q))
    (hpops : ∀ a b : Point, a.InRange → b.InRange →
      (pops (crossOf a b q) = true ↔ 0 ≤ side (-σ) a b q)) (hq : far.shift ⟨x, y⟩ = q)
    (hab : side σ a b q ≤ 0) (hcd : 0 ≤ side σ c d q) (hT : ∀ p ∈ T, p.x < q.x)
    (hstop : ∀ i, StopsAt σ near ns q i → (near.get i).x < q.x) :
    ∃ i, near.extremeSlope passes ns q = .ok i ∧ i < near.size ∧
      Fan σ S (insert q T) (near.get i) q c d (near.chain i)
        ((far.update pops fs q x y).chain fs) := by
  have hns : ns < near.size := by
    by_contra hge
    have hhead := hf.near.head
    rw [chain, List.drop_eq_nil_of_le (not_lt.mp hge)] at hhead
    cases hhead
  have hfs : fs < far.size := by
    by_contra hge
    have hhead := hf.far.head
    rw [chain, List.drop_eq_nil_of_le (not_lt.mp hge)] at hhead
    cases hhead
  obtain ⟨i, hi, hstopi⟩ := extremeSlope_stops hnear hpass hns
  obtain ⟨k, hk, hstopk⟩ := updateEnd_stops hfar hpops hfs
  refine ⟨i, hi, hstopi.lt, ?_⟩
  rw [chain_update hstopk hk, hq, chain_eq_cons hstopi.lt]
  rw [hstopi.chain_eq, hstopk.chain_eq] at hf
  exact hf.cut hstopi.stops hstopk.stops hab hcd (hstop i hstopi) hT

end Hull

end KanvaRS
