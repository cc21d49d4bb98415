import Kanva.Common
import Kanva.StabbingLine

/-!
# The optimal piecewise linear model

`OptimalPiecewiseLinearModel` takes points with increasing keys, one at a time, for as long as one
line is within `epsilon` of all of them. It keeps the four corners of the extreme lines, and the
hulls of the points moved down and up by `epsilon`. `make_segmentation` starts a new segment with
the point that does not fit.

The keys are `uint64_t` and the positions `size_t`. Differences of these are kept in `__int128`,
which has room for them; products wrap there.

## Main definitions

* `OptimalPiecewiseLinearModel.addPoint`
* `makeSegmentation`, `segmentation`, `trainOpt`
-/

namespace KanvaRS

open Kanva StabbingLine

/-- What ends a call without a result. -/
inductive Fault where
  | logicError (what : String)
  | outOfRange
  | divideByZero
  | assertion
  /-- The loop has not ended within its number of rounds. -/
  | rounds
deriving DecidableEq, Repr

/-- A result in `LargeSigned`. -/
def toInt128 (z : ℤ) : ℤ := z.bmod (2 ^ 128)

/-- `Slope` -/
structure Slope where
  dx : ℤ
  dy : ℤ
deriving DecidableEq, Repr

namespace Slope

/-- `operator<` -/
def lt (s p : Slope) : Bool := toInt128 (s.dy * p.dx) < toInt128 (s.dx * p.dy)

/-- `operator>` -/
def gt (s p : Slope) : Bool := toInt128 (s.dy * p.dx) > toInt128 (s.dx * p.dy)

/-- `operator==` -/
def eq (s p : Slope) : Bool := toInt128 (s.dy * p.dx) = toInt128 (s.dx * p.dy)

end Slope

/-- `StoredPoint` -/
structure StoredPoint where
  x : ℤ
  y : ℕ
deriving DecidableEq, Repr

/-- `Point` -/
abbrev Point := StabbingLine.Point ℤ

deriving instance Repr for StabbingLine.Point

/-- `operator-` of two points -/
def Point.sub (p q : Point) : Slope := ⟨p.x - q.x, p.y - q.y⟩

/-- `cross` -/
def crossOf (o a b : Point) : ℤ :=
  let oa := Point.sub a o
  let ob := Point.sub b o
  toInt128 (toInt128 (oa.dx * ob.dy) - toInt128 (oa.dy * ob.dx))

/-- `Hull` -/
structure Hull where
  points : List StoredPoint
  epsilon : ℤ
deriving DecidableEq, Repr

namespace Hull

/-- `Hull::Hull` -/
def new (upper : Bool) (epsilon : ℤ) : Hull := ⟨[], if upper then epsilon else -epsilon⟩

/-- A point of the hull, moved by `epsilon`. -/
def shift (h : Hull) (p : StoredPoint) : Point := ⟨p.x, p.y + h.epsilon⟩

/-- `operator[]` below `size()` -/
def get (h : Hull) (i : ℕ) : Point := h.shift (h.points.getD i ⟨0, 0⟩)

/-- `size` -/
def size (h : Hull) : ℕ := h.points.length

/-- `clear` -/
def clear (h : Hull) : Hull := { h with points := [] }

/-- `resize` to at most `size()` -/
def resize (h : Hull) (n : ℕ) : Hull := { h with points := h.points.take n }

/-- `push` -/
def push (h : Hull) (x : ℤ) (y : ℕ) : Hull := { h with points := h.points ++ [⟨x, y⟩] }

/-- The loop that looks for the extreme slope, from index `i` on. -/
def extremeLoop (passes : Slope → Slope → Bool) (h : Hull) (p : Point) :
    List StoredPoint → ℕ → Slope → ℕ → ℕ
  | [], _, _, best => best
  | q :: rest, i, extreme, best =>
    let val := Point.sub (h.shift q) p
    if passes val extreme then best else extremeLoop passes h p rest (i + 1) val i

/-- "Find extreme slope": the index where the slopes to `p` pass their extreme. -/
def extremeSlope (passes : Slope → Slope → Bool) (h : Hull) (start : ℕ) (p : Point) :
    Except Fault ℕ :=
  if start < h.size then
    .ok (extremeLoop passes h p (h.points.drop (start + 1)) (start + 1)
      (Point.sub (h.get start) p) start)
  else .error .outOfRange

/-- The loop of "Hull update" from `end` downwards. -/
def updateEnd (pops : ℤ → Bool) (h : Hull) (start : ℕ) (p : Point) : ℕ → ℕ
  | 0 => 0
  | last + 1 =>
    if start + 2 ≤ last + 1 && pops (crossOf (h.get (last - 1)) (h.get last) p) then
      updateEnd pops h start p last
    else last + 1

/-- "Hull update" with the point `p`, which is stored as `x` and `y`. -/
def update (pops : ℤ → Bool) (h : Hull) (start : ℕ) (p : Point) (x : ℤ) (y : ℕ) : Hull :=
  (h.resize (h.updateEnd pops start p h.size)).push x y

end Hull

/-- `rectangle` -/
structure Rectangle where
  p0 : Point
  p1 : Point
  p2 : Point
  p3 : Point
deriving DecidableEq, Repr

/-- `OptimalPiecewiseLinearModel` -/
structure OptimalPiecewiseLinearModel where
  epsilon : ℕ
  lower : Hull
  upper : Hull
  firstX : ℤ
  lastX : ℤ
  lowerStart : ℕ
  upperStart : ℕ
  pointsInHull : ℕ
  rectangle : Rectangle
deriving DecidableEq, Repr

/-- `CanonicalSegment` -/
structure CanonicalSegment where
  rectangle : Rectangle
  first : ℤ
deriving DecidableEq, Repr

namespace OptimalPiecewiseLinearModel

/-- `OptimalPiecewiseLinearModel::OptimalPiecewiseLinearModel`. A `size_t` is not negative. -/
def new (epsilon : ℕ) : OptimalPiecewiseLinearModel where
  epsilon := epsilon
  lower := .new false epsilon
  upper := .new true epsilon
  firstX := 0
  lastX := 0
  lowerStart := 0
  upperStart := 0
  pointsInHull := 0
  rectangle := ⟨⟨0, 0⟩, ⟨0, 0⟩, ⟨0, 0⟩, ⟨0, 0⟩⟩

/-- `add_point`, the first point of a segment. -/
def addFirst (m : OptimalPiecewiseLinearModel) (x : ℤ) (y : ℕ) (p1 p2 : Point) :
    OptimalPiecewiseLinearModel :=
  { m with
    firstX := x
    rectangle := { m.rectangle with p0 := p1, p1 := p2 }
    upper := m.upper.clear.push x y
    lower := m.lower.clear.push x y
    upperStart := 0
    lowerStart := 0
    pointsInHull := m.pointsInHull + 1 }

/-- `add_point`, the second point of a segment. -/
def addSecond (m : OptimalPiecewiseLinearModel) (x : ℤ) (y : ℕ) (p1 p2 : Point) :
    OptimalPiecewiseLinearModel :=
  { m with
    rectangle := { m.rectangle with p2 := p2, p3 := p1 }
    upper := m.upper.push x y
    lower := m.lower.push x y
    pointsInHull := m.pointsInHull + 1 }

/-- `add_point`, when `p1` is below the steepest line. -/
def turnSteepest (m : OptimalPiecewiseLinearModel) (x : ℤ) (y : ℕ) (p1 : Point) :
    Except Fault OptimalPiecewiseLinearModel := do
  let i ← m.lower.extremeSlope Slope.gt m.lowerStart p1
  .ok { m with
    rectangle := { m.rectangle with p1 := m.lower.get i, p3 := p1 }
    lowerStart := i
    upper := m.upper.update (fun c => c ≤ 0) m.upperStart p1 x y }

/-- `add_point`, when `p2` is above the least steep line. -/
def turnFlattest (m : OptimalPiecewiseLinearModel) (x : ℤ) (y : ℕ) (p2 : Point) :
    Except Fault OptimalPiecewiseLinearModel := do
  let i ← m.upper.extremeSlope Slope.lt m.upperStart p2
  .ok { m with
    rectangle := { m.rectangle with p0 := m.upper.get i, p2 := p2 }
    upperStart := i
    lower := m.lower.update (fun c => 0 ≤ c) m.lowerStart p2 x y }

/-- `add_point`, the test of `p1` against the steepest line. -/
def updateSteepest (m : OptimalPiecewiseLinearModel) (x : ℤ) (y : ℕ) (p1 : Point) (slope2 : Slope) :
    Except Fault OptimalPiecewiseLinearModel :=
  if (Point.sub p1 m.rectangle.p1).lt slope2 then m.turnSteepest x y p1 else .ok m

/-- `add_point`, the test of `p2` against the least steep line. -/
def updateFlattest (m : OptimalPiecewiseLinearModel) (x : ℤ) (y : ℕ) (p2 : Point) (slope1 : Slope) :
    Except Fault OptimalPiecewiseLinearModel :=
  if (Point.sub p2 m.rectangle.p0).gt slope1 then m.turnFlattest x y p2 else .ok m

/-- `add_point` -/
def addPoint (m : OptimalPiecewiseLinearModel) (x : ℤ) (y : ℕ) :
    Except Fault (Bool × OptimalPiecewiseLinearModel) :=
  if m.pointsInHull > 0 ∧ x ≤ m.lastX then
    .error (.logicError "Points must be increasing by x.")
  else
    let m := { m with lastX := x }
    let p1 : Point := ⟨x, y + m.epsilon⟩
    let p2 : Point := ⟨x, y - m.epsilon⟩
    if m.pointsInHull = 0 then .ok (true, m.addFirst x y p1 p2)
    else if m.pointsInHull = 1 then .ok (true, m.addSecond x y p1 p2)
    else
      let slope1 := Point.sub m.rectangle.p2 m.rectangle.p0
      let slope2 := Point.sub m.rectangle.p3 m.rectangle.p1
      let outsideLine1 := (Point.sub p1 m.rectangle.p2).lt slope1
      let outsideLine2 := (Point.sub p2 m.rectangle.p3).gt slope2
      if outsideLine1 || outsideLine2 then .ok (false, { m with pointsInHull := 0 })
      else do
        let m ← m.updateSteepest x y p1 slope2
        let m ← m.updateFlattest x y p2 slope1
        .ok (true, { m with pointsInHull := m.pointsInHull + 1 })

/-- `get_segment` -/
def getSegment (m : OptimalPiecewiseLinearModel) : CanonicalSegment :=
  if m.pointsInHull = 1 then
    ⟨⟨m.rectangle.p0, m.rectangle.p1, m.rectangle.p0, m.rectangle.p1⟩, m.firstX⟩
  else ⟨m.rectangle, m.firstX⟩

end OptimalPiecewiseLinearModel

/-! ### The segmentation -/

/-- The local variables of `make_segmentation`, and the arguments of its calls of `out`. -/
structure SegmentState where
  start : ℕ
  p : ℤ × ℕ
  opt : OptimalPiecewiseLinearModel
  out : List (ℕ × ℕ × CanonicalSegment)
  c : ℕ

/-- The loop of `make_segmentation` from index `i` on, in at most the given number of rounds. -/
def segmentLoop (input : ℕ → ℤ × ℕ) (n : ℕ) : ℕ → ℕ → SegmentState → Except Fault SegmentState
  | 0, i, st => if i < n then .error .rounds else .ok st
  | rounds + 1, i, st =>
    if i < n then
      let nextP := input i
      if i ≠ st.start ∧ nextP.1 = st.p.1 then segmentLoop input n rounds (i + 1) st
      else
        match st.opt.addPoint nextP.1 nextP.2 with
        | .error fault => .error fault
        | .ok (true, opt) => segmentLoop input n rounds (i + 1) { st with p := nextP, opt := opt }
        -- `--i` takes the same point again
        | .ok (false, opt) => segmentLoop input n rounds i
          ⟨i, nextP, opt, st.out ++ [(st.start, i, opt.getSegment)], st.c + 1⟩
    else .ok st

/-- `make_segmentation` on the points of a function: the calls of `out`, and the result. -/
def makeSegmentation (n epsilon : ℕ) (input : ℕ → ℤ × ℕ) :
    Except Fault (List (ℕ × ℕ × CanonicalSegment) × ℕ) :=
  if n = 0 then .ok ([], 0)
  else do
    let p := input 0
    let (_, opt) ← (OptimalPiecewiseLinearModel.new epsilon).addPoint p.1 p.2
    let st ← segmentLoop input n (2 * n) 1 ⟨0, p, opt, [], 0⟩
    .ok (st.out ++ [(st.start, n, st.opt.getSegment)], st.c + 1)

/-- `make_segmentation` on the keys of a vector. The room that is reserved for the segments takes a
division by a `size_t`. -/
def segmentation (keys : List ℕ) (epsilon : ℕ) : Except Fault (List CanonicalSegment) :=
  if 0 < epsilon ∧ toSize (epsilon * epsilon) = 0 then .error .divideByZero
  else do
    let (out, _) ← makeSegmentation keys.length epsilon fun i => (keys.getD i 0, i)
    .ok (out.map fun q => q.2.2)

/-- `train_opt`: `maxErr` is an `int`, and the segments are kept for `model_size`. -/
def trainOpt (keys : List ℕ) (vals : List Val) (maxErr : ℕ) :
    Except Fault (List CanonicalSegment) :=
  if keys.length = vals.length then segmentation keys (toSize (toInt32 maxErr))
  else .error .assertion

end KanvaRS
