import Kanva.GreedySplit
import Kanva.RS.PiecewiseLinear.Lines

/-!
# The segmentation

`make_segmentation` gives the position of the first occurrence of every key to the model, in order,
and starts a new segment where one does not fit. A key that occurs again is passed over, so its
other positions do not count.

## Main results

* `addPoint_true_iff`: `add_point` returns true if and only if one line fits all points.
* `trainOpt_within`: `train_opt` returns, and every segment is within `maxErr` of its keys.
* `trainOpt_fewest`: no other division into parts with such lines has fewer of them.
-/

namespace KanvaRS

open Kanva GreedySplit OptimalPiecewiseLinearModel

/-! ### The calls of `add_point` -/

namespace OptimalPiecewiseLinearModel

variable {epsilon : ℕ} {m m' : OptimalPiecewiseLinearModel} {pts : List (ℤ × ℕ)} {x : ℤ} {y : ℕ}

/-- The next point of a segment that has one. -/
theorem addPoint_next (h : m.Inv pts) (hx : m.lastX < x) (hr : PairInRange m.epsilon (x, y)) :
    (∃ m', m.addPoint x y = .ok (true, m') ∧ m'.Inv (pts ++ [(x, y)]) ∧ m'.epsilon = m.epsilon ∧
      m'.lastX = x) ∨
    2 ≤ pts.length ∧ m.Outside x y ∧
      m.addPoint x y = .ok (false, { m with lastX := x, pointsInHull := 0 }) := by
  rcases pts with _ | ⟨p, _ | ⟨q, pts⟩⟩
  · exact h.shape.elim
  · exact .inl (addPoint_second h hx hr)
  · have hlen : 2 ≤ (p :: q :: pts).length := by simp
    exact (addPoint_further h hlen hx hr).imp_right fun hout => ⟨hlen, hout⟩

/-- The calls of `add_point` on the points have returned true. -/
def Adds : OptimalPiecewiseLinearModel → List (ℤ × ℕ) → OptimalPiecewiseLinearModel → Prop
  | m, [], m' => m' = m
  | m, p :: pts, m' => ∃ m₁, m.addPoint p.1 p.2 = .ok (true, m₁) ∧ Adds m₁ pts m'

theorem Adds.inv_append {ps : List (ℤ × ℕ)} (hadds : Adds m pts m') (h : m.Inv ps)
    (hlt : pts.Pairwise fun p q => p.1 < q.1) (hlast : ∀ p ∈ pts, m.lastX < p.1)
    (hr : ∀ p ∈ pts, PairInRange m.epsilon p) :
    m'.Inv (ps ++ pts) ∧ m'.epsilon = m.epsilon ∧
      (m'.lastX = m.lastX ∨ ∃ p ∈ pts, m'.lastX = p.1) := by
  induction pts generalizing m ps with
  | nil =>
    obtain rfl : m' = m := hadds
    exact ⟨by rwa [List.append_nil], rfl, .inl rfl⟩
  | cons p pts ih =>
    obtain ⟨m₁, hstep, hrest⟩ := hadds
    obtain ⟨hfirst, hlt⟩ := List.pairwise_cons.mp hlt
    rcases addPoint_next h (hlast p List.mem_cons_self) (hr p List.mem_cons_self) with
      ⟨m₂, hstep₂, hinv, heps, hx⟩ | ⟨-, -, hstep₂⟩
    · rw [hstep] at hstep₂
      obtain rfl : m₁ = m₂ := by simpa using hstep₂
      have hr₁ : ∀ q ∈ pts, PairInRange m₁.epsilon q := fun q hq =>
        heps ▸ hr q (List.mem_cons_of_mem p hq)
      obtain ⟨hinv', heps', hx'⟩ := ih hrest hinv hlt (fun q hq => hx ▸ hfirst q hq) hr₁
      rw [List.append_assoc] at hinv'
      refine ⟨hinv', heps'.trans heps, .inr ?_⟩
      rcases hx' with hx' | ⟨q, hq, hx'⟩
      · exact ⟨p, List.mem_cons_self, hx'.trans hx⟩
      · exact ⟨q, List.mem_cons_of_mem p hq, hx'⟩
    · rw [hstep] at hstep₂
      simp at hstep₂

/-- What the model holds after calls that have returned true. -/
theorem Adds.inv (hadds : Adds (.new epsilon) pts m) (hne : pts ≠ [])
    (hlt : pts.Pairwise fun p q => p.1 < q.1) (hr : ∀ p ∈ pts, PairInRange epsilon p) :
    m.Inv pts ∧ m.epsilon = epsilon ∧ ∃ p ∈ pts, m.lastX = p.1 := by
  cases pts with
  | nil => exact absurd rfl hne
  | cons p pts =>
    obtain ⟨m₁, hstep, hrest⟩ := hadds
    obtain ⟨hfirst, hlt⟩ := List.pairwise_cons.mp hlt
    obtain ⟨m₂, hstep₂, hinv, heps, hx⟩ :=
      addPoint_first (m := .new epsilon) ⟨rfl, rfl⟩ rfl (hr p List.mem_cons_self)
    rw [hstep] at hstep₂
    obtain rfl : m₁ = m₂ := by simpa using hstep₂
    have heps : m₁.epsilon = epsilon := heps
    have hr₁ : ∀ q ∈ pts, PairInRange m₁.epsilon q := fun q hq =>
      heps ▸ hr q (List.mem_cons_of_mem p hq)
    obtain ⟨hinv', heps', hx'⟩ := hrest.inv_append hinv hlt (fun q hq => hx ▸ hfirst q hq) hr₁
    refine ⟨hinv', heps'.trans heps, ?_⟩
    rcases hx' with hx' | ⟨q, hq, hx'⟩
    · exact ⟨p, List.mem_cons_self, hx'.trans hx⟩
    · exact ⟨q, List.mem_cons_of_mem p hq, hx'⟩

/-- In every run of `add_point` on points with increasing keys, the next call returns true if and
only if one line is within `epsilon` of all points. -/
theorem addPoint_true_iff {𝕜 : Type*} [Field 𝕜] [LinearOrder 𝕜] [IsStrictOrderedRing 𝕜]
    {p : ℤ × ℕ} (hadds : Adds (.new epsilon) pts m)
    (hlt : (pts ++ [p]).Pairwise fun p q => p.1 < q.1)
    (hr : ∀ q ∈ pts ++ [p], PairInRange epsilon q) :
    ∃ added m', m.addPoint p.1 p.2 = .ok (added, m') ∧
      (added = true ↔ ∃ t k : 𝕜, Within t k epsilon (pts ++ [p])) := by
  have hrp := hr p (List.mem_append_right pts (List.mem_singleton_self p))
  by_cases hne : pts = []
  · subst hne
    obtain rfl : m = .new epsilon := hadds
    obtain ⟨m', hstep, hinv, heps, -⟩ := addPoint_first (m := .new epsilon) ⟨rfl, rfl⟩ rfl hrp
    obtain rfl : m'.epsilon = epsilon := heps
    exact ⟨true, m', hstep, iff_of_true rfl
      ((CanonicalSegment.fits_getSegment hinv).exists_within 𝕜)⟩
  · obtain ⟨hpts, -, hbefore⟩ := List.pairwise_append.mp hlt
    obtain ⟨hinv, rfl, q, hq, hlast⟩ := hadds.inv hne hpts fun q hq =>
      hr q (List.mem_append_left _ hq)
    have hx : m.lastX < p.1 := hlast ▸ hbefore q hq p (List.mem_singleton_self p)
    rcases addPoint_next hinv hx hrp with ⟨m', hstep, hinv', heps, -⟩ | ⟨hlen, hout, hstep⟩
    · exact ⟨true, m', hstep, iff_of_true rfl (heps ▸
        (CanonicalSegment.fits_getSegment hinv').exists_within 𝕜)⟩
    · refine ⟨false, _, hstep, iff_of_false Bool.false_ne_true ?_⟩
      rintro ⟨t, k, hwithin⟩
      exact hout.not_within hinv hlen hx hwithin

theorem addPoint_true_iff_three : ∃ m, Adds (.new 1) [(0, 0), (4, 1)] m ∧
    ∃ added m', m.addPoint 5 9 = .ok (added, m') ∧
      (added = true ↔ ∃ t k : ℚ, Within t k 1 [(0, 0), (4, 1), (5, 9)]) := by
  obtain ⟨m, hadds⟩ : ∃ m, Adds (.new 1) [(0, 0), (4, 1)] m := ⟨_, _, rfl, _, rfl, rfl⟩
  exact ⟨m, hadds, addPoint_true_iff (p := (5, 9)) hadds (by decide) (by decide)⟩

/-- In every run of `add_point`, the slope range of the segment has exactly the slopes of the lines
that are within `epsilon` of all points. -/
theorem slopeRange_exact (hadds : Adds (.new epsilon) pts m) (hlen : 2 ≤ pts.length)
    (hlt : pts.Pairwise fun p q => p.1 < q.1) (hr : ∀ p ∈ pts, PairInRange epsilon p) (t : ℚ) :
    (∃ k, Within t k epsilon pts) ↔
      m.getSegment.getSlopeRange.1 ≤ t ∧ t ≤ m.getSegment.getSlopeRange.2 := by
  have hne : pts ≠ [] := by
    rintro rfl
    simp at hlen
  obtain ⟨hinv, rfl, -⟩ := hadds.inv hne hlt hr
  obtain ⟨-, -, ⟨p, rfl, -⟩ | ⟨lower, upper, he⟩⟩ := CanonicalSegment.fits_getSegment hinv
  · simp at hlen
  · exact CanonicalSegment.slopeRange he t

theorem slopeRange_exact_half : ∃ m, Adds (.new 1) [(0, 0), (4, 1), (6, 4)] m ∧
    ((∃ k : ℚ, Within (1 / 2) k 1 [(0, 0), (4, 1), (6, 4)]) ↔
      m.getSegment.getSlopeRange.1 ≤ 1 / 2 ∧ 1 / 2 ≤ m.getSegment.getSlopeRange.2) := by
  obtain ⟨m, hadds⟩ : ∃ m, Adds (.new 1) [(0, 0), (4, 1), (6, 4)] m :=
    ⟨_, _, rfl, _, rfl, _, rfl, rfl⟩
  exact ⟨m, hadds, slopeRange_exact hadds (by decide) (by decide) (by decide) (1 / 2)⟩

end OptimalPiecewiseLinearModel

/-! ### The points of a segment -/

/-- The point that the loop reads at an index. -/
def pointAt (keys : List ℕ) (i : ℕ) : ℤ × ℕ := (keys.getD i 0, i)

/-- The first occurrence of a key. -/
def IsFirst (keys : List ℕ) (i : ℕ) : Prop := i = 0 ∨ keys.getD (i - 1) 0 ≠ keys.getD i 0

instance (keys : List ℕ) (i : ℕ) : Decidable (IsFirst keys i) := by
  unfold IsFirst
  infer_instance

/-- The first occurrences from `a` on below `b`. -/
def firstsOf (keys : List ℕ) (a b : ℕ) : List (ℤ × ℕ) :=
  ((List.range' a (b - a)).filter fun i => IsFirst keys i).map (pointAt keys)

section Firsts

variable {keys : List ℕ} {a b a' b' i : ℕ}

theorem mem_firstsOf {p : ℤ × ℕ} : p ∈ firstsOf keys a b ↔
    ∃ i, (a ≤ i ∧ i < b) ∧ IsFirst keys i ∧ pointAt keys i = p := by
  simp only [firstsOf, List.mem_map, List.mem_filter, List.mem_range'_1, decide_eq_true_eq]
  refine exists_congr fun i => ?_
  rw [and_assoc]
  refine and_congr_left fun _ => and_congr_right fun _ => ?_
  omega

theorem firstsOf_subset (ha : a ≤ a') (hb : b' ≤ b) : firstsOf keys a' b' ⊆ firstsOf keys a b := by
  intro p hp
  obtain ⟨i, ⟨hai, hib⟩, hi⟩ := mem_firstsOf.mp hp
  exact mem_firstsOf.mpr ⟨i, ⟨ha.trans hai, hib.trans_le hb⟩, hi⟩

theorem firstsOf_succ (keys : List ℕ) (hab : a ≤ b) : firstsOf keys a (b + 1) =
    firstsOf keys a b ++ if IsFirst keys b then [pointAt keys b] else [] := by
  have hrange : List.range' a (b + 1 - a) = List.range' a (b - a) ++ [b] := by
    rw [Nat.succ_sub hab, List.range'_concat, Nat.one_mul, Nat.add_sub_cancel' hab]
  rw [firstsOf, hrange, List.filter_append, List.map_append, firstsOf]
  congr 1
  split
  · next h => simp [h]
  · next h => simp [h]

theorem firstsOf_single (ha : IsFirst keys a) : firstsOf keys a (a + 1) = [pointAt keys a] := by
  rw [firstsOf_succ keys le_rfl, if_pos ha]
  simp [firstsOf]

theorem head?_firstsOf (ha : IsFirst keys a) (hab : a < b) :
    (firstsOf keys a b).head? = some (pointAt keys a) := by
  obtain ⟨n, rfl⟩ := Nat.exists_eq_add_of_lt hab
  have hrange : a + n + 1 - a = n + 1 := by omega
  rw [firstsOf, hrange, List.range'_succ, List.filter_cons_of_pos (by simpa using ha)]
  rfl

end Firsts

/-! ### The loop -/

/-- What the callers of `make_segmentation` promise: sorted keys of 64 bits, and positions that
leave room for the products. -/
structure KeysOk (keys : List ℕ) (epsilon : ℕ) : Prop where
  sorted : keys.Pairwise (· ≤ ·)
  key_lt : ∀ k ∈ keys, k < 2 ^ 64
  room : keys.length + epsilon ≤ 2 ^ 61

/-- The loop is inside a segment. -/
structure SegmentState.Open (keys : List ℕ) (epsilon : ℕ) (st : SegmentState) (i : ℕ) : Prop where
  start_lt : st.start < i
  start_first : IsFirst keys st.start
  inv : st.opt.Inv (firstsOf keys st.start i)
  epsilon_eq : st.opt.epsilon = epsilon
  p_eq : st.p.1 = keys.getD (i - 1) 0
  last_eq : st.opt.lastX = keys.getD (i - 1) 0

/-- The loop is about to start a segment. -/
structure SegmentState.Fresh (keys : List ℕ) (epsilon : ℕ) (st : SegmentState) (i : ℕ) : Prop where
  start_eq : st.start = i
  start_first : IsFirst keys i
  hulls : st.opt.Hulls
  count : st.opt.pointsInHull = 0
  epsilon_eq : st.opt.epsilon = epsilon

/-- The segments that have been finished below `n`. -/
structure Finished (𝕜 : Type*) [Field 𝕜] [LinearOrder 𝕜] (keys : List ℕ) (epsilon n : ℕ)
    (out : List (ℕ × ℕ × CanonicalSegment)) : Prop where
  divides : Divides (fun _ _ => True) n 0 (out.map fun q => (q.1, q.2.1))
  starts : ∀ q ∈ out, q.1 < q.2.1 ∧ IsFirst keys q.1
  fits : ∀ q ∈ out, q.2.2.Fits epsilon (firstsOf keys q.1 q.2.1)
  full : ∀ q ∈ out, q.2.1 = keys.length ∨
    ∀ t k : 𝕜, ¬ Within t k epsilon (firstsOf keys q.1 (q.2.1 + 1))

section Loop

variable {𝕜 : Type*} [Field 𝕜] [LinearOrder 𝕜] [IsStrictOrderedRing 𝕜] {keys : List ℕ}
  {epsilon i rounds : ℕ} {st : SegmentState}

theorem KeysOk.pairInRange (hk : KeysOk keys epsilon) (hi : i < keys.length) :
    PairInRange epsilon (pointAt keys i) := by
  have hget : keys.getD i 0 = keys[i] := by
    rw [List.getD_eq_getElem?_getD, List.getElem?_eq_getElem hi]
    rfl
  have hlt := hk.key_lt keys[i] (List.getElem_mem hi)
  rw [← hget] at hlt
  have hroom := hk.room
  refine ⟨Int.natCast_nonneg _, ?_, ?_⟩
  · show ((keys.getD i 0 : ℕ) : ℤ) < 2 ^ 64
    exact_mod_cast hlt
  · show i + epsilon ≤ 2 ^ 61
    omega

/-- A key that is not that of the position before is larger. -/
theorem KeysOk.lt_of_ne (hk : KeysOk keys epsilon) (hi : i < keys.length) (hpos : 0 < i)
    (hne : keys.getD (i - 1) 0 ≠ keys.getD i 0) : keys.getD (i - 1) 0 < keys.getD i 0 := by
  refine lt_of_le_of_ne ?_ hne
  have hpred : i - 1 < keys.length := by omega
  rw [List.getD_eq_getElem?_getD, List.getD_eq_getElem?_getD, List.getElem?_eq_getElem hi,
    List.getElem?_eq_getElem hpred]
  exact List.pairwise_iff_getElem.mp hk.sorted (i - 1) i hpred hi (by omega)

/-- A key that occurs again is passed over. -/
theorem SegmentState.Open.skip (h : st.Open keys epsilon i) (hkey : (pointAt keys i).1 = st.p.1) :
    st.Open keys epsilon (i + 1) := by
  obtain ⟨hlt, hfirst, hinv, heps, hp, hlast⟩ := h
  have hsame : keys.getD (i - 1) 0 = keys.getD i 0 := by
    rw [hp] at hkey
    exact (Int.ofNat.inj hkey).symm
  have hnot : ¬ IsFirst keys i := by
    rintro (hzero | hne)
    · omega
    · exact hne hsame
  have hpts := firstsOf_succ keys hlt.le
  rw [if_neg hnot, List.append_nil] at hpts
  refine ⟨hlt.trans (Nat.lt_succ_self i), hfirst, by rwa [hpts], heps, ?_, ?_⟩
  · rw [hp, Nat.add_sub_cancel, hsame]
  · rw [hlast, Nat.add_sub_cancel, hsame]

/-- The first occurrence of another key is added to the segment, or ends it. -/
theorem SegmentState.Open.next (hk : KeysOk keys epsilon) (h : st.Open keys epsilon i)
    (hi : i < keys.length) (hfin : Finished 𝕜 keys epsilon st.start st.out)
    (hkey : (pointAt keys i).1 ≠ st.p.1) :
    (∃ opt, st.opt.addPoint (pointAt keys i).1 (pointAt keys i).2 = .ok (true, opt) ∧
      SegmentState.Open keys epsilon { st with p := pointAt keys i, opt := opt } (i + 1)) ∨
    ∃ opt, st.opt.addPoint (pointAt keys i).1 (pointAt keys i).2 = .ok (false, opt) ∧
      SegmentState.Fresh keys epsilon ⟨i, pointAt keys i, opt,
        st.out ++ [(st.start, i, opt.getSegment)], st.c + 1⟩ i ∧
      Finished 𝕜 keys epsilon i (st.out ++ [(st.start, i, opt.getSegment)]) := by
  obtain ⟨hlt, hfirst, hinv, rfl, hp, hlast⟩ := h
  have hne : keys.getD (i - 1) 0 ≠ keys.getD i 0 := fun heq => hkey (by rw [hp, heq]; rfl)
  have hx : st.opt.lastX < (pointAt keys i).1 := by
    rw [hlast]
    exact Int.ofNat_lt.mpr (hk.lt_of_ne hi (Nat.zero_lt_of_lt hlt) hne)
  have hpts := firstsOf_succ keys hlt.le
  rw [if_pos (.inr hne)] at hpts
  rcases addPoint_next hinv hx (hk.pairInRange hi) with
    ⟨opt, hstep, hinv', heps', hlast'⟩ | ⟨hlen, hout, hstep⟩
  · refine .inl ⟨opt, hstep, hlt.trans (Nat.lt_succ_self i), hfirst, ?_, heps', rfl, hlast'⟩
    rwa [hpts]
  · have hsegment : ({ st.opt with lastX := (pointAt keys i).1, pointsInHull := 0 } :
        OptimalPiecewiseLinearModel).getSegment = st.opt.getSegment := by
      have hcount : st.opt.pointsInHull ≠ 1 := by
        rw [hinv.count]
        omega
      rw [getSegment, getSegment, if_neg hcount]
      rfl
    refine .inr ⟨_, hstep, ⟨rfl, .inr hne, ⟨hinv.hulls.lower, hinv.hulls.upper⟩, rfl, rfl⟩, ?_⟩
    rw [hsegment]
    refine ⟨?_, fun q hq => ?_, fun q hq => ?_, fun q hq => ?_⟩
    · rw [List.map_append]
      exact hfin.divides.snoc hlt trivial
    · rcases List.mem_append.mp hq with hq | hq
      · exact hfin.starts q hq
      · obtain rfl := List.mem_singleton.mp hq
        exact ⟨hlt, hfirst⟩
    · rcases List.mem_append.mp hq with hq | hq
      · exact hfin.fits q hq
      · obtain rfl := List.mem_singleton.mp hq
        exact CanonicalSegment.fits_getSegment hinv
    · rcases List.mem_append.mp hq with hq | hq
      · exact hfin.full q hq
      · obtain rfl := List.mem_singleton.mp hq
        refine .inr fun t k hwithin => ?_
        rw [hpts] at hwithin
        exact hout.not_within hinv hlen hx hwithin

/-- A segment starts. -/
theorem SegmentState.Fresh.next (hk : KeysOk keys epsilon) (h : st.Fresh keys epsilon i)
    (hi : i < keys.length) :
    ∃ opt, st.opt.addPoint (pointAt keys i).1 (pointAt keys i).2 = .ok (true, opt) ∧
      SegmentState.Open keys epsilon { st with p := pointAt keys i, opt := opt } (i + 1) := by
  obtain ⟨rfl, hfirst, hhulls, hcount, rfl⟩ := h
  obtain ⟨opt, hstep, hinv, heps, hlast⟩ := addPoint_first hhulls hcount (hk.pairInRange hi)
  refine ⟨opt, hstep, Nat.lt_succ_self _, hfirst, ?_, heps, rfl, hlast⟩
  rwa [firstsOf_single hfirst]

/-- The loop takes at most two rounds for an index, and ends inside a segment. -/
theorem segmentLoop_returns (hk : KeysOk keys epsilon)
    (hfin : Finished 𝕜 keys epsilon st.start st.out) (hcount : st.c = st.out.length)
    (hst : st.Open keys epsilon i ∧ i ≤ keys.length ∧ 2 * (keys.length - i) ≤ rounds ∨
      st.Fresh keys epsilon i ∧ i < keys.length ∧ 2 * (keys.length - i) ≤ rounds + 1) :
    ∃ st', segmentLoop (pointAt keys) keys.length rounds i st = .ok st' ∧
      st'.Open keys epsilon keys.length ∧ Finished 𝕜 keys epsilon st'.start st'.out ∧
      st'.c = st'.out.length := by
  induction rounds generalizing i st with
  | zero =>
    rcases hst with ⟨hopen, hle, hrounds⟩ | ⟨-, hlt, hrounds⟩
    · obtain rfl : i = keys.length := by omega
      exact ⟨st, by simp [segmentLoop], hopen, hfin, hcount⟩
    · omega
  | succ rounds ih =>
    rw [segmentLoop]
    rcases hst with ⟨hopen, hle, hrounds⟩ | ⟨hfresh, hlt, hrounds⟩
    · split
      · next hi =>
        dsimp only
        split
        · next hskip =>
          exact ih hfin hcount (.inl ⟨hopen.skip hskip.2, hi, by omega⟩)
        · next hskip =>
          have hkey : (pointAt keys i).1 ≠ st.p.1 := fun heq =>
            hskip ⟨hopen.start_lt.ne', heq⟩
          rcases hopen.next hk hi hfin hkey with ⟨opt, hstep, hnext⟩ |
            ⟨opt, hstep, hnext, hfin'⟩
          · rw [hstep]
            refine ih ?_ ?_ (.inl ⟨hnext, hi, by omega⟩)
            · exact hfin
            · exact hcount
          · rw [hstep]
            exact ih hfin' (by simp [hcount]) (.inr ⟨hnext, hi, by omega⟩)
      · next hi =>
        obtain rfl : i = keys.length := by omega
        exact ⟨st, rfl, hopen, hfin, hcount⟩
    · rw [if_pos hlt]
      dsimp only
      obtain ⟨opt, hstep, hnext⟩ := hfresh.next hk hlt
      rw [if_neg fun hskip => hskip.1 hfresh.start_eq.symm, hstep]
      refine ih ?_ ?_ (.inl ⟨hnext, hlt, by omega⟩)
      · exact hfin
      · exact hcount

/-- `make_segmentation` returns. -/
theorem makeSegmentation_returns (𝕜 : Type*) [Field 𝕜] [LinearOrder 𝕜] [IsStrictOrderedRing 𝕜]
    (hk : KeysOk keys epsilon) :
    ∃ out, makeSegmentation keys.length epsilon (pointAt keys) = .ok (out, out.length) ∧
      Finished 𝕜 keys epsilon keys.length out := by
  rw [makeSegmentation]
  split
  · next hzero =>
    refine ⟨[], rfl, ?_, by simp, by simp, by simp⟩
    rw [hzero]
    exact .nil
  · next hne =>
    have hpos : 0 < keys.length := Nat.pos_of_ne_zero hne
    have hzero : IsFirst keys 0 := .inl rfl
    obtain ⟨opt, hstep, hinv, heps, hlast⟩ :=
      addPoint_first (m := .new epsilon) ⟨rfl, rfl⟩ rfl (hk.pairInRange hpos)
    have hopen : SegmentState.Open keys epsilon ⟨0, pointAt keys 0, opt, [], 0⟩ 1 := by
      refine ⟨Nat.one_pos, hzero, ?_, heps, rfl, hlast⟩
      rwa [firstsOf_single hzero]
    have hnone : Finished 𝕜 keys epsilon 0 [] := ⟨.nil, by simp, by simp, by simp⟩
    have hrounds : 2 * (keys.length - 1) ≤ 2 * keys.length := by omega
    have hstep : (OptimalPiecewiseLinearModel.new epsilon).addPoint (pointAt keys 0).1
      (pointAt keys 0).2 = .ok (true, opt) := hstep
    obtain ⟨st, hloop, hst, hfin, hcount⟩ :=
      segmentLoop_returns hk hnone rfl (.inl ⟨hopen, hpos, hrounds⟩)
    refine ⟨st.out ++ [(st.start, keys.length, st.opt.getSegment)], ?_, ?_, fun q hq => ?_,
      fun q hq => ?_, fun q hq => ?_⟩
    · simp [hstep, hloop, bind, Except.bind, hcount]
    · rw [List.map_append]
      exact hfin.divides.snoc hst.start_lt trivial
    · rcases List.mem_append.mp hq with hq | hq
      · exact hfin.starts q hq
      · obtain rfl := List.mem_singleton.mp hq
        exact ⟨hst.start_lt, hst.start_first⟩
    · rcases List.mem_append.mp hq with hq | hq
      · exact hfin.fits q hq
      · obtain rfl := List.mem_singleton.mp hq
        exact hst.epsilon_eq ▸ CanonicalSegment.fits_getSegment hst.inv
    · rcases List.mem_append.mp hq with hq | hq
      · exact hfin.full q hq
      · obtain rfl := List.mem_singleton.mp hq
        exact .inl rfl

/-- `train_opt` returns the segments. -/
theorem trainOpt_returns (𝕜 : Type*) [Field 𝕜] [LinearOrder 𝕜] [IsStrictOrderedRing 𝕜]
    {vals : List Val} {maxErr : ℕ} (hk : KeysOk keys maxErr) (hlen : keys.length = vals.length)
    (hmax : maxErr < 2 ^ 31) :
    ∃ out : List (ℕ × ℕ × CanonicalSegment),
      trainOpt keys vals maxErr = .ok (out.map fun q => q.2.2) ∧
      Finished 𝕜 keys maxErr keys.length out := by
  obtain ⟨out, hout, hfin⟩ := makeSegmentation_returns 𝕜 hk
  have heps : toSize (toInt32 maxErr) = maxErr := by
    rw [toInt32, Int.bmod_eq_of_le (by omega) (by omega), toSize]
    omega
  have hroom : ¬ (0 < maxErr ∧ toSize (maxErr * maxErr) = 0) := by
    rintro ⟨hpos, hzero⟩
    have hsquare : maxErr * maxErr < 2 ^ 64 := by nlinarith
    have hpos' := Nat.mul_pos hpos hpos
    have hcast : ((maxErr : ℤ) * maxErr) = ((maxErr * maxErr : ℕ) : ℤ) := by push_cast; rfl
    rw [hcast, toSize] at hzero
    omega
  refine ⟨out, ?_, hfin⟩
  have hout : makeSegmentation keys.length maxErr (fun i => ((keys.getD i 0 : ℕ), i)) =
    .ok (out, out.length) := hout
  rw [trainOpt, if_pos hlen, heps, segmentation, if_neg hroom, hout]
  rfl

end Loop

section Trained

variable {𝕜 : Type*} [Field 𝕜] [LinearOrder 𝕜] [IsStrictOrderedRing 𝕜] {keys : List ℕ}
  {vals : List Val} {maxErr : ℕ}

/-- `train_opt` cuts sorted keys into consecutive parts, one for each segment. The segment starts
with the first key of its part, and the position that it gives for a key of the part is within
`maxErr` of the first one that has the key. -/
theorem trainOpt_within (hk : KeysOk keys maxErr) (hlen : keys.length = vals.length)
    (hmax : maxErr < 2 ^ 31) :
    ∃ out : List (ℕ × ℕ × CanonicalSegment),
      trainOpt keys vals maxErr = .ok (out.map fun q => q.2.2) ∧
      Divides (fun _ _ => True) keys.length 0 (out.map fun q => (q.1, q.2.1)) ∧
      ∀ q ∈ out, q.2.2.first = keys.getD q.1 0 ∧ ∀ i, q.1 ≤ i → i < q.2.1 → IsFirst keys i →
        |q.2.2.position (keys.getD i 0 : ℕ) - i| ≤ maxErr := by
  obtain ⟨out, hout, hfin⟩ := trainOpt_returns ℚ hk hlen hmax
  refine ⟨out, hout, hfin.divides, fun q hq => ⟨?_, fun i hlo hhi hi => ?_⟩⟩
  · obtain ⟨hlt, hfirst⟩ := hfin.starts q hq
    have hhead := (hfin.fits q hq).first
    rw [head?_firstsOf hfirst hlt, Option.map_some, Option.some_inj] at hhead
    exact hhead.symm
  · have hwithin := (hfin.fits q hq).within (mem_firstsOf.mpr ⟨i, ⟨hlo, hhi⟩, hi, rfl⟩)
    rwa [pointAt] at hwithin

theorem trainOpt_within_runs : ∃ out : List (ℕ × ℕ × CanonicalSegment),
    trainOpt [0, 1, 1, 2, 10, 20, 30, 31] [0, 1, 2, 3, 4, 5, 6, 7] 1 =
        .ok (out.map fun q => q.2.2) ∧
      Divides (fun _ _ => True) 8 0 (out.map fun q => (q.1, q.2.1)) ∧
      ∀ q ∈ out, q.2.2.first = (([0, 1, 1, 2, 10, 20, 30, 31] : List ℕ).getD q.1 0 : ℕ) ∧
        ∀ i, q.1 ≤ i → i < q.2.1 → IsFirst [0, 1, 1, 2, 10, 20, 30, 31] i →
          |q.2.2.position (([0, 1, 1, 2, 10, 20, 30, 31] : List ℕ).getD i 0 : ℕ) - i| ≤
            (1 : ℕ) := by
  have hk : KeysOk [0, 1, 1, 2, 10, 20, 30, 31] 1 := ⟨by decide, by decide, by decide⟩
  have hlen : [0, 1, 1, 2, 10, 20, 30, 31].length = ([0, 1, 2, 3, 4, 5, 6, 7] : List Val).length :=
    rfl
  exact trainOpt_within hk hlen (by decide)

/-- `train_opt` makes the fewest segments: every division of the sorted keys into consecutive parts,
each with a line within `maxErr` of the first positions of its keys, has as many parts. -/
theorem trainOpt_fewest (hk : KeysOk keys maxErr) (hlen : keys.length = vals.length)
    (hmax : maxErr < 2 ^ 31) :
    ∃ segments, trainOpt keys vals maxErr = .ok segments ∧ ∀ l,
      Divides (fun a b => ∃ t k : 𝕜, Within t k maxErr (firstsOf keys a b)) keys.length 0 l →
        segments.length ≤ l.length := by
  obtain ⟨out, hout, hfin⟩ := trainOpt_returns 𝕜 hk hlen hmax
  refine ⟨_, hout, fun l hl => ?_⟩
  have hfits : ∀ q ∈ out.map fun q => (q.1, q.2.1),
      ∃ t k : 𝕜, Within t k maxErr (firstsOf keys q.1 q.2) := by
    intro q hq
    obtain ⟨r, hr, rfl⟩ := List.mem_map.mp hq
    exact (hfin.fits r hr).exists_within 𝕜
  have hfull : ∀ q ∈ out.map fun q => (q.1, q.2.1),
      q.2 = keys.length ∨ ¬ ∃ t k : 𝕜, Within t k maxErr (firstsOf keys q.1 (q.2 + 1)) := by
    intro q hq
    obtain ⟨r, hr, rfl⟩ := List.mem_map.mp hq
    refine (hfin.full r hr).imp_right fun hnot => ?_
    rintro ⟨t, k, hwithin⟩
    exact hnot t k hwithin
  have hmono : ∀ a b a' b', a ≤ a' → b' ≤ b →
      (∃ t k : 𝕜, Within t k maxErr (firstsOf keys a b)) →
      ∃ t k : 𝕜, Within t k maxErr (firstsOf keys a' b') := by
    rintro a b a' b' ha hb ⟨t, k, hwithin⟩
    exact ⟨t, k, fun p hp => hwithin p (firstsOf_subset ha hb hp)⟩
  have hle := (hfin.divides.imp hfits).length_le hmono hfull hl le_rfl
  simpa using hle

theorem trainOpt_fewest_runs : ∃ segments,
    trainOpt [0, 1, 1, 2, 10, 20, 30, 31] [0, 1, 2, 3, 4, 5, 6, 7] 1 = .ok segments ∧ ∀ l,
      Divides (fun a b => ∃ t k : ℚ, Within t k 1 (firstsOf [0, 1, 1, 2, 10, 20, 30, 31] a b))
        8 0 l → segments.length ≤ l.length := by
  have hk : KeysOk [0, 1, 1, 2, 10, 20, 30, 31] 1 := ⟨by decide, by decide, by decide⟩
  have hlen : [0, 1, 1, 2, 10, 20, 30, 31].length = ([0, 1, 2, 3, 4, 5, 6, 7] : List Val).length :=
    rfl
  exact trainOpt_fewest hk hlen (by decide)

end Trained

end KanvaRS
