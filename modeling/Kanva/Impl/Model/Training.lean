import Kanva.Impl.Model.Operations
import Mathlib.Data.List.Flatten

/-!
# Kanva

`Kanva` cuts the training data into segments that a linear model fits within `maxErr`, and keeps the
last key of every segment to find the segment of a key. `train` grows a segment by `learning_step`
keys while it fits, and shrinks it in `backward_train` when it does not.

A read outside the training vector, a failed assertion and an overflow are `none`, as are more
rounds than the bound.

## Main results

* `KanvaIndex.train_segments`: when `train` returns, the segments are the training data cut in
  pieces, each fitted within `maxErr`.
-/

namespace KanvaImpl

open Kanva SortedArray

/-- The class `Kanva`. Its `learning_rate` is an argument of the functions that use it. -/
structure KanvaIndex (K : Type) where
  modelKeys : List K
  aimodels : List (KanvaModel K)
  /-- An `int`. -/
  maxErr : ℤ
  learningStep : ℕ

/-- The rounds of `while(n!=0){ n/=10; learning_step*=10; }`. -/
def growStep : ℕ → ℕ → ℕ → ℕ
  | 0, _, step => step
  | fuel + 1, n, step => if n = 0 then step else growStep fuel (n / 10) (step * 10)

/-- The rounds of `while(size<=step) step = int(step*learning_rate)`; the comparison is unsigned. -/
def shrinkStep (scale : ℤ → ℤ) (size : ℕ) : ℕ → ℤ → Option ℤ
  | 0, _ => none
  | fuel + 1, step => if size ≤ toUint32 step then shrinkStep scale size fuel (scale step) else step

namespace KanvaIndex

variable {K : Type} [LinearOrder K] [BoundedOrder K] [Zero K]

omit [LinearOrder K] [BoundedOrder K] [Zero K] in
/-- `Kanva::Kanva`, with its default bound. -/
def new (learningStep : ℕ) : KanvaIndex K := ⟨[], [], 64, learningStep⟩

omit [LinearOrder K] [BoundedOrder K] in
/-- `append_model`. The assertion compares the error as an `int`; the new model gets `maxErr`, not
`err`. `learning_step` and the position in the constructor's loop over the slots are `int`s, and
there is no result when one of them overflows. -/
def appendModel (kv : KanvaIndex K) (model : LinearRegressionModel K) (seg : List (K × Val)) :
    Option (KanvaIndex K) :=
  let step := growStep seg.length (toInt32 (seg.length / 10 : ℕ)).natAbs 1
  if step < 2 ^ 31 ∧ seg.length + 1 < 2 ^ 31 ∧ toInt32 model.maxErr ≤ kv.maxErr then
    some { kv with
      modelKeys := kv.modelKeys ++ [(seg.map Prod.fst).getD (seg.length - 1) 0]
      aimodels := kv.aimodels ++ [.new model seg (toSize kv.maxErr)]
      learningStep := if step = 1 then 10 else step }
  else none

section Train

-- `train` of the linear models, `int(step*learning_rate)`, and the training data
variable (fit : List K → LinearRegressionModel K) (scale : ℤ → ℤ) (data : List (K × Val))

omit [LinearOrder K] [BoundedOrder K] [Zero K] in
/-- The `size` pairs from `start` on. -/
def readSlice (start size : ℕ) : Option (List (K × Val)) :=
  if start + size ≤ data.length then some ((data.drop start).take size) else none

/-- The loop of `backward_train` from `stop` down. It appends the first slice that fits; a result
without a positive `stop` means that none does. -/
def backwardLoop (start : ℕ) (step : ℤ) : ℕ → KanvaIndex K → ℤ → Option (KanvaIndex K × ℤ)
  | 0, _, _ => none
  | fuel + 1, kv, stop =>
    if 0 < stop then
      match readSlice data start stop.toNat with
      | none => none
      | some seg =>
        let model := fit (seg.map Prod.fst)
        if model.maxErr ≤ toSize kv.maxErr then (kv.appendModel model seg).map fun kv' =>
          (kv', stop)
        else backwardLoop start step fuel kv (stop - step)
    else some (kv, stop)

/-- `backward_train` -/
def backwardTrain (start : ℕ) : ℕ → KanvaIndex K → ℕ → ℤ → Option (KanvaIndex K × ℤ)
  | 0, _, _, _ => none
  | fuel + 1, kv, size, step =>
    match if size ≤ 10 then some (10, 1) else (shrinkStep scale size fuel step).map (size, ·) with
    | none => none
    | some (size, step) =>
      -- the assertion
      if step ≤ 0 then none
      else
        match backwardLoop fit data start step fuel kv (toInt32 (size - step)) with
        | none => none
        | some (kv', stop) =>
          if 0 < stop then some (kv', stop)
          else backwardTrain start fuel kv' (toUint32 stop) (scale step)

/-- The loop of `train` on the segment between `start` and `stop`. -/
def trainLoop : ℕ → KanvaIndex K → ℕ → ℕ → Option (KanvaIndex K)
  | 0, _, _, _ => none
  | fuel + 1, kv, start, stop =>
    if start < stop then
      match readSlice data start (stop - start) with
      | none => none
      | some seg =>
        let model := fit (seg.map Prod.fst)
        if model.maxErr = toSize kv.maxErr then
          match kv.appendModel model seg with
          | none => none
          | some kv' => trainLoop fuel kv' stop (min (stop + kv'.learningStep) data.length)
        else if model.maxErr < toSize kv.maxErr then
          if data.length ≤ stop then kv.appendModel model seg
          else trainLoop fuel kv start (min (stop + kv.learningStep) data.length)
        else
          match backwardTrain fit scale data start fuel kv (toUint32 (stop - start : ℕ))
            (scale kv.learningStep) with
          | none => none
          | some (kv', offset) =>
            trainLoop fuel kv' (start + offset.toNat)
              (min (start + offset.toNat + kv'.learningStep) data.length)
    else some kv

/-- `train` -/
def train (fuel : ℕ) (kv : KanvaIndex K) (maxErr : ℕ) : Option (KanvaIndex K) :=
  trainLoop fit scale data fuel { kv with maxErr := toInt32 maxErr } 0
    (min kv.learningStep data.length)

end Train

/-! ### The segments -/

section Segments

variable {fit : List K → LinearRegressionModel K} {scale : ℤ → ℤ} {data : List (K × Val)}
  {kv kv' : KanvaIndex K} {segs : List (List (K × Val))} {seg : List (K × Val)} {start stop : ℕ}

/-- The models of the index are those of these segments of the training data, all fitted within
`maxErr`. -/
structure Segments (fit : List K → LinearRegressionModel K) (kv : KanvaIndex K)
    (segs : List (List (K × Val))) : Prop where
  nonempty : ∀ seg ∈ segs, seg ≠ []
  counted : ∀ seg ∈ segs, seg.length + 1 < 2 ^ 31
  fitted : ∀ seg ∈ segs, (fit (seg.map Prod.fst)).maxErr ≤ toSize kv.maxErr
  aimodels : kv.aimodels = segs.map fun seg => .new (fit (seg.map Prod.fst)) seg (toSize kv.maxErr)
  modelKeys : kv.modelKeys = segs.map fun seg => (seg.map Prod.fst).getD (seg.length - 1) 0

omit [LinearOrder K] [BoundedOrder K] in
theorem appendModel_ok (h : Segments fit kv segs) (hne : seg ≠ [])
    (herr : (fit (seg.map Prod.fst)).maxErr ≤ toSize kv.maxErr)
    (happ : kv.appendModel (fit (seg.map Prod.fst)) seg = some kv') :
    Segments fit kv' (segs ++ [seg]) ∧ 0 < kv'.learningStep := by
  -- the learning step only grows from 1, or becomes 10
  have hgrow : ∀ fuel n step, 0 < step → 0 < growStep fuel n step := by
    intro fuel
    induction fuel with
    | zero => exact fun n step h => h
    | succ fuel ih =>
      intro n step h
      rw [growStep]
      split
      · exact h
      · exact ih _ _ (by omega)
  rw [appendModel] at happ
  split_ifs at happ with hcond
  all_goals
    obtain rfl := Option.some.inj happ
    refine ⟨⟨?_, ?_, ?_, ?_, ?_⟩, ?_⟩
    · simpa [or_imp, forall_and] using ⟨h.nonempty, hne⟩
    · simpa [or_imp, forall_and] using ⟨h.counted, hcond.2.1⟩
    · simpa [or_imp, forall_and] using ⟨h.fitted, herr⟩
    · simp [h.aimodels]
    · simp [h.modelKeys]
  · exact Nat.succ_pos 9
  · exact hgrow _ _ _ Nat.one_pos

omit [LinearOrder K] [BoundedOrder K] [Zero K] in
theorem readSlice_eq_some {size : ℕ} :
    readSlice data start size = some seg ↔
      start + size ≤ data.length ∧ seg = (data.drop start).take size := by
  rw [readSlice]
  split
  · next hle => simp [hle, eq_comm]
  · next hlt => simp [hlt]

omit [LinearOrder K] [BoundedOrder K] [Zero K] in
/-- A slice inside the data that is not empty. -/
theorem slice_ne_nil {size : ℕ} (hsize : 0 < size) (hle : start + size ≤ data.length) :
    (data.drop start).take size ≠ [] := by
  intro h
  have hlen := congrArg List.length h
  rw [List.length_take, List.length_drop, List.length_nil] at hlen
  omega

/-- What `backward_train` returns: it has appended one slice. -/
structure Appended (fit : List K → LinearRegressionModel K) (data : List (K × Val))
    (segs : List (List (K × Val))) (start : ℕ) (kv' : KanvaIndex K) (stop : ℤ) : Prop where
  pos : 0 < stop
  le : start + stop.toNat ≤ data.length
  segments : Segments fit kv' (segs ++ [(data.drop start).take stop.toNat])
  step_pos : 0 < kv'.learningStep

omit [LinearOrder K] [BoundedOrder K] in
theorem backwardLoop_ok (h : Segments fit kv segs) {step : ℤ} {fuel : ℕ} {stop stop' : ℤ}
    (hloop : backwardLoop fit data start step fuel kv stop = some (kv', stop')) :
    Appended fit data segs start kv' stop' ∨ ¬ 0 < stop' ∧ kv' = kv := by
  -- a round appends the prefix it has read, or goes on with a shorter one
  induction fuel generalizing stop with
  | zero => simp [backwardLoop] at hloop
  | succ fuel ih =>
    rw [backwardLoop] at hloop
    split at hloop
    · next hpos =>
      split at hloop
      · simp at hloop
      · next seg hseg =>
        obtain ⟨hle, rfl⟩ := readSlice_eq_some.mp hseg
        simp only at hloop
        split at hloop
        · next herr =>
          obtain ⟨kv₁, happ, heq⟩ := Option.map_eq_some_iff.mp hloop
          obtain ⟨rfl, rfl⟩ := Prod.ext_iff.mp heq
          obtain ⟨hsegs, hstep⟩ := appendModel_ok h (slice_ne_nil (by omega) hle) herr happ
          exact .inl ⟨hpos, hle, hsegs, hstep⟩
        · exact ih hloop
    · next hpos =>
      obtain ⟨rfl, rfl⟩ := Prod.ext_iff.mp (Option.some.inj hloop)
      exact .inr ⟨hpos, rfl⟩

omit [LinearOrder K] [BoundedOrder K] in
theorem backwardTrain_ok (h : Segments fit kv segs) {fuel size : ℕ} {step stop' : ℤ}
    (htrain : backwardTrain fit scale data start fuel kv size step = some (kv', stop')) :
    Appended fit data segs start kv' stop' := by
  induction fuel generalizing size step with
  | zero => simp [backwardTrain] at htrain
  | succ fuel ih =>
    rw [backwardTrain] at htrain
    split at htrain
    · simp at htrain
    split at htrain
    · simp at htrain
    split at htrain
    · simp at htrain
    next kv₁ stop₁ hloop =>
    split at htrain
    · next hpos =>
      obtain ⟨rfl, rfl⟩ := Prod.ext_iff.mp (Option.some.inj htrain)
      rcases backwardLoop_ok h hloop with happ | ⟨hneg, -⟩
      · exact happ
      · exact absurd hpos hneg
    · next hpos =>
      rcases backwardLoop_ok h hloop with happ | ⟨-, rfl⟩
      · exact absurd happ.pos hpos
      · exact ih htrain

omit [LinearOrder K] [BoundedOrder K] [Zero K] in
theorem take_append_slice (hle : start ≤ stop) :
    data.take start ++ (data.drop start).take (stop - start) = data.take stop := by
  rw [← List.take_add, Nat.add_sub_cancel' hle]

omit [LinearOrder K] [BoundedOrder K] in
theorem trainLoop_ok (h : Segments fit kv segs) (hflat : segs.flatten = data.take start)
    (hstep : 0 < kv.learningStep) (hle : start ≤ stop) (hstop : stop ≤ data.length)
    (hprogress : start < data.length → start < stop) {fuel : ℕ}
    (hloop : trainLoop fit scale data fuel kv start stop = some kv') :
    ∃ segs', Segments fit kv' segs' ∧ segs'.flatten = data := by
  -- the segments make up the data in front of `start`, and `start` gets ahead
  induction fuel generalizing kv segs start stop with
  | zero => simp [trainLoop] at hloop
  | succ fuel ih =>
    rw [trainLoop] at hloop
    split at hloop
    · next hlt =>
      split at hloop
      · simp at hloop
      next seg hseg =>
      obtain ⟨hsize, rfl⟩ := readSlice_eq_some.mp hseg
      have hne := slice_ne_nil (show 0 < stop - start by omega) hsize
      have hnext : (segs ++ [(data.drop start).take (stop - start)]).flatten = data.take stop := by
        rw [List.flatten_append, hflat, List.flatten_singleton, take_append_slice hle]
      simp only at hloop
      split at hloop
      · -- the error is the bound: the segment is appended
        next herr =>
        split at hloop
        · simp at hloop
        next kv₁ happ =>
        obtain ⟨hsegs, hstep₁⟩ := appendModel_ok h hne herr.le happ
        exact ih hsegs hnext hstep₁ (by omega) (by omega) (by omega) hloop
      · -- the error is too large: a prefix is appended
        split at hloop
        · -- the error is less: the segment grows, or it is the last one
          next herr =>
          split at hloop
          · next hlast =>
            obtain ⟨hsegs, -⟩ := appendModel_ok h hne herr.le hloop
            exact ⟨_, hsegs, by rw [hnext, List.take_of_length_le hlast]⟩
          · exact ih h hflat hstep (by omega) (by omega) (by omega) hloop
        · split at hloop
          · simp at hloop
          next kv₁ offset hback =>
          obtain ⟨hpos, hoff, hsegs, hstep₁⟩ := backwardTrain_ok h hback
          refine ih hsegs ?_ hstep₁ (by omega) (by omega) (by omega) hloop
          rw [List.flatten_append, hflat, List.flatten_singleton, ← List.take_add]
    · next hge =>
      obtain rfl := Option.some.inj hloop
      refine ⟨segs, h, ?_⟩
      have hall : data.length ≤ start := by
        by_contra hlt
        exact hge (hprogress (not_le.mp hlt))
      rw [hflat, List.take_of_length_le hall]

omit [LinearOrder K] [BoundedOrder K] in
/-- When `train` returns, the models are those of consecutive segments that make up the training
data. -/
theorem train_segments {step fuel maxErr : ℕ} (hstep : 0 < step)
    (htrain : (KanvaIndex.new step).train fit scale data fuel maxErr = some kv') :
    ∃ segs, Segments fit kv' segs ∧ segs.flatten = data := by
  have hempty :
      Segments fit ({ KanvaIndex.new step with maxErr := toInt32 maxErr } : KanvaIndex K) [] :=
    ⟨by simp, by simp, by simp, rfl, rfl⟩
  refine trainLoop_ok hempty rfl hstep (Nat.zero_le _) (Nat.min_le_right _ _) ?_ htrain
  intro hlt
  exact lt_min hstep hlt

end Segments

/-- `find_model`, as a position in `aimodels`. The size is passed as an `int`. -/
def findModel (kv : KanvaIndex K) (key : K) : ℕ :=
  let modelPos := (binarySearchBranchless (fun i => kv.modelKeys.getD i 0)
    (toInt32 kv.modelKeys.length) key).toNat
  if kv.aimodels.length ≤ modelPos then kv.aimodels.length - 1 else modelPos

omit [BoundedOrder K] in
/-- `find_model` finds a model when there is one. -/
theorem exists_model {kv : KanvaIndex K} (h : kv.aimodels ≠ []) (key : K) :
    ∃ m, kv.aimodels[kv.findModel key]? = some m := by
  have hpos := List.length_pos_iff.mpr h
  refine ⟨_, List.getElem?_eq_getElem ?_⟩
  rw [findModel]
  split <;> omega

/-- `find`. There is no answer when there is no model, or when a search on the way fails. -/
def find (kv : KanvaIndex K) (key : K) : Option Val :=
  (kv.aimodels[kv.findModel key]?).bind fun m => m.findRetrain key

/-- Replace the model of a key. -/
def setModel (kv : KanvaIndex K) (key : K) (m : KanvaModel K) : KanvaIndex K :=
  { kv with aimodels := kv.aimodels.set (kv.findModel key) m }

/-- `insert` and `remove`, with a bound on their depth and rounds. -/
def call (fit : List K → LinearRegressionModel K) (fuel : ℕ) (kv : KanvaIndex K) (c : Call K) :
    Option (KanvaIndex K × Bool) :=
  match kv.aimodels[kv.findModel c.key]? with
  | none => none
  | some m => (callModel fit fuel m c).map fun (m', r) => (kv.setModel c.key m', r)

/-- A call writes the model of its key. -/
theorem call_eq_some {fit : List K → LinearRegressionModel K} {fuel : ℕ} {kv kv' : KanvaIndex K}
    {c : Call K} {r : Bool} : kv.call fit fuel c = some (kv', r) ↔
    ∃ m m', kv.aimodels[kv.findModel c.key]? = some m ∧
      callModel fit fuel m c = some (m', r) ∧ kv' = kv.setModel c.key m' := by
  rw [call]
  cases kv.aimodels[kv.findModel c.key]? with
  | none => simp
  | some m =>
    simp only [Option.map_eq_some_iff, Prod.mk.injEq, Prod.exists, Option.some.injEq]
    constructor
    · rintro ⟨m', r', hcall, rfl, rfl⟩
      exact ⟨m, m', rfl, hcall, rfl⟩
    · rintro ⟨m, m', rfl, hcall, rfl⟩
      exact ⟨m', r, hcall, rfl, rfl⟩

/-- A larger bound does not change the result of a call. -/
theorem call_mono {fit : List K → LinearRegressionModel K} {n n' : ℕ} (hle : n ≤ n')
    {kv : KanvaIndex K} {c : Call K} {r : KanvaIndex K × Bool} (h : kv.call fit n c = some r) :
    kv.call fit n' c = some r := by
  obtain ⟨m, m', hm, hcall, hset⟩ := call_eq_some.mp (show kv.call fit n c = some (r.1, r.2) from h)
  exact call_eq_some.mpr ⟨m, m', hm, callModel_mono hle hcall, hset⟩

/-- A run of calls of one thread, each made in a state that satisfies `ok`. -/
inductive Runs (fit : List K → LinearRegressionModel K) (ok : KanvaIndex K → Call K → Prop)
    (kv₀ : KanvaIndex K) : List (Call K) → KanvaIndex K → Prop
  | nil : Runs fit ok kv₀ [] kv₀
  | call {cs kv c fuel kv' r} : Runs fit ok kv₀ cs kv → ok kv c →
      kv.call fit fuel c = some (kv', r) → Runs fit ok kv₀ (cs ++ [c]) kv'

/-- The run of these calls, as long as `ok` holds. -/
def exec (fit : List K → LinearRegressionModel K) (ok : KanvaIndex K → Call K → Prop)
    [∀ kv c, Decidable (ok kv c)] (fuel : ℕ) : KanvaIndex K → List (Call K) → Option (KanvaIndex K)
  | kv, [] => some kv
  | kv, c :: cs =>
    if ok kv c then
      match kv.call fit fuel c with
      | some (kv', _) => exec fit ok fuel kv' cs
      | none => none
    else none

theorem exec_runs {fit : List K → LinearRegressionModel K} {ok : KanvaIndex K → Call K → Prop}
    [∀ kv c, Decidable (ok kv c)] {fuel : ℕ} {kv₀ kv kv' : KanvaIndex K} {cs₀ cs : List (Call K)}
    (hrun : Runs fit ok kv₀ cs₀ kv) (h : exec fit ok fuel kv cs = some kv') :
    Runs fit ok kv₀ (cs₀ ++ cs) kv' := by
  induction cs generalizing kv cs₀ with
  | nil =>
    obtain rfl := Option.some.inj h
    rwa [List.append_nil]
  | cons c cs ih =>
    rw [exec] at h
    split at h
    · next hok =>
      split at h
      · next kv₁ r hcall =>
        rw [List.append_cons]
        exact ih (hrun.call hok hcall) h
      · cases h
    · cases h

end KanvaIndex

end KanvaImpl
