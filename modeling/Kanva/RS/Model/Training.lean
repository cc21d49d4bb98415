import Kanva.RS.Model.Operations
import Kanva.SortedArray
import Mathlib.Data.List.Flatten

/-!
# Kanva_RS

`Kanva_RS` cuts the training data into segments of `learning_step` keys, and keeps the last key of
every segment to find the segment of a key. A range query takes a new timestamp from the tracker and
scans the models from the segment of its start key on.

The calls are those of one thread without interference. A failed assertion is `none`, as are more
rounds than the bound.

## Main results

* `KanvaRSIndex.train_segments`: when `train` returns, the models are those of the training data cut
  in pieces, with no version stamped and no slot in use.
* `KanvaRSIndex.train_returns`: `train` returns when its assertion holds.
-/

namespace KanvaRS

open Kanva SortedArray

/-- A node of the tracker. -/
structure SeqTrackerNode where
  ts : ℤ
  finish : Bool
deriving DecidableEq, Repr

/-- A `TrackerList` in the run of one thread: the node at `tail`, and the older ones. -/
structure SeqTracker where
  tail : SeqTrackerNode
  older : List SeqTrackerNode
deriving DecidableEq, Repr

namespace SeqTracker

/-- `TrackerList::TrackerList` -/
def new : SeqTracker := ⟨⟨0, false⟩, []⟩

/-- `add_timestamp`. The new node is the one at `tail`. -/
def addTimestamp (t : SeqTracker) : SeqTracker := ⟨⟨t.tail.ts + 1, false⟩, t.tail :: t.older⟩

/-- `get_latest_timestamp` -/
def getLatestTimestamp (t : SeqTracker) : ℤ := t.tail.ts

/-- `finish` of the node at `tail` is set. -/
def finishTail (t : SeqTracker) : SeqTracker := { t with tail := { t.tail with finish := true } }

end SeqTracker

/-- The class `Kanva_RS`. Its `learning_rate` and `segments` are left out: the former is used in
dead code only, the latter by `train_opt`. -/
structure KanvaRSIndex (K : Type) where
  modelKeys : List K
  aimodels : List (KanvaRSModel K)
  /-- An `int`. -/
  maxErr : ℤ
  learningStep : ℕ

/-- An index with the global `version_tracker`. -/
structure KanvaRSState (K : Type) where
  index : KanvaRSIndex K
  versionTracker : SeqTracker

variable {K : Type}

/-- `Kanva_RSModel::Kanva_RSModel` on training data: unstamped versions, and no slot in use. -/
def KanvaRSModel.new (lrmodel : LinearRegressionModel K) (pairs : List (K × Val)) :
    KanvaRSModel K where
  model := lrmodel.predict
  modelArray := pairs.map fun p => .new p.1 p.2
  mobsLf _ := .null

namespace KanvaRSIndex

/-- `Kanva_RS::Kanva_RS` -/
def new : KanvaRSIndex K := ⟨[], [], 64, 1000⟩

/-- The entries of all models, in the order of the models. -/
def entries (kv : KanvaRSIndex K) : List (VersionedKey K) :=
    kv.aimodels.flatMap RSModelOver.modelArray

section Train

variable [Zero K] (fit : List K → LinearRegressionModel K) (data : List (K × Val))

/-- `append_model` -/
def appendModel (kv : KanvaRSIndex K) (model : LinearRegressionModel K) (seg : List (K × Val))
    (err : ℤ) : Option (KanvaRSIndex K) :=
  if err ≤ kv.maxErr then
    some { kv with
      modelKeys := kv.modelKeys ++ [(seg.map Prod.fst).getD (seg.length - 1) 0]
      aimodels := kv.aimodels ++ [.new model seg] }
  else none

/-- The loop of `train` on the segment between `start` and `stop`. -/
def trainLoop : ℕ → KanvaRSIndex K → ℕ → ℕ → Option (KanvaRSIndex K)
  | 0, _, _, _ => none
  | fuel + 1, kv, start, stop =>
    if start < stop then
      let seg := (data.drop start).take (stop - start)
      match kv.appendModel (fit (seg.map Prod.fst)) seg 0 with
      | none => none
      | some kv' => trainLoop fuel kv' stop (min (stop + kv'.learningStep) data.length)
    else some kv

/-- `train` -/
def train (fuel : ℕ) (kv : KanvaRSIndex K) (maxErr : ℕ) : Option (KanvaRSIndex K) :=
  trainLoop fit data fuel { kv with maxErr := toInt32 maxErr } 0 (min kv.learningStep data.length)

end Train

/-! ### The segments -/

section Segments

variable [Zero K] {fit : List K → LinearRegressionModel K} {data : List (K × Val)}
  {kv kv' : KanvaRSIndex K} {segs : List (List (K × Val))} {seg : List (K × Val)}
  {start stop : ℕ}

/-- The models of the index are those of these pieces of the training data. -/
structure Segments (fit : List K → LinearRegressionModel K) (kv : KanvaRSIndex K)
    (segs : List (List (K × Val))) : Prop where
  nonempty : ∀ seg ∈ segs, seg ≠ []
  length_le : ∀ seg ∈ segs, seg.length ≤ 1000
  aimodels : kv.aimodels = segs.map fun seg => .new (fit (seg.map Prod.fst)) seg
  modelKeys : kv.modelKeys = segs.map fun seg => (seg.map Prod.fst).getD (seg.length - 1) 0

theorem appendModel_ok (h : Segments fit kv segs) (hne : seg ≠ []) (hlen : seg.length ≤ 1000)
    (happ : kv.appendModel (fit (seg.map Prod.fst)) seg 0 = some kv') :
    Segments fit kv' (segs ++ [seg]) ∧ kv'.learningStep = kv.learningStep := by
  rw [appendModel] at happ
  split_ifs at happ
  obtain rfl := Option.some.inj happ
  refine ⟨⟨?_, ?_, ?_, ?_⟩, rfl⟩
  · simpa [or_imp, forall_and] using ⟨h.nonempty, hne⟩
  · simpa [or_imp, forall_and] using ⟨h.length_le, hlen⟩
  · simp [h.aimodels]
  · simp [h.modelKeys]

theorem trainLoop_ok (h : Segments fit kv segs) (hflat : segs.flatten = data.take start)
    (hstep : kv.learningStep = 1000) (hle : start ≤ stop) (hstop : stop ≤ data.length)
    (hlen : stop ≤ start + 1000) (hprogress : start < data.length → start < stop) {fuel : ℕ}
    (hloop : trainLoop fit data fuel kv start stop = some kv') :
    ∃ segs', Segments fit kv' segs' ∧ segs'.flatten = data := by
  -- the segments make up the data in front of `start`, and none has more than 1000 pairs
  induction fuel generalizing kv segs start stop with
  | zero => simp [trainLoop] at hloop
  | succ fuel ih =>
    rw [trainLoop] at hloop
    split at hloop
    · next hlt =>
      simp only at hloop
      split at hloop
      · simp at hloop
      next kv₁ happ =>
      have hsize : ((data.drop start).take (stop - start)).length = stop - start := by
        rw [List.length_take, List.length_drop]
        omega
      obtain ⟨hsegs, hstep₁⟩ := appendModel_ok h
        (List.ne_nil_of_length_pos (by omega)) (by omega) happ
      refine ih hsegs ?_ (hstep₁.trans hstep) (by omega) (by omega) (by omega) (by omega) hloop
      rw [List.flatten_append, hflat, List.flatten_singleton, ← List.take_add,
        Nat.add_sub_cancel' hle]
    · next hge =>
      obtain rfl := Option.some.inj hloop
      refine ⟨segs, h, ?_⟩
      have hall : data.length ≤ start := by
        by_contra hlt
        exact hge (hprogress (not_le.mp hlt))
      rw [hflat, List.take_of_length_le hall]

/-- When `train` returns, the models are those of consecutive pieces of the training data. -/
theorem train_segments {fuel maxErr : ℕ} (htrain : new.train fit data fuel maxErr = some kv') :
    ∃ segs, Segments fit kv' segs ∧ segs.flatten = data := by
  have hempty : Segments fit { new with maxErr := toInt32 maxErr } [] :=
    ⟨by simp, by simp, rfl, rfl⟩
  refine trainLoop_ok hempty rfl rfl (Nat.zero_le _) (Nat.min_le_right _ _) ?_ ?_ htrain
  · rw [Nat.zero_add]
    exact Nat.min_le_left _ _
  · intro hlt
    exact lt_min (Nat.succ_pos 999) hlt

/-- `train` returns when its assertion holds. -/
theorem train_returns {fuel maxErr : ℕ} (hmax : 0 ≤ toInt32 maxErr) (hfuel : data.length < fuel) :
    ∃ kv, new.train fit data fuel maxErr = some kv := by
  have hloop : ∀ (fuel : ℕ) (kv : KanvaRSIndex K) (start stop : ℕ), 0 ≤ kv.maxErr →
      start ≤ data.length → stop ≤ data.length → data.length < start + fuel →
      ∃ kv', trainLoop fit data fuel kv start stop = some kv' := by
    intro fuel
    induction fuel with
    | zero => exact fun kv start stop herr hstart hstop hfuel => by omega
    | succ fuel ih =>
      intro kv start stop herr hstart hstop hfuel
      rw [trainLoop]
      split
      · simp only [appendModel, if_pos herr]
        exact ih _ stop _ herr hstop (Nat.min_le_right _ _) (by omega)
      · exact ⟨kv, rfl⟩
  have herr : 0 ≤ ({ new with maxErr := toInt32 maxErr } : KanvaRSIndex K).maxErr := by
    simpa only using hmax
  exact hloop fuel _ 0 _ herr (Nat.zero_le _) (Nat.min_le_right _ _) (by rwa [Nat.zero_add])

end Segments

variable [LinearOrder K] [Zero K]

/-- The position in `aimodels` where `find_model` and `rangequery` look for a key. The size is
passed as an `int`. -/
def modelPos (kv : KanvaRSIndex K) (key : K) : ℕ :=
  let pos := (binarySearchBranchless (fun i => kv.modelKeys.getD i 0) (toInt32 kv.modelKeys.length)
    key).toNat
  if kv.aimodels.length ≤ pos then kv.aimodels.length - 1 else pos

end KanvaRSIndex

section Rangequery

variable [LinearOrder K] [Zero K]

/-- The loop of `rangequery` over the models from the first one on. -/
def scanModels (key : K) (globalTs ts : ℤ) : List (KanvaRSModel K) → ℕ → List (K × Val) →
    List (KanvaRSModel K) × List (K × Val) × ℕ
  | [], remaining, result => ([], result, remaining)
  | m :: ms, remaining, result =>
    if 0 < remaining then
      let scanned := m.scan key globalTs ts remaining result
      let rest := scanModels key globalTs ts ms (toSize scanned.2.2) scanned.2.1
      (scanned.1 :: rest.1, rest.2)
    else (m :: ms, result, remaining)

/-- `rangequery`: the new state, the output vector, and the returned number. -/
def KanvaRSState.rangequery (st : KanvaRSState K) (key : K) (n : ℕ) (result : List (K × Val)) :
    KanvaRSState K × List (K × Val) × ℤ :=
  let tracker := st.versionTracker.addTimestamp
  let ts := toInt32 tracker.tail.ts
  let pos := st.index.modelPos key
  let (ms, result, remaining) :=
    scanModels key tracker.getLatestTimestamp ts (st.index.aimodels.drop pos) n result
  (⟨{ st.index with aimodels := st.index.aimodels.take pos ++ ms }, tracker.finishTail⟩, result,
    toInt32 remaining)

/-- The states that range queries lead to. -/
inductive Queried (st₀ : KanvaRSState K) : KanvaRSState K → Prop
  | refl : Queried st₀ st₀
  | query {st} (key : K) (n : ℕ) (result : List (K × Val)) :
      Queried st₀ st → Queried st₀ (st.rangequery key n result).1

end Rangequery

end KanvaRS
