import Kanva.Impl.Model.Shrinking

/-!
# When training succeeds

The loop of `train` appends the segment in hand, grows it, or shrinks it with `backward_train`.
`Rounds` follows the loop on the keys and the errors of their slices alone, and `CanGoOn` is what a
round needs to end.

The linear model is any function of a slice with an error of 0 on slices of one key.

## Main results

* `KanvaIndex.Reaches.rounds`, `KanvaIndex.Rounds.reaches`: the loop goes through these rounds.
* `KanvaIndex.train_iff`: when `train` cuts the training data into segments as it should.
* `KanvaIndex.train_two_keys`: two keys that do not fit one model.
-/

namespace KanvaImpl

open Kanva

namespace KanvaIndex

variable {K : Type} [Zero K]

section Conditions

-- the error of a slice, the keys of the training data, and the bound
variable (err : List K → ℕ) (keys : List K) (maxErr : ℤ)

/-- The `learning_step` after a segment of this size: a power of ten, at least 10. -/
def nextStep (size : ℕ) : ℕ :=
  let step := growStep size (toInt32 (size / 10 : ℕ)).natAbs 1
  if step = 1 then 10 else step

/-- The rounds of the loop of `train`: the `learning_step` and the two ends of the segment in
hand. -/
inductive Rounds : ℕ → ℕ → ℕ → Prop
  | start : Rounds 1000 0 (min 1000 keys.length)
  /-- The error is the bound. -/
  | append {step start stop} : Rounds step start stop → start < stop →
      err ((keys.drop start).take (stop - start)) = toSize maxErr →
      Rounds (nextStep (stop - start)) stop (min (stop + nextStep (stop - start)) keys.length)
  /-- The error is less, and there are more keys. -/
  | grow {step start stop} : Rounds step start stop → start < stop →
      err ((keys.drop start).take (stop - start)) < toSize maxErr → stop < keys.length →
      Rounds step start (min (stop + step) keys.length)
  /-- The error is too large. -/
  | shrink {step start stop offset} : Rounds step start stop → start < stop →
      ¬ Fits err keys maxErr start (stop - start) →
      Shrinks err keys maxErr start (toUint32 (stop - start : ℕ)) (tenth step) offset →
      Rounds (nextStep offset.toNat) (start + offset.toNat)
        (min (start + offset.toNat + nextStep offset.toNat) keys.length)

/-- The segment in hand can be appended, grown or shrunk. -/
def CanGoOn (step start stop : ℕ) : Prop :=
  if Fits err keys maxErr start (stop - start) then
    err ((keys.drop start).take (stop - start)) < toSize maxErr ∧ stop < keys.length ∨
      Appendable (stop - start)
  else
    ∃ offset, Shrinks err keys maxErr start (toUint32 (stop - start : ℕ)) (tenth step) offset

end Conditions

section States

variable (fit : List K → LinearRegressionModel K) (data : List (K × Val))

/-- The states that the loop of `train` reaches. -/
inductive Reaches (maxErr : ℕ) : KanvaIndex K → ℕ → ℕ → Prop
  | start : Reaches maxErr { new 1000 with maxErr := toInt32 maxErr } 0 (min 1000 data.length)
  | append {kv start stop seg kv'} : Reaches maxErr kv start stop → start < stop →
      readSlice data start (stop - start) = some seg →
      (fit (seg.map Prod.fst)).maxErr = toSize kv.maxErr →
      kv.appendModel (fit (seg.map Prod.fst)) seg = some kv' →
      Reaches maxErr kv' stop (min (stop + kv'.learningStep) data.length)
  | grow {kv start stop seg} : Reaches maxErr kv start stop → start < stop →
      readSlice data start (stop - start) = some seg →
      (fit (seg.map Prod.fst)).maxErr < toSize kv.maxErr → stop < data.length →
      Reaches maxErr kv start (min (stop + kv.learningStep) data.length)
  | shrink {kv start stop seg fuel kv' offset} : Reaches maxErr kv start stop → start < stop →
      readSlice data start (stop - start) = some seg →
      toSize kv.maxErr < (fit (seg.map Prod.fst)).maxErr →
      backwardTrain fit tenth data start fuel kv (toUint32 (stop - start : ℕ))
        (tenth kv.learningStep) = some (kv', offset) →
      Reaches maxErr kv' (start + offset.toNat)
        (min (start + offset.toNat + kv'.learningStep) data.length)

/-- `train` returns, and what it appends are the models of consecutive, non-empty pieces of the
whole training data, with an error within the bound, and their last keys. -/
def Partitions (maxErr : ℕ) : Prop :=
  ∃ fuel kv segs, (new 1000).train fit tenth data fuel maxErr = some kv ∧ Segments fit kv segs ∧
    segs.flatten = data ∧ ∀ seg ∈ segs, (fit (seg.map Prod.fst)).maxErr ≤ maxErr ∧
      ((fit (seg.map Prod.fst)).maxErr : ℤ) ≤ kv.maxErr

end States

variable {fit : List K → LinearRegressionModel K} {data : List (K × Val)} {kv kv' : KanvaIndex K}
  {start stop : ℕ}

/-! ### The loop -/

theorem trainLoop_mono {scale : ℤ → ℤ} {fuel : ℕ} {r : KanvaIndex K}
    (h : trainLoop fit scale data fuel kv start stop = some r) {fuel' : ℕ} (hle : fuel ≤ fuel') :
    trainLoop fit scale data fuel' kv start stop = some r := by
  -- the branches of the source: the error is the bound, below it, or above it
  induction fuel generalizing kv start stop fuel' with
  | zero => cases h
  | succ fuel ih =>
    obtain ⟨n, rfl⟩ := Nat.exists_eq_add_of_le' hle
    rw [trainLoop] at h
    rw [← Nat.add_assoc, trainLoop]
    split at h
    · next hlt =>
      rw [if_pos hlt]
      split at h
      · cases h
      next seg hseg =>
      simp only at h ⊢
      split at h
      · next herr =>
        rw [if_pos herr]
        split at h
        · cases h
        · exact ih h (by omega)
      · next herr =>
        rw [if_neg herr]
        split at h
        · next hlt =>
          rw [if_pos hlt]
          split at h
          · next hlast => rw [if_pos hlast]; exact h
          · next hlast => rw [if_neg hlast]; exact ih h (by omega)
        · next hlt =>
          rw [if_neg hlt]
          split at h
          · cases h
          · next hback =>
            rw [backwardTrain_mono hback (by omega)]
            exact ih h (by omega)
    · next hlt => rw [if_neg hlt]; exact h

/-- What `append_model` leaves alone, and the new step with its range. -/
theorem appendModel_kept {model : LinearRegressionModel K} {seg : List (K × Val)}
    (h : kv.appendModel model seg = some kv') :
    kv'.maxErr = kv.maxErr ∧ kv'.learningStep = nextStep seg.length ∧
      10 ≤ kv'.learningStep ∧ kv'.learningStep < 2 ^ 31 := by
  -- the step starts at 1 and is multiplied by 10
  have hge : ∀ fuel n step, step ≤ growStep fuel n step := by
    intro fuel
    induction fuel with
    | zero => exact fun n step => le_rfl
    | succ fuel ih =>
      intro n step
      rw [growStep]
      split
      · exact le_rfl
      · exact (Nat.le_mul_of_pos_right step (by decide)).trans (ih _ _)
  have hten : ∀ fuel n, growStep fuel n 1 = 1 ∨ 10 ≤ growStep fuel n 1 := by
    intro fuel n
    cases fuel with
    | zero => exact .inl rfl
    | succ fuel =>
      rw [growStep]
      split
      · exact .inl rfl
      · exact .inr (hge fuel _ 10)
  rw [appendModel] at h
  split at h
  · next hok =>
    obtain rfl := Option.some.inj h
    refine ⟨rfl, rfl, ?_⟩
    rcases hten seg.length (toInt32 (seg.length / 10 : ℕ)).natAbs with hone | hge
    · simp only [hone, if_true]
      exact ⟨le_rfl, by decide⟩
    · have hne : growStep seg.length (toInt32 (seg.length / 10 : ℕ)).natAbs 1 ≠ 1 := by omega
      simp only [if_neg hne]
      exact ⟨hge, hok.1⟩
  · cases h

/-- `backward_train` appends the prefix whose size it returns. -/
theorem backwardTrain_append {scale : ℤ → ℤ} {fuel size : ℕ} {step stop : ℤ}
    (h : backwardTrain fit scale data start fuel kv size step = some (kv', stop)) :
    kv.appendModel (fit (((data.drop start).take stop.toNat).map Prod.fst))
      ((data.drop start).take stop.toNat) = some kv' := by
  induction fuel generalizing kv size step with
  | zero => cases h
  | succ fuel ih =>
    rw [backwardTrain] at h
    split at h
    · cases h
    split at h
    · cases h
    next hstep =>
    split at h
    · cases h
    next kv₁ stop₁ hloop =>
    obtain ⟨-, -, happ, hkv⟩ := backwardLoop_eq (by omega) (Int.self_le_toNat _) hloop
    split at h
    · next hpos =>
      obtain ⟨rfl, rfl⟩ := Prod.ext_iff.mp (Option.some.inj h)
      exact happ hpos
    · next hpos =>
      obtain rfl := hkv hpos
      exact ih h

theorem trainLoop_maxErr {scale : ℤ → ℤ} {fuel : ℕ}
    (h : trainLoop fit scale data fuel kv start stop = some kv') : kv'.maxErr = kv.maxErr := by
  induction fuel generalizing kv start stop with
  | zero => cases h
  | succ fuel ih =>
    rw [trainLoop] at h
    split at h
    · split at h
      · cases h
      simp only at h
      split at h
      · split at h
        · cases h
        · next happ => exact (ih h).trans (appendModel_kept happ).1
      · split at h
        · split at h
          · exact (appendModel_kept h).1
          · exact ih h
        · split at h
          · cases h
          · next hback =>
            exact (ih h).trans (appendModel_kept (backwardTrain_append hback)).1
    · obtain rfl := Option.some.inj h
      rfl

/-- What holds in every round of the loop. -/
structure LoopOk (fit : List K → LinearRegressionModel K) (data : List (K × Val)) (maxErr : ℕ)
    (kv : KanvaIndex K) (start stop : ℕ) : Prop where
  segments : ∃ segs, Segments fit kv segs
  maxErr : kv.maxErr = toInt32 maxErr
  step_ge : 10 ≤ kv.learningStep
  step_lt : kv.learningStep < 2 ^ 31
  le : start ≤ stop
  stop_le : stop ≤ data.length
  progress : start < data.length → start < stop

/-- `train` is its loop, from the first state on. -/
theorem train_eq (fit : List K → LinearRegressionModel K) (scale : ℤ → ℤ) (data : List (K × Val))
    (fuel maxErr : ℕ) :
    (new 1000).train fit scale data fuel maxErr =
      trainLoop fit scale data fuel { new 1000 with maxErr := toInt32 maxErr } 0
        (min 1000 data.length) := by
  simp only [train, new]

theorem Reaches.ok {maxErr : ℕ} (h : Reaches fit data maxErr kv start stop) :
    LoopOk fit data maxErr kv start stop := by
  have hnew : ∀ M : ℤ, ({ new 1000 with maxErr := M } : KanvaIndex K).maxErr = M := fun _ => rfl
  induction h with
  | start =>
    exact ⟨⟨[], by simp, by simp, by simp, rfl, rfl⟩, hnew _, by norm_num [new], by norm_num [new],
      Nat.zero_le _, Nat.min_le_right _ _, fun hlt => lt_min (by norm_num) hlt⟩
  | @append kv start stop seg kv' _ hlt hseg herr happ ih =>
    obtain ⟨hle, rfl⟩ := readSlice_eq_some.mp hseg
    obtain ⟨segs, hsegs⟩ := ih.segments
    obtain ⟨hmax, -, hge, hstep⟩ := appendModel_kept happ
    refine ⟨⟨_, (appendModel_ok hsegs (slice_ne_nil (by omega) hle) herr.le happ).1⟩,
      hmax.trans ih.maxErr, hge, hstep, ?_, Nat.min_le_right _ _, ?_⟩ <;> omega
  | grow _ hlt hseg herr hstop ih =>
    have hge := ih.step_ge
    refine ⟨ih.segments, ih.maxErr, hge, ih.step_lt, ?_, Nat.min_le_right _ _, ?_⟩ <;> omega
  | shrink _ hlt hseg herr hback ih =>
    obtain ⟨segs, hsegs⟩ := ih.segments
    obtain ⟨hpos, hle, hsegs', -⟩ := backwardTrain_ok hsegs hback
    obtain ⟨hmax, -, hge, hstep⟩ := appendModel_kept (backwardTrain_append hback)
    refine ⟨⟨_, hsegs'⟩, hmax.trans ih.maxErr, hge, hstep, ?_, Nat.min_le_right _ _, ?_⟩ <;> omega

/-- The round of the loop that a reached state makes. -/
theorem trainLoop_succ {scale : ℤ → ℤ} {fuel : ℕ} {seg : List (K × Val)} (hlt : start < stop)
    (hseg : readSlice data start (stop - start) = some seg) :
    trainLoop fit scale data (fuel + 1) kv start stop =
      if (fit (seg.map Prod.fst)).maxErr = toSize kv.maxErr then
        (kv.appendModel (fit (seg.map Prod.fst)) seg).bind fun kv' =>
          trainLoop fit scale data fuel kv' stop (min (stop + kv'.learningStep) data.length)
      else if (fit (seg.map Prod.fst)).maxErr < toSize kv.maxErr then
        if data.length ≤ stop then kv.appendModel (fit (seg.map Prod.fst)) seg
        else trainLoop fit scale data fuel kv start (min (stop + kv.learningStep) data.length)
      else
        (backwardTrain fit scale data start fuel kv (toUint32 (stop - start : ℕ))
          (scale kv.learningStep)).bind fun r =>
          trainLoop fit scale data fuel r.1 (start + r.2.toNat)
            (min (start + r.2.toNat + r.1.learningStep) data.length) := by
  rw [trainLoop, if_pos hlt, hseg]
  simp only
  split
  · cases kv.appendModel (fit (seg.map Prod.fst)) seg <;> rfl
  · split
    · rfl
    · generalize backwardTrain fit scale data start fuel kv _ _ = r
      cases r with
      | none => rfl
      | some r => rfl

/-- The slice that the loop has in hand. -/
theorem LoopOk.readSlice {maxErr : ℕ} (h : LoopOk fit data maxErr kv start stop) :
    KanvaIndex.readSlice data start (stop - start) =
      some ((data.drop start).take (stop - start)) := by
  have hle := h.le
  have hstop := h.stop_le
  exact readSlice_eq_some.mpr ⟨by omega, rfl⟩

theorem LoopOk.length_slice {maxErr : ℕ} (h : LoopOk fit data maxErr kv start stop) :
    ((data.drop start).take (stop - start)).length = stop - start := by
  have hle := h.le
  have hstop := h.stop_le
  rw [List.length_take, List.length_drop]
  omega

/-- From every state it reaches, the loop ends, if every state can go on. -/
theorem trainLoop_returns (hfit : ∀ k, (fit [k]).maxErr = 0) {maxErr : ℕ}
    (hpos : 0 ≤ toInt32 maxErr)
    (hall : ∀ kv start stop, Reaches fit data maxErr kv start stop → start < stop →
      CanGoOn (errorOf fit) (data.map Prod.fst) kv.maxErr kv.learningStep start stop)
    (h : Reaches fit data maxErr kv start stop) :
    ∃ fuel kv', trainLoop fit tenth data fuel kv start stop = some kv' := by
  induction hm : (data.length - start) * (data.length + 1) + (data.length - stop) using
    Nat.strong_induction_on generalizing kv start stop with
  | _ m ih =>
    have hok := h.ok
    have hstop := hok.stop_le
    have hmax : kv.maxErr < 2 ^ 31 := by
      rw [hok.maxErr]
      exact toInt32_lt _
    rw [← hok.maxErr] at hpos
    by_cases hlt : start < stop
    · have hcan := hall _ _ _ h hlt
      -- a segment that starts later makes the measure smaller
      have hless : ∀ start' stop' : ℕ, start < start' → (data.length - start') * (data.length + 1) +
          (data.length - stop') < m := by
        intro start' stop' hlt'
        have hmul : (data.length - start' + 1) * (data.length + 1) ≤
            (data.length - start) * (data.length + 1) := Nat.mul_le_mul_right _ (by omega)
        rw [Nat.succ_mul] at hmul
        omega
      rw [CanGoOn, ← List.map_drop, ← List.map_take, List.length_map] at hcan
      split at hcan
      · next hfits =>
        have hfits := fits_iff.mp hfits
        -- the segment is appended, unless it fits better than it must and can grow
        rcases lt_or_eq_of_le hfits with herr | herr
        · by_cases hlast : data.length ≤ stop
          · have hstep := hcan.resolve_left fun hgrow => absurd hgrow.2 (not_lt.mpr hlast)
            obtain ⟨kv', happ⟩ := Option.isSome_iff_exists.mp
              ((appendModel_isSome hpos hmax hfits).mpr (by rwa [hok.length_slice]))
            refine ⟨1, kv', ?_⟩
            rw [trainLoop_succ hlt hok.readSlice, if_neg herr.ne, if_pos herr, if_pos hlast, happ]
          · have hge := hok.step_ge
            obtain ⟨fuel, kv', hloop⟩ := ih _ (by omega)
              (.grow h hlt hok.readSlice herr (not_le.mp hlast)) rfl
            refine ⟨fuel + 1, kv', ?_⟩
            rw [trainLoop_succ hlt hok.readSlice, if_neg herr.ne, if_pos herr, if_neg hlast, hloop]
        · have hstep := hcan.resolve_left fun hgrow => absurd herr (ne_of_lt hgrow.1)
          obtain ⟨kv₁, happ⟩ := Option.isSome_iff_exists.mp
            ((appendModel_isSome hpos hmax hfits).mpr (by rwa [hok.length_slice]))
          obtain ⟨fuel, kv', hloop⟩ := ih _ (hless _ _ hlt)
            (.append h hlt hok.readSlice herr happ) rfl
          refine ⟨fuel + 1, kv', ?_⟩
          rw [trainLoop_succ hlt hok.readSlice, if_pos herr, happ, Option.bind_some, hloop]
      · next hfits =>
        have herr := not_le.mp (mt fits_iff.mpr hfits)
        have hsize : toUint32 (stop - start : ℕ) ≤ stop - start ∧
            toUint32 (stop - start : ℕ) < 2 ^ 32 := by
          rw [toUint32]
          omega
        have hstep := hok.step_lt
        obtain ⟨offset, hcan⟩ := hcan
        obtain ⟨fuel, kv₁, hback⟩ := hcan.returns hfit hpos hmax (by omega) (by omega)
          hsize.2 (by rw [tenth]; omega) (by rw [tenth]; omega)
        obtain ⟨segs, hsegs⟩ := hok.segments
        have hoff := (backwardTrain_ok hsegs hback).pos
        obtain ⟨fuel', kv', hloop⟩ := ih _ (hless _ _ (by omega))
          (.shrink h hlt hok.readSlice herr hback) rfl
        refine ⟨max fuel fuel' + 1, kv', ?_⟩
        rw [trainLoop_succ hlt hok.readSlice, if_neg herr.ne', if_neg herr.not_gt,
          backwardTrain_mono hback (le_max_left _ _), Option.bind_some,
          trainLoop_mono hloop (le_max_right _ _)]
    · exact ⟨1, kv, by rw [trainLoop, if_neg hlt]⟩

/-- When the loop ends from a state, that state could go on, and the loop ends from the next one. -/
theorem canGoOn_of_trainLoop (hfit : ∀ k, (fit [k]).maxErr = 0) {maxErr : ℕ}
    (hpos : 0 ≤ toInt32 maxErr) (h : Reaches fit data maxErr kv start stop) (hlt : start < stop)
    {fuel : ℕ} {r : KanvaIndex K}
    (hloop : trainLoop fit tenth data (fuel + 1) kv start stop = some r) :
    CanGoOn (errorOf fit) (data.map Prod.fst) kv.maxErr kv.learningStep start stop := by
  have hok := h.ok
  have hstop := hok.stop_le
  have hmax : kv.maxErr < 2 ^ 31 := by
    rw [hok.maxErr]
    exact toInt32_lt _
  rw [← hok.maxErr] at hpos
  rw [trainLoop_succ hlt hok.readSlice] at hloop
  rw [CanGoOn, ← List.map_drop, ← List.map_take, List.length_map]
  -- the error is the bound, below it, or above it
  split at hloop
  · next herr =>
    rw [if_pos (fits_iff.mpr herr.le)]
    obtain ⟨kv₁, happ, -⟩ := Option.bind_eq_some_iff.mp hloop
    refine .inr ?_
    rw [← hok.length_slice, ← appendModel_isSome hpos hmax herr.le, happ]
    rfl
  · split at hloop
    · next herr =>
      rw [if_pos (fits_iff.mpr herr.le)]
      split at hloop
      · refine .inr ?_
        rw [← hok.length_slice, ← appendModel_isSome hpos hmax herr.le, hloop]
        rfl
      · next hlast => exact .inl ⟨herr, not_le.mp hlast⟩
    · next hne hge =>
      rw [if_neg fun hfits => hge (lt_of_le_of_ne (fits_iff.mp hfits) hne)]
      obtain ⟨⟨kv', offset⟩, hback, -⟩ := Option.bind_eq_some_iff.mp hloop
      have hsize : toUint32 (stop - start : ℕ) ≤ stop - start ∧
          toUint32 (stop - start : ℕ) < 2 ^ 32 := by
        rw [toUint32]
        omega
      have hstep := hok.step_lt
      exact ⟨offset, shrinks_of_backwardTrain hfit hpos hmax (by omega) (by omega) hsize.2
        (by rw [tenth]; omega) (by rw [tenth]; omega) hback⟩

/-- If the loop ends from the first state, it ends from every state that it reaches. -/
theorem Reaches.trainLoop {maxErr fuel : ℕ} {r : KanvaIndex K}
    (htrain : (new 1000).train fit tenth data fuel maxErr = some r)
    (h : Reaches fit data maxErr kv start stop) :
    ∃ fuel, KanvaIndex.trainLoop fit tenth data fuel kv start stop = some r := by
  -- a loop that ends has a round left
  have hround : ∀ {kv : KanvaIndex K} {start stop : ℕ},
      (∃ fuel, KanvaIndex.trainLoop fit tenth data fuel kv start stop = some r) →
      ∃ fuel, KanvaIndex.trainLoop fit tenth data (fuel + 1) kv start stop = some r := by
    rintro kv start stop ⟨fuel, hloop⟩
    exact ⟨fuel, trainLoop_mono hloop (Nat.le_succ _)⟩
  induction h with
  | start => exact ⟨fuel, by rw [← train_eq, htrain]⟩
  | append h hlt hseg herr happ ih =>
    obtain ⟨fuel, hloop⟩ := hround ih
    rw [trainLoop_succ hlt hseg, if_pos herr, happ, Option.bind_some] at hloop
    exact ⟨fuel, hloop⟩
  | grow h hlt hseg herr hstop ih =>
    obtain ⟨fuel, hloop⟩ := hround ih
    rw [trainLoop_succ hlt hseg, if_neg herr.ne, if_pos herr, if_neg (not_le.mpr hstop)] at hloop
    exact ⟨fuel, hloop⟩
  | shrink h hlt hseg herr hback ih =>
    obtain ⟨fuel, hloop⟩ := hround ih
    rw [trainLoop_succ hlt hseg, if_neg herr.ne', if_neg herr.not_gt] at hloop
    obtain ⟨r', hback', hloop⟩ := Option.bind_eq_some_iff.mp hloop
    -- both bounds on the rounds give the same result
    have heq := (backwardTrain_mono hback (le_max_left _ _)).symm.trans
      (backwardTrain_mono hback' (le_max_right _ _))
    obtain rfl := Option.some.inj heq
    exact ⟨fuel, hloop⟩

theorem train_maxErr {fuel maxErr : ℕ} (h : (new 1000).train fit tenth data fuel maxErr = some kv) :
    kv.maxErr = toInt32 maxErr := by
  have hnew : ∀ M : ℤ, ({ new 1000 with maxErr := M } : KanvaIndex K).maxErr = M := fun _ => rfl
  rw [train_eq] at h
  exact (trainLoop_maxErr h).trans (hnew _)

/-- When `train` returns, every state of its loop could go on. -/
theorem canGoOn_of_train (hfit : ∀ k, (fit [k]).maxErr = 0) {maxErr fuel : ℕ} {r : KanvaIndex K}
    (hpos : 0 ≤ toInt32 maxErr) (htrain : (new 1000).train fit tenth data fuel maxErr = some r)
    (h : Reaches fit data maxErr kv start stop) (hlt : start < stop) :
    CanGoOn (errorOf fit) (data.map Prod.fst) kv.maxErr kv.learningStep start stop := by
  obtain ⟨fuel', hloop⟩ := h.trainLoop htrain
  exact canGoOn_of_trainLoop hfit hpos h hlt (trainLoop_mono hloop (Nat.le_succ _))

/-! ### The rounds -/

/-- The states of the loop are in the rounds. -/
theorem Reaches.rounds (hfit : ∀ k, (fit [k]).maxErr = 0) {maxErr : ℕ} (hpos : 0 ≤ toInt32 maxErr)
    (h : Reaches fit data maxErr kv start stop) :
    Rounds (errorOf fit) (data.map Prod.fst) (toInt32 maxErr) kv.learningStep start stop := by
  induction h with
  | start =>
    have hstart : Rounds (errorOf fit) (data.map Prod.fst) (toInt32 maxErr) 1000 0
        (min 1000 (data.map Prod.fst).length) := .start
    rwa [List.length_map] at hstart
  -- the errors of the segment in hand are those of its keys
  | @append kv start stop seg kv' h hlt hseg herr happ ih =>
    have hok := h.ok
    obtain ⟨-, rfl⟩ := readSlice_eq_some.mp hseg
    obtain ⟨-, hstep, -⟩ := appendModel_kept happ
    rw [hok.length_slice] at hstep
    rw [hok.maxErr, List.map_take, List.map_drop] at herr
    have hnext := ih.append hlt herr
    rwa [List.length_map, ← hstep] at hnext
  | @grow kv start stop seg h hlt hseg herr hstop ih =>
    obtain ⟨-, rfl⟩ := readSlice_eq_some.mp hseg
    rw [h.ok.maxErr, List.map_take, List.map_drop] at herr
    have hnext := ih.grow hlt herr (by rwa [List.length_map])
    rwa [List.length_map] at hnext
  | @shrink kv start stop seg fuel kv' offset h hlt hseg herr hback ih =>
    have hok := h.ok
    have hstop := hok.stop_le
    have hstep := hok.step_lt
    obtain ⟨-, rfl⟩ := readSlice_eq_some.mp hseg
    -- `size` reaches `backward_train` as a `uint32_t`
    have hsize : toUint32 (stop - start : ℕ) ≤ stop - start ∧
        toUint32 (stop - start : ℕ) < 2 ^ 32 := by
      rw [toUint32]
      omega
    have hshrinks := shrinks_of_backwardTrain hfit (hok.maxErr ▸ hpos)
      (hok.maxErr ▸ toInt32_lt _) (by omega) (by omega) hsize.2 (by rw [tenth]; omega)
      (by rw [tenth]; omega) hback
    obtain ⟨segs, hsegs⟩ := hok.segments
    have hle := (backwardTrain_ok hsegs hback).le
    obtain ⟨-, hstep', -⟩ := appendModel_kept (backwardTrain_append hback)
    rw [List.length_take, List.length_drop, min_eq_left (by omega)] at hstep'
    rw [hok.maxErr] at hshrinks herr
    have hnext := ih.shrink hlt (fun hfits => absurd (fits_iff.mp hfits) herr.not_ge) hshrinks
    rwa [List.length_map, ← hstep'] at hnext

/-- When every state of the loop can go on, every round is the one of a state. -/
theorem Rounds.reaches (hfit : ∀ k, (fit [k]).maxErr = 0) {maxErr step : ℕ}
    (hpos : 0 ≤ toInt32 maxErr)
    (hall : ∀ kv start stop, Reaches fit data maxErr kv start stop → start < stop →
      CanGoOn (errorOf fit) (data.map Prod.fst) kv.maxErr kv.learningStep start stop)
    (h : Rounds (errorOf fit) (data.map Prod.fst) (toInt32 maxErr) step start stop) :
    ∃ kv, Reaches fit data maxErr kv start stop ∧ kv.learningStep = step := by
  induction h with
  | start =>
    rw [List.length_map]
    exact ⟨_, .start, rfl⟩
  | @append step start stop _ hlt herr ih =>
    obtain ⟨kv, hreach, rfl⟩ := ih
    have hok := hreach.ok
    -- the segment fits with room to spare, so only its length can keep it from being appended
    have hcan := hall kv start stop hreach hlt
    rw [← List.map_drop, ← List.map_take, ← hok.maxErr] at herr
    rw [CanGoOn, if_pos (fits_iff.mpr herr.le), ← List.map_drop, ← List.map_take] at hcan
    have hfits := hcan.resolve_left fun hgrow => absurd herr (ne_of_lt hgrow.1)
    obtain ⟨kv', happ⟩ := Option.isSome_iff_exists.mp
      ((appendModel_isSome (hok.maxErr ▸ hpos) (hok.maxErr ▸ toInt32_lt _) herr.le).mpr
        (by rwa [hok.length_slice]))
    obtain ⟨-, hstep, -⟩ := appendModel_kept happ
    rw [hok.length_slice] at hstep
    rw [List.length_map, ← hstep]
    exact ⟨kv', .append hreach hlt hok.readSlice herr happ, rfl⟩
  | @grow step start stop _ hlt herr hstop ih =>
    obtain ⟨kv, hreach, rfl⟩ := ih
    rw [← List.map_drop, ← List.map_take, ← hreach.ok.maxErr] at herr
    rw [List.length_map] at hstop ⊢
    exact ⟨kv, .grow hreach hlt hreach.ok.readSlice herr hstop, rfl⟩
  | @shrink step start stop offset _ hlt hno hshrinks ih =>
    obtain ⟨kv, hreach, rfl⟩ := ih
    have hok := hreach.ok
    have hstop := hok.stop_le
    have hstep := hok.step_lt
    have hsize : toUint32 (stop - start : ℕ) ≤ stop - start ∧
        toUint32 (stop - start : ℕ) < 2 ^ 32 := by
      rw [toUint32]
      omega
    rw [← hok.maxErr] at hno hshrinks
    -- what can be shrunk is shrunk, to the same prefix
    obtain ⟨fuel, kv', hback⟩ := hshrinks.returns hfit (hok.maxErr ▸ hpos)
      (hok.maxErr ▸ toInt32_lt _) (by omega) (by omega) hsize.2 (by rw [tenth]; omega)
      (by rw [tenth]; omega)
    obtain ⟨segs, hsegs⟩ := hok.segments
    have hle := (backwardTrain_ok hsegs hback).le
    obtain ⟨-, hstep', -⟩ := appendModel_kept (backwardTrain_append hback)
    rw [List.length_take, List.length_drop, min_eq_left (by omega)] at hstep'
    rw [List.length_map, ← hstep']
    exact ⟨kv', .shrink hreach hlt hok.readSlice (not_le.mp (mt fits_iff.mpr hno)) hback, rfl⟩

/-- `train` cuts the training data into consecutive segments that fit, if and only if `maxErr` is
not negative as an `int`, and in every round the segment in hand can be appended, grown or shrunk.
The rounds and what can be done in them depend on the keys, the bound and the errors alone. -/
theorem train_iff (hfit : ∀ k, (fit [k]).maxErr = 0) (hdata : data ≠ []) (maxErr : ℕ) :
    Partitions fit data maxErr ↔
      0 ≤ toInt32 maxErr ∧ ∀ step start stop,
        Rounds (errorOf fit) (data.map Prod.fst) (toInt32 maxErr) step start stop → start < stop →
          CanGoOn (errorOf fit) (data.map Prod.fst) (toInt32 maxErr) step start stop := by
  constructor
  · rintro ⟨fuel, kv, segs, htrain, hsegs, hflat, herr⟩
    have hmax := train_maxErr htrain
    have hpos : 0 ≤ toInt32 maxErr := by
      -- a segment of the result has an error within the bound, and no error is negative
      obtain ⟨seg, hseg⟩ : ∃ seg, seg ∈ segs := by
        refine List.exists_mem_of_ne_nil segs ?_
        rintro rfl
        exact hdata hflat.symm
      have hle := (herr seg hseg).2
      omega
    have hall : ∀ kv start stop, Reaches fit data maxErr kv start stop → start < stop →
        CanGoOn (errorOf fit) (data.map Prod.fst) kv.maxErr kv.learningStep start stop :=
      fun _ _ _ hreach hlt => canGoOn_of_train hfit hpos htrain hreach hlt
    refine ⟨hpos, fun step start stop hround hlt => ?_⟩
    -- a round is a state that `train` reaches, and from there it has gone on
    obtain ⟨kv₁, hreach, rfl⟩ := hround.reaches hfit hpos hall
    rw [← hreach.ok.maxErr]
    exact hall kv₁ start stop hreach hlt
  · rintro ⟨hpos, hall⟩
    obtain ⟨fuel, kv, hloop⟩ := trainLoop_returns hfit hpos
      (fun kv start stop hreach hlt => hreach.ok.maxErr ▸
        hall _ start stop (hreach.rounds hfit hpos) hlt) .start
    have htrain : (new 1000).train fit tenth data fuel maxErr = some kv := by rw [train_eq, hloop]
    obtain ⟨segs, hsegs, hflat⟩ := train_segments (by norm_num) htrain
    have hmax := train_maxErr htrain
    refine ⟨fuel, kv, segs, htrain, hsegs, hflat, fun seg hseg => ?_⟩
    have hfitted := hsegs.fitted seg hseg
    have hle := toInt32_le maxErr
    have hlt := toInt32_lt maxErr
    rw [hmax, toSize] at hfitted
    rw [hmax]
    omega

/-- A linear model whose error is 0 on at most this many keys. -/
def fitUpTo (n : ℕ) (keys : List (Fin 64)) : LinearRegressionModel (Fin 64) :=
  ⟨fun _ => 0, if keys.length ≤ n then 0 else 5⟩

/-- Twenty keys of which ten fit one model. -/
def twenty : List (Fin 64 × Val) := (List.range 20).map fun i => (Fin.ofNat 64 i, 7)

/-- The step of 100 is reduced to 10 for a segment of twenty keys. -/
theorem shrinkStep_twenty {fuel : ℕ} {s : ℤ} (h : shrinkStep tenth 20 fuel 100 = some s) :
    s = 10 := by
  have htwo : shrinkStep tenth 20 2 100 = some 10 := by decide
  rcases le_total fuel 2 with hle | hle
  · exact Option.some.inj ((shrinkStep_mono h hle).symm.trans htwo)
  · exact Option.some.inj (h.symm.trans (shrinkStep_mono htwo hle))

/-- The segment of all twenty keys is shrunk to the first ten. -/
theorem shrinks_twenty {offset : ℤ}
    (h : Shrinks (errorOf (fitUpTo 10)) (twenty.map Prod.fst) 0 0 20 100 offset) :
    offset = 10 := by
  have hten : firstFit (errorOf (fitUpTo 10)) (twenty.map Prod.fst) 0 0 10 20 10 = 10 := by decide
  cases h with
  | short hshort => exact absurd hshort (by decide)
  | fits _ hs =>
    obtain rfl := shrinkStep_twenty hs
    exact hten
  | divides _ hs _ _ hnone =>
    obtain rfl := shrinkStep_twenty hs
    exact absurd (hten.symm.trans hnone) (by decide)
  | large _ hs _ hbig =>
    obtain rfl := shrinkStep_twenty hs
    exact absurd hbig (by decide)

/-- The keys do not fit one model, and the segment is shrunk to the first ten. -/
theorem train_iff_twenty : Partitions (fitUpTo 10) twenty 0 := by
  refine (train_iff (fun _ => rfl) (by decide) 0).mpr ⟨by decide, fun step start stop h hlt => ?_⟩
  have hround : step = 1000 ∧ start = 0 ∧ stop = 20 ∨ step = 10 ∧ start = 10 ∧ stop = 20 ∨
      start = 20 ∧ stop = 20 := by
    clear hlt
    induction h with
    | start => exact .inl ⟨rfl, rfl, rfl⟩
    | append _ hlt herr ih =>
      obtain ⟨rfl, rfl, rfl⟩ | ⟨rfl, rfl, rfl⟩ | ⟨rfl, rfl⟩ := ih
      · exact absurd herr (by decide)
      · exact .inr (.inr ⟨rfl, rfl⟩)
      · exact absurd hlt (by decide)
    | grow _ _ _ hroom ih =>
      obtain ⟨-, -, rfl⟩ | ⟨-, -, rfl⟩ | ⟨-, rfl⟩ := ih <;> exact absurd hroom (by decide)
    | shrink _ hlt hno hshrinks ih =>
      obtain ⟨rfl, rfl, rfl⟩ | ⟨rfl, rfl, rfl⟩ | ⟨rfl, rfl⟩ := ih
      · obtain rfl := shrinks_twenty hshrinks
        exact .inr (.inl ⟨rfl, rfl, rfl⟩)
      · exact absurd (by decide) hno
      · exact absurd hlt (by decide)
  obtain ⟨rfl, rfl, rfl⟩ | ⟨rfl, rfl, rfl⟩ | ⟨rfl, rfl⟩ := hround
  · have hs : shrinkStep tenth 20 2 100 = some 10 := by decide
    rw [CanGoOn, if_neg (by decide)]
    exact ⟨_, .fits (by decide) hs (by decide) (by decide) (by decide) (by decide)⟩
  · rw [CanGoOn, if_pos (by decide)]
    exact .inr (by decide)
  · exact absurd hlt (by decide)

/-- Two keys that do not fit one model: `train` reads past the end of the keys. -/
theorem train_two_keys : ¬ Partitions (fitUpTo 1) [(1, 7), (2, 7)] 0 := by
  rintro ⟨fuel, kv, segs, htrain, -⟩
  have hcan := canGoOn_of_train (fun _ => rfl) (by decide) htrain .start (by decide)
  rw [CanGoOn, if_neg (by decide)] at hcan
  obtain ⟨offset, hcan⟩ := hcan
  -- there are no 9 keys
  cases hcan with
  | short _ hroom => exact absurd hroom (by decide)
  | fits hlong | divides hlong | large hlong => exact absurd hlong (by decide)

end KanvaIndex

end KanvaImpl
