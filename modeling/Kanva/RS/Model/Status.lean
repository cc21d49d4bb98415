import Kanva.RS.Model.Effects
import Mathlib.Order.Fin.Basic

/-!
# What the calls of Kanva_RS report

In the states that insertions and removals reach from training: when `find` reports the stored
value, when `remove` removes, and when the statuses of `insert` and `remove` say what has happened.
A key is present if its newest version is not a tombstone.

`search` takes the caller's variable by value and compares it with the stored value. A removal gives
up at a full list. `VersionedArray::insert` always returns false, and a list returns the same status
whether it writes over a value, over a tombstone, or nothing.

## Main results

* `KanvaRSState.insert_ok`, `KanvaRSState.remove_ok`: a call changes its own key only; its status
  and what it leaves there.
* `KanvaRSState.find_faithful_iff`: when `find` is faithful.
* `KanvaRSState.remove_effective_iff`: when a removal takes effect.
* `KanvaRSState.status_faithful_iff`: when the statuses are faithful.
-/

namespace KanvaRS

open Kanva SortedArray SortedAssoc

variable {K : Type} [LinearOrder K] [BoundedOrder K] [Zero K]

namespace KanvaRSState

variable {st st' : KanvaRSState K} {m m' : KanvaRSModel K} {key x : K} {val v : Val} {t : Target K}

/-- The entries of all models. -/
def entries (st : KanvaRSState K) : List (VersionedKey K) :=
  st.index.aimodels.flatMap fun m => (ModelOrBin.ai m).entries

/-- The newest version of the key has this value. -/
def HasNewest (st : KanvaRSState K) (key : K) (v : Val) : Prop :=
  ∃ e ∈ st.entries, e.key = key ∧ e.getValue = v

/-- The newest version of the key is not a tombstone. -/
def Present (st : KanvaRSState K) (key : K) : Prop := ∃ v, v ≠ -1 ∧ st.HasNewest key v

/-- The target of a key in the model `find_model` selects. -/
def target (st : KanvaRSState K) (key : K) : Option (Target K) :=
  (st.findModel key).map fun m => (ModelOrBin.ai m).target key

/-- The models are well formed, and each has the keys `find_model` selects it for. -/
structure Wf (st : KanvaRSState K) : Prop where
  models : ∀ m ∈ st.index.aimodels, (ModelOrBin.ai m).Wf
  routed : ∀ i m, st.index.aimodels[i]? = some m → ∀ e ∈ (ModelOrBin.ai m).entries,
    st.index.modelPos e.key = i

omit [BoundedOrder K] in
theorem target_eq_some : st.target key = some t ↔
    ∃ m, st.findModel key = some m ∧ (ModelOrBin.ai m).target key = t := by
  rw [target, Option.map_eq_some_iff]

omit [BoundedOrder K] in
theorem findModel_eq_none (ht : st.target key = none) : st.findModel key = none :=
  Option.map_eq_none_iff.mp ht

theorem Wf.findModel (h : st.Wf) (hm : st.findModel key = some m) : (ModelOrBin.ai m).Wf :=
  h.models m (List.mem_of_getElem? hm)

/-- The newest value of a key where the key is routed to. -/
def newest (st : KanvaRSState K) (key : K) : Option Val :=
  (st.findModel key).bind fun m => (ModelOrBin.ai m).newest key

theorem Wf.hasNewest_iff (h : st.Wf) : st.HasNewest key v ↔ st.newest key = some v := by
  rw [newest, Option.bind_eq_some_iff]
  constructor
  · rintro ⟨e, he, rfl, hv⟩
    obtain ⟨m, hm, hmem⟩ := List.mem_flatMap.mp he
    obtain ⟨i, hi, rfl⟩ := List.mem_iff_getElem.mp hm
    have hpos := h.routed i _ (List.getElem?_eq_getElem hi) e hmem
    refine ⟨_, by rw [KanvaRSState.findModel, hpos, List.getElem?_eq_getElem hi], ?_⟩
    exact (ModelOrBin.newest_iff (h.models _ hm)).mpr ⟨e, hmem, rfl, hv⟩
  · rintro ⟨m, hm, hnewest⟩
    obtain ⟨e, hmem, hkey, hv⟩ := (ModelOrBin.newest_iff (h.findModel hm)).mp hnewest
    exact ⟨e, List.mem_flatMap.mpr ⟨m, List.mem_of_getElem? hm, hmem⟩, hkey, hv⟩

omit [BoundedOrder K] in
theorem newest_eq (ht : st.target key = some t) : st.newest key = t.newest key := by
  obtain ⟨m, hm, rfl⟩ := target_eq_some.mp ht
  rw [newest, hm]
  rfl

/-- The store of a model that has been updated at a key. -/
theorem Wf.setModel (h : st.Wf) (hm : st.findModel key = some m)
    (hok : UpdateOk key (.ai m) (.ai m')) :
    (st.setModel key m').Wf ∧ (∀ x, x ≠ key → (st.setModel key m').newest x = st.newest x) ∧
      (st.setModel key m').newest key = (ModelOrBin.ai m').newest key := by
  -- the models keep their last keys, so every key keeps its model
  have hpos : ∀ x, (st.setModel key m').index.modelPos x = st.index.modelPos x := by
    intro x
    simp only [KanvaRSIndex.modelPos, KanvaRSState.setModel, List.length_set]
  have hlt : st.index.modelPos key < st.index.aimodels.length :=
    (List.getElem?_eq_some_iff.mp hm).1
  have hget : ∀ i, (st.setModel key m').index.aimodels[i]? =
      if st.index.modelPos key = i then some m' else st.index.aimodels[i]? := by
    intro i
    simp only [KanvaRSState.setModel, List.getElem?_set, if_pos hlt]
  have hfind : ∀ x, (st.setModel key m').findModel x =
      if st.index.modelPos key = st.index.modelPos x then some m' else st.findModel x := by
    intro x
    rw [KanvaRSState.findModel, hpos, hget]
    rfl
  refine ⟨⟨fun m₁ hm₁ => ?_, fun i m₁ hm₁ e he => ?_⟩, fun x hx => ?_, ?_⟩
  · rcases List.mem_or_eq_of_mem_set hm₁ with hold | rfl
    · exact h.models m₁ hold
    · exact hok.wf
  · -- the keys of the new model are those of the old one, and the key itself
    rw [hpos]
    rw [hget] at hm₁
    split at hm₁
    · next hi =>
      obtain rfl := Option.some.inj hm₁
      rcases hok.keys e he with hkey | ⟨e', hmem, heq⟩
      · rw [hkey, hi]
      · rw [← heq, ← hi]
        exact h.routed _ m hm e' hmem
    · exact h.routed i m₁ hm₁ e he
  · rw [newest, newest, hfind]
    split
    · next hsame =>
      have hold : st.findModel x = some m := by
        rw [KanvaRSState.findModel, ← hsame]
        exact hm
      rw [hold, Option.bind_some, Option.bind_some, hok.frame x hx]
    · rfl
  · rw [newest, hfind, if_pos rfl, Option.bind_some]

/-- A call has this effect: it returns, and it changes its own key only, where it leaves the newest
value of the result. -/
structure Effect (key : K) (result : Option Val × Bool) (st : KanvaRSState K)
    (out : Option (KanvaRSState K × Bool)) (st' : KanvaRSState K) : Prop where
  returns : out = some (st', result.2)
  wf : st'.Wf
  frame : ∀ x, x ≠ key → st'.newest x = st.newest x
  newest : st'.newest key = result.1

theorem Wf.effect (h : st.Wf) (hm : st.findModel key = some m) {p : KanvaRSModel K × Bool}
    (hok : UpdateOk key (.ai m) (.ai p.1)) {result : Option Val × Bool}
    (hresult : ((ModelOrBin.ai p.1).newest key, p.2) = result) :
    Effect key result st (some (st.setModel key p.1, p.2)) (st.setModel key p.1) := by
  subst hresult
  obtain ⟨hwf, hframe, hnewest⟩ := h.setModel hm hok
  exact ⟨rfl, hwf, hframe, hnewest⟩

variable {fit : List K → LinearRegressionModel K}

/-- The effect of `insert`. -/
theorem insert_ok (fit : List K → LinearRegressionModel K) (val : Val) (h : st.Wf)
    (ht : st.target key = some t) :
    ∃ st', Effect key (t.inserted key val) st (st.insert fit key val) st' := by
  obtain ⟨m, hm, rfl⟩ := target_eq_some.mp ht
  obtain ⟨p, hp, hok, hresult⟩ := KanvaRSModel.insertRetrain_ok fit key val
    st.versionTracker.getLatestTimestamp (h.findModel hm)
  refine ⟨st.setModel key p.1, ?_⟩
  rw [KanvaRSState.insert, hm, Option.bind_some, hp]
  exact h.effect hm hok hresult

/-- The effect of `remove`. -/
theorem remove_ok (h : st.Wf) (ht : st.target key = some t) :
    ∃ st', Effect key (t.removed key) st (st.remove key) st' := by
  obtain ⟨m, hm, rfl⟩ := target_eq_some.mp ht
  obtain ⟨p, hp, hok, hresult⟩ := KanvaRSModel.remove_ok key
    st.versionTracker.getLatestTimestamp (h.findModel hm)
  refine ⟨st.setModel key p.1, ?_⟩
  rw [KanvaRSState.remove, hm, Option.bind_some, hp]
  exact h.effect hm hok hresult

/-- The answer of `find`. -/
theorem find_eq (h : st.Wf) (val : Val) :
    st.find key val = (st.target key).map fun t => t.answer key val := by
  rw [find, target]
  cases hm : st.findModel key with
  | none => rfl
  | some m =>
    rw [Option.bind_some, ModelOrBin.findRetrain_eq (h.findModel hm)]
    rfl

/-! ### Reached states -/

section Train

variable {data : List (K × Val)} {kv : KanvaRSIndex K} {fuel maxErr : ℕ}

/-- Training leaves well-formed models. -/
theorem wf_of_train (hdata : Sorted data)
    (htrain : KanvaRSIndex.new.train fit data fuel maxErr = some kv)
    (hlen : kv.aimodels.length < 2 ^ 31) : (⟨kv, .new⟩ : KanvaRSState K).Wf := by
  obtain ⟨segs, hsegs, hflat⟩ := KanvaRSIndex.train_segments htrain
  subst hflat
  have hmodels : kv.aimodels.length = segs.length := by rw [hsegs.aimodels, List.length_map]
  have hentries : ∀ (lrmodel : LinearRegressionModel K) (seg : List (K × Val)),
      (ModelOrBin.ai (KanvaRSModel.new lrmodel seg)).entries =
        seg.map fun p => VersionedKey.new p.1 p.2 := by
    intro lrmodel seg
    show _ ++ (List.range _).flatMap (fun _ => []) = _
    simp
  refine ⟨fun m hm => ?_, fun i m hm e he => ?_⟩
  · have hm : m ∈ kv.aimodels := hm
    rw [hsegs.aimodels, List.mem_map] at hm
    obtain ⟨seg, hseg, rfl⟩ := hm
    -- a model of a segment, with empty slots
    refine ModelOrBin.wf_ai.mpr ⟨.of_sorted ?_ ?_ ?_, fun i => ⟨trivial, fun e he => by cases he⟩⟩
    · rw [KanvaRSModel.new, List.map_map]
      exact List.pairwise_map.mpr ((List.pairwise_flatten.mp hdata).1 seg hseg)
    · rw [RSModelOver.capacity, KanvaRSModel.new, List.length_map]
      exact List.length_pos_iff.mpr (hsegs.nonempty seg hseg)
    · have hle := hsegs.length_le seg hseg
      rw [RSModelOver.capacity, KanvaRSModel.new, List.length_map]
      omega
  · have hm : kv.aimodels[i]? = some m := hm
    rw [hsegs.aimodels, List.getElem?_map] at hm
    obtain ⟨seg, hseg, rfl⟩ := Option.map_eq_some_iff.mp hm
    rw [hentries] at he
    obtain ⟨p, hp, rfl⟩ := List.mem_map.mp he
    obtain ⟨hi, rfl⟩ := List.getElem?_eq_some_iff.mp hseg
    -- `find_model` finds the segment of a trained key
    have hsize : toInt32 kv.modelKeys.length = segs.length := by
      rw [hsegs.modelKeys, List.length_map]
      exact toInt32_of_lt (by omega)
    have hmono := lastKeys_mono hsegs.nonempty hdata
    have hidx := lowerBound_lastKeys hsegs.nonempty hdata hi hp
    rw [← hsegs.modelKeys] at hmono hidx
    show kv.modelPos p.1 = i
    rw [KanvaRSIndex.modelPos, hsize, binarySearchBranchless_eq hmono, hidx, hmodels]
    simp [hi]

theorem wf_of_updated {st₀ : KanvaRSState K} (h : st₀.Wf) (hrun : Updated fit st₀ st) : st.Wf := by
  induction hrun with
  | refl => exact h
  | @insert st st' key val ok _ hval hcall ih =>
    -- without a model the call does not return
    cases ht : st.target key with
    | none =>
      rw [KanvaRSState.insert, findModel_eq_none ht] at hcall
      cases hcall
    | some t =>
      obtain ⟨st₁, heff⟩ := insert_ok fit val ih ht
      rw [heff.returns] at hcall
      obtain ⟨rfl, -⟩ := Prod.ext_iff.mp (Option.some.inj hcall)
      exact heff.wf
  | @remove st st' key ok _ hcall ih =>
    cases ht : st.target key with
    | none =>
      rw [KanvaRSState.remove, findModel_eq_none ht] at hcall
      cases hcall
    | some t =>
      obtain ⟨st₁, heff⟩ := remove_ok ih ht
      rw [heff.returns] at hcall
      obtain ⟨rfl, -⟩ := Prod.ext_iff.mp (Option.some.inj hcall)
      exact heff.wf

theorem wf_of_run (hdata : Sorted data)
    (htrain : KanvaRSIndex.new.train fit data fuel maxErr = some kv)
    (hlen : kv.aimodels.length < 2 ^ 31) (hrun : Updated fit ⟨kv, .new⟩ st) : st.Wf :=
  wf_of_updated (wf_of_train hdata htrain hlen) hrun

end Train

/-! ### `find` -/

/-- `find` reports the stored value: an answer that does not depend on the caller's variable, which
is the newest value unless that is a tombstone. -/
def FindFaithful (st : KanvaRSState K) (key : K) : Prop :=
  ∃ answer : Option Val, (∀ v, answer = some v ↔ st.HasNewest key v ∧ v ≠ -1) ∧
    ∀ val, ∃ val', st.find key val = some (answer.isSome, val') ∧ ∀ v, answer = some v → val' = v

theorem findFaithful_iff (h : st.Wf) :
    st.FindFaithful key ↔ ∃ t, st.target key = some t ∧ t.FindFits key := by
  cases ht : st.target key with
  | none =>
    refine iff_of_false ?_ (by simp)
    rintro ⟨answer, -, hfind⟩
    obtain ⟨val', hval', -⟩ := hfind 0
    rw [find_eq h, ht] at hval'
    cases hval'
  | some t =>
    -- both sides say the same of the target
    have hfind : ∀ val, st.find key val = some (t.answer key val) := fun val => by
      rw [find_eq h, ht, Option.map_some]
    have hnewest : ∀ v, st.HasNewest key v ↔ t.newest key = some v := fun v => by
      rw [h.hasNewest_iff, newest_eq ht]
    obtain ⟨m, hm, rfl⟩ := target_eq_some.mp ht
    simp only [Option.some.injEq, exists_eq_left']
    rw [← Target.reports_iff (ModelOrBin.target_wf (h.findModel hm))]
    refine exists_congr fun answer => ⟨fun hfaithful => ⟨?_, fun val => ?_, fun val v hv => ?_⟩,
      fun hreports => ⟨?_, fun val => ⟨_, ?_, hreports.value val⟩⟩⟩
    · simpa only [hnewest] using hfaithful.1
    · obtain ⟨val', hval', -⟩ := hfaithful.2 val
      rw [hfind] at hval'
      rw [Option.some.inj hval']
    · obtain ⟨val', hval', hvalue⟩ := hfaithful.2 val
      rw [hfind] at hval'
      rw [Option.some.inj hval']
      exact hvalue v hv
    · simpa only [hnewest] using hreports.newest
    · rw [hfind, ← hreports.status val]

/-! ### `remove` -/

/-- After a removal the key is not present, and the newest versions of the other keys are what they
were. -/
def RemoveEffective (st : KanvaRSState K) (key : K) : Prop :=
  ∃ st' ok, st.remove key = some (st', ok) ∧ ¬ st'.Present key ∧
    ∀ x, x ≠ key → ∀ v, st'.HasNewest x v ↔ st.HasNewest x v

theorem present_iff (h : st.Wf) : st.Present key ↔ Live (st.newest key) :=
  exists_congr fun v => by rw [h.hasNewest_iff]

theorem removeEffective_iff (h : st.Wf) :
    st.RemoveEffective key ↔ ∃ t, st.target key = some t ∧ t.RemoveTakesEffect key := by
  cases ht : st.target key with
  | none =>
    refine iff_of_false ?_ (by simp)
    rintro ⟨st', ok, hcall, -⟩
    rw [KanvaRSState.remove, findModel_eq_none ht] at hcall
    cases hcall
  | some t =>
    obtain ⟨st', heff⟩ := remove_ok h ht
    simp only [Option.some.injEq, exists_eq_left']
    rw [← Target.removed_absent_iff, ← heff.newest, ← present_iff heff.wf]
    constructor
    · rintro ⟨st₁, ok, hcall, habsent, -⟩
      rw [heff.returns] at hcall
      obtain ⟨rfl, -⟩ := Prod.ext_iff.mp (Option.some.inj hcall)
      exact habsent
    · intro habsent
      refine ⟨st', _, heff.returns, habsent, fun x hx v => ?_⟩
      rw [heff.wf.hasNewest_iff, h.hasNewest_iff, heff.frame x hx]

/-! ### Statuses -/

/-- `insert` returns ok exactly when the key was absent and now has the value, and changes nothing
when it fails. -/
def InsertFaithful (fit : List K → LinearRegressionModel K) (st : KanvaRSState K) (key : K)
    (val : Val) : Prop :=
  ∃ st' ok, st.insert fit key val = some (st', ok) ∧
    (ok = true ↔ ¬ st.Present key ∧ st'.HasNewest key val) ∧
    (ok = false → ∀ x v, st'.HasNewest x v ↔ st.HasNewest x v)

/-- `remove` returns ok exactly when the key was present and now is absent, and changes nothing when
it fails. -/
def RemoveFaithful (st : KanvaRSState K) (key : K) : Prop :=
  ∃ st' ok, st.remove key = some (st', ok) ∧
    (ok = true ↔ st.Present key ∧ ¬ st'.Present key) ∧
    (ok = false → ∀ x v, st'.HasNewest x v ↔ st.HasNewest x v)

/-- A call that changes one key at most leaves all as they were if it leaves that one. -/
theorem Effect.unchanged_iff {result : Option Val × Bool} {out : Option (KanvaRSState K × Bool)}
    (h : st.Wf) (heff : Effect key result st out st') :
    (∀ x v, st'.HasNewest x v ↔ st.HasNewest x v) ↔ result.1 = st.newest key := by
  simp only [heff.wf.hasNewest_iff, h.hasNewest_iff]
  rw [← heff.newest]
  constructor
  · exact fun hall => Option.ext fun v => hall key v
  · intro hkey x v
    by_cases hx : x = key
    · rw [hx, hkey]
    · rw [heff.frame x hx]

theorem insertFaithful_iff (h : st.Wf) (hval : val ≠ -1) :
    st.InsertFaithful fit key val ↔ ∃ t, st.target key = some t ∧ t.InsertFits key := by
  cases ht : st.target key with
  | none =>
    refine iff_of_false ?_ (by simp)
    rintro ⟨st', ok, hcall, -⟩
    rw [KanvaRSState.insert, findModel_eq_none ht] at hcall
    cases hcall
  | some t =>
    obtain ⟨st', heff⟩ := insert_ok fit val h ht
    simp only [Option.some.injEq, exists_eq_left']
    rw [← Target.inserted_faithful_iff hval]
    have hprop : ∀ ok, ((ok = true ↔ ¬ st.Present key ∧ st'.HasNewest key val) ∧
        (ok = false → ∀ x v, st'.HasNewest x v ↔ st.HasNewest x v)) ↔
        ((ok = true ↔ ¬ Live (t.newest key) ∧ (t.inserted key val).1 = some val) ∧
          (ok = false → (t.inserted key val).1 = t.newest key)) := by
      intro ok
      rw [present_iff h, newest_eq ht, heff.wf.hasNewest_iff, heff.newest, heff.unchanged_iff h,
        newest_eq ht]
    rw [← hprop]
    constructor
    · rintro ⟨st₁, ok, hcall, hfaithful⟩
      rw [heff.returns] at hcall
      obtain ⟨rfl, rfl⟩ := Prod.ext_iff.mp (Option.some.inj hcall)
      exact hfaithful
    · exact fun hfaithful => ⟨st', _, heff.returns, hfaithful⟩

theorem removeFaithful_iff (h : st.Wf) :
    st.RemoveFaithful key ↔ ∃ t, st.target key = some t ∧ t.RemoveFits key := by
  cases ht : st.target key with
  | none =>
    refine iff_of_false ?_ (by simp)
    rintro ⟨st', ok, hcall, -⟩
    rw [KanvaRSState.remove, findModel_eq_none ht] at hcall
    cases hcall
  | some t =>
    obtain ⟨st', heff⟩ := remove_ok h ht
    simp only [Option.some.injEq, exists_eq_left']
    rw [← Target.removed_faithful_iff]
    have hprop : ∀ ok, ((ok = true ↔ st.Present key ∧ ¬ st'.Present key) ∧
        (ok = false → ∀ x v, st'.HasNewest x v ↔ st.HasNewest x v)) ↔
        ((ok = true ↔ Live (t.newest key) ∧ ¬ Live (t.removed key).1) ∧
          (ok = false → (t.removed key).1 = t.newest key)) := by
      intro ok
      rw [present_iff h, newest_eq ht, present_iff heff.wf, heff.newest, heff.unchanged_iff h,
        newest_eq ht]
    rw [← hprop]
    constructor
    · rintro ⟨st₁, ok, hcall, hfaithful⟩
      rw [heff.returns] at hcall
      obtain ⟨rfl, rfl⟩ := Prod.ext_iff.mp (Option.some.inj hcall)
      exact hfaithful
    · exact fun hfaithful => ⟨st', _, heff.returns, hfaithful⟩

/-! ### The states a run reaches -/

section Runs

variable {data : List (K × Val)} {kv : KanvaRSIndex K} {fuel maxErr : ℕ}

/-- The insertions of these pairs, one after the other. -/
def insertAll (fit : List K → LinearRegressionModel K) (st : KanvaRSState K) :
    List (K × Val) → Option (KanvaRSState K)
  | [] => some st
  | p :: pairs => (st.insert fit p.1 p.2).bind fun q => q.1.insertAll fit pairs

theorem updated_insertAll {st₀ : KanvaRSState K} (hrun : Updated fit st₀ st)
    {pairs : List (K × Val)}
    (hvals : ∀ p ∈ pairs, p.2 ≠ -1) (hall : st.insertAll fit pairs = some st') :
    Updated fit st₀ st' := by
  induction pairs generalizing st with
  | nil => rwa [← Option.some.inj hall]
  | cons p pairs ih =>
    obtain ⟨q, hq, hrest⟩ := Option.bind_eq_some_iff.mp hall
    exact ih (.insert hrun (hvals p List.mem_cons_self) hq)
      (fun p hp => hvals p (List.mem_cons_of_mem _ hp)) hrest

end Runs

instance (st : KanvaRSState K) (key : K) (v : Val) : Decidable (st.HasNewest key v) :=
  inferInstanceAs (Decidable (∃ e ∈ st.entries, e.key = key ∧ e.getValue = v))

/-- A linear model that predicts 0 for every key. -/
def zeroFit (_ : List (Fin 64)) : LinearRegressionModel (Fin 64) := ⟨fun _ => 0, 0⟩

/-- The index with one trained key. -/
def trainedTen : Option (KanvaRSIndex (Fin 64)) := KanvaRSIndex.new.train zeroFit [(10, 1)] 3 64

/-- A check of the state that insertions into that index lead to. -/
def checkRun (pairs : List (Fin 64 × Val)) (check : KanvaRSState (Fin 64) → Bool) : Bool :=
  match trainedTen with
  | none => false
  | some kv =>
    match (⟨kv, .new⟩ : KanvaRSState (Fin 64)).insertAll zeroFit pairs with
    | none => false
    | some st => kv.aimodels.length < 2 ^ 31 ∧ (∀ p ∈ pairs, p.2 ≠ -1) ∧ check st = true

theorem checkRun_ok (pairs : List (Fin 64 × Val)) (check : KanvaRSState (Fin 64) → Bool)
    (hcheck : checkRun pairs check = true) :
    ∃ kv st, trainedTen = some kv ∧ kv.aimodels.length < 2 ^ 31 ∧ Updated zeroFit ⟨kv, .new⟩ st ∧
      check st = true := by
  rw [checkRun] at hcheck
  split at hcheck
  · cases hcheck
  next kv htrain =>
  split at hcheck
  · cases hcheck
  next st hst =>
  obtain ⟨hlen, hvals, hcheck⟩ := of_decide_eq_true hcheck
  exact ⟨kv, st, htrain, hlen, updated_insertAll .refl hvals hst, hcheck⟩

/-- Ten keys that go to the same list. -/
def tenPairs : List (Fin 64 × Val) :=
  [(20, 0), (21, 1), (22, 2), (23, 3), (24, 4), (25, 5), (26, 6), (27, 7), (28, 8), (29, 9)]

section Faithful

variable {data : List (K × Val)} {kv : KanvaRSIndex K} {fuel maxErr : ℕ}

/-- In every state that insertions and removals reach from training, `find` reports the stored value
of a key exactly when it does not meet the key in a list, be it at a node or at a sentinel. -/
theorem find_faithful_iff (hdata : Sorted data)
    (htrain : KanvaRSIndex.new.train fit data fuel maxErr = some kv)
    (hlen : kv.aimodels.length < 2 ^ 31) (hrun : Updated fit ⟨kv, .new⟩ st) (key : K) :
    st.FindFaithful key ↔ ∃ t, st.target key = some t ∧ t.FindFits key :=
  findFaithful_iff (wf_of_run hdata htrain hlen hrun)

theorem find_faithful_iff_ten : ∃ kv st, trainedTen = some kv ∧ Updated zeroFit ⟨kv, .new⟩ st ∧
    (st.FindFaithful 25 ↔ ∃ t, st.target 25 = some t ∧ t.FindFits 25) := by
  obtain ⟨kv, st, htrain, hlen, hrun, -⟩ := checkRun_ok tenPairs (fun _ => true) (by decide +kernel)
  exact ⟨kv, st, htrain, hrun,
    find_faithful_iff (List.pairwise_singleton _ _) htrain hlen hrun 25⟩

/-- `find` of a key in a list fails if the caller's variable does not have the value. -/
theorem find_not_reported : ∃ kv st, trainedTen = some kv ∧ Updated zeroFit ⟨kv, .new⟩ st ∧
    ¬ st.FindFaithful 20 := by
  obtain ⟨kv, st, htrain, -, hrun, hcheck⟩ := checkRun_ok [(20, 7)]
    (fun st => st.find 20 0 = some (false, 0) ∧ st.HasNewest 20 7) (by decide +kernel)
  obtain ⟨hfind, hnewest⟩ := of_decide_eq_true hcheck
  refine ⟨kv, st, htrain, hrun, ?_⟩
  rintro ⟨answer, hanswer, hall⟩
  have hseven : answer = some 7 := (hanswer 7).mpr ⟨hnewest, by decide⟩
  obtain ⟨val', hval', -⟩ := hall 0
  rw [hfind, hseven] at hval'
  simp at hval'

/-- In every such state a removal takes effect exactly when it does not end at a full list in which
the key is present. -/
theorem remove_effective_iff (hdata : Sorted data)
    (htrain : KanvaRSIndex.new.train fit data fuel maxErr = some kv)
    (hlen : kv.aimodels.length < 2 ^ 31) (hrun : Updated fit ⟨kv, .new⟩ st) (key : K) :
    st.RemoveEffective key ↔ ∃ t, st.target key = some t ∧ t.RemoveTakesEffect key :=
  removeEffective_iff (wf_of_run hdata htrain hlen hrun)

theorem remove_effective_iff_ten : ∃ kv st, trainedTen = some kv ∧ Updated zeroFit ⟨kv, .new⟩ st ∧
    (st.RemoveEffective 25 ↔ ∃ t, st.target 25 = some t ∧ t.RemoveTakesEffect 25) := by
  obtain ⟨kv, st, htrain, hlen, hrun, -⟩ := checkRun_ok tenPairs (fun _ => true) (by decide +kernel)
  exact ⟨kv, st, htrain, hrun,
    remove_effective_iff (List.pairwise_singleton _ _) htrain hlen hrun 25⟩

/-- A full list keeps the key that is to be removed. -/
theorem remove_not_effective : ∃ kv st, trainedTen = some kv ∧ Updated zeroFit ⟨kv, .new⟩ st ∧
    ¬ st.RemoveEffective 25 := by
  obtain ⟨kv, st, htrain, -, hrun, hcheck⟩ := checkRun_ok tenPairs
    (fun st => (st.remove 25).map (fun p => decide (p.1.HasNewest 25 5)) = some true)
    (by decide +kernel)
  refine ⟨kv, st, htrain, hrun, ?_⟩
  rintro ⟨st', ok, hcall, habsent, -⟩
  rw [hcall] at hcheck
  have hnewest : decide (st'.HasNewest 25 5) = true := by simpa using hcheck
  exact habsent ⟨5, by decide, of_decide_eq_true hnewest⟩

/-- In every such state the statuses of an insertion and of a removal are faithful exactly when the
target of the key fits. -/
theorem status_faithful_iff (hdata : Sorted data)
    (htrain : KanvaRSIndex.new.train fit data fuel maxErr = some kv)
    (hlen : kv.aimodels.length < 2 ^ 31) (hrun : Updated fit ⟨kv, .new⟩ st) (key : K)
    (hval : val ≠ -1) :
    (st.InsertFaithful fit key val ↔ ∃ t, st.target key = some t ∧ t.InsertFits key) ∧
      (st.RemoveFaithful key ↔ ∃ t, st.target key = some t ∧ t.RemoveFits key) :=
  ⟨insertFaithful_iff (wf_of_run hdata htrain hlen hrun) hval,
    removeFaithful_iff (wf_of_run hdata htrain hlen hrun)⟩

theorem status_faithful_iff_ten : ∃ kv st, trainedTen = some kv ∧ Updated zeroFit ⟨kv, .new⟩ st ∧
    (st.InsertFaithful zeroFit 25 50 ↔ ∃ t, st.target 25 = some t ∧ t.InsertFits 25) ∧
      (st.RemoveFaithful 25 ↔ ∃ t, st.target 25 = some t ∧ t.RemoveFits 25) := by
  obtain ⟨kv, st, htrain, hlen, hrun, -⟩ := checkRun_ok tenPairs (fun _ => true) (by decide +kernel)
  exact ⟨kv, st, htrain, hrun,
    status_faithful_iff (List.pairwise_singleton _ _) htrain hlen hrun 25 (by decide)⟩

/-- The removal of a trained key takes effect but fails, and the second insertion of a key into a
list succeeds and overwrites the value. -/
theorem status_not_faithful : ∃ kv st, trainedTen = some kv ∧ Updated zeroFit ⟨kv, .new⟩ st ∧
    ¬ st.RemoveFaithful 10 ∧ ¬ st.InsertFaithful zeroFit 20 8 := by
  obtain ⟨kv, st, htrain, -, hrun, hcheck⟩ := checkRun_ok [(20, 7)]
    (fun st =>
      (st.HasNewest 10 1 ∧ st.HasNewest 20 7) ∧
        (st.remove 10).map (fun p => (p.2, decide (p.1.HasNewest 10 1))) = some (false, false) ∧
        (st.insert zeroFit 20 8).map Prod.snd = some true) (by decide +kernel)
  obtain ⟨⟨hten, htwenty⟩, hremove, hinsert⟩ := of_decide_eq_true hcheck
  refine ⟨kv, st, htrain, hrun, ?_, ?_⟩
  · rintro ⟨st', ok, hcall, -, hfailed⟩
    rw [hcall] at hremove
    obtain ⟨hok, hgone⟩ := Prod.ext_iff.mp (Option.some.inj hremove)
    exact of_decide_eq_false hgone ((hfailed hok 10 1).mpr hten)
  · rintro ⟨st', ok, hcall, hok, -⟩
    rw [hcall] at hinsert
    exact (hok.mp (Option.some.inj hinsert)).1 ⟨7, by decide, htwenty⟩

end Faithful

end KanvaRSState

end KanvaRS
