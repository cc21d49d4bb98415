import Kanva.RS.Model.Gather
import Kanva.RS.Model.Training
import Kanva.SortedAssoc

/-!
# Range queries over trained data

A range query stamps an unstamped version with the latest timestamp, which is the one the query has
just taken for itself, and then reads what is older than that timestamp. So a key that no earlier
query has stamped is not seen.

## Main results

* `KanvaRSState.rangequery_iff`: when a range query over trained data answers as if all keys were
  stamped.
-/

namespace KanvaRS

open Kanva SortedArray SortedAssoc

variable {K : Type}

namespace VersionedKey

/-- The newest version has been stamped before `ts`. -/
def Stamped (e : VersionedKey K) (ts : ℤ) : Prop := ∃ v ∈ e.vhead.head?, v.ts ≠ -1 ∧ v.ts < ts

instance (e : VersionedKey K) (ts : ℤ) : Decidable (e.Stamped ts) :=
  inferInstanceAs (Decidable (∃ v ∈ e.vhead.head?, v.ts ≠ -1 ∧ v.ts < ts))

/-- There is one version, and it is not a tombstone. -/
def Single (e : VersionedKey K) : Prop := ∃ v, e.vhead = [v] ∧ v.value ≠ -1

variable {e : VersionedKey K}

theorem Single.new (key : K) {value : Val} (h : value ≠ -1) : (new key value).Single :=
  ⟨_, rfl, h⟩

theorem Single.getValue_ne (h : e.Single) : e.getValue ≠ -1 := by
  obtain ⟨v, hv, hne⟩ := h
  rwa [getValue, hv]

theorem Single.initTs (h : e.Single) (globalTs : ℤ) : (e.initTs globalTs).Single := by
  obtain ⟨v, hv, hne⟩ := h
  rw [VersionedKey.initTs, hv]
  refine ⟨_, rfl, ?_⟩
  split <;> exact hne

theorem initTs_pair (e : VersionedKey K) (globalTs : ℤ) : (e.initTs globalTs).pair = e.pair := by
  refine Prod.ext (initTs_key e globalTs) ?_
  rw [pair, pair, getValue, getValue, initTs]
  split
  · next h => simp only [h]
  · simp only [*]
    split <;> rfl

/-- A query that stamps a version with a timestamp not below its own sees the version only if it had
been stamped before. -/
theorem Single.versionedValue_initTs (h : e.Single) {globalTs ts : ℤ} (hts : ts ≤ globalTs) :
    (e.initTs globalTs).versionedValue ts = if e.Stamped ts then e.getValue else -1 := by
  obtain ⟨⟨value, t⟩, hv, -⟩ := h
  have hstamped : e.Stamped ts ↔ t ≠ -1 ∧ t < ts := by
    simp [Stamped, hv]
  simp only [hstamped, versionedValue, VersionedKey.initTs, getValue, hv]
  by_cases hun : t = -1
  · simp [hun, hts]
  · by_cases hlt : t < ts
    · simp [hun, hlt]
    · simp [hun, hlt, not_lt.mp hlt]

end VersionedKey

/-- The entries from `key` on. -/
def wanted [LinearOrder K] (key : K) (es : List (VersionedKey K)) : List (VersionedKey K) :=
  es.filter fun e => key ≤ e.key

/-- The entries a query at `ts` from `key` on sees. -/
def visible [LinearOrder K] (key : K) (ts : ℤ) (es : List (VersionedKey K)) :
    List (VersionedKey K) :=
  (wanted key es).filter fun e => e.Stamped ts

/-- The model has these pairs, each with one version, and no slot in use. -/
structure RSModelOver.Plain (m : KanvaRSModel K) (pairs : List (K × Val)) : Prop where
  pairs : m.modelArray.map VersionedKey.pair = pairs
  single : ∀ e ∈ m.modelArray, e.Single
  null : ∀ i, m.mobsLf i = .null

theorem RSModelOver.Plain.capacity {m : KanvaRSModel K} {pairs : List (K × Val)}
    (h : m.Plain pairs) : m.capacity = pairs.length := by
  rw [RSModelOver.capacity, ← h.pairs, List.length_map]

/-! ### One model -/

variable [LinearOrder K] {key : K} {globalTs ts : ℤ} {pairs : List (K × Val)}

theorem visible_cons (e : VersionedKey K) (es : List (VersionedKey K)) :
    visible key ts (e :: es) = visible key ts [e] ++ visible key ts es := by
  simp only [visible, wanted, ← List.filter_append, List.singleton_append]

theorem visible_append (es es' : List (VersionedKey K)) :
    visible key ts (es ++ es') = visible key ts es ++ visible key ts es' := by
  simp only [visible, wanted, List.filter_append]

/-- What a walk over a plain model does: it appends `out`, and the model stays plain. -/
structure Walked (pairs : List (K × Val)) (st st' : ScanState K (ModelOrBin K))
    (out : List (VersionedKey K)) : Prop where
  result : st'.result = st.result ++ out.map VersionedKey.pair
  remaining : st'.remaining = st.remaining - out.length
  plain : st'.model.Plain pairs

namespace Walked

variable {st st₁ st₂ : ScanState K (ModelOrBin K)} {out₁ out₂ : List (VersionedKey K)}

omit [LinearOrder K] in
theorem refl (h : st.model.Plain pairs) : Walked pairs st st [] :=
  ⟨(List.append_nil _).symm, rfl, h⟩

omit [LinearOrder K] in
theorem trans (h₁ : Walked pairs st st₁ out₁) (h₂ : Walked pairs st₁ st₂ out₂) :
    Walked pairs st st₂ (out₁ ++ out₂) := by
  refine ⟨?_, ?_, h₂.plain⟩
  · rw [h₂.result, h₁.result, List.append_assoc, List.map_append]
  · rw [h₂.remaining, h₁.remaining, List.length_append, Nat.sub_sub]

end Walked

/-- The visit of an entry appends its pair if it is visible. -/
theorem visitEntry_ok {st : ScanState K (ModelOrBin K)} {pos : ℕ} {e : VersionedKey K}
    (hplain : st.model.Plain pairs) (hts : ts ≤ globalTs)
    (he : st.model.modelArray[pos]? = some e) :
    Walked pairs st (st.visitEntry key globalTs ts pos) (visible key ts [e]) ∧
      (st.visitEntry key globalTs ts pos).model.modelArray.drop (pos + 1) =
        st.model.modelArray.drop (pos + 1) := by
  have hsingle := hplain.single e (List.mem_of_getElem? he)
  obtain ⟨hpos, hget⟩ := List.getElem?_eq_some_iff.mp he
  rw [ScanState.visitEntry, he]
  simp only
  by_cases hkey : key ≤ e.key
  · -- the visit stamps the entry, which stays where it is and keeps its pair
    have hset : RSModelOver.Plain
        { st.model with modelArray := st.model.modelArray.set pos (e.initTs globalTs) } pairs := by
      refine ⟨?_, ?_, hplain.null⟩
      · rw [List.map_set, VersionedKey.initTs_pair, ← List.map_set, ← hget, List.set_getElem_self,
          hplain.pairs]
      · intro e' he'
        rcases List.mem_or_eq_of_mem_set he' with h | rfl
        · exact hplain.single e' h
        · exact hsingle.initTs globalTs
    have hdrop : (st.model.modelArray.set pos (e.initTs globalTs)).drop (pos + 1) =
        st.model.modelArray.drop (pos + 1) := List.drop_set_of_lt (Nat.lt_succ_self pos)
    rw [if_pos hkey, hsingle.versionedValue_initTs hts]
    -- an entry that had no timestamp gets one that is too late for this query
    by_cases hst : e.Stamped ts
    · rw [if_pos hst, if_pos hsingle.getValue_ne]
      have hvis : visible key ts [e] = [e] := by simp [visible, wanted, hkey, hst]
      rw [hvis, VersionedKey.initTs_key]
      exact ⟨⟨rfl, rfl, hset⟩, hdrop⟩
    · rw [if_neg hst, if_neg (by simp)]
      have hvis : visible key ts [e] = [] := by
        simp [visible, wanted, List.filter_cons, apply_ite, hst]
      rw [hvis]
      exact ⟨⟨(List.append_nil _).symm, rfl, hset⟩, hdrop⟩
  · -- the entry is in front of the start key
    rw [if_neg hkey]
    have hvis : visible key ts [e] = [] := by simp [visible, wanted, hkey]
    rw [hvis]
    exact ⟨.refl hplain, rfl⟩

/-- The walk from a position on appends what is visible there, up to the number of keys wanted. -/
theorem scanLoop_ok (key : K) {scanSlot : ℕ → List (K × Val) → ℕ →
    ModelOrBin K × List (K × Val) × ℕ}
    (hslot : ∀ i result n, scanSlot i result n = (.null, result, n)) (hts : ts ≤ globalTs)
    (rounds : ℕ) (pos : ℕ) (st : ScanState K (ModelOrBin K)) (hplain : st.model.Plain pairs)
    (hrounds : st.model.capacity < pos + rounds) :
    Walked pairs st (scanLoop key globalTs ts scanSlot rounds pos st)
      ((visible key ts (st.model.modelArray.drop pos)).take st.remaining) := by
  -- the visit leaves the entries behind it as they are, and the slots are empty
  induction rounds generalizing pos st with
  | zero =>
    have hnil : st.model.modelArray.drop pos = [] :=
      List.drop_eq_nil_of_le (by rw [RSModelOver.capacity] at hrounds; omega)
    rw [hnil, show visible key ts [] = [] from rfl, List.take_nil]
    exact .refl hplain
  | succ rounds ih =>
    rw [scanLoop]
    split
    · next hzero =>
      rw [hzero, List.take_zero]
      exact .refl hplain
    next hpos =>
    simp only
    rcases he : st.model.modelArray[pos]? with _ | e
    · -- the position after the last entry
      have hcap : st.model.capacity ≤ pos := List.getElem?_eq_none_iff.mp he
      have hvisit : st.visitEntry key globalTs ts pos = st := by rw [ScanState.visitEntry, he]
      rw [hvisit, if_neg hpos, if_pos (by omega), List.drop_eq_nil_of_le hcap,
        show visible key ts [] = [] from rfl, List.take_nil]
      exact .refl hplain
    · obtain ⟨hlt, hget⟩ := List.getElem?_eq_some_iff.mp he
      obtain ⟨hwalk, hdrop⟩ := visitEntry_ok hplain hts he
      rw [List.drop_eq_getElem_cons hlt, hget, visible_cons]
      generalize st.visitEntry key globalTs ts pos = st₁ at hwalk hdrop ⊢
      -- an entry shows one pair at most
      have hone : (visible key ts [e]).length ≤ 1 := by
        exact (List.length_filter_le _ _).trans (List.length_filter_le _ [e])
      have hrem := hwalk.remaining
      split
      · next hzero =>
        rw [List.take_append_of_le_length (by omega), List.take_of_length_le (by omega)]
        exact hwalk
      · have hcap : pos < st.model.capacity := hlt
        rw [hplain.capacity] at hcap hrounds
        have hcap₁ := hwalk.plain.capacity
        have hslot₁ : st₁.visitSlot scanSlot (pos + 1) = st₁ := by
          rw [ScanState.visitSlot, hslot]
          simp only
          rw [← hwalk.plain.null (pos + 1), Function.update_eq_self]
        rw [if_neg (by omega), hslot₁, List.take_append, List.take_of_length_le (by omega)]
        have hrest := ih (pos + 1) st₁ hwalk.plain (by omega)
        rw [hdrop, hrem] at hrest
        exact hwalk.trans hrest

variable [Zero K]

theorem RSModelOver.Plain.strictKeys {m : KanvaRSModel K} (h : m.Plain pairs)
    (hsorted : Sorted pairs) : m.StrictKeys := by
  have hkeys : m.modelArray.map VersionedKey.key = pairs.map Prod.fst := by
    rw [← h.pairs, List.map_map]
    rfl
  intro i j hij hj
  rw [h.capacity] at hj
  rw [RSModelOver.keys, RSModelOver.keys, hkeys, getD_map_of_lt _ (by omega), getD_map_of_lt _ hj]
  exact List.pairwise_iff_getElem.mp hsorted i j (by omega) hj hij

/-- `scan` of a plain model appends what is visible, up to the number of keys wanted. -/
theorem scan_ok {m : KanvaRSModel K} (h : m.Plain pairs)
    (hsorted : Sorted pairs) (hne : pairs ≠ []) (hlen : pairs.length < 2 ^ 31)
    (hts : ts ≤ globalTs) (n : ℕ) (result : List (K × Val)) :
    ∃ m', m'.Plain pairs ∧ m.scan key globalTs ts n result =
      (m', result ++ ((visible key ts m.modelArray).take n).map VersionedKey.pair,
        toInt32 (n - ((visible key ts m.modelArray).take n).length : ℕ)) := by
  have hpos : 0 < m.capacity := by
    rw [h.capacity]
    exact List.length_pos_iff.mpr hne
  obtain ⟨hloc, hbefore⟩ := RSModelOver.keys_lt_of_lt_locate (h.strictKeys hsorted) hpos
    (by rwa [h.capacity]) key
  rw [KanvaRSModel.scan, RSModelOver.walk]
  generalize m.locate key = p at hloc hbefore ⊢
  -- nothing before the start is wanted
  have hdrop : visible key ts (m.modelArray.drop p) = visible key ts m.modelArray := by
    have hnil : visible key ts (m.modelArray.take p) = [] := by
      have hwanted : wanted key (m.modelArray.take p) = [] := by
        refine List.filter_eq_nil_iff.mpr fun e he hle => ?_
        obtain ⟨i, hi, rfl⟩ := List.mem_take_iff_getElem.mp he
        have hlt := hbefore i (by omega)
        rw [RSModelOver.keys, getD_map_of_lt _ (by omega)] at hlt
        exact absurd (of_decide_eq_true hle) (not_le.mpr hlt)
      rw [visible, hwanted, List.filter_nil]
    conv_rhs => rw [← List.take_append_drop p m.modelArray, visible_append, hnil,
      List.nil_append]
  have hslot : ∀ i result n,
      (m.mobsLf i).scan key globalTs ts result n = (ModelOrBin.null, result, n) := by
    intro i result n
    rw [h.null, ModelOrBin.scan]
  have hwalk := scanLoop_ok key hslot hts (m.capacity + 1 - p) p ⟨m, result, n⟩ h
    (show m.capacity < _ by omega)
  refine ⟨_, hwalk.plain, ?_⟩
  rw [hwalk.result, hwalk.remaining, hdrop]

/-! ### All models -/

/-- The models have these segments. -/
abbrev PlainModels (ms : List (KanvaRSModel K)) (segs : List (List (K × Val))) : Prop :=
  List.Forall₂ RSModelOver.Plain ms segs

/-- The loop over the models gathers what is visible in each. -/
theorem scanModels_ok (key : K) {ms : List (KanvaRSModel K)} {segs : List (List (K × Val))}
    (h : PlainModels ms segs)
    (hsegs : ∀ seg ∈ segs, Sorted seg ∧ seg ≠ [] ∧ seg.length < 2 ^ 31)
    (hts : ts ≤ globalTs) (n : ℕ) (result : List (K × Val)) :
    ∃ ms', PlainModels ms' segs ∧ scanModels key globalTs ts ms n result =
      (ms', result ++ (gather (ms.map fun m => visible key ts m.modelArray) n).1.map
        VersionedKey.pair, (gather (ms.map fun m => visible key ts m.modelArray) n).2) := by
  induction h generalizing n result with
  | nil =>
    refine ⟨[], .nil, ?_⟩
    rw [scanModels, List.map_nil, gather, List.map_nil, List.append_nil]
  | @cons m seg ms segs hm hms ih =>
    obtain ⟨hsorted, hne, hlen⟩ := hsegs seg List.mem_cons_self
    rw [scanModels, List.map_cons, gather]
    by_cases hpos : 0 < n
    · obtain ⟨m', hm', hscan⟩ := scan_ok hm hsorted hne hlen hts n result
      obtain ⟨ms', hms', hrest⟩ := ih (fun seg hseg => hsegs seg (List.mem_cons_of_mem _ hseg))
        (toSize (toInt32 (n - ((visible key ts m.modelArray).take n).length : ℕ)))
        (result ++ ((visible key ts m.modelArray).take n).map VersionedKey.pair)
      refine ⟨m' :: ms', .cons hm' hms', ?_⟩
      rw [if_pos hpos, if_pos hpos, hscan]
      simp only [hrest]
      rw [List.map_append, List.append_assoc]
    · refine ⟨m :: ms, .cons hm hms, ?_⟩
      rw [if_neg hpos, if_neg hpos, List.map_nil, List.append_nil]

omit [Zero K] in
/-- The training data from `key` on. -/
def trainedFrom (data : List (K × Val)) (key : K) : List (K × Val) :=
  data.filter fun p => key ≤ p.1

/-- How many entries from `key` on the first model has that a query from `key` scans. -/
def KanvaRSIndex.firstWanted (kv : KanvaRSIndex K) (key : K) : ℕ :=
  ((kv.aimodels[kv.modelPos key]?).map fun m => (wanted key m.modelArray).length).getD 0

namespace KanvaRSState

variable {data : List (K × Val)} {st : KanvaRSState K}

/-- The state has the training data, whatever the stamps. -/
structure Trained (data : List (K × Val)) (segs : List (List (K × Val))) (st : KanvaRSState K) :
    Prop where
  plain : PlainModels st.index.aimodels segs
  modelKeys : st.index.modelKeys = segs.map fun seg => (seg.map Prod.fst).getD (seg.length - 1) 0
  flatten : segs.flatten = data
  nonempty : ∀ seg ∈ segs, seg ≠ []
  length_le : ∀ seg ∈ segs, seg.length ≤ 1000
  clock : 0 ≤ st.versionTracker.tail.ts

variable {segs : List (List (K × Val))} {st₀ : KanvaRSState K}

theorem Trained.segs_ok (h : st.Trained data segs) (hdata : Sorted data) :
    ∀ seg ∈ segs, Sorted seg ∧ seg ≠ [] ∧ seg.length < 2 ^ 31 := by
  intro seg hseg
  rw [← h.flatten] at hdata
  have hlen := h.length_le seg hseg
  exact ⟨(List.pairwise_flatten.mp hdata).1 seg hseg, h.nonempty seg hseg, by omega⟩

omit [LinearOrder K] in
/-- `train` leaves the training data unstamped. -/
theorem trained_of_train {fit : List K → LinearRegressionModel K} {fuel maxErr : ℕ}
    {kv : KanvaRSIndex K} (hvals : ∀ p ∈ data, p.2 ≠ -1)
    (htrain : KanvaRSIndex.new.train fit data fuel maxErr = some kv) :
    ∃ segs, Trained data segs ⟨kv, .new⟩ := by
  obtain ⟨segs, hsegs, hflat⟩ := KanvaRSIndex.train_segments htrain
  refine ⟨segs, ?_, hsegs.modelKeys, hflat, hsegs.nonempty, hsegs.length_le, le_rfl⟩
  rw [hsegs.aimodels, PlainModels, List.forall₂_map_left_iff, List.forall₂_same]
  intro seg hseg
  refine ⟨?_, ?_, fun i => rfl⟩
  · rw [KanvaRSModel.new, List.map_map]
    exact List.map_id _
  · intro e he
    obtain ⟨p, hp, rfl⟩ := List.mem_map.mp he
    refine VersionedKey.Single.new p.1 (hvals p ?_)
    rw [← hflat]
    exact List.mem_flatten_of_mem hseg hp

/-- What a range query does over training data. -/
theorem rangequery_ok (h : st.Trained data segs) (hdata : Sorted data)
    (s : K) (n : ℕ) (result : List (K × Val)) :
    let ts := toInt32 (st.versionTracker.tail.ts + 1)
    let seen := gather ((st.index.aimodels.drop (st.index.modelPos s)).map
      fun m => visible s ts m.modelArray) n
    (st.rangequery s n result).1.Trained data segs ∧
      (st.rangequery s n result).2 = (result ++ seen.1.map VersionedKey.pair, toInt32 seen.2) := by
  intro ts seen
  have hclock := h.clock
  -- as an `int` the timestamp of the query may only become smaller
  have hts : ts ≤ st.versionTracker.tail.ts + 1 := by
    obtain ⟨T, hT⟩ : ∃ T : ℕ, st.versionTracker.tail.ts + 1 = T :=
      ⟨(st.versionTracker.tail.ts + 1).toNat, by omega⟩
    rw [show ts = toInt32 (st.versionTracker.tail.ts + 1) from rfl, hT]
    exact toInt32_le T
  have hplain : PlainModels (st.index.aimodels.drop (st.index.modelPos s))
      (segs.drop (st.index.modelPos s)) := List.forall₂_drop _ h.plain
  obtain ⟨ms', hms', hscan⟩ := scanModels_ok s hplain
    (fun seg hseg => h.segs_ok hdata seg (List.mem_of_mem_drop hseg)) hts n result
  have hquery : st.rangequery s n result =
      (⟨{ st.index with aimodels := st.index.aimodels.take (st.index.modelPos s) ++ ms' },
        st.versionTracker.addTimestamp.finishTail⟩, result ++ seen.1.map VersionedKey.pair,
        toInt32 seen.2) := by
    simp only [rangequery, SeqTracker.addTimestamp, SeqTracker.getLatestTimestamp]
    rw [hscan]
  rw [hquery]
  refine ⟨⟨?_, h.modelKeys, h.flatten, h.nonempty, h.length_le, ?_⟩, rfl⟩
  · have happ : PlainModels (st.index.aimodels.take (st.index.modelPos s) ++ ms')
        (segs.take (st.index.modelPos s) ++ segs.drop (st.index.modelPos s)) :=
      List.rel_append (List.forall₂_take (st.index.modelPos s) h.plain) hms'
    rwa [List.take_append_drop] at happ
  · show 0 ≤ st.versionTracker.tail.ts + 1
    omega

/-- All states that range queries lead to have the training data. -/
theorem Trained.queried (h : st₀.Trained data segs) (hdata : Sorted data)
    (hrun : Queried st₀ st) : st.Trained data segs := by
  induction hrun with
  | refl => exact h
  | query key n result _ ih => exact (rangequery_ok ih hdata key n result).1

/-- No model in front of the one a query starts with has a key it wants. -/
theorem Trained.wanted_take (h : st.Trained data segs) (hdata : Sorted data) (s : K) :
    wanted s ((st.index.aimodels.take (st.index.modelPos s)).flatMap RSModelOver.modelArray) =
      [] := by
  rw [← h.flatten] at hdata
  obtain ⟨hsorted, -⟩ := List.pairwise_flatten.mp hdata
  -- the search looks at the models an `int` can count
  have hlast : ∀ i < st.index.modelPos s, st.index.modelKeys.getD i 0 < s := by
    intro i hi
    obtain hneg | ⟨size, hsize, hle⟩ : toInt32 st.index.modelKeys.length ≤ 0 ∨
        ∃ size : ℕ, toInt32 st.index.modelKeys.length = size ∧ size ≤ segs.length := by
      have hle := toInt32_le st.index.modelKeys.length
      rw [h.modelKeys, List.length_map] at hle ⊢
      exact or_iff_not_imp_left.mpr fun hpos =>
        ⟨(toInt32 segs.length).toNat, by omega, by omega⟩
    · rw [KanvaRSIndex.modelPos, binarySearchBranchless, if_pos hneg] at hi
      simp only [Int.toNat_zero] at hi
      split at hi <;> omega
    · have hmono : ∀ i j, i ≤ j → j < size →
          st.index.modelKeys.getD i 0 ≤ st.index.modelKeys.getD j 0 := by
        intro i j hij hj
        rw [h.modelKeys]
        exact lastKeys_mono h.nonempty hdata i j hij (by omega)
      rw [KanvaRSIndex.modelPos, hsize, binarySearchBranchless_eq hmono, Int.toNat_natCast] at hi
      have hlow : i < lowerBound (fun i => st.index.modelKeys.getD i 0) s size := by
        split at hi <;> omega
      exact lt_of_lt_lowerBound hlow
  refine List.filter_eq_nil_iff.mpr fun e he hle => ?_
  obtain ⟨m, hm, he⟩ := List.mem_flatMap.mp he
  obtain ⟨i, hi, rfl⟩ := List.mem_take_iff_getElem.mp hm
  have hlen := h.plain.length_eq
  have hseg : (st.index.aimodels[i]).Plain segs[i] := List.forall₂_iff_get.mp h.plain |>.2 i _ _
  have hpair : e.pair ∈ segs[i] := by
    rw [← hseg.pairs]
    exact List.mem_map_of_mem he
  have hkey := (lastKey_spec (hsorted _ (List.getElem_mem _))
    (h.nonempty _ (List.getElem_mem _))).2 _ hpair
  have hlt := hlast i (by omega)
  rw [h.modelKeys, getD_map_of_lt _ (by omega)] at hlt
  exact absurd (of_decide_eq_true hle) (not_le.mpr (hkey.trans_lt hlt))

omit [LinearOrder K] in
/-- The entries are those of the training data. -/
theorem Trained.entries_pair (h : st.Trained data segs) :
    st.index.entries.map VersionedKey.pair = data := by
  rw [← h.flatten, KanvaRSIndex.entries]
  have hplain := h.plain
  generalize st.index.aimodels = ms at hplain ⊢
  clear h
  induction hplain with
  | nil => rfl
  | cons hm _ ih => rw [List.flatMap_cons, List.map_append, hm.pairs, ih, List.flatten_cons]

theorem Trained.wanted_pair (h : st.Trained data segs) (s : K) :
    (wanted s st.index.entries).map VersionedKey.pair = trainedFrom data s := by
  rw [trainedFrom, ← h.entries_pair, List.filter_map]
  rfl

/-- The models from the one a query starts with offer all the entries it wants. -/
theorem Trained.wanted_drop (h : st.Trained data segs) (hdata : Sorted data) (s : K) :
    ((st.index.aimodels.drop (st.index.modelPos s)).map
      fun m => wanted s m.modelArray).flatten = wanted s st.index.entries := by
  have hsplit : st.index.entries =
      (st.index.aimodels.take (st.index.modelPos s)).flatMap RSModelOver.modelArray ++
        (st.index.aimodels.drop (st.index.modelPos s)).flatMap RSModelOver.modelArray := by
    rw [← List.flatMap_append, List.take_append_drop, KanvaRSIndex.entries]
  have hnil := h.wanted_take hdata s
  rw [wanted] at hnil
  rw [hsplit, wanted, List.filter_append, hnil, List.nil_append, List.filter_flatMap,
    List.flatMap_def]
  rfl

/-- The models offer less than an `int` can count. -/
theorem Trained.wanted_length (h : st.Trained data segs) (s : K) :
    ∀ es ∈ (st.index.aimodels.drop (st.index.modelPos s)).map fun m => wanted s m.modelArray,
      es.length < 2 ^ 31 := by
  intro es hes
  obtain ⟨m, hm, rfl⟩ := List.mem_map.mp hes
  obtain ⟨i, hi, rfl⟩ := List.mem_iff_getElem.mp (List.mem_of_mem_drop hm)
  have hlen := h.plain.length_eq
  have hseg : (st.index.aimodels[i]).Plain segs[i] := List.forall₂_iff_get.mp h.plain |>.2 i _ _
  have hcap := hseg.capacity
  have hsize := h.length_le _ (List.getElem_mem (show i < segs.length by omega))
  have hfilter : (wanted s (st.index.aimodels[i]).modelArray).length ≤
      (st.index.aimodels[i]).capacity := List.length_filter_le _ _
  omega

omit [Zero K] in
/-- Whatever a query returns has been stamped before it. -/
theorem stamped_of_pairs {entries out : List (VersionedKey K)} {s : K} {ts : ℤ} {n : ℕ}
    (hkeys : Sorted (entries.map VersionedKey.pair))
    (hout : out.Sublist (visible s ts entries))
    (heq : out.map VersionedKey.pair = ((wanted s entries).take n).map VersionedKey.pair) :
    ∀ e ∈ (wanted s entries).take n, e.Stamped ts := by
  intro e he
  have hmem : e.pair ∈ out.map VersionedKey.pair := by
    rw [heq]
    exact List.mem_map_of_mem he
  obtain ⟨e', he', hpair⟩ := List.mem_map.mp hmem
  obtain ⟨hwanted, hst⟩ := List.mem_filter.mp (hout.subset he')
  -- the keys are distinct
  have hnodup : (entries.map VersionedKey.pair).Nodup := hkeys.imp fun hlt heq =>
    hlt.ne (congrArg Prod.fst heq)
  have hsame : e' = e := List.inj_on_of_nodup_map hnodup (List.mem_of_mem_filter hwanted)
    (List.mem_of_mem_filter (List.mem_of_mem_take he)) hpair
  exact hsame ▸ of_decide_eq_true hst

theorem Trained.answer_iff (h : st.Trained data segs) (hdata : Sorted data) (s : K) (n : ℕ)
    (result : List (K × Val)) :
    (st.rangequery s n result).2 = (result ++ (trainedFrom data s).take n,
        ((n - min n (trainedFrom data s).length : ℕ) : ℤ)) ↔
      (∀ e ∈ (wanted s st.index.entries).take n,
        e.Stamped (toInt32 (st.versionTracker.tail.ts + 1))) ∧
      n - min n (trainedFrom data s).length < 2 ^ 31 ∧ n < 2 ^ 32 + st.index.firstWanted s := by
  rw [(rangequery_ok h hdata s n result).2]
  -- all wanted keys are in the model of the start key and the models behind it
  have hflat := h.wanted_drop hdata s
  have hsize := h.wanted_length s
  have hfirst : st.index.firstWanted s =
      ((((st.index.aimodels.drop (st.index.modelPos s)).map
        fun m => wanted s m.modelArray).head?).map List.length).getD 0 := by
    rw [KanvaRSIndex.firstWanted, List.head?_map, List.head?_drop, Option.map_map]
    rfl
  rw [hfirst, ← h.wanted_pair s, List.length_map, ← List.map_take]
  generalize toInt32 (st.versionTracker.tail.ts + 1) = ts
  have hvis : ((st.index.aimodels.drop (st.index.modelPos s)).map
      fun m => visible s ts m.modelArray) =
      ((st.index.aimodels.drop (st.index.modelPos s)).map fun m => wanted s m.modelArray).map
        fun es => es.filter fun e => e.Stamped ts := by
    rw [List.map_map]
    rfl
  rw [hvis]
  generalize (st.index.aimodels.drop (st.index.modelPos s)).map
    (fun m => wanted s m.modelArray) = offers at hflat hsize ⊢
  constructor
  · -- with the right answer all wanted keys have been seen, and the count has not wrapped
    intro heq
    obtain ⟨hout, hret⟩ := Prod.ext_iff.mp heq
    have hout := List.append_cancel_left hout
    have hsub := gather_sublist (offers.map fun es => es.filter fun e => e.Stamped ts) n
    rw [← List.filter_flatten, hflat] at hsub
    have hint := toInt32_lt (gather (offers.map fun es => es.filter fun e => e.Stamped ts) n).2
    have hsmall : n - min n (wanted s st.index.entries).length < 2 ^ 31 := by
      simp only at hret
      omega
    refine ⟨stamped_of_pairs (by rwa [h.entries_pair]) hsub hout, hsmall, ?_⟩
    -- with a larger count the loop ends before it has enough
    by_contra hlarge
    have hlength := congrArg List.length hout
    rw [List.length_map, List.length_map, List.length_take] at hlength
    have hearly := gather_early (p := fun e => e.Stamped ts) offers hsize (not_lt.mp hlarge)
    omega
  · rintro ⟨hst, hsmall, hlarge⟩
    rw [gather_exact offers (Tracks.refl n) hsize (by rwa [hflat]) (by rwa [hflat]) hlarge, hflat,
      toInt32_of_lt hsmall]

/-- After training and any number of range queries, a range query appends the first `n` trained
pairs from its start key on and returns what is missing exactly when each of these keys has been
stamped by an earlier query, with a smaller timestamp, and the counts fit: what is missing is an
`int`, and the count is below `2 ^ 32` once the first model has been scanned. -/
theorem rangequery_iff {fit : List K → LinearRegressionModel K} {fuel maxErr : ℕ}
    {kv : KanvaRSIndex K} (hdata : Sorted data) (hvals : ∀ p ∈ data, p.2 ≠ -1)
    (htrain : KanvaRSIndex.new.train fit data fuel maxErr = some kv)
    (hrun : Queried ⟨kv, .new⟩ st) (s : K) (n : ℕ) (result : List (K × Val)) :
    (st.rangequery s n result).2 = (result ++ (trainedFrom data s).take n,
        ((n - min n (trainedFrom data s).length : ℕ) : ℤ)) ↔
      (∀ e ∈ (wanted s st.index.entries).take n,
        e.Stamped (toInt32 (st.versionTracker.tail.ts + 1))) ∧
      n - min n (trainedFrom data s).length < 2 ^ 31 ∧ n < 2 ^ 32 + st.index.firstWanted s := by
  obtain ⟨segs, htrained⟩ := trained_of_train hvals htrain
  exact (htrained.queried hdata hrun).answer_iff hdata s n result

/-- Three trained keys. -/
def threePairs : List (Fin 64 × Val) := [(1, 10), (2, 20), (3, 30)]

/-- The index with these keys. -/
def trainedThree : Option (KanvaRSIndex (Fin 64)) :=
  KanvaRSIndex.new.train (fun _ => ⟨fun _ => 0, 0⟩) threePairs 3 64

/-- A first query from the key 2 on stamps the keys 2 and 3. After it a query from 2 sees both, and
one from 1 misses its first key. -/
theorem rangequery_iff_partly : ∃ kv st, trainedThree = some kv ∧
    st = ((⟨kv, .new⟩ : KanvaRSState (Fin 64)).rangequery 2 1 []).1 ∧
    (st.rangequery 2 2 []).2 = ([(2, 20), (3, 30)], 0) ∧
    (st.rangequery 1 3 []).2 ≠ ([(1, 10), (2, 20), (3, 30)], 0) := by
  have hexec : (trainedThree.map fun kv =>
      let st := ((⟨kv, .new⟩ : KanvaRSState (Fin 64)).rangequery 2 1 []).1
      decide ((∀ e ∈ (wanted 2 st.index.entries).take 2,
          e.Stamped (toInt32 (st.versionTracker.tail.ts + 1))) ∧
        ¬ ∀ e ∈ (wanted 1 st.index.entries).take 3,
          e.Stamped (toInt32 (st.versionTracker.tail.ts + 1)))) = some true := by
    decide +kernel
  obtain ⟨kv, htrain, hstamped⟩ := Option.map_eq_some_iff.mp hexec
  obtain ⟨htwo, hthree⟩ := of_decide_eq_true hstamped
  have hsorted : Sorted threePairs := by
    unfold Sorted
    decide
  have hiff := rangequery_iff hsorted (by decide) htrain (.query 2 1 [] .refl)
  refine ⟨kv, _, htrain, rfl, (hiff 2 2 []).mpr ⟨htwo, by decide, ?_⟩, fun heq => ?_⟩
  · omega
  · exact hthree ((hiff 1 3 []).mp heq).1

/-- The index with one key. -/
def trainedOne : Option (KanvaRSIndex (Fin 64)) :=
  KanvaRSIndex.new.train (fun _ => ⟨fun _ => 0, 0⟩) [(1, 10)] 3 64

/-- The first range query over trained data does not see it. -/
theorem rangequery_first_empty : ∃ kv, trainedOne = some kv ∧
    ((⟨kv, .new⟩ : KanvaRSState (Fin 64)).rangequery 1 1 []).2 = ([], 1) ∧
    (trainedFrom [((1 : Fin 64), (10 : Val))] 1).take 1 = [(1, 10)] := by
  have hexec : (trainedOne.map fun kv =>
      ((⟨kv, .new⟩ : KanvaRSState (Fin 64)).rangequery 1 1 []).2) = some ([], 1) := by
    decide +kernel
  obtain ⟨kv, htrain, hquery⟩ := Option.map_eq_some_iff.mp hexec
  exact ⟨kv, htrain, hquery, by decide⟩

end KanvaRSState

end KanvaRS
