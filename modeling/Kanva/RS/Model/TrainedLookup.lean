import Kanva.RS.Model.Lookup
import Kanva.RS.Model.Search
import Kanva.RS.Model.Training
import Kanva.Util

/-!
# Lookups in a trained index

`find` with checked accesses, in the index that `train` leaves. Every segment but the last has
`learning_step` keys, so the run of the search over a model stays far from the limits of an `int`.
`find_model` passes the number of segments as an `int`: of `2 ^ 31` segments or more, only those in
front are searched for.

## Main results

* `KanvaRSIndex.train_pieces`: the segments are the pieces of 1000 keys of the training data.
* `KanvaRSModel.findRetrain?_new`: a lookup in a trained model finds what its segment has.
* `KanvaRSIndex.findExact_iff`: lookups after training are exact if and only if every live pair is
  in a segment in front.
-/

namespace KanvaRS

open Kanva SortedArray SortedAssoc

/-! ### The pieces of the training data -/

/-- The piece of the training data with the number `i`. -/
def segment {α : Type*} (data : List α) (i : ℕ) : List α := (data.drop (1000 * i)).take 1000

/-- The number of pieces. -/
def segmentCount {α : Type*} (data : List α) : ℕ := (data.length + 999) / 1000

section Pieces

variable {α : Type*} {data : List α}

theorem flatten_segments (n : ℕ) :
    ((List.range n).map (segment data)).flatten = data.take (1000 * n) := by
  induction n with
  | zero => rfl
  | succ n ih =>
    rw [List.range_succ, List.map_append, List.flatten_append, ih, List.map_singleton,
      List.flatten_singleton, segment, ← List.take_add, Nat.mul_succ]

theorem flatten_segmentCount :
    ((List.range (segmentCount data)).map (segment data)).flatten = data := by
  rw [flatten_segments, segmentCount, List.take_of_length_le (by omega)]

/-- The entry at a position is in the piece with a thousandth of its number. -/
theorem mem_segment {i : ℕ} {p : α} (hp : data[i]? = some p) : p ∈ segment data (i / 1000) := by
  obtain ⟨hi, rfl⟩ := List.getElem?_eq_some_iff.mp hp
  rw [segment, List.mem_take_iff_getElem]
  refine ⟨i % 1000, ?_, ?_⟩
  · rw [List.length_drop]
    omega
  · rw [List.getElem_drop]
    exact getElem_congr rfl (Nat.div_add_mod i 1000) _

end Pieces

namespace KanvaRSIndex

variable {K : Type} [Zero K] {fit : List K → LinearRegressionModel K} {data : List (K × Val)}
  {kv kv' : KanvaRSIndex K} {c start stop fuel maxErr : ℕ}

theorem trainLoop_pieces (h : Segments fit kv ((List.range c).map (segment data)))
    (hstep : kv.learningStep = 1000) (hstart : start = min (1000 * c) data.length)
    (hstop : stop = min (1000 * (c + 1)) data.length) (hc : c ≤ segmentCount data)
    (hloop : trainLoop fit data fuel kv start stop = some kv') :
    Segments fit kv' ((List.range (segmentCount data)).map (segment data)) := by
  -- round `c` makes the piece `c`
  induction fuel generalizing kv c start stop with
  | zero => simp [trainLoop] at hloop
  | succ fuel ih =>
    rw [segmentCount] at hc
    rw [trainLoop] at hloop
    split at hloop
    · next hlt =>
      have hseg : (data.drop start).take (stop - start) = segment data c := by
        rw [segment, show start = 1000 * c by omega, List.take_eq_take_iff, List.length_drop]
        omega
      have hlen : (segment data c).length = min 1000 (data.length - 1000 * c) := by
        rw [segment, List.length_take, List.length_drop]
      rw [hseg] at hloop
      simp only at hloop
      split at hloop
      · exact absurd hloop (by simp)
      next kv₁ happ =>
      obtain ⟨hsegs, hstep₁⟩ :=
        appendModel_ok h (List.ne_nil_of_length_pos (by omega)) (by omega) happ
      refine ih (c := c + 1) ?_ (hstep₁.trans hstep) (by omega) ?_ ?_ hloop
      · rw [List.range_succ, List.map_append]
        exact hsegs
      · rw [hstep₁, hstep]
        omega
      · rw [segmentCount]
        omega
    · next hge =>
      obtain rfl := Option.some.inj hloop
      rwa [segmentCount, show (data.length + 999) / 1000 = c by omega]

/-- The segments that `train` makes are the pieces of the training data. -/
theorem train_pieces (htrain : new.train fit data fuel maxErr = some kv) :
    Segments fit kv ((List.range (segmentCount data)).map (segment data)) := by
  have hempty : Segments fit { new with maxErr := toInt32 maxErr }
      ((List.range 0).map (segment data)) := ⟨by simp, by simp, rfl, rfl⟩
  exact trainLoop_pieces hempty rfl (by omega) rfl (Nat.zero_le _) htrain

end KanvaRSIndex

/-! ### A trained model -/

section Find

variable {K : Type} [LinearOrder K] [BoundedOrder K] [Zero K]

omit [BoundedOrder K] in
/-- `find_retrain` with checked accesses, where `findSlot` goes on with a slot. -/
def RSModelOver.findRetrain? {Slot : Type} (m : RSModelOver K Slot) (key : K) (val : Val)
    (findSlot : ℕ → Option (Bool × Val)) : Option (Bool × Val) :=
  (m.locate? key).bind fun pos =>
    (m.modelArray[pos]?).bind fun e =>
      if key = e.key then
        if e.getValue ≠ -1 then some (true, e.getValue) else some (false, val)
      else (m.findBinPos? key).bind fun binPos => findSlot binPos.toNat

/-- `find_retrain` with checked accesses, from a slot on. -/
def ModelOrBin.findRetrain? (key : K) (val : Val) : ModelOrBin K → Option (Bool × Val)
  | .null => some (false, val)
  | .bin lflb => some (lflb.search key val, val)
  | .ai ⟨model, modelArray, mobsLf⟩ =>
    let m : KanvaRSModel K := ⟨model, modelArray, mobsLf⟩
    m.findRetrain? key val fun i => (mobsLf i).findRetrain? key val

namespace KanvaRSIndex

omit [BoundedOrder K] in
/-- `find_model` with checked accesses. The step of the search is an `int` when it starts, so 31
rounds are enough. -/
def findModel? (kv : KanvaRSIndex K) (key : K) : Option (KanvaRSModel K) :=
  (Util.binarySearchBranchless? (fun i => kv.modelKeys.getD i 0) kv.modelKeys.length 31
    (toInt32 kv.modelKeys.length) key).bind fun pos =>
      let modelPos := toSize pos
      kv.aimodels[if kv.aimodels.length ≤ modelPos then toSize (kv.aimodels.length - 1)
        else modelPos]?

/-- `find`: the status, and the caller's variable afterwards. -/
def find? (kv : KanvaRSIndex K) (key : K) (val : Val) : Option (Bool × Val) :=
  (kv.findModel? key).bind fun m => (ModelOrBin.ai m).findRetrain? key val

/-- Every lookup makes good accesses only. It returns `ok` with a value if and only if the training
data has the key with this value, and the value is not -1. -/
def FindExact (kv : KanvaRSIndex K) (data : List (K × Val)) : Prop :=
  ∀ key val, ∃ ok val', kv.find? key val = some (ok, val') ∧
    ∀ v, (ok = true ∧ val' = v) ↔ (key, v) ∈ data ∧ v ≠ -1

end KanvaRSIndex

omit [BoundedOrder K] [Zero K] in
/-- What a lookup is to return: the status, and the caller's variable afterwards. -/
def answer (pairs : List (K × Val)) (key : K) (val : Val) : Bool × Val :=
  match pairs.lookup key with
  | none => (false, val)
  | some v => if v ≠ -1 then (true, v) else (false, val)

omit [BoundedOrder K] [Zero K] in
/-- The answer for a key among sorted pairs. -/
theorem answer_of_mem {pairs : List (K × Val)} (hs : Sorted pairs) {p : K × Val} (hp : p ∈ pairs)
    (val : Val) : answer pairs p.1 val = if p.2 ≠ -1 then (true, p.2) else (false, val) := by
  rw [answer, hs.lookup_eq_some_iff.mpr hp]

omit [BoundedOrder K] [Zero K] in
theorem answer_of_not_mem {pairs : List (K × Val)} {key : K} (h : ∀ p ∈ pairs, p.1 ≠ key)
    (val : Val) :
    answer pairs key val = (false, val) := by
  rw [answer, List.lookup_eq_none_iff.mpr fun p hp => by simpa using (h p hp).symm]

/-- A lookup in a trained model finds what its segment has, whatever the predictions. -/
theorem KanvaRSModel.findRetrain?_new {seg : List (K × Val)} (hs : Sorted seg) (hne : seg ≠ [])
    (hlen : seg.length ≤ 1000) (lrmodel : LinearRegressionModel K) (key : K) (val : Val) :
    (ModelOrBin.ai (KanvaRSModel.new lrmodel seg)).findRetrain? key val =
      some (answer seg key val) := by
  obtain ⟨m, hm⟩ : ∃ m, m = KanvaRSModel.new lrmodel seg := ⟨_, rfl⟩
  have harray : m.modelArray = seg.map fun p => VersionedKey.new p.1 p.2 := by rw [hm]; rfl
  have hcap : m.capacity = seg.length := by rw [RSModelOver.capacity, harray, List.length_map]
  have hpos : 0 < m.capacity := hcap ▸ List.length_pos_iff.mpr hne
  have hsize : m.capacity < 2 ^ 30 := by omega
  have hwf : m.ArrayWf := by
    refine .of_sorted ?_ hpos (by omega)
    rw [harray, List.map_map]
    exact List.pairwise_map.mpr hs
  -- the slots of a trained model are empty
  have hnull : (ModelOrBin.ai m).findRetrain? key val =
      m.findRetrain? key val fun _ => some (false, val) := by
    rw [hm]
    rfl
  rw [← hm, hnull, RSModelOver.findRetrain?, RSModelOver.locate?_eq hpos hsize, Option.bind_some]
  -- a key of the segment is located, and any other key goes to an empty slot
  by_cases hmem : ∃ p ∈ seg, p.1 = key
  · obtain ⟨p, hp, rfl⟩ := hmem
    obtain ⟨e, he, hkey, hval⟩ : ∃ e ∈ m.modelArray, e.key = p.1 ∧ e.getValue = p.2 :=
      ⟨.new p.1 p.2, harray ▸ List.mem_map_of_mem hp, rfl, rfl⟩
    have hentry := hwf.entry_of_mem he
    rw [hkey] at hentry
    rw [hentry, Option.bind_some, answer_of_mem hs hp, if_pos hkey.symm, hval]
    split <;> rfl
  · have habsent : ∀ p ∈ seg, p.1 ≠ key := fun p hp hkey => hmem ⟨p, hp, hkey⟩
    obtain ⟨e, he⟩ : ∃ e, m.modelArray[m.locate key]? = some e :=
      ⟨_, List.getElem?_eq_getElem (hwf.locate_lt key)⟩
    have hkey : key ≠ e.key := by
      have hmem := List.mem_of_getElem? he
      rw [harray] at hmem
      obtain ⟨p, hp, rfl⟩ := List.mem_map.mp hmem
      exact (habsent p hp).symm
    rw [he, Option.bind_some, if_neg hkey, RSModelOver.findBinPos?_eq hwf.strict hpos hsize,
      Option.bind_some, answer_of_not_mem habsent]

/-! ### The segment of a key -/

namespace KanvaRSIndex

variable {fit : List K → LinearRegressionModel K} {data : List (K × Val)} {kv : KanvaRSIndex K}
  {segs : List (List (K × Val))} {fuel maxErr : ℕ}

omit [BoundedOrder K] in
/-- The number of segments that the search for a segment covers. -/
def covered (kv : KanvaRSIndex K) : ℕ := (toInt32 kv.modelKeys.length).toNat

omit [BoundedOrder K] in
/-- The search for a segment stays inside the covered part, and ends with the segment of the first
last key that is not less than the key, or with the first segment that is not covered. -/
theorem findModel?_eq (h : Segments fit kv segs) (hs : Sorted segs.flatten) (hne : segs ≠ [])
    (key : K) : kv.findModel? key = kv.aimodels[min (min (lowerBound
      (fun i => kv.modelKeys.getD i 0) key kv.modelKeys.length) kv.covered)
        (segs.length - 1)]? := by
  have hkeys : kv.modelKeys.length = segs.length := by rw [h.modelKeys, List.length_map]
  have hmodels : kv.aimodels.length = segs.length := by rw [h.aimodels, List.length_map]
  have hpos : 0 < segs.length := List.length_pos_iff.mpr hne
  have hle := toInt32_le kv.modelKeys.length
  have hlt := toInt32_lt kv.modelKeys.length
  have hcovered : kv.covered ≤ kv.modelKeys.length := by
    rw [covered]
    omega
  -- a number of models that is no `int` is negative, and then nothing is searched
  have hsearch : binarySearchBranchless (fun i => kv.modelKeys.getD i 0)
      (toInt32 kv.modelKeys.length) key =
        (min (lowerBound (fun i => kv.modelKeys.getD i 0) key kv.modelKeys.length)
          kv.covered : ℕ) := by
    rw [← lowerBound_of_le hcovered]
    rcases Int.lt_or_le 0 (toInt32 kv.modelKeys.length) with hpos | hneg
    · have hmono := lastKeys_mono h.nonempty hs
      rw [← h.modelKeys] at hmono
      rw [← binarySearchBranchless_eq fun i j hij hj => hmono i j hij (by omega), covered,
        Int.toNat_of_nonneg hpos.le]
    · rw [covered, Int.toNat_of_nonpos hneg, binarySearchBranchless, if_pos hneg]
      rfl
  rw [findModel?, Util.binarySearchBranchless?_eq hle (by omega) le_rfl, Option.bind_some, hsearch]
  obtain ⟨pos, hpos'⟩ : ∃ pos, pos =
      min (lowerBound (fun i => kv.modelKeys.getD i 0) key kv.modelKeys.length) kv.covered :=
        ⟨_, rfl⟩
  have hsmall : pos < 2 ^ 31 := by
    have : kv.covered < 2 ^ 31 := by
      rw [covered]
      omega
    omega
  -- a position behind the last model becomes the one of the last model
  rw [← hpos', hmodels, toInt32_of_lt hsmall]
  have hsize : toSize pos = pos := by
    rw [toSize]
    omega
  simp only [hsize]
  split
  · next hge =>
    have hlast : toSize (segs.length - 1) = segs.length - 1 := by
      rw [toSize]
      omega
    rw [hlast, Nat.min_eq_right (by omega)]
  · next hlt => rw [Nat.min_eq_left (by omega)]

/-- A lookup is answered from one of the segments. -/
theorem find?_eq (h : Segments fit kv segs) (hs : Sorted segs.flatten) (hne : segs ≠ []) (key : K)
    (val : Val) : ∃ i, ∃ hi : i < segs.length, kv.find? key val = some (answer segs[i] key val) ∧
      i = min (min (lowerBound (fun i => kv.modelKeys.getD i 0) key kv.modelKeys.length) kv.covered)
        (segs.length - 1) := by
  have hpos : 0 < segs.length := List.length_pos_iff.mpr hne
  obtain ⟨i, hi⟩ : ∃ i, i = min (min (lowerBound (fun i => kv.modelKeys.getD i 0) key
    kv.modelKeys.length) kv.covered) (segs.length - 1) := ⟨_, rfl⟩
  have hlt : i < segs.length := by omega
  refine ⟨i, hlt, ?_, hi⟩
  have hsorted := (List.pairwise_flatten.mp hs).1
  rw [find?, findModel?_eq h hs hne, ← hi, h.aimodels, List.getElem?_map,
    List.getElem?_eq_getElem hlt, Option.map_some, Option.bind_some,
    KanvaRSModel.findRetrain?_new (hsorted _ (List.getElem_mem hlt))
      (h.nonempty _ (List.getElem_mem hlt)) (h.length_le _ (List.getElem_mem hlt))]

/-- For a key of a segment, the lookup is answered from that segment if it is covered, and from the
first one that is not covered otherwise. -/
theorem find?_of_mem (h : Segments fit kv segs) (hs : Sorted segs.flatten) {s : ℕ}
    (hlt : s < segs.length) {p : K × Val} (hp : p ∈ segs[s]) (val : Val) :
    ∃ i, ∃ hi : i < segs.length, kv.find? p.1 val = some (answer segs[i] p.1 val) ∧
      i = min s kv.covered := by
  obtain ⟨i, hi, hfind, heq⟩ := find?_eq h hs (List.ne_nil_of_length_pos (by omega)) p.1 val
  refine ⟨i, hi, hfind, ?_⟩
  have hbound := lowerBound_lastKeys h.nonempty hs hlt hp
  rw [← h.modelKeys] at hbound
  rw [show segs.length = kv.modelKeys.length by rw [h.modelKeys, List.length_map]] at hbound
  rw [hbound] at heq
  omega

/-- A key of a segment that is not covered, other than the first of them, is not found. -/
theorem find?_lost (h : Segments fit kv segs) (hs : Sorted segs.flatten) {s : ℕ}
    (hlt : s < segs.length) {p : K × Val} (hp : p ∈ segs[s]) (hs' : kv.covered < s) (val : Val) :
    kv.find? p.1 val = some (false, val) := by
  obtain ⟨i, hi, hfind, heq⟩ := find?_of_mem h hs hlt hp val
  rw [hfind, answer_of_not_mem]
  intro q hq
  have hpair := List.pairwise_iff_getElem.mp (List.pairwise_flatten.mp hs).2 i s hi hlt (by omega)
  exact (hpair q hq p hp).ne

omit [LinearOrder K] [BoundedOrder K] in
/-- Training makes segments, and the pair at a position is in the segment with a thousandth of its
number. -/
theorem segments_of_train (htrain : new.train fit data fuel maxErr = some kv) :
    ∃ segs, Segments fit kv segs ∧ segs.flatten = data ∧
      kv.covered = (toInt32 (segmentCount data)).toNat ∧
      ∀ i p, data[i]? = some p → ∃ hs : i / 1000 < segs.length, p ∈ segs[i / 1000] := by
  have h := train_pieces htrain
  refine ⟨_, h, flatten_segmentCount, ?_, fun i p hp => ⟨?_, ?_⟩⟩
  · rw [covered, h.modelKeys, List.length_map, List.length_map, List.length_range]
  · have hi := (List.getElem?_eq_some_iff.mp hp).1
    rw [List.length_map, List.length_range, segmentCount]
    omega
  · rw [List.getElem_map, List.getElem_range]
    exact mem_segment hp

/-- A pair beyond the first segment that is not covered is not found. -/
theorem find?_beyond (hdata : Sorted data) (htrain : new.train fit data fuel maxErr = some kv)
    {i : ℕ}
    {p : K × Val} (hp : data[i]? = some p)
    (hbeyond : (toInt32 (segmentCount data)).toNat < i / 1000) (val : Val) :
    kv.find? p.1 val = some (false, val) := by
  obtain ⟨segs, h, hflat, hcovered, hposition⟩ := segments_of_train htrain
  obtain ⟨hlt, hmem⟩ := hposition i p hp
  exact find?_lost h (by rwa [hflat]) hlt hmem (hcovered.trans_lt hbeyond) val

/-- Lookups right after training are exact if and only if every pair with a value other than -1 is
in a covered segment or in the first one that is not: with less than `2 ^ 31` segments all of them
are. -/
theorem findExact_iff (hdata : Sorted data) (hne : data ≠ [])
    (htrain : new.train fit data fuel maxErr = some kv) :
    kv.FindExact data ↔ ∀ i p, data[i]? = some p → p.2 ≠ -1 →
      i / 1000 ≤ (toInt32 (segmentCount data)).toNat := by
  obtain ⟨segs, h, hflat, hcovered, hposition⟩ := segments_of_train htrain
  have hs : Sorted segs.flatten := by rwa [hflat]
  have hsegne : segs ≠ [] := by
    rintro rfl
    exact hne hflat.symm
  constructor
  · intro hexact i p hp hval
    by_contra hgt
    obtain ⟨ok, val', hfind, hiff⟩ := hexact p.1 0
    rw [find?_beyond hdata htrain hp (not_le.mp hgt)] at hfind
    obtain ⟨rfl, rfl⟩ := Prod.ext_iff.mp (Option.some.inj hfind)
    exact absurd ((hiff p.2).mpr ⟨List.mem_of_getElem? hp, hval⟩).1 (by simp)
  · intro hfront key val
    obtain ⟨c, hc, hfind, -⟩ := find?_eq h hs hsegne key val
    refine ⟨(answer segs[c] key val).1, (answer segs[c] key val).2, hfind, fun v => ?_⟩
    have hsorted := (List.pairwise_flatten.mp hs).1 segs[c] (List.getElem_mem hc)
    constructor
    · -- what the chosen segment has is in the training data
      rintro ⟨hok, rfl⟩
      by_cases hmem : ∃ p ∈ segs[c], p.1 = key
      · obtain ⟨p, hp, rfl⟩ := hmem
        have hin : p ∈ data := hflat ▸ List.mem_flatten_of_mem (List.getElem_mem hc) hp
        rw [answer_of_mem hsorted hp] at hok ⊢
        split at hok
        · next hne => exact ⟨by rwa [if_pos hne], by rwa [if_pos hne]⟩
        · exact absurd hok (by simp)
      · rw [answer_of_not_mem fun p hp hkey => hmem ⟨p, hp, hkey⟩] at hok
        exact absurd hok (by simp)
    · -- a live pair is in the chosen segment
      rintro ⟨hin, hval⟩
      obtain ⟨i, hget⟩ := List.mem_iff_getElem?.mp hin
      obtain ⟨hlt, hmem⟩ := hposition i _ hget
      obtain ⟨c', hc', hfind', hmin⟩ := find?_of_mem h hs hlt hmem val
      have hle := hfront i _ hget hval
      rw [hcovered, Nat.min_eq_left hle] at hmin
      subst hmin
      have hanswer : answer segs[c] key val = answer segs[i / 1000] key val :=
        Option.some.inj (hfind.symm.trans hfind')
      have hsorted' := (List.pairwise_flatten.mp hs).1 _ (List.getElem_mem hlt)
      rw [hanswer, answer_of_mem hsorted' hmem, if_pos hval]
      exact ⟨rfl, rfl⟩

/-- A linear model that predicts position 0 for every key. -/
def fitZero : List K → LinearRegressionModel K := fun _ => ⟨fun _ => 0, 0⟩

/-- Four pairs, one of them with the value of a tombstone. -/
def fourPairs : List (Fin 8 × Val) := [(1, 10), (2, -1), (4, 40), (7, 70)]

/-- Training on these pairs makes one segment, so that every lookup is exact. -/
theorem findExact_iff_fourPairs : ∃ kv, new.train fitZero fourPairs 5 64 = some kv ∧
    kv.FindExact fourPairs := by
  have hsorted : Sorted fourPairs := by
    unfold Sorted
    decide
  obtain ⟨kv, hkv⟩ : ∃ kv, new.train fitZero fourPairs 5 64 = some kv :=
    train_returns (by decide) (by decide)
  refine ⟨kv, hkv, (findExact_iff hsorted (by decide) hkv).mpr fun i p hp _ => ?_⟩
  have hlt : i < fourPairs.length := (List.getElem?_eq_some_iff.mp hp).1
  have hlength : fourPairs.length = 4 := rfl
  rw [Nat.div_eq_of_lt (by omega)]
  exact Nat.zero_le _

/-- The first `1000 * 2 ^ 31` keys of 64 bits, each with the value 7. -/
def manyPairs : List (Fin (2 ^ 64) × Val) :=
  (List.finRange (1000 * 2 ^ 31)).map fun i => (i.castLE (by decide), 7)

theorem manyPairs_length : manyPairs.length = 1000 * 2 ^ 31 := by
  rw [manyPairs, List.length_map, List.length_finRange]

theorem manyPairs_sorted : Sorted manyPairs :=
  List.pairwise_map.mpr ((List.pairwise_lt_finRange _).imp fun h => h)

/-- Of `2 ^ 31` segments only the first is searched: the key at position 1000 is not found. -/
theorem find?_manyPairs : ∃ kv, new.train fitZero manyPairs (manyPairs.length + 1) 64 = some kv ∧
    ∃ p, manyPairs[1000]? = some p ∧ p.2 = 7 ∧ ∀ val, kv.find? p.1 val = some (false, val) := by
  obtain ⟨kv, hkv⟩ : ∃ kv, new.train fitZero manyPairs (manyPairs.length + 1) 64 = some kv :=
    train_returns (by decide) (Nat.lt_add_one _)
  have hi : 1000 < manyPairs.length := by
    rw [manyPairs_length]
    norm_num
  obtain ⟨p, hget, hval⟩ : ∃ p, manyPairs[1000]? = some p ∧ p.2 = 7 :=
    ⟨_, List.getElem?_eq_getElem hi, by simp [manyPairs]⟩
  have hbeyond : (toInt32 (segmentCount manyPairs)).toNat < 1000 / 1000 := by
    rw [segmentCount, manyPairs_length]
    decide
  exact ⟨kv, hkv, p, hget, hval, find?_beyond manyPairs_sorted hkv hget hbeyond⟩

end KanvaRSIndex

end Find

end KanvaRS
