import Kanva.RS.Model.WalkOrder
import Mathlib.Data.Fin.Basic

/-!
# The keys a scan returns

## Main results

* `KanvaRSModel.scan_iff`: when a scan returns the smallest keys from its start key on.
* `KanvaRSModel.scan_misses_key`: a scan that does not.
-/

namespace KanvaRS

open Kanva SortedArray SortedAssoc InOrder

variable {K : Type} [LinearOrder K]

namespace ModelOrBin

variable [BoundedOrder K] [Zero K] {mob : ModelOrBin K} {s : K}

/-- No key is stored twice. -/
theorem Wf.keys_ne (h : mob.Wf) : mob.entries.Pairwise fun e e' => e.key ≠ e'.key := by
  induction mob using ModelOrBin.slotInduction with
  | null => exact List.Pairwise.nil
  | bin lflb =>
    have hwf : lflb.Wf := h
    exact (List.pairwise_map.mp hwf.sorted).imp fun hlt => hlt.ne
  | ai m ih =>
    obtain ⟨harr, hslots⟩ := wf_ai.mp h
    show (m.modelArray ++ (List.range (m.capacity + 1)).flatMap fun i =>
      (m.mobsLf i).entries).Pairwise
      fun e e' => e.key ≠ e'.key
    rw [List.pairwise_append, List.pairwise_flatMap]
    refine ⟨harr.sorted.imp fun hlt => hlt.ne, ⟨fun i _ => ih i (hslots i).1, ?_⟩, ?_⟩
    · refine List.nodup_range.imp fun {i j} hij e he e' he' heq => hij ?_
      rw [← ((hslots i).2 e he).binPos, ← ((hslots j).2 e' he').binPos, heq]
    · intro e he e' he' heq
      obtain ⟨i, -, hmem⟩ := List.mem_flatMap.mp he'
      refine ((hslots i).2 e' hmem).not_mem ?_
      rw [← heq]
      exact List.mem_map_of_mem he

/-- The keys from `s` on whose newest value is not -1, the smallest first. -/
def liveFrom (mob : ModelOrBin K) (s : K) : List (VersionedKey K) :=
  (mob.entries.filter fun e => e.LiveFrom s).insertionSort (Order.Preimage VersionedKey.key (· ≤ ·))

omit [BoundedOrder K] [Zero K] in
theorem mem_liveFrom {e : VersionedKey K} : e ∈ mob.liveFrom s ↔ e ∈ mob.entries ∧
    e.LiveFrom s := by
  rw [liveFrom, List.mem_insertionSort, List.mem_filter, decide_eq_true_iff]

theorem Wf.liveFrom_sorted (h : mob.Wf) (s : K) :
    (mob.liveFrom s).Pairwise fun e e' => e.key < e'.key := by
  have hsorted := List.pairwise_insertionSort (Order.Preimage VersionedKey.key (· ≤ ·))
    (mob.entries.filter fun e => e.LiveFrom s)
  have hne : (mob.liveFrom s).Pairwise fun e e' => e.key ≠ e'.key :=
    (List.perm_insertionSort _ _).symm.pairwise (h.keys_ne.sublist List.filter_sublist) fun hne =>
      hne.symm
  exact hsorted.imp₂ (fun _ _ hle hne => lt_of_le_of_ne hle hne) hne

/-- No key is visited twice. -/
theorem visited_nodup (h : mob.Wf) : (mob.visited s).Nodup := by
  induction mob using ModelOrBin.slotInduction with
  | null => exact List.nodup_nil
  | bin lflb =>
    have hwf : lflb.Wf := h
    have hsorted := (List.pairwise_map.mp hwf.sorted).imp fun {e e'} hlt => ne_of_apply_ne _ hlt.ne
    exact hsorted.sublist List.filter_sublist
  | ai m ih =>
    obtain ⟨harr, hslots⟩ := wf_ai.mp h
    have hsorted : m.modelArray.Nodup := harr.sorted.imp fun {e e'} hlt => ne_of_apply_ne _ hlt.ne
    rw [visited_ai]
    split
    · rw [← List.take_append_drop 1 m.modelArray] at hsorted
      obtain ⟨hfirst, hrest, hdisjoint⟩ := List.nodup_append.mp hsorted
      -- no key of a slot is one of the array
      have hslot : ∀ e ∈ (m.mobsLf 1).visited s, e ∉ m.modelArray := fun e he hmem =>
        (h.slot_one ((mem_visited (hslots 1).1).mp he).1).2.1 (List.mem_map_of_mem hmem)
      rw [List.nodup_append, List.nodup_append]
      refine ⟨⟨hfirst.sublist List.filter_sublist, ih 1 (hslots 1).1, ?_⟩,
        hrest.sublist List.filter_sublist, ?_⟩
      · rintro e he e' he' rfl
        exact hslot e he' (List.mem_of_mem_take (List.mem_filter.mp he).1)
      · rintro e he e' he' rfl
        have hmem := (List.mem_filter.mp he').1
        rcases List.mem_append.mp he with he | he
        · exact hdisjoint e (List.mem_filter.mp he).1 e hmem rfl
        · exact hslot e he (List.mem_of_mem_drop hmem)
    · exact hsorted.sublist (List.filter_sublist.trans (List.drop_sublist _ _))

theorem visited_subset (h : mob.Wf) : mob.visited s ⊆ mob.liveFrom s := fun _ he =>
  mem_liveFrom.mpr ⟨((mem_visited h).mp he).1, ((mem_visited h).mp he).2.1⟩

/-- The first keys visited are the smallest ones if the scan gets to each of these in time. -/
theorem take_visited_iff (h : mob.Wf) (s : K) (n : ℕ) :
    (mob.visited s).take n = (mob.liveFrom s).take n ↔
      ∀ e ∈ (mob.liveFrom s).take n, mob.Reaches s e.key ∧ ¬ mob.Overtaken s e.key := by
  rw [take_eq_take_iff (h.liveFrom_sorted s) (visited_nodup h) (visited_subset h)]
  refine forall₂_congr fun e he => ?_
  obtain ⟨hmem, hlive⟩ := mem_liveFrom.mp (List.mem_of_mem_take he)
  constructor
  · intro hleads
    have hvisited := hleads.mem
    exact ⟨((mem_visited h).mp hvisited).2.2, (leads_iff h hvisited).mp hleads⟩
  · rintro ⟨hreach, hover⟩
    have hvisited : e ∈ mob.visited s := (mem_visited h).mpr ⟨hmem, hlive, hreach⟩
    exact (leads_iff h hvisited).mpr hover

end ModelOrBin

/-! ### The models of a run -/

section Runs

variable [BoundedOrder K] [Zero K] {fit : List K → LinearRegressionModel K}
    {m₀ m m' : KanvaRSModel K}

/-- A model no call has been made on: its keys strictly increase, and its slots are empty. -/
structure KanvaRSModel.Fresh (m : KanvaRSModel K) : Prop where
  arrayWf : m.ArrayWf
  slots : ∀ i, m.mobsLf i = .null

/-- The models that insertions and removals lead to. -/
inductive KanvaRSModel.Reached (fit : List K → LinearRegressionModel K) (m₀ : KanvaRSModel K) :
    KanvaRSModel K → Prop
  | refl : Reached fit m₀ m₀
  | insert {m m' : KanvaRSModel K} {key : K} {val : Val} {globalTs : ℤ} {ok : Bool} :
      Reached fit m₀ m →
      m.insertRetrain fit key val globalTs = some (m', ok) → Reached fit m₀ m'
  | remove {m m' : KanvaRSModel K} {key : K} {globalTs : ℤ} {ok : Bool} : Reached fit m₀ m →
      m.remove key globalTs = some (m', ok) → Reached fit m₀ m'

namespace KanvaRSModel

omit [BoundedOrder K] in
/-- A model of training data is fresh. -/
theorem fresh_new (lrmodel : LinearRegressionModel K) {pairs : List (K × Val)}
    (hpairs : Sorted pairs)
    (hne : pairs ≠ []) (hlen : pairs.length < 2 ^ 30) : (KanvaRSModel.new lrmodel pairs).Fresh := by
  have hcap : (KanvaRSModel.new lrmodel pairs).capacity = pairs.length := List.length_map _
  refine ⟨.of_sorted ?_ ?_ ?_, fun _ => rfl⟩
  · rw [KanvaRSModel.new, List.map_map]
    exact List.pairwise_map.mpr hpairs
  · rw [hcap]
    exact List.length_pos_of_ne_nil hne
  · rwa [hcap]

theorem Fresh.wf (h : m.Fresh) : (ModelOrBin.ai m).Wf := by
  refine ModelOrBin.wf_ai.mpr ⟨h.arrayWf, fun i => ?_⟩
  rw [h.slots i]
  exact ⟨trivial, fun e he => by cases he⟩

theorem Reached.wf (h : Reached fit m₀ m) (h₀ : m₀.Fresh) : (ModelOrBin.ai m).Wf := by
  induction h with
  | refl => exact h₀.wf
  | @insert m m' key val globalTs ok _ hcall ih =>
    obtain ⟨p, hp, hok, -⟩ := insertRetrain_ok fit key val globalTs ih
    rw [hcall] at hp
    obtain rfl := Option.some.inj hp
    exact hok.wf
  | @remove m m' key globalTs ok _ hcall ih =>
    obtain ⟨p, hp, hok, -⟩ := remove_ok key globalTs ih
    rw [hcall] at hp
    obtain rfl := Option.some.inj hp
    exact hok.wf

/-- A scan returns the first keys it visits. -/
theorem scan_eq {globalTs ts : ℤ} {s : K} (h : (ModelOrBin.ai m).Wf)
    (hstamped : (ModelOrBin.ai m).StampedBelow ts) {n : ℕ} (hn : n < 2 ^ 32)
    (out : List (K × Val)) :
    (m.scan s globalTs ts n out).2 =
      (out ++ (((ModelOrBin.ai m).visited s).take n).map VersionedKey.pair,
        toInt32 (n - ((ModelOrBin.ai m).visited s).length : ℕ)) := by
  obtain ⟨harr, hslots⟩ := ModelOrBin.wf_ai.mp h
  have hone : (m.mobsLf 1).ScanShows s globalTs ts :=
    ModelOrBin.scan_shows (hslots 1).1 (hstamped.of_slot harr.pos)
  have hwalk := ModelOrBin.walk_shows h hstamped hone hn out
  rw [scan, hwalk.result, toInt32_congr hwalk.remaining.mod]

omit [BoundedOrder K] in
theorem scan_lt (m : KanvaRSModel K) (s : K) (globalTs ts : ℤ) (n : ℕ) (out : List (K × Val)) :
    (m.scan s globalTs ts n out).2.2 < 2 ^ 31 := by
  simp only [scan]
  exact toInt32_lt _

/-- In every model that insertions and removals reach, in which all versions have been stamped
before `ts`, a scan returns the smallest keys from `s` on exactly when it gets to each of these, and
to no larger key before, and the number it returns is an `int`. -/
theorem scan_iff (h₀ : m₀.Fresh) (hrun : m₀.Reached fit m) (globalTs : ℤ) {ts : ℤ}
    (hstamped : (ModelOrBin.ai m).StampedBelow ts) (s : K) (n : ℕ)
    (hn : n < 2 ^ 32 ∨ ((ModelOrBin.ai m).liveFrom s).length ≤ 2 ^ 31) (out : List (K × Val)) :
    (m.scan s globalTs ts n out).2 =
        (out ++ (((ModelOrBin.ai m).liveFrom s).take n).map VersionedKey.pair,
          ((n - ((ModelOrBin.ai m).liveFrom s).length : ℕ) : ℤ)) ↔
      n - ((ModelOrBin.ai m).liveFrom s).length < 2 ^ 31 ∧
        ∀ e ∈ ((ModelOrBin.ai m).liveFrom s).take n,
          (ModelOrBin.ai m).Reaches s e.key ∧ ¬ (ModelOrBin.ai m).Overtaken s e.key := by
  have hwf := hrun.wf h₀
  rw [← ModelOrBin.take_visited_iff hwf s n]
  set W := (ModelOrBin.ai m).liveFrom s
  by_cases hret : n - W.length < 2 ^ 31
  swap
  · -- an `int` is not that large
    refine iff_of_false (fun heq => ?_) fun h => hret h.1
    have hlt := m.scan_lt s globalTs ts n out
    rw [heq] at hlt
    exact hret (by omega)
  have hn : n < 2 ^ 32 := by omega
  rw [and_iff_right hret, scan_eq hwf hstamped hn out]
  set X := (ModelOrBin.ai m).visited s
  -- the keys of the live entries differ, so their pairs tell the entries apart
  have hpairs : (X.take n).map VersionedKey.pair = (W.take n).map VersionedKey.pair ↔
      X.take n = W.take n := by
    refine map_eq_map_iff (W := W) (fun e he e' he' heq => ?_)
      (fun e he => ModelOrBin.visited_subset hwf (List.mem_of_mem_take he)) (List.take_subset n W)
    have hkeys : (W.map VersionedKey.key).Nodup :=
      List.pairwise_map.mpr ((hwf.liveFrom_sorted s).imp fun hlt => hlt.ne)
    exact List.inj_on_of_nodup_map hkeys he he' (congrArg Prod.fst heq)
  rw [← hpairs, Prod.mk.injEq, List.append_cancel_left_eq, and_iff_left_of_imp]
  -- where the pairs agree, so do their numbers
  intro heq
  have hlen := congrArg List.length (hpairs.mp heq)
  rw [List.length_take, List.length_take] at hlen
  have hsub : n - X.length = n - W.length := by omega
  rw [hsub]
  exact toInt32_of_lt hret

/-- The calls one after the other: an insertion for a key with a value, else a removal. -/
def callAll (fit : List K → LinearRegressionModel K) (globalTs : ℤ) (m : KanvaRSModel K) :
    List (K × Option Val) → Option (KanvaRSModel K)
  | [] => some m
  | (key, some val) :: calls =>
    (m.insertRetrain fit key val globalTs).bind fun p => callAll fit globalTs p.1 calls
  | (key, none) :: calls => (m.remove key globalTs).bind fun p => callAll fit globalTs p.1 calls

theorem reached_callAll {globalTs : ℤ} {calls : List (K × Option Val)} (h : m₀.Reached fit m)
    (hall : m.callAll fit globalTs calls = some m') : m₀.Reached fit m' := by
  induction calls generalizing m with
  | nil => rwa [← Option.some.inj hall]
  | cons call calls ih =>
    obtain ⟨key, _ | val⟩ := call
    · obtain ⟨p, hp, hrest⟩ := Option.bind_eq_some_iff.mp hall
      exact ih (.remove h hp) hrest
    · obtain ⟨p, hp, hrest⟩ := Option.bind_eq_some_iff.mp hall
      exact ih (.insert h hp) hrest

end KanvaRSModel

end Runs

/-- A linear model that predicts 0 for every key. -/
def flatFit (_ : List (Fin 64)) : LinearRegressionModel (Fin 64) := ⟨fun _ => 0, 0⟩

/-- A check of what calls make of a model with two training keys. -/
def checkCalls (calls : List (Fin 64 × Option Val)) (check : KanvaRSModel (Fin 64) → Bool) : Bool :=
  match (KanvaRSModel.new (flatFit []) [(10, 1), (30, 3)]).callAll flatFit 0 calls with
  | none => false
  | some m => (∀ e ∈ (ModelOrBin.ai m).entries, e.StampedBelow 1) ∧ check m = true

theorem checkCalls_ok (calls : List (Fin 64 × Option Val)) (check : KanvaRSModel (Fin 64) → Bool)
    (hcheck : checkCalls calls check = true) :
    ∃ m₀ m : KanvaRSModel (Fin 64), m₀.Fresh ∧ m₀.Reached flatFit m ∧
      (ModelOrBin.ai m).StampedBelow 1 ∧ check m = true := by
  rw [checkCalls] at hcheck
  split at hcheck
  · cases hcheck
  next m hm =>
  obtain ⟨hstamped, hcheck⟩ := of_decide_eq_true hcheck
  have hsorted : Sorted [((10 : Fin 64), (1 : Val)), (30, 3)] :=
    List.pairwise_pair.mpr (by decide)
  exact ⟨_, m, KanvaRSModel.fresh_new _ hsorted (by simp) (by decide),
    KanvaRSModel.reached_callAll .refl hm, hstamped, hcheck⟩

/-- The training keys are written anew, so that their versions are stamped. -/
def renewed : List (Fin 64 × Option Val) := [(10, none), (10, some 2), (30, none), (30, some 4)]

/-- The key 20 comes between the entries, and the scan finds it. -/
theorem scan_iff_between : ∃ m₀ m : KanvaRSModel (Fin 64), m₀.Fresh ∧ m₀.Reached flatFit m ∧
    (m.scan 10 0 1 2 []).2 = ([(10, 2), (20, 7)], 0) ∧
    ∀ e ∈ ((ModelOrBin.ai m).liveFrom 10).take 2,
      (ModelOrBin.ai m).Reaches 10 e.key ∧ ¬ (ModelOrBin.ai m).Overtaken 10 e.key := by
  obtain ⟨m₀, m, h₀, hrun, hstamped, hcheck⟩ := checkCalls_ok (renewed ++ [(20, some 7)])
    (fun m => (m.scan 10 0 1 2 []).2 = ([(10, 2), (20, 7)], 0) ∧
      ((ModelOrBin.ai m).liveFrom 10).map VersionedKey.pair = [(10, 2), (20, 7), (30, 4)])
    (by decide +kernel)
  obtain ⟨hscan, hlive⟩ := of_decide_eq_true hcheck
  have hlen : ((ModelOrBin.ai m).liveFrom 10).length = 3 := by
    rw [← List.length_map VersionedKey.pair, hlive]
    rfl
  refine ⟨m₀, m, h₀, hrun, hscan, ((KanvaRSModel.scan_iff h₀ hrun 0 hstamped 10 2 (.inl (by decide))
    []).mp ?_).2⟩
  rw [hscan, hlen, List.map_take, hlive]
  rfl

/-- The key 5 belongs before the first entry, and the scan passes by. -/
theorem scan_misses_key : ∃ m₀ m : KanvaRSModel (Fin 64), m₀.Fresh ∧ m₀.Reached flatFit m ∧
    (ModelOrBin.ai m).StampedBelow 1 ∧
    (m.scan 0 0 1 3 []).2 ≠
      ((((ModelOrBin.ai m).liveFrom 0).take 3).map VersionedKey.pair,
        ((3 - ((ModelOrBin.ai m).liveFrom 0).length : ℕ) : ℤ)) := by
  obtain ⟨m₀, m, h₀, hrun, hstamped, hcheck⟩ := checkCalls_ok (renewed ++ [(5, some 7)])
    (fun m => (m.scan 0 0 1 3 []).2 = ([(10, 2), (30, 4)], 1) ∧
      ((ModelOrBin.ai m).liveFrom 0).map VersionedKey.pair = [(5, 7), (10, 2), (30, 4)])
    (by decide +kernel)
  obtain ⟨hscan, hlive⟩ := of_decide_eq_true hcheck
  refine ⟨m₀, m, h₀, hrun, hstamped, fun heq => ?_⟩
  rw [hscan, List.map_take, hlive] at heq
  have hkeys : [((10 : Fin 64), (2 : Val)), (30, 4)] = [(5, 7), (10, 2), (30, 4)] :=
    congrArg Prod.fst heq
  exact absurd hkeys (by decide)

end KanvaRS
