import Kanva.InOrder
import Kanva.RS.Model.Effects
import Mathlib.Order.Fin.Basic

/-!
# The order in which a scan visits the keys

`scan` starts at the position of its start key, or at position 0 if the array does not have it.
After each entry it visits the slot behind it. A key that is not in the array is in slot 0 or in
slot 1, wherever it belongs. So a scan passes by the keys of slot 0; those of slot 1 it visits
between the first and the second entry, and it passes by them when it starts further on.

## Main results

* `ModelOrBin.leads_iff`: when a visited entry is not overtaken by a later one.
* `ModelOrBin.scan_shows`: what a scan appends when all versions are stamped.
-/

namespace KanvaRS

open Kanva SortedArray SortedAssoc InOrder

variable {K : Type}

namespace VersionedKey

variable {e : VersionedKey K} {ts globalTs : ℤ}

/-- All versions have been stamped before `ts`. -/
def StampedBelow (e : VersionedKey K) (ts : ℤ) : Prop := ∀ v ∈ e.vhead, v.ts ≠ -1 ∧ v.ts < ts

instance (e : VersionedKey K) (ts : ℤ) : Decidable (e.StampedBelow ts) :=
  inferInstanceAs (Decidable (∀ v ∈ e.vhead, v.ts ≠ -1 ∧ v.ts < ts))

theorem StampedBelow.initTs (h : e.StampedBelow ts) : e.initTs globalTs = e := by
  obtain ⟨key, _ | ⟨v, vs⟩⟩ := e
  · rfl
  · rw [VersionedKey.initTs]
    simp only
    rw [if_neg (h v List.mem_cons_self).1]

theorem StampedBelow.versionedValue (h : e.StampedBelow ts) : e.versionedValue ts = e.getValue := by
  obtain ⟨key, _ | ⟨v, vs⟩⟩ := e
  · rfl
  · have hlt := (h v List.mem_cons_self).2
    rw [VersionedKey.versionedValue, List.dropWhile_cons_of_neg (by simpa using hlt)]
    rfl

/-- A key from `s` on whose newest version is not a tombstone. -/
def LiveFrom [LE K] (s : K) (e : VersionedKey K) : Prop := s ≤ e.key ∧ e.getValue ≠ -1

instance [LE K] [DecidableLE K] (s : K) (e : VersionedKey K) : Decidable (e.LiveFrom s) :=
  inferInstanceAs (Decidable (s ≤ e.key ∧ e.getValue ≠ -1))

end VersionedKey

/-! ### The count of a scan -/

/-- A scan counts `r` keys where it still wants `N`, with as many entries of the array to come. A
slot hands the count back as an `int`, which is negative from `2 ^ 31` on. -/
def Counts (rest r N : ℕ) : Prop := r = N ∨ r = N + (2 ^ 64 - 2 ^ 32) ∧ rest < N ∧ N < 2 ^ 32

section Counts

variable {rest rest' r N : ℕ}

theorem Counts.mono (h : Counts rest r N) (hle : rest' ≤ rest) : Counts rest' r N := by
  rcases h with h | ⟨heq, hlt, hN⟩
  · exact .inl h
  · exact .inr ⟨heq, lt_of_le_of_lt hle hlt, hN⟩

theorem Counts.mod (h : Counts rest r N) : r % 2 ^ 32 = N % 2 ^ 32 := by
  rcases h with rfl | ⟨rfl, -, -⟩ <;> omega

theorem Counts.eq_zero (h : Counts rest 0 N) : N = 0 := by
  rcases h with h | ⟨habs, -, -⟩ <;> omega

theorem Counts.pred (h : Counts (rest + 1) r N) (hr : r ≠ 0) :
    N ≠ 0 ∧ Counts rest (r - 1) (N - 1) := by
  rcases h with rfl | ⟨rfl, hlt, hN⟩
  · exact ⟨hr, .inl rfl⟩
  · exact ⟨by omega, .inr (by omega)⟩

theorem Counts.exact (h : Counts rest r N) (hrest : 2 ^ 32 ≤ rest) : r = N :=
  h.resolve_right fun hlarge => by omega

/-- The count that a slot hands back. -/
theorem Counts.converted (h : r % 2 ^ 32 = N % 2 ^ 32) (hN : N < 2 ^ 32) (hrest : rest < 2 ^ 31) :
    Counts rest (toSize (toInt32 r)) N := by
  rw [toSize_toInt32, h, Nat.mod_eq_of_lt hN]
  split
  · exact .inl rfl
  · next hge => exact .inr ⟨rfl, lt_of_lt_of_le hrest (not_lt.mp hge), hN⟩

end Counts

/-! ### What a scan appends -/

/-- A scan that wanted `n` keys has met the entries `es`, and there are so many entries of the array
to come. -/
structure Shows {Slot : Type} (m : RSModelOver K Slot) (out : List (K × Val)) (n rest : ℕ)
    (st : ScanState K Slot) (es : List (VersionedKey K)) : Prop where
  model : st.model = m
  result : st.result = out ++ (es.take n).map VersionedKey.pair
  remaining : Counts rest st.remaining (n - es.length)

/-- The slot at a position has the entries `es` for the scan. -/
def SlotShows {Slot : Type} (m : RSModelOver K Slot)
    (scanSlot : ℕ → List (K × Val) → ℕ → Slot × List (K × Val) × ℕ) (i rest rest' : ℕ)
    (es : List (VersionedKey K)) : Prop :=
  ∀ out r N, Counts rest r N → N < 2 ^ 32 → ∃ r', Counts rest' r' (N - es.length) ∧
    scanSlot i out r = (m.mobsLf i, out ++ (es.take N).map VersionedKey.pair, r')

variable [LinearOrder K]

section Loop

variable {Slot : Type} {m : RSModelOver K Slot} {st : ScanState K Slot} {s : K}
  {globalTs ts : ℤ} {scanSlot : ℕ → List (K × Val) → ℕ → Slot × List (K × Val) × ℕ}
  {out : List (K × Val)} {n rest rest' k pos : ℕ} {es es' : List (VersionedKey K)}

theorem scanLoop_done (h : st.remaining = 0) : scanLoop s globalTs ts scanSlot k pos st = st := by
  cases k with
  | zero => rfl
  | succ k => rw [scanLoop, if_pos h]

namespace Shows

omit [LinearOrder K] in
theorem mono (h : Shows m out n rest st es) (hle : rest' ≤ rest) : Shows m out n rest' st es :=
  ⟨h.model, h.result, h.remaining.mono hle⟩

omit [LinearOrder K] in
/-- A scan that has all it wants shows nothing more. -/
theorem done (h : Shows m out n rest st es) (hzero : st.remaining = 0) :
    Shows m out n rest' st (es ++ es') := by
  have hn := h.remaining
  rw [hzero] at hn
  have hle : n ≤ es.length := Nat.sub_eq_zero_iff_le.mp hn.eq_zero
  refine ⟨h.model, ?_, .inl ?_⟩
  · rw [List.take_append_of_le_length hle]
    exact h.result
  · rw [hzero, List.length_append]
    omega

/-- The visit of an entry. -/
theorem visitEntry (s : K) (globalTs : ℤ) (h : Shows m out n (rest + 1) st es)
    (hpos : st.remaining ≠ 0) {e : VersionedKey K}
    (he : m.modelArray[pos]? = some e) (hstamped : e.StampedBelow ts) :
    Shows m out n rest (st.visitEntry s globalTs ts pos)
      (es ++ [e].filter fun e => e.LiveFrom s) := by
  obtain ⟨rfl, hresult, hcount⟩ := h
  rw [ScanState.visitEntry, he]
  simp only
  rw [hstamped.initTs, hstamped.versionedValue]
  obtain ⟨hlt, rfl⟩ := List.getElem?_eq_some_iff.mp he
  rw [List.set_getElem_self]
  -- an entry in front of the start key, or with a tombstone, is passed over
  have hskip : Shows st.model out n rest st (es ++ []) := by
    rw [List.append_nil]
    exact ⟨rfl, hresult, hcount.mono (Nat.le_succ rest)⟩
  by_cases hs : s ≤ st.model.modelArray[pos].key
  swap
  · rw [if_neg hs, List.filter_cons_of_neg (by simp [VersionedKey.LiveFrom, hs])]
    exact hskip
  by_cases hv : st.model.modelArray[pos].getValue = -1
  · rw [if_pos hs, if_neg (not_not.mpr hv),
    List.filter_cons_of_neg (by simp [VersionedKey.LiveFrom, hv])]
    exact hskip
  rw [if_pos hs, if_pos hv, List.filter_cons_of_pos (by simp [VersionedKey.LiveFrom, hs, hv])]
  -- the entry is shown, and the count goes down by one
  obtain ⟨hne, hcount'⟩ := hcount.pred hpos
  refine ⟨rfl, ?_, ?_⟩
  · have htake : (es ++ [st.model.modelArray[pos]]).take n = es.take n ++
        [st.model.modelArray[pos]] := by
      rw [List.take_append, List.take_of_length_le (l := [_]) (show 1 ≤ n - es.length by omega)]
    show st.result ++ _ = _
    rw [hresult, List.filter_nil, htake, List.map_append, List.append_assoc]
    rfl
  · rw [List.filter_nil, List.length_append, ← Nat.sub_sub]
    exact hcount'

omit [LinearOrder K] in
/-- The visit of a slot. -/
theorem visitSlot (h : Shows m out n rest st es) (hn : n < 2 ^ 32)
    (hslot : SlotShows m scanSlot pos rest rest' es') :
    Shows m out n rest' (st.visitSlot scanSlot pos) (es ++ es') := by
  obtain ⟨rfl, hresult, hcount⟩ := h
  obtain ⟨r', hcount', heq⟩ := hslot st.result st.remaining _ hcount (by omega)
  rw [ScanState.visitSlot, heq]
  simp only [Function.update_eq_self]
  refine ⟨rfl, ?_, ?_⟩
  · rw [hresult, List.take_append, List.map_append, List.append_assoc]
  · rw [List.length_append, ← Nat.sub_sub]
    exact hcount'

/-- A round of the loop. -/
theorem round (s : K) (globalTs : ℤ) (k : ℕ) (h : Shows m out n (rest + 1) st es) (hn : n < 2 ^ 32)
    {e : VersionedKey K}
    (he : m.modelArray[pos]? = some e) (hstamped : e.StampedBelow ts)
    (hslot : SlotShows m scanSlot (pos + 1) rest rest' es') :
    ∃ st', Shows m out n rest' st' (es ++ [e].filter (fun e => e.LiveFrom s) ++ es') ∧
      scanLoop s globalTs ts scanSlot (k + 1) pos st =
        scanLoop s globalTs ts scanSlot k (pos + 1) st' := by
  -- the count is tested in front of the entry, and again in front of the slot
  by_cases hdone : st.remaining = 0
  · refine ⟨st, ?_, by rw [scanLoop_done hdone, scanLoop_done hdone]⟩
    rw [List.append_assoc]
    exact h.done hdone
  have hvisit := h.visitEntry s globalTs hdone he hstamped
  rw [scanLoop, if_neg hdone]
  set st₁ := st.visitEntry s globalTs ts pos
  simp only
  by_cases hdone₁ : st₁.remaining = 0
  · exact ⟨st₁, hvisit.done hdone₁, by rw [if_pos hdone₁, scanLoop_done hdone₁]⟩
  · have hcap : ¬ st₁.model.capacity < pos + 1 := by
      have hpos := (List.getElem?_eq_some_iff.mp he).1
      rw [hvisit.model, RSModelOver.capacity]
      omega
    exact ⟨_, hvisit.visitSlot hn hslot, by rw [if_neg hdone₁, if_neg hcap]⟩

/-- The loop behind the slots in use. -/
theorem tail (s : K) (globalTs : ℤ) (h : Shows m out n (m.modelArray.length - pos) st es)
    (hn : n < 2 ^ 32)
    (hstamped : ∀ e ∈ m.modelArray, e.StampedBelow ts)
    (hslot : ∀ i rest, 2 ≤ i → rest < m.modelArray.length → SlotShows m scanSlot i rest rest [])
    (hpos : 1 ≤ pos) (hk : m.modelArray.length + 1 ≤ pos + k) :
    Shows m out n 0 (scanLoop s globalTs ts scanSlot k pos st)
      (es ++ (m.modelArray.drop pos).filter fun e => e.LiveFrom s) := by
  -- the slots here are empty, so only the entries are shown; `k` is what is left of the rounds
  induction k generalizing pos st es with
  | zero =>
    have hend : m.modelArray.drop pos = [] := List.drop_eq_nil_iff.mpr (by omega)
    rw [hend, List.filter_nil, List.append_nil]
    exact h.mono (Nat.zero_le _)
  | succ k ih =>
    rcases Nat.lt_or_ge pos m.modelArray.length with hin | hout
    · have hget : m.modelArray[pos]? = some m.modelArray[pos] := List.getElem?_eq_getElem hin
      have hrest : m.modelArray.length - pos = m.modelArray.length - (pos + 1) + 1 := by omega
      rw [hrest] at h
      obtain ⟨st', h', heq⟩ := h.round s globalTs k hn hget (hstamped _ (List.getElem_mem hin))
        (hslot (pos + 1) _ (by omega) (by omega))
      rw [List.append_nil] at h'
      have hloop := ih h' (by omega) (by omega)
      rw [heq, List.drop_eq_getElem_cons hin, ← List.singleton_append, List.filter_append,
        ← List.append_assoc]
      exact hloop
    · -- behind the last entry there is one more round, which visits nothing
      have hnone : m.modelArray[pos]? = none := List.getElem?_eq_none_iff.mpr hout
      have hend : m.modelArray.drop pos = [] := List.drop_eq_nil_iff.mpr hout
      have hvisit : st.visitEntry s globalTs ts pos = st := by
        rw [ScanState.visitEntry, h.model, hnone]
      rw [hend, List.filter_nil, List.append_nil, scanLoop, hvisit]
      simp only [h.model]
      rw [if_pos (show m.capacity < pos + 1 from Nat.lt_succ_of_le hout), ite_self, ite_self]
      exact h.mono (Nat.zero_le _)

end Shows

end Loop

/-! ### The slots in use -/

variable [Zero K] {s : K} {e w : VersionedKey K} {m : KanvaRSModel K} {mob : ModelOrBin K}

/-- A scan starts at the position of its start key, or at 0. -/
theorem RSModelOver.ArrayWf.locate_cases {Slot : Type} {m : RSModelOver K Slot} (h : m.ArrayWf)
    (key : K) : m.locate key = 0 ∨ m.keys (m.locate key) = key := by
  obtain ⟨left, right, hleft, hright, hloc, -⟩ :=
    RSModelOver.locate_window h.pos (h.lt.trans (by decide)) key
  have hcap := h.lt
  rcases binarySearch_cases (a := m.keys)
    (k := key) m.capacity left right with hzero | ⟨hl, hr, heq⟩
  · left
    rw [hloc, hzero]
    rfl
  · right
    rw [hloc, toSize]
    set p := binarySearch m.keys key m.capacity left right
    have hp : (p % 2 ^ 64).toNat = p.toNat := by omega
    rw [hp]
    exact heq

/-- A key that is not in the array is in slot 0 if it is smaller than all keys of the array, else in
slot 1. -/
theorem RSModelOver.ArrayWf.routesTo_cases {Slot : Type} {m : RSModelOver K Slot} (h : m.ArrayWf)
    {key : K} {i : ℕ} (hroute : m.RoutesTo key i) :
    i = 0 ∧ key < m.keys 0 ∨ i = 1 ∧ m.keys 0 < key := by
  have hlt := h.locate_lt key
  have hloc : m.locate key = 0 := by
    refine (h.locate_cases key).resolve_right fun heq => hroute.not_mem ?_
    rw [← heq, RSModelOver.keys_eq hlt]
    exact List.mem_map_of_mem (List.getElem_mem _)
  have hne : key ≠ m.keys 0 := by
    rintro rfl
    refine hroute.not_mem ?_
    rw [RSModelOver.keys_eq h.pos]
    exact List.mem_map_of_mem (List.getElem_mem _)
  rw [← hroute.binPos, RSModelOver.binPos, hloc]
  split
  · next hkey => exact .inl ⟨rfl, hkey⟩
  · next hkey => exact .inr ⟨rfl, lt_of_le_of_ne (not_lt.mp hkey) hne.symm⟩

/-- The live entries from `s` on in the order in which a scan visits them. -/
def ModelOrBin.visited (s : K) : ModelOrBin K → List (VersionedKey K)
  | .null => []
  | .bin lflb => lflb.nodes.filter fun e => e.LiveFrom s
  | .ai ⟨model, modelArray, mobsLf⟩ =>
    let m : KanvaRSModel K := ⟨model, modelArray, mobsLf⟩
    if m.locate s = 0 then
      (modelArray.take 1).filter (fun e => e.LiveFrom s) ++ (mobsLf 1).visited s ++
        (modelArray.drop 1).filter fun e => e.LiveFrom s
    else (modelArray.drop (m.locate s)).filter fun e => e.LiveFrom s

/-- A scan from `s` gets to a key: a key in slot 0 it passes by, and one in slot 1 too, unless it
starts at position 0. -/
def ModelOrBin.Reaches (s x : K) : ModelOrBin K → Prop
  | .null => True
  | .bin _ => True
  | .ai ⟨model, modelArray, mobsLf⟩ =>
    let m : KanvaRSModel K := ⟨model, modelArray, mobsLf⟩
    x ∈ modelArray.map VersionedKey.key ∨
      m.locate s = 0 ∧ m.binPos x = 1 ∧ (mobsLf 1).Reaches s x

/-- A scan from `s` gets to a larger key before it gets to `x`: it starts at position 0, and has a
larger key in slot 1, where `x` is behind the first entry; or this is so below slot 1. -/
def ModelOrBin.Overtaken (s x : K) : ModelOrBin K → Prop
  | .null => False
  | .bin _ => False
  | .ai ⟨model, modelArray, mobsLf⟩ =>
    let m : KanvaRSModel K := ⟨model, modelArray, mobsLf⟩
    m.locate s = 0 ∧
      if x ∈ modelArray.map VersionedKey.key then
        x ≠ m.keys 0 ∧ ∃ e ∈ (mobsLf 1).entries, e.LiveFrom s ∧ (mobsLf 1).Reaches s e.key ∧
          x < e.key
      else (mobsLf 1).Overtaken s x

namespace ModelOrBin

theorem visited_ai : (ModelOrBin.ai m).visited s =
    if m.locate s = 0 then
      (m.modelArray.take 1).filter (fun e => e.LiveFrom s) ++ (m.mobsLf 1).visited s ++
        (m.modelArray.drop 1).filter fun e => e.LiveFrom s
    else (m.modelArray.drop (m.locate s)).filter fun e => e.LiveFrom s := rfl

theorem reaches_ai {x : K} : (ModelOrBin.ai m).Reaches s x ↔
    x ∈ m.modelArray.map VersionedKey.key ∨
      m.locate s = 0 ∧ m.binPos x = 1 ∧ (m.mobsLf 1).Reaches s x := Iff.rfl

theorem overtaken_ai {x : K} : (ModelOrBin.ai m).Overtaken s x ↔
    m.locate s = 0 ∧
      if x ∈ m.modelArray.map VersionedKey.key then
        x ≠ m.keys 0 ∧
          ∃ e ∈ (m.mobsLf 1).entries, e.LiveFrom s ∧ (m.mobsLf 1).Reaches s e.key ∧ x < e.key
      else (m.mobsLf 1).Overtaken s x := Iff.rfl

variable [BoundedOrder K]

/-- The keys of slot 1 are behind the first entry. -/
theorem Wf.slot_one (h : (ModelOrBin.ai m).Wf) (he : e ∈ (m.mobsLf 1).entries) :
    m.keys 0 < e.key ∧ e.key ∉ m.modelArray.map VersionedKey.key ∧ m.binPos e.key = 1 := by
  obtain ⟨harr, hslots⟩ := wf_ai.mp h
  have hroute := (hslots 1).2 e he
  rcases harr.routesTo_cases hroute with ⟨habs, -⟩ | ⟨-, hlt⟩
  · cases habs
  · exact ⟨hlt, hroute.not_mem, hroute.binPos⟩

theorem Wf.slot_unused (h : (ModelOrBin.ai m).Wf) {i : ℕ} (hi : 2 ≤ i) :
    (m.mobsLf i).entries = [] := by
  obtain ⟨harr, hslots⟩ := wf_ai.mp h
  refine List.eq_nil_iff_forall_not_mem.mpr fun e he => ?_
  rcases harr.routesTo_cases ((hslots i).2 e he) with ⟨rfl, -⟩ | ⟨rfl, -⟩ <;> omega

/-- A scan visits what it reaches. -/
theorem mem_visited (h : mob.Wf) :
    e ∈ mob.visited s ↔ e ∈ mob.entries ∧ e.LiveFrom s ∧ mob.Reaches s e.key := by
  induction mob using ModelOrBin.slotInduction with
  | null => simp [visited, entries]
  | bin lflb => simp [visited, entries, Reaches]
  | ai m ih =>
    obtain ⟨harr, hslots⟩ := wf_ai.mp h
    -- the slots behind slot 1 are never visited
    have hone := ih 1 (hslots 1).1
    rw [visited_ai, mem_entries_ai, reaches_ai]
    constructor
    · intro hmem
      have harray : e ∈ m.modelArray → e.LiveFrom s →
          (e ∈ m.modelArray ∨ ∃ i ≤ m.capacity, e ∈ (m.mobsLf i).entries) ∧ e.LiveFrom s ∧
            (e.key ∈ m.modelArray.map VersionedKey.key ∨
              m.locate s = 0 ∧ m.binPos e.key = 1 ∧ (m.mobsLf 1).Reaches s e.key) :=
        fun hmem hlive => ⟨.inl hmem, hlive, .inl (List.mem_map_of_mem hmem)⟩
      split at hmem
      · next hzero =>
        rw [List.mem_append, List.mem_append, List.mem_filter, List.mem_filter, hone] at hmem
        rcases hmem with (⟨hmem, hlive⟩ | ⟨hmem, hlive, hreach⟩) | ⟨hmem, hlive⟩
        · exact harray (List.mem_of_mem_take hmem) (of_decide_eq_true hlive)
        · exact ⟨.inr ⟨1, harr.pos, hmem⟩, hlive, .inr ⟨hzero, (h.slot_one hmem).2.2, hreach⟩⟩
        · exact harray (List.mem_of_mem_drop hmem) (of_decide_eq_true hlive)
      · rw [List.mem_filter] at hmem
        exact harray (List.mem_of_mem_drop hmem.1) (of_decide_eq_true hmem.2)
    · rintro ⟨hmem | ⟨i, -, hmem⟩, hlive, hreach⟩
      · split
        · rw [← List.take_append_drop 1 m.modelArray, List.mem_append] at hmem
          rw [List.mem_append, List.mem_append, List.mem_filter, List.mem_filter]
          rcases hmem with hmem | hmem
          · exact .inl (.inl ⟨hmem, decide_eq_true hlive⟩)
          · exact .inr ⟨hmem, decide_eq_true hlive⟩
        · next hzero =>
          -- an entry from the start key on is not in front of it
          refine List.mem_filter.mpr ⟨?_, decide_eq_true hlive⟩
          obtain ⟨i, hi, rfl⟩ := List.mem_iff_getElem.mp hmem
          have hle : m.locate s ≤ i := by
            by_contra hlt
            have hkeys := harr.strict i (m.locate s) (not_le.mp hlt) (harr.locate_lt s)
            rw [(harr.locate_cases s).resolve_left hzero, RSModelOver.keys_eq hi] at hkeys
            exact absurd hlive.1 (not_le.mpr hkeys)
          refine List.mem_drop_iff_getElem.mpr ⟨i - m.locate s, by omega, ?_⟩
          simp only [Nat.add_sub_cancel' hle]
      · have hroute := (hslots i).2 e hmem
        obtain ⟨hzero, hpos, hreach⟩ := hreach.resolve_left hroute.not_mem
        obtain rfl : i = 1 := hroute.binPos.symm.trans hpos
        rw [if_pos hzero, List.mem_append, List.mem_append, hone]
        exact .inl (.inr ⟨hmem, hlive, hreach⟩)

/-- The first entry of an array, and the others behind it. -/
theorem Wf.array_parts (h : (ModelOrBin.ai m).Wf) :
    (m.modelArray.take 1).Pairwise (fun e e' => e.key < e'.key) ∧
      (m.modelArray.drop 1).Pairwise (fun e e' => e.key < e'.key) ∧
      (∀ e ∈ m.modelArray.take 1, e.key = m.keys 0) ∧
      ∀ e ∈ m.modelArray.drop 1, m.keys 0 < e.key := by
  obtain ⟨harr, -⟩ := wf_ai.mp h
  have hlen : 0 < m.modelArray.length := harr.pos
  have hsorted := harr.sorted
  rw [← List.take_append_drop 1 m.modelArray, List.pairwise_append] at hsorted
  obtain ⟨hfirst, hrest, hcross⟩ := hsorted
  refine ⟨hfirst, hrest, fun e he => ?_, fun e he => ?_⟩
  · obtain ⟨i, hi, rfl⟩ := List.mem_take_iff_getElem.mp he
    obtain rfl : i = 0 := by omega
    exact (RSModelOver.keys_eq harr.pos).symm
  · have hmem : m.modelArray[0] ∈ m.modelArray.take 1 :=
      List.mem_take_iff_getElem.mpr ⟨0, lt_min Nat.one_pos hlen, rfl⟩
    rw [RSModelOver.keys_eq harr.pos]
    exact hcross _ hmem e he

/-- A visited entry leads if it is not overtaken. -/
theorem leads_iff (h : mob.Wf) (hw : w ∈ mob.visited s) :
    Leads VersionedKey.key (mob.visited s) w ↔ ¬ mob.Overtaken s w.key := by
  induction mob using ModelOrBin.slotInduction with
  | null => cases hw
  | bin lflb =>
    have hwf : lflb.Wf := h
    refine iff_of_true (leads_of_sorted ?_ hw) id
    exact (List.pairwise_map.mp hwf.sorted).sublist List.filter_sublist
  | ai m ih =>
    obtain ⟨harr, hslots⟩ := wf_ai.mp h
    rw [overtaken_ai]
    rw [visited_ai] at hw ⊢
    -- a scan that starts behind the first entry visits no slot, so it visits in order
    by_cases hzero : m.locate s = 0
    swap
    · rw [if_neg hzero] at hw ⊢
      refine iff_of_true (leads_of_sorted ?_ hw) fun hover => hzero hover.1
      exact harr.sorted.sublist (List.filter_sublist.trans (List.drop_sublist _ _))
    rw [if_pos hzero] at hw ⊢
    rw [and_iff_right hzero]
    obtain ⟨hfirst, hrest, hzeroKey, hbehind⟩ := h.array_parts
    -- the three parts of the walk; no entry is in two of them
    set A₀ := (m.modelArray.take 1).filter fun e => e.LiveFrom s with hA₀
    set A₁ := (m.modelArray.drop 1).filter fun e => e.LiveFrom s with hA₁
    set X := (m.mobsLf 1).visited s with hX
    replace hzeroKey : ∀ x ∈ A₀, x.key = m.keys 0 := fun x hx =>
      hzeroKey x (List.mem_filter.mp hx).1
    replace hbehind : ∀ x ∈ A₁, m.keys 0 < x.key := fun x hx =>
      hbehind x (List.mem_filter.mp hx).1
    have hslot : ∀ x ∈ X, m.keys 0 < x.key ∧ x.key ∉ m.modelArray.map VersionedKey.key := by
      intro x hx
      have hone := h.slot_one ((mem_visited (hslots 1).1).mp hx).1
      exact ⟨hone.1, hone.2.1⟩
    have harray : ∀ x, x ∈ A₀ ∨ x ∈ A₁ → x.key ∈ m.modelArray.map VersionedKey.key := by
      rintro x (hx | hx)
      · exact List.mem_map_of_mem (List.mem_of_mem_take (List.mem_filter.mp hx).1)
      · exact List.mem_map_of_mem (List.mem_of_mem_drop (List.mem_filter.mp hx).1)
    rw [List.mem_append, List.mem_append] at hw
    rcases hw with (hw | hw) | hw
    · -- the first entry
      have hkey := hzeroKey w hw
      have hnotX : w ∉ X := fun hx => (hslot w hx).1.ne' hkey
      have hnotA : w ∉ A₁ := fun hx => (hbehind w hx).ne' hkey
      rw [leads_append_left hnotA, leads_append_left hnotX, if_pos (harray w (.inl hw))]
      exact iff_of_true (leads_of_sorted (hfirst.sublist List.filter_sublist) hw)
        fun hover => hover.1 hkey
    · -- an entry below slot 1
      have hnot := (hslot w hw).2
      have hnotA₀ : w ∉ A₀ := fun hx => hnot (harray w (.inl hx))
      have hnotA₁ : w ∉ A₁ := fun hx => hnot (harray w (.inr hx))
      rw [leads_append_left hnotA₁, leads_append_right hnotA₀, if_neg hnot, ih 1 (hslots 1).1 hw]
      refine and_iff_right fun x hx => ?_
      rw [hzeroKey x hx]
      exact (hslot w hw).1
    · -- an entry behind the first one
      have hmem := harray w (.inr hw)
      have hlt := hbehind w hw
      have hnot : w ∉ A₀ ++ X := by
        rw [List.mem_append]
        rintro (hx | hx)
        · exact hlt.ne' (hzeroKey w hx)
        · exact (hslot w hx).2 hmem
      rw [leads_append_right hnot, if_pos hmem,
        and_iff_left (leads_of_sorted (hrest.sublist List.filter_sublist) hw)]
      -- slot 1 comes first, so the entry is overtaken by the larger keys in it
      constructor
      · rintro hall ⟨-, x, hx, hlive, hreach, hwx⟩
        have hxX : x ∈ X := (mem_visited (hslots 1).1).mpr ⟨hx, hlive, hreach⟩
        exact lt_asymm hwx (hall x (List.mem_append_right _ hxX))
      · intro hover x hx
        rcases List.mem_append.mp hx with hx | hx
        · rw [hzeroKey x hx]
          exact hlt
        · by_contra hle
          obtain ⟨hent, hlive, hreach⟩ := (mem_visited (hslots 1).1).mp hx
          refine hover ⟨hlt.ne', x, hent, hlive, hreach,
            lt_of_le_of_ne (not_lt.mp hle) fun heq => ?_⟩
          rw [heq] at hmem
          exact (hslot x hx).2 hmem

end ModelOrBin

/-! ### What a scan shows -/

omit [Zero K] [LinearOrder K] in
theorem rangeQueryLoop_eq (globalTs : ℤ) {ts : ℤ} {es : List (VersionedKey K)}
    (hstamped : ∀ e ∈ es, e.StampedBelow ts) (n : ℕ) (out : List (K × Val)) :
    rangeQueryLoop globalTs ts es n out =
      (es, out ++ ((es.filter fun e => e.getValue ≠ -1).take n).map VersionedKey.pair,
        ((n - (es.filter fun e => e.getValue ≠ -1).length : ℕ) : ℤ)) := by
  -- the loop counts the values that it shows, and no tombstones
  induction es generalizing n out with
  | nil => simp [rangeQueryLoop]
  | cons e es ih =>
    have he := hstamped e List.mem_cons_self
    have ih := ih fun e' he' => hstamped e' (List.mem_cons_of_mem e he')
    rw [rangeQueryLoop]
    cases n with
    | zero => simp
    | succ n =>
      simp only
      rw [if_pos (by omega), he.initTs, he.versionedValue]
      by_cases hv : e.getValue = -1
      · rw [if_neg (not_not.mpr hv), ih, List.filter_cons_of_neg (by simpa using hv)]
      · rw [if_pos hv, List.filter_cons_of_pos (by simpa using hv), List.take_succ_cons,
          List.map_cons, List.length_cons, Nat.add_sub_add_right,
          show ((n + 1 : ℕ) : ℤ) - 1 = n by omega, ih, List.append_assoc]
        rfl

omit [Zero K] in
/-- The nodes from the start key on are those that are not before it. -/
theorem VersionedList.Wf.filter_liveFrom [BoundedOrder K] {l : VersionedList K} (h : l.Wf) :
    (l.nodes.dropWhile fun e => e.key < s).filter (fun e => e.getValue ≠ -1) =
      l.nodes.filter fun e => e.LiveFrom s := by
  have hsorted := List.pairwise_map.mp h.sorted
  rw [dropWhile_eq_filter hsorted, List.filter_filter]
  refine List.filter_congr fun e _ => ?_
  rw [Bool.and_comm]
  exact (Bool.decide_and _ _).symm

namespace ModelOrBin

variable {globalTs ts : ℤ}

/-- All versions have been stamped before `ts`. -/
def StampedBelow (mob : ModelOrBin K) (ts : ℤ) : Prop := ∀ e ∈ mob.entries, e.StampedBelow ts

omit [LinearOrder K] [Zero K] in
theorem StampedBelow.of_slot {i : ℕ} (h : (ModelOrBin.ai m).StampedBelow ts) (hi : i ≤ m.capacity) :
    (m.mobsLf i).StampedBelow ts :=
  fun e he => h e (mem_entries_ai.mpr (.inr ⟨i, hi, he⟩))

/-- The scan of a list. -/
theorem bin_scan_eq [BoundedOrder K] {lflb : VersionedList K} (h : lflb.Wf)
    (hstamped : (ModelOrBin.bin lflb).StampedBelow ts) {n : ℕ} (hn : n < 2 ^ 32)
    (out : List (K × Val)) :
    (ModelOrBin.bin lflb).scan s globalTs ts out n =
      (.bin lflb, out ++ (((ModelOrBin.bin lflb).visited s).take n).map VersionedKey.pair,
        toSize (toInt32 (n - ((ModelOrBin.bin lflb).visited s).length : ℕ))) := by
  have hcount : toInt64 n = n := Int.bmod_eq_of_le_mul_two (by omega) (by omega)
  have hdropped : ∀ e ∈ lflb.nodes.dropWhile (fun e => e.key < s), e.StampedBelow ts :=
    fun e he => hstamped e ((List.dropWhile_sublist _).subset he)
  have hloop := rangeQueryLoop_eq globalTs hdropped n out
  rw [h.filter_liveFrom] at hloop
  rw [ModelOrBin.scan, rangeQuery, hcount, hloop]
  simp only [List.takeWhile_append_dropWhile]
  rfl

theorem toInt32_toInt64 (z : ℤ) : toInt32 (toInt64 z) = toInt32 z := by
  rw [toInt32, toInt64, toInt32, Int.bmod_def z, Int.bmod_def z (2 ^ 32), Int.bmod_def]
  split_ifs <;> omega

/-- The scan of a slot without keys. -/
theorem scan_of_entries_nil [BoundedOrder K] (s : K) (globalTs ts : ℤ) (h : mob.Wf)
    (hnil : mob.entries = [])
    (out : List (K × Val)) (r : ℕ) :
    ∃ r', mob.scan s globalTs ts out r = (mob, out, r') ∧ (r' = r ∨ r' = toSize (toInt32 r)) := by
  cases mob with
  | null => exact ⟨r, rfl, .inl rfl⟩
  | bin lflb =>
    obtain ⟨nodes, maxVhead, size⟩ := lflb
    obtain rfl : nodes = [] := hnil
    have hcount : toInt32 (toInt64 r) = toInt32 r := toInt32_toInt64 r
    refine ⟨_, ?_, .inr rfl⟩
    rw [ModelOrBin.scan, rangeQuery, List.dropWhile_nil, rangeQueryLoop]
    simp only [hcount]
    rfl
  | ai m =>
    have hpos : 0 < m.modelArray.length := (wf_ai.mp h).1.pos
    have hmem : m.modelArray[0] ∈ (ModelOrBin.ai m).entries :=
      mem_entries_ai.mpr (.inl (List.getElem_mem hpos))
    rw [hnil] at hmem
    cases hmem

/-- A scan that still wants `N` keys appends the first ones it visits. -/
def ScanShows (s : K) (globalTs ts : ℤ) (mob : ModelOrBin K) : Prop :=
  ∀ N < 2 ^ 32, ∀ out, ∃ r', (∀ rest < 2 ^ 31, Counts rest r' (N - (mob.visited s).length)) ∧
    mob.scan s globalTs ts out N =
      (mob, out ++ ((mob.visited s).take N).map VersionedKey.pair, r')

/-- The walk of a model with such a slot 1. -/
theorem walk_shows [BoundedOrder K] (h : (ModelOrBin.ai m).Wf)
    (hstamped : (ModelOrBin.ai m).StampedBelow ts) (hone : (m.mobsLf 1).ScanShows s globalTs ts)
    {n : ℕ} (hn : n < 2 ^ 32) (out : List (K × Val)) :
    Shows m out n 0 (m.walk s globalTs ts (fun i => (m.mobsLf i).scan s globalTs ts) n out)
      ((ModelOrBin.ai m).visited s) := by
  obtain ⟨harr, hslots⟩ := wf_ai.mp h
  have hcap : m.capacity < 2 ^ 31 := harr.lt.trans (by decide)
  have hlen : 0 < m.modelArray.length := harr.pos
  have hstart := harr.locate_lt s
  have harray : ∀ e ∈ m.modelArray, e.StampedBelow ts :=
    fun e he => hstamped e (mem_entries_ai.mpr (.inl he))
  -- the slots that no key goes to may still convert the count
  have hunused : ∀ i rest, 2 ≤ i → rest < m.modelArray.length →
      SlotShows m (fun i => (m.mobsLf i).scan s globalTs ts) i rest rest [] := by
    intro i rest hi hrest out r N hcount hN
    obtain ⟨r', heq, hr'⟩ := scan_of_entries_nil s globalTs ts (hslots i).1 (h.slot_unused hi) out r
    refine ⟨r', ?_, by simpa using heq⟩
    rcases hr' with hr' | hr'
    · rw [hr']
      exact hcount
    · rw [hr']
      exact Counts.converted hcount.mod hN (hrest.trans hcap)
  have hinit : ∀ rest, Shows m out n rest ⟨m, out, n⟩ [] :=
    fun rest => ⟨rfl, by simp, .inl rfl⟩
  have hlast : m.modelArray.length + 1 ≤ m.locate s + (m.capacity + 1 - m.locate s) := by
    rw [RSModelOver.capacity] at hstart ⊢
    omega
  rw [RSModelOver.walk, visited_ai]
  by_cases hzero : m.locate s = 0
  · -- the first entry and slot 1, then the entries behind
    rw [if_pos hzero, hzero, Nat.sub_zero]
    obtain ⟨e, hget⟩ : ∃ e, m.modelArray[0]? = some e := ⟨_, List.getElem?_eq_getElem hlen⟩
    have hfirst : m.modelArray.take 1 = [e] := by
      rw [List.take_one, List.head?_eq_getElem?, hget, Option.toList_some]
    -- so far the count is exact, whatever is to come
    obtain ⟨rest, hrest⟩ : ∃ rest, 2 ^ 32 ≤ rest := ⟨_, le_rfl⟩
    have hslot : SlotShows m (fun i => (m.mobsLf i).scan s globalTs ts) (0 + 1) rest
        m.modelArray.length ((m.mobsLf 1).visited s) := by
      intro out r N hcount hN
      obtain ⟨r', hr', heq⟩ := hone N hN out
      rw [hcount.exact hrest]
      exact ⟨r', hr' _ hcap, heq⟩
    obtain ⟨st', h', heq⟩ := (hinit (rest + 1)).round s globalTs m.capacity hn hget
      (harray e (List.mem_of_getElem? hget)) hslot
    have htail := (h'.mono (Nat.sub_le m.modelArray.length 1)).tail s globalTs (k := m.capacity) hn
      harray hunused le_rfl (Nat.add_comm _ _).le
    rw [heq, hfirst]
    exact htail
  · rw [if_neg hzero]
    have htail := (hinit (m.modelArray.length - m.locate s)).tail s globalTs hn harray hunused
      (Nat.one_le_iff_ne_zero.mpr hzero) hlast
    rw [List.nil_append] at htail
    exact htail

theorem scan_ai (out : List (K × Val)) (r : ℕ) :
    (ModelOrBin.ai m).scan s globalTs ts out r =
      (.ai (m.walk s globalTs ts (fun i => (m.mobsLf i).scan s globalTs ts) r out).model,
        (m.walk s globalTs ts (fun i => (m.mobsLf i).scan s globalTs ts) r out).result,
        toSize (toInt32 (m.walk s globalTs ts (fun i => (m.mobsLf i).scan s globalTs ts) r
          out).remaining)) := rfl

/-- The scan of a slot. -/
theorem scan_shows [BoundedOrder K] (h : mob.Wf) (hstamped : mob.StampedBelow ts) :
    mob.ScanShows s globalTs ts := by
  induction mob using ModelOrBin.slotInduction with
  | null => exact fun N _ out => ⟨N, fun _ _ => .inl rfl, by simp [ModelOrBin.scan, visited]⟩
  | bin lflb =>
    intro N hN out
    refine ⟨_, fun rest hrest => ?_, bin_scan_eq h hstamped hN out⟩
    exact Counts.converted rfl (lt_of_le_of_lt (Nat.sub_le _ _) hN) hrest
  | ai m ih =>
    intro N hN out
    obtain ⟨harr, hslots⟩ := wf_ai.mp h
    have hwalk := walk_shows h hstamped (ih 1 (hslots 1).1 (hstamped.of_slot harr.pos)) hN out
    generalize hst : m.walk s globalTs ts (fun i =>
      (m.mobsLf i).scan s globalTs ts) N out = st at hwalk
    refine ⟨toSize (toInt32 st.remaining), fun rest hrest => ?_, ?_⟩
    · exact Counts.converted hwalk.remaining.mod (lt_of_le_of_lt (Nat.sub_le _ _) hN) hrest
    · rw [scan_ai, hst, hwalk.model, hwalk.result]

end ModelOrBin

end KanvaRS
