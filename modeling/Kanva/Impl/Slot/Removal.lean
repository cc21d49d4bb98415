import Kanva.Impl.Slot.Finding

/-!
# Removals and retraining

A bin that is sealed is collected, and the model of the collected pairs takes its place, while other
threads go on removing from the bin. A removal is lost when the model has a pair that was removed
after it had been collected, or when `remove` meets the sealed bin: it takes the `false` of the bin
for a success.

`SlotMem.KeyInv` extends the invariant of the outermost bin to its slot: a key in the array of the
model has been taken from the bin by a collection, so that it has not been removed there. Below the
model, the key is nowhere unless a call inserts it.

## Main results

* `SlotMem.keyStep_ok`: every step keeps the invariant.
-/

namespace KanvaImpl

open Kanva Interleaving

/-- The pair has another key. -/
def OtherKey {K : Type} (key k : K) (_ : Val) : Prop := k ≠ key

/-- The update does not insert the key. -/
def Update.Spares {K : Type} (key : K) (u : Update K) : Prop := ∀ value, u ≠ .insert key value

/-- The array of a model does not have the key. -/
def ModelOver.Lacks {K Slot : Type} (key : K) (m : ModelOver K Slot) : Prop :=
  ∀ i < m.capacity, m.keys i ≠ key

theorem Update.spares_of_key_ne {K : Type} {key : K} {u : Update K} (h : u.key ≠ key) :
    u.Spares key := fun value heq => h (by rw [heq]; rfl)

theorem Update.Spares.brings {K : Type} {key : K} {u : Update K} (h : u.Spares key) :
    u.Brings (OtherKey key) := by
  cases u with
  | insert k value => exact fun _ hk => h value (by rw [hk])
  | remove k => trivial

theorem otherKey_sentinels {K : Type} [LinearOrder K] [BoundedOrder K] {key : K}
    (hrange : ⊥ < key ∧ key < ⊤) : Sentinels (OtherKey key) := ⟨hrange.1.ne, hrange.2.ne'⟩

namespace SlotMem

variable {K : Type} [LinearOrder K]

/-- The outermost bin does not hold the key, and the value of the key in the outermost model is the
tombstone. -/
structure Absent (key : K) (s : SlotMem K) : Prop where
  bin : (∀ m, s.mobsLf [] ≠ .ai m) → ¬ (s.bin []).Held key
  array : ∀ m pos, s.mobsLf [] = .ai m → m.findPos? key = some (.entry pos) → m.vals pos = -1

/-- The slots of every model are below its own slot. -/
def Nested (s : SlotMem K) : Prop := ∀ p m, s.mobsLf p = .ai m → ∀ i, m.mobsLf i = i :: p

/-- The invariant of a slot in which one key is followed. -/
structure KeyInv [BoundedOrder K] (key : K) (quiet : Prop) (s : SlotMem K) : Prop where
  nested : s.Nested
  bin : (s.bin []).KeyInv key
  /-- The model has been made from a sealed bin. -/
  array : ∀ m, s.mobsLf [] = .ai m → (s.bin []).root.isMarked = true ∧
    ∀ i < m.capacity, m.keys i = key → (s.bin []).TakenBelow key
  /-- Nothing is below a slot without a model. -/
  below : (quiet ∨ ∀ m, s.mobsLf [] ≠ .ai m) → ∀ p ≠ [], (s.bin p).Each (OtherKey key) ∧
    ∀ m, s.mobsLf p = .ai m → m.Lacks key

/-- What a step of any thread leaves alone. A model only gets tombstones. -/
structure KeyGuar (key : K) (quiet : Prop) (s s' : SlotMem K) : Prop where
  bin : BinMem.KeyGuar key quiet (s.bin []) (s'.bin [])
  model : ∀ m, s.mobsLf [] = .ai m →
    ∃ vals, s'.mobsLf [] = .ai { m with vals := vals } ∧ ∀ i, m.vals i = -1 → vals i = -1
  absent : quiet → s.Absent key → s'.Absent key

end SlotMem

/-- The update does not bring the key while that is quiet, and below a slot with a model it has left
the outermost model without the key. -/
structure Call.At {K : Type} [LinearOrder K] [BoundedOrder K] (key : K) (quiet : Prop)
    (s : SlotMem K) (c : Call K) (p : SlotAddr) : Prop where
  range : (SlotOp.change c).InRange
  spares : quiet → c.update.Spares key
  below : p ≠ [] → (∃ m, s.mobsLf [] = .ai m) ∧ (quiet → c = .remove key → s.Absent key)

/-- A thread inside a call on the bin of a slot. -/
structure BinPc.At {K : Type} [LinearOrder K] [BoundedOrder K] (key : K) (quiet : Prop)
    (s : SlotMem K) (p : SlotAddr) (pc : BinPc K) : Prop where
  top : p = [] → pc.KeyOk key quiet (s.bin [])
  below : p ≠ [] → quiet → pc.Brings (OtherKey key)

/-- What the local variables of a thread satisfy at each program point. -/
def SlotPc.KeyOk {K : Type} [LinearOrder K] [BoundedOrder K] (key : K) (quiet : Prop)
    (s : SlotMem K) : SlotPc K → Prop
  | .ret (.returned c r) => quiet → c = .remove key → r = true → s.Absent key
  | .load (.change c) p | .enterAi (.change c) p => c.At key quiet s p
  | .publishBin k val p => (Call.insert k val).At key quiet s p
  | .inBin (.change c) p pc => c.At key quiet s p ∧ pc.For c.update ∧ pc.At key quiet s p
  | .inBin (.find k) _ pc => pc.Searching k
  | .collect c p pc => c.At key quiet s p ∧ pc.Collecting ∧ pc.At key quiet s p
  | .publishAi c p pairs => c.At key quiet s p ∧
      (p = [] → (s.bin []).root.isMarked = true ∧
        (key ∈ pairs.map Prod.fst → (s.bin []).TakenBelow key)) ∧
      (p ≠ [] → quiet → key ∉ pairs.map Prod.fst)
  | .value (.change c) p pos => c.At key quiet s p ∧
      (p = [] → ∃ m, s.mobsLf [] = .ai m ∧ m.findPos? c.key = some (.entry pos))
  | _ => True

/-- The removal of the key does not load the root of a sealed bin. -/
def MissesSeal {K : Type} (key : K) (b : BinMem K) : BinPc K → Prop
  | .loadRoot op => op = .update (.remove key) → b.root.isMarked = false
  | _ => True

/-- A step in a slot that loses no removal of the key. Only the steps in the outermost bin can.
While the key is quiet, no call inserts it. -/
def SlotKeepsRemovals {K : Type} [Zero K] (key : K) (quiet : Prop) (s : SlotMem K) (pc : SlotPc K)
    (op : SlotOp K) : Prop :=
  match pc, op with
  | .ret _, .change (.insert k _) => quiet → k ≠ key
  | .inBin _ [] pc, _ => KeyKept key (s.bin []) pc ∧ MissesSeal key (s.bin []) pc
  | .collect _ [] pc, _ => KeyKept key (s.bin []) pc
  | _, _ => True

instance {K : Type} [DecidableEq K] (key : K) (b : BinMem K) (pc : BinPc K) :
    Decidable (MissesSeal key b pc) := by
  delta MissesSeal
  induction pc using BinPc.casesOn <;> infer_instance

instance {K : Type} [DecidableEq K] [Zero K] (key : K) (quiet : Prop) [Decidable quiet]
    (s : SlotMem K) (pc : SlotPc K) (op : SlotOp K) :
    Decidable (SlotKeepsRemovals key quiet s pc op) := by
  delta SlotKeepsRemovals
  induction pc using SlotPc.casesOn with
  | ret r =>
    induction op using SlotOp.casesOn with
    | change c => induction c using Call.casesOn <;> infer_instance
    | find k => infer_instance
  | inBin d p pc => induction p using List.casesOn <;> infer_instance
  | collect d p pc => induction p using List.casesOn <;> infer_instance
  | _ => infer_instance

namespace SlotMem

variable {K : Type} [LinearOrder K] [BoundedOrder K] {key : K} {quiet : Prop} {s s' : SlotMem K}
  {p : SlotAddr} {c : Call K}

omit [BoundedOrder K] in
theorem KeyGuar.refl (key : K) (quiet : Prop) (s : SlotMem K) : KeyGuar key quiet s s :=
  ⟨.refl key quiet _, fun m hm => ⟨m.vals, hm, fun _ h => h⟩, fun _ h => h⟩

omit [BoundedOrder K] in
theorem KeyGuar.trans {s'' : SlotMem K} (h : KeyGuar key quiet s s')
    (h' : KeyGuar key quiet s' s'') : KeyGuar key quiet s s'' where
  bin := h.bin.trans h'.bin
  model m hm := by
    obtain ⟨vals, hm', hvals⟩ := h.model m hm
    obtain ⟨vals', hm'', hvals'⟩ := h'.model _ hm'
    exact ⟨vals', hm'', fun i hi => hvals' i (hvals i hi)⟩
  absent hq ha := h'.absent hq (h.absent hq ha)

/-! ### The writes -/

omit [LinearOrder K] [BoundedOrder K] in
/-- An index of the array of a retrained model has a collected key. -/
theorem modelAt_keys_mem [Zero K] {fit : List K → LinearRegressionModel K} {pairs : List (K × Val)}
    {i : ℕ} (hi : i < (modelAt p (retrained fit pairs)).capacity) :
    (modelAt p (retrained fit pairs)).keys i ∈ pairs.map Prod.fst := by
  have hi : i < (pairs.map Prod.fst).length := by rwa [List.length_map]
  have hget : (pairs.map Prod.fst).getD i 0 = (pairs.map Prod.fst)[i] := by
    rw [List.getD_eq_getElem?_getD, List.getElem?_eq_getElem hi]
    rfl
  have hkeys : (modelAt p (retrained fit pairs)).keys i = (pairs.map Prod.fst).getD i 0 := rfl
  rw [hkeys, hget]
  exact List.getElem_mem hi

omit [LinearOrder K] [BoundedOrder K] in
theorem Nested.setMob (h : s.Nested) {w : SlotWord K}
    (hw : ∀ m, w = .ai m → ∀ i, m.mobsLf i = i :: p) : (s.setMob p w).Nested := by
  intro r m hm
  by_cases hrp : r = p
  · exact hrp ▸ hw m (by simpa [SlotMem.setMob, hrp] using hm)
  · exact h r m (by simpa [SlotMem.setMob, hrp] using hm)

/-- A step in the outermost bin. -/
theorem KeyInv.setBin_top {b : BinMem K} (h : s.KeyInv key quiet) (hb : b.KeyInv key)
    (hg : BinMem.KeyGuar key quiet (s.bin []) b) :
    (s.setBin [] b).KeyInv key quiet ∧ KeyGuar key quiet s (s.setBin [] b) := by
  have htop : (s.setBin [] b).bin [] = b := by simp [SlotMem.setBin]
  have hothers : ∀ p ≠ [], (s.setBin [] b).bin p = s.bin p := fun p hp => by
    simp [SlotMem.setBin, hp]
  -- the words are as before, and the bins below as well
  refine ⟨⟨h.nested, htop ▸ hb, fun m hm => ?_, fun hq p hp => ?_⟩, htop ▸ hg,
    fun m hm => ⟨m.vals, hm, fun _ h => h⟩, fun hq ha => ⟨fun hnot => ?_, ha.array⟩⟩
  · obtain ⟨hmark, htaken⟩ := h.array m hm
    -- the array has been made of a sealed bin, which stays sealed
    rw [htop]
    refine ⟨?_, fun i hi hk => (htaken i hi hk).mono h.bin hg hmark⟩
    rw [hg.sealed hmark]
    exact hmark
  · rw [hothers p hp]
    exact h.below hq p hp
  · rw [htop]
    exact hg.absent hq (ha.bin hnot)

/-- A step in a bin below a model. -/
theorem KeyInv.setBin_below {b : BinMem K} (h : s.KeyInv key quiet) (hp : p ≠ [])
    (htop : ∃ m, s.mobsLf [] = .ai m) (hb : quiet → b.Each (OtherKey key)) :
    (s.setBin p b).KeyInv key quiet ∧ KeyGuar key quiet s (s.setBin p b) := by
  -- the outermost bin is another one
  have hsame : (s.setBin p b).bin [] = s.bin [] := by simp [SlotMem.setBin, Ne.symm hp]
  refine ⟨⟨h.nested, hsame ▸ h.bin, hsame ▸ h.array, fun hq r hr => ⟨?_, (h.below hq r hr).2⟩⟩,
    hsame ▸ .refl key quiet _, fun m hm => ⟨m.vals, hm, fun _ h => h⟩,
    fun _ ha => ⟨hsame ▸ ha.bin, ha.array⟩⟩
  by_cases hrp : r = p
  · obtain ⟨m, hm⟩ := htop
    have hquiet : quiet := hq.resolve_right fun hnot => hnot m hm
    simpa [SlotMem.setBin, hrp] using hb hquiet
  · simpa [SlotMem.setBin, hrp] using (h.below hq r hr).1

/-- A write of the word of a slot below a model. -/
theorem KeyInv.setMob_below {w : SlotWord K} (h : s.KeyInv key quiet) (hp : p ≠ [])
    (htop : ∃ m, s.mobsLf [] = .ai m) (hnested : ∀ m, w = .ai m → ∀ i, m.mobsLf i = i :: p)
    (hw : quiet → ∀ m, w = .ai m → m.Lacks key) :
    (s.setMob p w).KeyInv key quiet ∧ KeyGuar key quiet s (s.setMob p w) := by
  -- the outermost word is another one
  have hsame : (s.setMob p w).mobsLf [] = s.mobsLf [] := by simp [SlotMem.setMob, Ne.symm hp]
  refine ⟨⟨h.nested.setMob hnested, h.bin, hsame ▸ h.array, fun hq r hr => ?_⟩, .refl key quiet _,
    fun m hm => ⟨m.vals, hsame ▸ hm, fun _ h => h⟩,
    fun _ ha => ⟨hsame ▸ ha.bin, hsame ▸ ha.array⟩⟩
  rw [hsame] at hq
  refine ⟨(h.below hq r hr).1, fun m hm => ?_⟩
  by_cases hrp : r = p
  · obtain ⟨m', hm'⟩ := htop
    have hquiet : quiet := hq.resolve_right fun hnot => hnot m' hm'
    exact hw hquiet m (by simpa [SlotMem.setMob, hrp] using hm)
  · exact (h.below hq r hr).2 m (by simpa [SlotMem.setMob, hrp] using hm)

/-- The publication of the outermost bin. -/
theorem KeyInv.publishBin (h : s.KeyInv key quiet) (hnull : s.mobsLf [] = .null) :
    (s.setMob [] .bin).KeyInv key quiet ∧ KeyGuar key quiet s (s.setMob [] .bin) := by
  have htop : (s.setMob [] .bin).mobsLf [] = .bin := by simp [SlotMem.setMob]
  have hnull' : ∀ m, s.mobsLf [] ≠ .ai m := fun m hm => by simp [hnull] at hm
  have hword : ∀ m, (.bin : SlotWord K) ≠ .ai m := fun m hm => by cases hm
  refine ⟨⟨h.nested.setMob fun m hm => absurd hm (hword m), h.bin, fun m hm => ?_,
      fun _ r hr => ⟨(h.below (.inr hnull') r hr).1, fun m hm => ?_⟩⟩,
    .refl key quiet _, fun m hm => absurd hm (hnull' m),
    fun _ ha => ⟨fun _ => ha.bin hnull', fun m pos hm => ?_⟩⟩
  · simp [htop] at hm
  · exact (h.below (.inr hnull') r hr).2 m (by simpa [SlotMem.setMob, hr] using hm)
  · simp [htop] at hm

/-- The publication of the model of the outermost bin: a key that has been removed from the bin is
not in its array. -/
theorem KeyInv.publishAi [Zero K] (h : s.KeyInv key quiet) {fit : List K → LinearRegressionModel K}
    {pairs : List (K × Val)} (hbin : s.mobsLf [] = .bin) (hmark : (s.bin []).root.isMarked = true)
    (htaken : key ∈ pairs.map Prod.fst → (s.bin []).TakenBelow key) :
    (s.setMob [] (.ai (modelAt [] (retrained fit pairs)))).KeyInv key quiet ∧
      KeyGuar key quiet s (s.setMob [] (.ai (modelAt [] (retrained fit pairs)))) := by
  have htop : (s.setMob [] (.ai (modelAt [] (retrained fit pairs)))).mobsLf [] =
      .ai (modelAt [] (retrained fit pairs)) := by simp [SlotMem.setMob]
  have hbin' : ∀ m, s.mobsLf [] ≠ .ai m := fun m hm => by simp [hbin] at hm
  refine ⟨⟨h.nested.setMob fun m hm i => ?_, h.bin, fun m hm => ⟨hmark, fun i hi hk => ?_⟩,
      fun _ r hr => ⟨(h.below (.inr hbin') r hr).1, fun m hm => ?_⟩⟩,
    .refl key quiet _, fun m hm => absurd hm (hbin' m),
    fun _ ha => ⟨fun hnot => absurd htop (hnot _), fun m pos hm hpos => ?_⟩⟩
  · obtain rfl := SlotWord.ai.inj hm
    rfl
  · obtain rfl := SlotWord.ai.inj (htop.symm.trans hm)
    exact htaken (hk ▸ modelAt_keys_mem hi)
  · exact (h.below (.inr hbin') r hr).2 m (by simpa [SlotMem.setMob, hr] using hm)
  -- an entry with the key would have been taken from a bin that holds it
  · obtain rfl := SlotWord.ai.inj (htop.symm.trans hm)
    obtain ⟨hlt, hk⟩ := ModelOver.keys_of_posOr? hpos
    exact absurd (h.bin.held_of_taken (htaken (hk ▸ modelAt_keys_mem hlt))) (ha.bin hbin')

/-- A removal in the array of the outermost model. -/
theorem KeyInv.setVal (h : s.KeyInv key quiet) {m : ModelOver K SlotAddr} (pos : ℕ)
    (hm : s.mobsLf [] = .ai m) :
    (s.setMob [] (.ai (m.setVal pos (-1)))).KeyInv key quiet ∧
      KeyGuar key quiet s (s.setMob [] (.ai (m.setVal pos (-1)))) := by
  have htop : (s.setMob [] (.ai (m.setVal pos (-1)))).mobsLf [] = .ai (m.setVal pos (-1)) := by
    simp [SlotMem.setMob]
  -- the tombstones stay
  have hvals : ∀ i, m.vals i = -1 → (m.setVal pos (-1)).vals i = -1 := by
    intro i hi
    by_cases hip : i = pos <;> simp [ModelOver.setVal, hip, hi]
  refine ⟨⟨h.nested.setMob fun m' hm' => ?_, h.bin, fun m' hm' => ?_,
      fun hq r hr => ⟨?_, fun m' hm' => ?_⟩⟩,
    .refl key quiet _, fun m' hm' => ?_,
    fun _ ha => ⟨fun hnot => absurd htop (hnot _), fun m' i hm' hpos => ?_⟩⟩
  · obtain rfl := SlotWord.ai.inj hm'
    exact h.nested [] m hm
  · obtain rfl := SlotWord.ai.inj (htop.symm.trans hm')
    exact h.array m hm
  · exact (h.below (hq.imp_right fun hnot => absurd htop (hnot _)) r hr).1
  · have hquiet : quiet := hq.resolve_right fun hnot => hnot _ htop
    exact (h.below (.inl hquiet) r hr).2 m' (by simpa [SlotMem.setMob, hr] using hm')
  · obtain rfl := SlotWord.ai.inj (hm.symm.trans hm')
    exact ⟨_, htop, hvals⟩
  · obtain rfl := SlotWord.ai.inj (htop.symm.trans hm')
    rw [(m.sameArray_setVal pos (-1)).findPos?_eq] at hpos
    exact hvals i (ha.array m i hm hpos)

omit [BoundedOrder K] in
/-- The value at the position of a key that has been removed. -/
theorem absent_setVal {m : ModelOver K SlotAddr} {pos : ℕ}
    (hpos : m.findPos? key = some (.entry pos)) :
    (s.setMob [] (.ai (m.setVal pos (-1)))).Absent key := by
  have htop : (s.setMob [] (.ai (m.setVal pos (-1)))).mobsLf [] = .ai (m.setVal pos (-1)) := by
    simp [SlotMem.setMob]
  refine ⟨fun hnot => absurd htop (hnot _), fun m' i hm' hi => ?_⟩
  obtain rfl := SlotWord.ai.inj (htop.symm.trans hm')
  rw [(m.sameArray_setVal pos (-1)).findPos?_eq, hpos] at hi
  obtain rfl := ModelPos.entry.inj (Option.some.inj hi)
  simp [ModelOver.setVal]

/-! ### The steps -/

/-- What an update has assumed survives the steps of the others. -/
theorem at_mono (hg : KeyGuar key quiet s s') (h : c.At key quiet s p) : c.At key quiet s' p := by
  refine ⟨h.range, h.spares, fun hp => ?_⟩
  obtain ⟨⟨m, hm⟩, habsent⟩ := h.below hp
  obtain ⟨vals, hm', -⟩ := hg.model m hm
  exact ⟨⟨_, hm'⟩, fun hq hc => hg.absent hq (habsent hq hc)⟩

theorem binAt_mono {pc : BinPc K} (hinv : s.KeyInv key quiet) (hg : KeyGuar key quiet s s')
    (h : pc.At key quiet s p) : pc.At key quiet s' p :=
  ⟨fun hp => BinMem.keyOk_mono hinv.bin hg.bin (h.top hp), h.below⟩

/-- The assertion of a thread survives the steps of the others. -/
theorem keyOk_mono {pc : SlotPc K} (hinv : s.KeyInv key quiet) (hg : KeyGuar key quiet s s')
    (h : pc.KeyOk key quiet s) : pc.KeyOk key quiet s' := by
  cases pc with
  | ret r =>
    cases r with
    | returned c r => exact fun hq hc hr => hg.absent hq (h hq hc hr)
    | _ => trivial
  | load op p | enterAi op p =>
    cases op with
    | change c => exact at_mono hg h
    | find k => trivial
  | publishBin k val p => exact at_mono hg h
  | inBin op p pc =>
    cases op with
    | change c => exact ⟨at_mono hg h.1, h.2.1, binAt_mono hinv hg h.2.2⟩
    | find k => exact h
  | collect c p pc => exact ⟨at_mono hg h.1, h.2.1, binAt_mono hinv hg h.2.2⟩
  | publishAi c p pairs =>
    refine ⟨at_mono hg h.1, fun hp => ?_, h.2.2⟩
    obtain ⟨hmark, htaken⟩ := h.2.1 hp
    -- the bin was sealed when it was collected, and stays so
    refine ⟨?_, fun hk => (htaken hk).mono hinv.bin hg.bin hmark⟩
    rw [hg.bin.sealed hmark]
    exact hmark
  | value op p pos =>
    cases op with
    | change c =>
      refine ⟨at_mono hg h.1, fun hp => ?_⟩
      obtain ⟨m, hm, hpos⟩ := h.2 hp
      obtain ⟨vals, hm', -⟩ := hg.model m hm
      -- the array keeps its keys, so the position is still that of the key
      have harray : m.SameArray { m with vals := vals } := ⟨rfl, rfl, rfl, rfl⟩
      exact ⟨_, hm', harray.findPos?_eq.trans hpos⟩
    | find k => trivial

omit [LinearOrder K] [BoundedOrder K] in
/-- A search is at no program point of an update. -/
theorem keyOk_of_finding [LinearOrder K] [BoundedOrder K] {pc : SlotPc K} (h : pc.Finding) :
    pc.KeyOk key quiet s := by
  cases pc with
  | ret r => cases r <;> first | exact h.elim | trivial
  | load op p | enterAi op p | value op p pos => cases op <;> first | exact h.elim | trivial
  | inBin op p pc => cases op <;> first | exact h.elim | exact h
  | _ => exact h.elim

/-- An update goes on with what the word of the slot points at. -/
theorem enter_keyOk (hc : c.At key quiet s p) (w : SlotWord K) :
    (enter (.change c) p w).KeyOk key quiet s := by
  cases w with
  | null =>
    cases c with
    | insert k val => exact hc
    | remove k => exact fun _ _ hr => absurd hr (by decide)
  | bin =>
    have hrange : c.update.InRange := by
      cases c <;> exact hc.range
    exact ⟨hc, rfl, fun _ => ⟨hrange, hc.spares⟩, fun _ hq => (hc.spares hq).brings⟩
  | ai m => exact hc

/-- A key that is not in the bin any more has not been copied to the model. -/
theorem KeyInv.absent (h : s.KeyInv key quiet) (hnot : ¬ (s.bin []).Held key) : s.Absent key :=
  ⟨fun _ => hnot, fun m pos hm hpos => by
    obtain ⟨hlt, hk⟩ := ModelOver.keys_of_posOr? hpos
    exact absurd (h.bin.held_of_taken ((h.array m hm).2 pos hlt hk)) hnot⟩

/-- After the `bool` of the bin: a removal of the key that has returned false would be lost. -/
theorem binReturn_keyOk (h : s.KeyInv key quiet) (hc : c.At key quiet s p) {r : Bool}
    (hret : (BinPc.ret (.updated c.update r)).At key quiet s p)
    (hseal : p = [] → c = .remove key → r = true) : (binReturn c p r).KeyOk key quiet s := by
  cases c with
  | insert k val =>
    cases r with
    | false => exact ⟨hc, trivial, fun hp => (hret.top hp).1 rfl, fun _ _ => trivial⟩
    | true => exact fun _ hk => by cases hk
  | remove k =>
    have heq : (binReturn (.remove k) p r : SlotPc K) = .ret (.returned (.remove k) true) := by
      cases r <;> rfl
    rw [heq]
    intro hq hk _
    -- below the outermost slot the key is absent already
    by_cases hp : p = []
    · refine h.absent ((hret.top hp).2 hq ?_ (hseal hp hk))
      cases hk
      rfl
    · exact (hc.below hp).2 hq hk

variable [Nontrivial K] [Zero K]

/-- A step in the bin of a slot. -/
theorem bin_keyStep (h : s.KeyInv key quiet) (hrange : ⊥ < key ∧ key < ⊤) (hc : c.At key quiet s p)
    {pc pc' : BinPc K} {b : BinMem K} (hpc : pc.At key quiet s p)
    (hok : p = [] → KeyKept key (s.bin []) pc) (hs : (s.bin p).step pc = some (b, pc')) :
    (s.setBin p b).KeyInv key quiet ∧ KeyGuar key quiet s (s.setBin p b) ∧
      pc'.At key quiet (s.setBin p b) p := by
  by_cases hp : p = []
  · subst hp
    obtain ⟨hb, hpc', hg⟩ := BinMem.keyStep_ok h.bin hrange (hpc.top rfl) (hok rfl) hs
    obtain ⟨hinv, hguar⟩ := h.setBin_top hb hg
    refine ⟨hinv, hguar, fun _ => ?_, fun hne => absurd rfl hne⟩
    have htop : (s.setBin [] b).bin [] = b := by simp [SlotMem.setBin]
    rw [htop]
    exact hpc'
  · have heach : quiet → b.Each (OtherKey key) ∧ pc'.Brings (OtherKey key) := fun hq =>
      BinMem.step_each (h.below (.inl hq) p hp).1 (otherKey_sentinels hrange) (hpc.below hp hq) hs
    obtain ⟨hinv, hguar⟩ := h.setBin_below hp (hc.below hp).1 fun hq => (heach hq).1
    exact ⟨hinv, hguar, fun htop => absurd htop hp, fun _ hq => (heach hq).2⟩

/-- A step that loses no removal keeps the invariant and the assertion of its thread. -/
theorem keyStep_ok (fit : List K → LinearRegressionModel K) {pc pc' : SlotPc K} {d : SlotOp K}
    (h : s.KeyInv key quiet) (hrange : ⊥ < key ∧ key < ⊤) (hpc : pc.KeyOk key quiet s)
    (hok : SlotKeepsRemovals key quiet s pc d) (hs : s.step fit pc = some (s', pc')) :
    s'.KeyInv key quiet ∧ pc'.KeyOk key quiet s' ∧ KeyGuar key quiet s s' := by
  -- a search writes nothing
  have hfind : pc.Finding →
      s'.KeyInv key quiet ∧ pc'.KeyOk key quiet s' ∧ KeyGuar key quiet s s' := by
    intro hf
    obtain ⟨rfl, hf'⟩ := step_finding hf hs
    exact ⟨h, keyOk_of_finding hf', .refl key quiet _⟩
  cases pc with
  | ret r => simp [step] at hs
  | load op p =>
    cases op with
    | find k => exact hfind trivial
    | change c =>
      cases hs
      exact ⟨h, enter_keyOk hpc _, .refl key quiet _⟩
  | publishBin k val p =>
    rw [step] at hs
    split at hs <;> cases hs
    -- the bin that is published is a new one
    · next hnull =>
      have hboth : (s.setMob p .bin).KeyInv key quiet ∧ KeyGuar key quiet s (s.setMob p .bin) := by
        by_cases hp : p = []
        · subst hp
          exact h.publishBin hnull
        · exact h.setMob_below hp (hpc.below hp).1 (fun m hm => by cases hm)
            fun _ m hm => by cases hm
      exact ⟨hboth.1, enter_keyOk (at_mono hboth.2 hpc) _, hboth.2⟩
    · exact ⟨h, enter_keyOk hpc _, .refl key quiet _⟩
  | inBin op p pc =>
    cases op with
    | find k => exact hfind hpc
    | change c =>
      obtain ⟨hc, hfor, hat⟩ := hpc
      rw [step] at hs
      obtain ⟨⟨b, pc'⟩, hb, heq⟩ := Option.map_eq_some_iff.mp hs
      cases heq
      have hkept : p = [] → KeyKept key (s.bin []) pc ∧ MissesSeal key (s.bin []) pc := by
        rintro rfl
        exact hok
      obtain ⟨hinv, hguar, hat'⟩ := bin_keyStep h hrange hc hat (fun hp => (hkept hp).1) hb
      have hfor' := BinMem.step_for hfor hb
      -- the call goes on in the bin, or has its bool
      refine ⟨hinv, ?_, hguar⟩
      rcases afterBin_change p c pc' with ⟨u, r, rfl, heq⟩ | heq <;> rw [heq]
      · obtain rfl : u = c.update := hfor'
        refine binReturn_keyOk hinv (at_mono hguar hc) hat' fun hp hk => ?_
        cases r with
        | true => rfl
        | false =>
          -- only the load of a sealed root makes the bin return false
          subst hp hk
          obtain ⟨rfl, hm⟩ := BinMem.step_false hb
          rw [(hkept rfl).2 rfl] at hm
          cases hm
      · exact ⟨at_mono hguar hc, hfor', hat'⟩
  | collect c p pc =>
    obtain ⟨hc, hcoll, hat⟩ := hpc
    rw [step] at hs
    obtain ⟨⟨b, pc'⟩, hb, heq⟩ := Option.map_eq_some_iff.mp hs
    cases heq
    have hkept : p = [] → KeyKept key (s.bin []) pc := by
      rintro rfl
      exact hok
    obtain ⟨hinv, hguar, hat'⟩ := bin_keyStep h hrange hc hat hkept hb
    refine ⟨hinv, ?_, hguar⟩
    -- the collected pairs become a model in the next step
    split
    · next keys vals =>
      refine ⟨at_mono hguar hc, fun hp => ⟨(hat'.top hp).1, fun hk => (hat'.top hp).2 ?_⟩,
        fun hp hq hk => ?_⟩
      · obtain ⟨q, hq, rfl⟩ := List.mem_map.mp hk
        exact (List.of_mem_zip hq).1
      · have hbrings : BringsAll (OtherKey key) keys vals := hat'.below hp hq
        obtain ⟨q, hmem, rfl⟩ := List.mem_map.mp hk
        exact hbrings.pair q hmem rfl
    · exact ⟨at_mono hguar hc, BinMem.step_collecting hcoll hb, hat'⟩
  | publishAi c p pairs =>
    obtain ⟨hc, htop, hbelow⟩ := hpc
    rw [step] at hs
    obtain ⟨ai, hai, hs⟩ := Option.map_eq_some_iff.mp hs
    obtain ⟨-, rfl⟩ := retrained?_eq_some.mp hai
    split at hs <;> cases hs
    · next hbin =>
      have hboth : (s.setMob p (.ai (modelAt p (retrained fit pairs)))).KeyInv key quiet ∧
          KeyGuar key quiet s (s.setMob p (.ai (modelAt p (retrained fit pairs)))) := by
        by_cases hp : p = []
        · subst hp
          exact h.publishAi hbin (htop rfl).1 (htop rfl).2
        -- no pair from a bin below a model has the key
        · refine h.setMob_below hp (hc.below hp).1 (fun m hm i => ?_) fun hq m hm i hi hk => ?_
          · obtain rfl := SlotWord.ai.inj hm
            rfl
          obtain rfl := SlotWord.ai.inj hm
          exact hbelow hp hq (hk ▸ modelAt_keys_mem hi)
      exact ⟨hboth.1, at_mono hboth.2 hc, hboth.2⟩
    · refine ⟨h, ?_, .refl key quiet _⟩
      cases c with
      | insert k val => exact enter_keyOk hc _
      | remove k => exact hc
  | enterAi op p =>
    cases op with
    | find k => exact hfind trivial
    | change c =>
      rw [step] at hs
      split at hs
      · next m hm =>
        obtain ⟨pos, hpos, heq⟩ := Option.map_eq_some_iff.mp hs
        cases pos with
        | entry pos =>
          cases heq
          refine ⟨h, ⟨hpc, ?_⟩, .refl key quiet _⟩
          rintro rfl
          exact ⟨m, hm, (entry_of_pos? hpos).2.2⟩
        | slot i =>
          cases heq
          refine ⟨h, ⟨hpc.range, hpc.spares, fun _ => ?_⟩, .refl key quiet _⟩
          by_cases hp : p = []
          · -- the array of the outermost model does not have the key
            subst hp
            refine ⟨⟨m, hm⟩, ?_⟩
            rintro hq rfl
            refine ⟨fun hnot => absurd hm (hnot m), fun m' pos hm' hentry => ?_⟩
            obtain rfl := SlotWord.ai.inj (hm.symm.trans hm')
            have hslot : m.findPos? key = some (.slot i) := hpos
            rw [hslot] at hentry
            cases hentry
          · exact hpc.below hp
      · cases hs
  | value op p pos =>
    cases op with
    | find k => exact hfind trivial
    | change c =>
      obtain ⟨hc, hpos⟩ := hpc
      rw [step] at hs
      split at hs
      · next m hm =>
        cases c with
        | insert k val =>
          cases hs
          have hinsert : (Call.insert k val) ≠ .remove key := fun hk => by cases hk
          exact ⟨h, fun _ hk => absurd hk hinsert, .refl key quiet _⟩
        | remove k =>
          cases hs
          by_cases hp : p = []
          · subst hp
            obtain ⟨hinv, hguar⟩ := h.setVal pos hm
            refine ⟨hinv, fun _ hk _ => ?_, hguar⟩
            cases hk
            obtain ⟨m', hm', hentry⟩ := hpos rfl
            obtain rfl := SlotWord.ai.inj (hm.symm.trans hm')
            exact absent_setVal hentry
          -- a model below does not have the key, so this removes another one
          · have hlacks : quiet → ∀ m', (.ai (m.setVal pos (-1)) : SlotWord K) = .ai m' →
                m'.Lacks key := by
              intro hq m' hm'
              obtain rfl := SlotWord.ai.inj hm'
              exact (h.below (.inl hq) p hp).2 m hm
            obtain ⟨hinv, hguar⟩ := h.setMob_below hp (hc.below hp).1 (fun m' hm' => by
              obtain rfl := SlotWord.ai.inj hm'
              exact h.nested p m hm) hlacks
            exact ⟨hinv, fun hq hk _ => hguar.absent hq ((hc.below hp).2 hq hk), hguar⟩
      · cases hs

end SlotMem

end KanvaImpl
