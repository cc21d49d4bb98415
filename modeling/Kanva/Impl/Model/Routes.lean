import Kanva.Impl.Model.Training

/-!
# Where a key is looked up

The calls of `Kanva` go down the same way for the same key: to the segment `find_model` selects, to
the position or the slot of its array, and on into nested models. `Target` is where this ends. What
a call finds there decides what it does, and a call changes only its own target. A key has no target
when a search on the way fails its assertion.

## Main results

* `ModelOrBin.findRetrain_eq`: `find_retrain` answers from the target.
* `ModelOrBin.target_isSome_iff`: the searches on the way to the target end unless a sum wraps
  around.
* `KanvaIndex.target_setModel`: writing the model of a key leaves the targets of the other keys to
  that model.
-/

namespace KanvaImpl

open Kanva

/-- The end of the way down for a key: an empty slot, a bin, or an array entry with the key. -/
inductive Target (K : Type) where
  | null
  | bin (lflb : SeqBin K)
  | entry (val : Val)

variable {K : Type} [LinearOrder K] [BoundedOrder K] [Zero K]

omit [BoundedOrder K] [Zero K] in
/-- The target of a key from a slot on. -/
def ModelOrBin.target (key : K) : ModelOrBin K → Option (Target K)
  | .null => some .null
  | .bin lflb => some (.bin lflb)
  | .ai ⟨model, maxErr, capacity, keys, vals, mobsLf⟩ =>
    let m : KanvaModel K := ⟨model, maxErr, capacity, keys, vals, mobsLf⟩
    match m.findPos? key with
    | none => none
    | some (.entry pos) => some (.entry (vals pos))
    | some (.slot i) => (mobsLf i).target key

/-- The target of a key in a model. -/
def KanvaModel.target (m : KanvaModel K) (key : K) : Option (Target K) :=
  (ModelOrBin.ai m).target key

section Target

variable {m : KanvaModel K} {key : K}

omit [BoundedOrder K] [Zero K] in
theorem KanvaModel.target_eq (m : KanvaModel K) (key : K) : m.target key =
    match m.findPos? key with
    | none => none
    | some (.entry pos) => some (.entry (m.vals pos))
    | some (.slot i) => (m.mobsLf i).target key := by
  cases m
  rw [target, ModelOrBin.target]

omit [BoundedOrder K] [Zero K] in
theorem KanvaModel.target_of_none (h : m.findPos? key = none) : m.target key = none := by
  rw [target_eq, h]

omit [BoundedOrder K] [Zero K] in
theorem KanvaModel.target_of_entry {pos : ℕ} (h : m.findPos? key = some (.entry pos)) :
    m.target key = some (.entry (m.vals pos)) := by
  rw [target_eq, h]

omit [BoundedOrder K] [Zero K] in
theorem KanvaModel.target_of_slot {i : ℕ} (h : m.findPos? key = some (.slot i)) :
    m.target key = (m.mobsLf i).target key := by
  rw [target_eq, h]

end Target

/-- The answer of `find_retrain` at a target. -/
def Target.answer (key : K) : Target K → Val
  | .null => -1
  | .bin lflb => lflb.search key
  | .entry val => val

omit [Zero K] in
/-- `find_retrain` answers from the target. -/
theorem ModelOrBin.findRetrain_eq (mob : ModelOrBin K) (key : K) :
    mob.findRetrain key = (mob.target key).map (Target.answer key) := by
  induction mob using ModelOrBin.slotInduction with
  | null => rfl
  | bin b => rfl
  | ai m ih =>
    have hfind : (ModelOrBin.ai m).findRetrain key =
        match m.findPos? key with
        | none => none
        | some (.entry pos) => some (m.vals pos)
        | some (.slot i) => (m.mobsLf i).findRetrain key := by
      cases m
      exact findRetrain.eq_def key _
    show _ = (KanvaModel.target m key).map (Target.answer key)
    rw [hfind, KanvaModel.target_eq]
    rcases m.findPos? key with _ | pos | i
    · rfl
    · rfl
    · exact ih i

/-! ### The searches on the way -/

section Searches

variable {mob : ModelOrBin K} {key : K}

/-- The positions of all models are `int`s, and their error bounds are `size_t`s. -/
inductive ModelOrBin.Counted : ModelOrBin K → Prop
  | null : Counted .null
  | bin (lflb : SeqBin K) : Counted (.bin lflb)
  | ai {m : KanvaModel K} : 0 < m.capacity → m.capacity + 1 < 2 ^ 31 → m.maxErr < 2 ^ 64 →
      (∀ i, Counted (m.mobsLf i)) → Counted (.ai m)

omit [BoundedOrder K] [Zero K] in
/-- No sum wraps around in the searches for the key, from a slot on. -/
def ModelOrBin.SumsFit (key : K) : ModelOrBin K → Prop
  | .null => True
  | .bin _ => True
  | .ai ⟨model, maxErr, capacity, keys, vals, mobsLf⟩ =>
    let m : KanvaModel K := ⟨model, maxErr, capacity, keys, vals, mobsLf⟩
    m.SumFits key ∧ (key ≠ m.keys (m.locate key) → (mobsLf (m.binPos key)).SumsFit key)

/-- No sum wraps around in the searches for the key, from a model on. -/
def KanvaModel.SumsFit (m : KanvaModel K) (key : K) : Prop := (ModelOrBin.ai m).SumsFit key

omit [BoundedOrder K] [Zero K] in
theorem KanvaModel.sumsFit_iff (m : KanvaModel K) (key : K) : m.SumsFit key ↔ m.SumFits key ∧
    (key ≠ m.keys (m.locate key) → (m.mobsLf (m.binPos key)).SumsFit key) := Iff.rfl

omit [BoundedOrder K] [Zero K] in
/-- The searches on the way to the target end unless a sum wraps around. -/
theorem ModelOrBin.target_isSome_iff (h : mob.Counted) (key : K) :
    (mob.target key).isSome ↔ mob.SumsFit key := by
  induction h with
  | null => exact iff_of_true rfl trivial
  | bin lflb => exact iff_of_true rfl trivial
  | @ai m hpos hcap hmax _ ih =>
    show (KanvaModel.target m key).isSome ↔ KanvaModel.SumsFit m key
    rw [KanvaModel.target_eq, KanvaModel.sumsFit_iff]
    by_cases hfits : m.SumFits key
    · rw [ModelOver.findPos?_of_fits hcap hpos hfits]
      by_cases hhit : key = m.keys (m.locate key)
      · rw [if_pos hhit]
        exact iff_of_true rfl ⟨hfits, fun h => absurd hhit h⟩
      · rw [if_neg hhit]
        simp only [hfits, ih, hhit, ne_eq, not_false_iff, true_and, forall_const]
    · have hnone : m.findPos? key = none := by
        rw [← Option.not_isSome_iff_eq_none, ModelOver.findPos?_isSome_iff hcap hpos hmax]
        exact hfits
      rw [hnone]
      exact iff_of_false Bool.false_ne_true fun h => hfits h.1

end Searches

section Writes

variable (m : KanvaModel K) (key : K) (i : ℕ)

omit [BoundedOrder K] [Zero K] in
@[simp] theorem findPos?_setMob (mob : ModelOrBin K) :
    (m.setMob i mob).findPos? key = m.findPos? key := (m.sameArray_setMob i mob).findPos?_eq

omit [BoundedOrder K] [Zero K] in
@[simp] theorem findPos?_setVal (val : Val) :
    (m.setVal i val).findPos? key = m.findPos? key := (m.sameArray_setVal i val).findPos?_eq

omit [BoundedOrder K] [Zero K] in
/-- Writing a slot changes the targets of the keys that go there. -/
theorem target_setMob (mob : ModelOrBin K) :
    KanvaModel.target (m.setMob i mob) key =
      if m.findPos? key = some (.slot i) then mob.target key else m.target key := by
  rw [KanvaModel.target_eq, KanvaModel.target_eq, findPos?_setMob]
  rcases hpos : m.findPos? key with _ | pos | j
  · rfl
  · rfl
  · show (Function.update m.mobsLf i mob j).target key = _
    by_cases hj : j = i
    · rw [hj, Function.update_self, if_pos rfl]
    · rw [Function.update_of_ne hj, if_neg]
      exact fun h => hj (ModelPos.slot.inj (Option.some.inj h))

omit [LinearOrder K] [BoundedOrder K] [Zero K] in
/-- What holds of all slots and of the new one holds of all slots after the write. -/
theorem forall_setMob {P : ModelOrBin K → Prop} (h : ∀ j, P (m.mobsLf j)) {mob : ModelOrBin K}
    (hmob : P mob) (j : ℕ) : P ((m.setMob i mob).mobsLf j) := by
  show P (Function.update m.mobsLf i mob j)
  by_cases hj : j = i
  · rw [hj, Function.update_self]
    exact hmob
  · rw [Function.update_of_ne hj]
    exact h j

omit [BoundedOrder K] [Zero K] in
/-- Writing the entry of a key changes no other target. -/
theorem target_setVal {x : K} (hx : x ≠ m.keys i) (val : Val) :
    KanvaModel.target (m.setVal i val) x = m.target x := by
  rw [KanvaModel.target_eq, KanvaModel.target_eq, findPos?_setVal]
  rcases hpos : m.findPos? x with _ | pos | j
  · rfl
  · have hne : pos ≠ i := by
      rintro rfl
      exact hx (ModelOver.keys_of_posOr? hpos).2.symm
    show some (Target.entry (Function.update m.vals i val pos)) = _
    rw [Function.update_of_ne hne]
  · rfl

end Writes

namespace KanvaIndex

variable (kv : KanvaIndex K)

/-- The target of a key in the index, if there is a model. -/
def target (key : K) : Option (Target K) := (kv.aimodels[kv.findModel key]?).bind fun m =>
    m.target key

/-- No sum wraps around in the searches for the key. -/
def SumsFit (key : K) : Prop := ∀ m ∈ kv.aimodels[kv.findModel key]?, KanvaModel.SumsFit m key

omit [BoundedOrder K] in
/-- The keys of a model have their targets in it. -/
theorem target_of_findModel {kv : KanvaIndex K} {x key : K} {m : KanvaModel K}
    (hm : kv.aimodels[kv.findModel key]? = some m) (hx : kv.findModel x = kv.findModel key) :
    kv.target x = m.target x := by
  rw [target, hx, hm]
  rfl

theorem find_eq (key : K) : kv.find key = (kv.target key).map (Target.answer key) := by
  rw [find, target]
  rcases kv.aimodels[kv.findModel key]? with _ | m
  · rfl
  · exact ModelOrBin.findRetrain_eq (.ai m) key

omit [BoundedOrder K] in
@[simp] theorem findModel_setModel (key x : K) (m : KanvaModel K) :
    (kv.setModel key m).findModel x = kv.findModel x := by
  simp only [findModel, setModel, List.length_set]

omit [BoundedOrder K] in
/-- Writing the model of a key changes the targets of the keys of that model. -/
theorem target_setModel (key x : K) (m' : KanvaModel K)
    (hm : (kv.aimodels[kv.findModel key]?).isSome) :
    (kv.setModel key m').target x =
      if kv.findModel x = kv.findModel key then m'.target x else kv.target x := by
  rw [target, findModel_setModel]
  simp only [setModel]
  split
  · next h =>
    rw [h, List.getElem?_set_self]
    · rfl
    · obtain ⟨m, hm⟩ := Option.isSome_iff_exists.mp hm
      exact (List.getElem?_eq_some_iff.mp hm).1
  · next h =>
    rw [List.getElem?_set_ne (Ne.symm h)]
    rfl

end KanvaIndex

end KanvaImpl
