import Kanva.Impl.Bin.Checked
import Kanva.Impl.Model.Locate

/-!
# The models of Kanva

A slot of a `KanvaModel` is empty, or has a bin with the keys inserted there, or has the model a
sealed bin was retrained into.

The calls are those of one thread without interference. A call is given a bound on its depth and on
its rounds. It returns `none` when the bound is too small, and when the source has no defined
result: an assertion of the search for the key fails, an access of a bin is out of bounds, an `int`
overflows, or control flows off the end of `Bin::remove_internal`.

## Main results

* `callModel_mono`: the bound does not matter when it is large enough.
-/

namespace KanvaImpl

open Kanva SortedArray

/-- A pointer to a `model_or_bin_t`. -/
inductive ModelOrBin (K : Type) where
  | null
  | bin (lflb : SeqBin K)
  | ai (ai : ModelOver K (ModelOrBin K))

/-- `KanvaModel` -/
abbrev KanvaModel (K : Type) := ModelOver K (ModelOrBin K)

namespace ModelOrBin

variable {K : Type}

/-- Induction over the slots of a model. -/
@[elab_as_elim]
theorem slotInduction {motive : ModelOrBin K → Prop} (null : motive .null)
    (bin : ∀ b, motive (.bin b))
    (ai : ∀ m : KanvaModel K, (∀ i, motive (m.mobsLf i)) → motive (.ai m)) : ∀ mob, motive mob
  | .null => null
  | .bin b => bin b
  | .ai ⟨_, _, _, _, _, mobsLf⟩ => ai _ fun i => slotInduction null bin ai (mobsLf i)

end ModelOrBin

variable {K : Type} [LinearOrder K] [BoundedOrder K] [Zero K]

omit [LinearOrder K] [BoundedOrder K] in
/-- `KanvaModel::KanvaModel`: the pairs in the arrays and no slot in use. -/
def KanvaModel.new (lrmodel : LinearRegressionModel K) (pairs : List (K × Val)) (maxErr : ℕ) :
    KanvaModel K where
  model := lrmodel.predict
  maxErr := maxErr
  capacity := pairs.length
  keys i := (pairs.map Prod.fst).getD i 0
  vals i := (pairs.map Prod.snd).getD i 0
  mobsLf _ := .null

/-- `find_retrain`, from a slot on. There is no answer when the search for the key fails. -/
def ModelOrBin.findRetrain (key : K) : ModelOrBin K → Option Val
  | .null => some (-1)
  | .bin lflb => some (lflb.search key)
  | .ai ⟨model, maxErr, capacity, keys, vals, mobsLf⟩ =>
    let m : KanvaModel K := ⟨model, maxErr, capacity, keys, vals, mobsLf⟩
    match m.findPos? key with
    | none => none
    | some (.entry pos) => some (vals pos)
    | some (.slot i) => (mobsLf i).findRetrain key

/-- `find_retrain` -/
def KanvaModel.findRetrain (m : KanvaModel K) (key : K) : Option Val :=
  (ModelOrBin.ai m).findRetrain key

omit [LinearOrder K] [BoundedOrder K] [Zero K] in
/-- The bin that a null slot gets on the first insertion. -/
def ModelOrBin.orNewBin : ModelOrBin K → ModelOrBin K
  | .null => .bin .new
  | mob => mob

omit [LinearOrder K] [BoundedOrder K] in
/-- The model made from the pairs of a sealed bin. Its error bound is the error recorded in
training. -/
def retrained (train : List K → LinearRegressionModel K) (pairs : List (K × Val)) : KanvaModel K :=
  .new (train (pairs.map Prod.fst)) pairs (train (pairs.map Prod.fst)).maxErr

omit [LinearOrder K] [BoundedOrder K] in
/-- The model made from the pairs of a sealed bin. The constructor counts the slots in an `int`. -/
def retrained? (train : List K → LinearRegressionModel K) (pairs : List (K × Val)) :
    Option (KanvaModel K) :=
  if pairs.length + 1 < 2 ^ 31 then some (retrained train pairs) else none

omit [LinearOrder K] [BoundedOrder K] in
/-- The model of a retraining. -/
theorem retrained?_eq_some {train : List K → LinearRegressionModel K} {pairs : List (K × Val)}
    {ai : KanvaModel K} : retrained? train pairs = some ai ↔
      pairs.length + 1 < 2 ^ 31 ∧ retrained train pairs = ai := by
  rw [retrained?]
  split
  · next h => exact ⟨fun heq => ⟨h, Option.some.inj heq⟩, fun heq => congrArg some heq.2⟩
  · next h => exact ⟨fun heq => absurd heq (by simp), fun heq => absurd heq.1 h⟩

section Calls

variable (train : List K → LinearRegressionModel K) (key : K)

mutual

/-- `insert_retrain` -/
def insertRetrain (val : Val) : ℕ → KanvaModel K → Option (KanvaModel K × Bool)
  | 0, _ => none
  | n + 1, m =>
    match m.insertPos? key with
    | none => none
    | some (.entry pos) => if m.vals pos = -1 then some (m, false) else some (m, true)
    | some (.slot i) =>
      (insertModelOrBin val n (m.mobsLf i)).map fun (mob, r) => (m.setMob i mob, r)

/-- `insert_model_or_bin` on the slot. -/
def insertModelOrBin (val : Val) : ℕ → ModelOrBin K → Option (ModelOrBin K × Bool)
  | 0, _ => none
  | n + 1, mob =>
    match mob.orNewBin with
    -- the assertion that the slot is not null
    | .null => none
    | .bin lflb =>
      -- the rounds of `Bin::insert`
      match lflb.insertLoop? key val n with
      | none => none
      | some (lflb', true) => some (.bin lflb', true)
      | some (lflb', false) =>
        match retrained? train lflb'.collect.2 with
        | none => none
        | some ai => (insertRetrain val n ai).map fun (ai, r) => (.ai ai, r)
    | .ai m => (insertRetrain val n m).map fun (ai, r) => (.ai ai, r)

end

mutual

/-- `remove` -/
def removeRetrain : ℕ → KanvaModel K → Option (KanvaModel K × Bool)
  | 0, _ => none
  | n + 1, m =>
    match m.removePos? key with
    | none => none
    | some (.entry pos) => some (m.setVal pos (-1), true)
    | some (.slot i) =>
      (removeModelOrBin n (m.mobsLf i)).map fun (mob, r) => (m.setMob i mob, r)

/-- `remove_model_or_bin` on the slot. The result of the bin's `remove` is a `bool`, so the tests of
`res` never hold. -/
def removeModelOrBin : ℕ → ModelOrBin K → Option (ModelOrBin K × Bool)
  | 0, _ => none
  | n + 1, mob =>
    match mob with
    | .null => some (.null, false)
    | .bin lflb =>
      -- the rounds of `Bin::remove`
      match lflb.removeLoop? none key n with
      | none => none
      | some (lflb', removed) =>
        let res : ℤ := if removed then 1 else 0
        if res = -2 then some (.bin lflb', false)
        else if res = -1 then
          match retrained? train lflb'.collect.2 with
          | none => none
          | some ai => (removeRetrain n ai).map fun (ai, r) => (.ai ai, r)
        else some (.bin lflb', true)
    | .ai m => (removeRetrain n m).map fun (ai, r) => (.ai ai, r)

end

end Calls

/-- A call that changes a model. -/
inductive Call (K : Type) where
  | insert (key : K) (val : Val)
  | remove (key : K)

omit [LinearOrder K] [BoundedOrder K] [Zero K] in
/-- The key of a call. -/
def Call.key : Call K → K
  | .insert key _ => key
  | .remove key => key

/-- A call on a model. -/
def callModel (fit : List K → LinearRegressionModel K) (fuel : ℕ) (m : KanvaModel K) :
    Call K → Option (KanvaModel K × Bool)
  | .insert key val => insertRetrain fit key val fuel m
  | .remove key => removeRetrain fit key fuel m

/-- Whatever `Bin::remove` returns, `remove_model_or_bin` returns true and keeps the bin. -/
theorem removeModelOrBin_bin (train : List K → LinearRegressionModel K) (key : K) (n : ℕ)
    (lflb : SeqBin K) :
    removeModelOrBin train key (n + 1) (.bin lflb) =
      (lflb.removeLoop? none key n).map fun p => (.bin p.1, true) := by
  rw [removeModelOrBin]
  rcases lflb.removeLoop? none key n with _ | ⟨lflb', _ | _⟩ <;> rfl

/-! ### Enough rounds -/

section Mono

variable {train : List K → LinearRegressionModel K} {key : K} {val : Val}

/-- A larger bound does not change the result of an insertion. -/
theorem insertRetrain_mono (n : ℕ) :
    (∀ (m : KanvaModel K) r, insertRetrain train key val n m = some r →
      insertRetrain train key val (n + 1) m = some r) ∧
    ∀ (mob : ModelOrBin K) r, insertModelOrBin train key val n mob = some r →
      insertModelOrBin train key val (n + 1) mob = some r := by
  -- the bound goes down with every call of the two functions, and bounds the rounds of the bin
  induction n with
  | zero => exact ⟨fun m r h => by simp [insertRetrain] at h,
      fun mob r h => by simp [insertModelOrBin] at h⟩
  | succ n ih =>
    obtain ⟨ihm, ihb⟩ := ih
    refine ⟨fun m r h => ?_, fun mob r h => ?_⟩
    · rw [insertRetrain] at h ⊢
      split at h
      · exact h
      · exact h
      · obtain ⟨p, hp, rfl⟩ := Option.map_eq_some_iff.mp h
        rw [ihb _ _ hp]
        rfl
    · rw [insertModelOrBin] at h ⊢
      split at h
      · exact absurd h (by simp)
      · next lflb _ =>
        split at h
        · exact absurd h (by simp)
        · next lflb' hb =>
          rw [SeqBin.insertLoop?_mono hb]
          exact h
        · next lflb' hb =>
          rw [SeqBin.insertLoop?_mono hb]
          split at h
          · exact absurd h (by simp)
          · next ai hai =>
            obtain ⟨p, hp, rfl⟩ := Option.map_eq_some_iff.mp h
            simp only [hai, ihm _ _ hp, Option.map_some]
      · obtain ⟨p, hp, rfl⟩ := Option.map_eq_some_iff.mp h
        simp only [ihm _ _ hp, Option.map_some]

/-- A larger bound does not change the result of a removal. -/
theorem removeRetrain_mono (n : ℕ) :
    (∀ (m : KanvaModel K) r, removeRetrain train key n m = some r →
      removeRetrain train key (n + 1) m = some r) ∧
    ∀ (mob : ModelOrBin K) r, removeModelOrBin train key n mob = some r →
      removeModelOrBin train key (n + 1) mob = some r := by
  -- as for insertions
  induction n with
  | zero => exact ⟨fun m r h => by simp [removeRetrain] at h,
      fun mob r h => by simp [removeModelOrBin] at h⟩
  | succ n ih =>
    obtain ⟨ihm, ihb⟩ := ih
    refine ⟨fun m r h => ?_, fun mob r h => ?_⟩
    · rw [removeRetrain] at h ⊢
      split at h
      · exact h
      · exact h
      · obtain ⟨p, hp, rfl⟩ := Option.map_eq_some_iff.mp h
        rw [ihb _ _ hp]
        rfl
    · cases mob with
      | null => exact h
      | bin lflb =>
        rw [removeModelOrBin_bin] at h ⊢
        obtain ⟨p, hp, rfl⟩ := Option.map_eq_some_iff.mp h
        rw [SeqBin.removeLoop?_mono hp]
        rfl
      | ai m =>
        rw [removeModelOrBin] at h ⊢
        obtain ⟨p, hp, rfl⟩ := Option.map_eq_some_iff.mp h
        simp only [ihm _ _ hp, Option.map_some]

/-- Bounds that are large enough give the same result. -/
theorem callModel_mono {n n' : ℕ} (hle : n ≤ n') {m : KanvaModel K} {c : Call K}
    {r : KanvaModel K × Bool} (h : callModel train n m c = some r) :
    callModel train n' m c = some r := by
  induction hle with
  | refl => exact h
  | step _ ih =>
    cases c with
    | insert key val => exact (insertRetrain_mono _).1 _ _ ih
    | remove key => exact (removeRetrain_mono _).1 _ _ ih

end Mono

end KanvaImpl
