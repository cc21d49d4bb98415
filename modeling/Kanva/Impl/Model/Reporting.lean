import Kanva.Impl.Model.Presence

/-!
# What `remove` reports

A removal returns false only at an empty slot. At an array entry it returns true, also over a
tombstone, and at a bin the `bool` of `Bin::remove` is compared with the negative codes of the list,
so that it returns true whether the bin has had the key or not.

Below an internal root control flows off the end of `remove_internal`, unless the list has returned
-1. `Ends` is when `Bin::remove` does not come to that.

## Main results

* `SeqBin.ends_iff`: `Bin::remove` has a result exactly when it ends in this sense.
* `SeqBin.Ends.status`: below an internal root the list has to return -1 for that.
* `remove_spec` and `remove_returns`: what a removal returns, and when it does.
* `KanvaIndex.remove_reports_iff`: when it reports presence.
-/

namespace KanvaImpl

open Kanva SortedArray SortedAssoc

variable {K : Type} [LinearOrder K] [BoundedOrder K] [Zero K]

namespace SeqBin

/-- `Bin::remove` ends without a round in which control flows off the end of `remove_internal`: the
bin is sealed, its root is a leaf, or `remove_internal` makes a new root and `remove` ends after the
root is replaced. -/
inductive Ends (key : K) : SeqBin K → Prop
  | marked {b : SeqBin K} : b.root.mark = true → Ends key b
  | leaf {b : SeqBin K} {id : ℕ} : b.root = ⟨.leaf id, false⟩ → Ends key b
  | replace {b b' : SeqBin K} {node : InternalNode K} {newRoot : RootWord K} :
      b.root = ⟨.internal node, false⟩ →
      b.removeInternal? none node key = some (b', some newRoot) →
      Ends key { b' with root := newRoot } → Ends key b

variable {b b' : SeqBin K} {node : InternalNode K} {key : K} {n : ℕ} {newNode : Option (RootWord K)}

theorem removeLoop?_of_mark (h : b.root.mark = true) (key : K) (n : ℕ) :
    b.removeLoop? none key (n + 1) = some (b, false) := by
  rw [removeLoop?, if_pos h]

/-- `remove_internal` has no other result than a new root. -/
theorem removeInternal?_newRoot (h : b.removeInternal? none node key = some (b', newNode)) :
    newNode ≠ none := by
  rintro rfl
  simp only [removeInternal?, Option.bind_eq_bind, Option.bind_eq_some_iff] at h
  obtain ⟨i, -, id, -, h⟩ := h
  split_ifs at h
  · obtain ⟨p, -, heq⟩ := Option.bind_eq_some_iff.mp h
    cases heq
  · cases h
  · cases h

/-- `Bin::remove` has a result exactly when it ends. -/
theorem ends_iff : b.Ends key ↔ ∃ n r, b.removeLoop? none key n = some r := by
  constructor
  · intro h
    -- one call of the loop for every root replaced on the way
    induction h with
    | marked hmark => exact ⟨1, _, removeLoop?_of_mark hmark key 0⟩
    | @leaf b id hroot =>
      have hnone : (b.removeLeaf id key).2 = none := by
        rw [removeLeaf]
        simp only [if_neg (boolOfInt_ne_neg_one _)]
      have hround : b.removeRound? none key = some ((b.removeLeaf id key).1, none) := by
        rw [removeRound?, hroot, ← hnone]
        exact removeLeaf?_eq
      exact ⟨1, ((b.removeLeaf id key).1, true), by rw [removeLoop?, hround, hroot]; rfl⟩
    | @replace b b' node newRoot hroot hint _ ih =>
      obtain ⟨n, r, hr⟩ := ih
      have hround : b.removeRound? none key = some (b', some newRoot) := by
        rw [removeRound?, hroot]
        exact hint
      exact ⟨n + 1, r, by rw [removeLoop?, hround, hroot]; exact hr⟩
  · rintro ⟨n, r, h⟩
    induction n generalizing b with
    | zero => cases h
    | succ n ih =>
      obtain ⟨⟨root, mark⟩, fresh, leaf⟩ := b
      cases mark with
      | true => exact .marked rfl
      | false =>
        -- the loop reads the root once, and what it finds there is a case of the definition
        cases root with
        | leaf id => exact .leaf rfl
        | internal node =>
          rw [removeLoop?, if_neg (by simp)] at h
          split at h
          · cases h
          · next b' newRoot hround => exact .replace rfl hround (ih h)
          · next b' hround => exact absurd rfl (removeInternal?_newRoot hround)

/-- Below an internal root `Bin::remove` ends only when the list of the leaf the key is routed to
returns -1: its word is frozen, or the value of the key is -1 as an `int`. -/
theorem Ends.status (h : b.Ends key) (hroot : b.root = ⟨.internal node, false⟩) :
    ((b.leaf (node.ptr (lowerBound node.key key node.count))).list.remove key).2 = -1 := by
  cases h with
  | marked hmark => rw [hroot] at hmark; cases hmark
  | leaf hleaf => rw [hroot] at hleaf; cases hleaf
  | @replace b b' node' newRoot hroot' hint _ =>
    obtain rfl : node = node' := by
      rw [hroot] at hroot'
      simpa using hroot'
    simp only [removeInternal?, Option.bind_eq_bind, Option.bind_eq_some_iff] at hint
    obtain ⟨i, hi, id, hid, hint⟩ := hint
    obtain rfl : lowerBound node.key key node.count = i :=
      Option.some.inj (Option.ite_none_right_eq_some.mp hi).2
    obtain rfl : node.ptr (lowerBound node.key key node.count) = id :=
      Option.some.inj (Option.ite_none_right_eq_some.mp hid).2
    by_contra hres
    rw [if_neg hres] at hint
    cases hint

end SeqBin

/-- The bin at the end of the way is one in which `Bin::remove` ends. -/
def Target.Ends (key : K) : Target K → Prop
  | .bin lflb => lflb.Ends key
  | _ => True

section Calls

variable {fit : List K → LinearRegressionModel K} {key : K}

/-- What a removal returns: true, unless it ends at an empty slot. -/
theorem remove_spec (n : ℕ) :
    (∀ {m m' : KanvaModel K} {r}, removeRetrain fit key n m = some (m', r) →
      ∃ t, m.target key = some t ∧ t.Ends key ∧ (r = true ↔ t ≠ .null)) ∧
    ∀ {mob mob' : ModelOrBin K} {r}, removeModelOrBin fit key n mob = some (mob', r) →
      ∃ t, mob.target key = some t ∧ t.Ends key ∧ (r = true ↔ t ≠ .null) := by
  -- an entry and a bin return true whatever they hold
  induction n with
  | zero => exact ⟨fun h => by simp [removeRetrain] at h, fun h => by simp [removeModelOrBin] at h⟩
  | succ n ih =>
    obtain ⟨ihm, ihb⟩ := ih
    refine ⟨fun {m m' r} h => ?_, fun {mob mob' r} h => ?_⟩
    · rw [removeRetrain] at h
      split at h
      · cases h
      · next pos hpos =>
        obtain ⟨-, rfl⟩ := Prod.ext_iff.mp (Option.some.inj h)
        exact ⟨_, KanvaModel.target_of_entry hpos, trivial, by simp⟩
      · next i hpos =>
        obtain ⟨p, hp, heq⟩ := Option.map_eq_some_iff.mp h
        obtain ⟨-, rfl⟩ := Prod.ext_iff.mp heq
        rw [KanvaModel.target_of_slot hpos]
        exact ihb hp
    · cases mob with
      | null =>
        obtain ⟨-, rfl⟩ := Prod.ext_iff.mp (Option.some.inj h)
        exact ⟨.null, rfl, trivial, by simp⟩
      | bin lflb =>
        rw [removeModelOrBin_bin] at h
        obtain ⟨p, hp, heq⟩ := Option.map_eq_some_iff.mp h
        obtain ⟨-, rfl⟩ := Prod.ext_iff.mp heq
        exact ⟨.bin lflb, rfl, SeqBin.ends_iff.mpr ⟨n, p, hp⟩, by simp⟩
      | ai m =>
        rw [removeModelOrBin] at h
        obtain ⟨p, hp, heq⟩ := Option.map_eq_some_iff.mp h
        obtain ⟨-, rfl⟩ := Prod.ext_iff.mp heq
        exact ihm hp

/-- A removal returns when its searches and the removal from the bin end. -/
theorem removeModelOrBin_returns (fit : List K → LinearRegressionModel K) {mob : ModelOrBin K}
    {t : Target K} (htarget : mob.target key = some t) (hends : t.Ends key) :
    ∃ n r, removeModelOrBin fit key n mob = some r := by
  induction mob using ModelOrBin.slotInduction with
  | null => exact ⟨1, _, rfl⟩
  | bin lflb =>
    obtain rfl : Target.bin lflb = t := Option.some.inj htarget
    obtain ⟨n, r, hr⟩ := SeqBin.ends_iff.mp hends
    exact ⟨n + 1, _, by rw [removeModelOrBin_bin, hr, Option.map_some]⟩
  | ai m ih =>
    change m.target key = some t at htarget
    cases hpos : m.findPos? key with
    | none =>
      rw [KanvaModel.target_of_none hpos] at htarget
      cases htarget
    | some p =>
      have hrem : m.removePos? key = some p := hpos
      cases p with
      | entry pos =>
        refine ⟨2, (.ai (m.setVal pos (-1)), true), ?_⟩
        rw [removeModelOrBin, removeRetrain, hrem]
        rfl
      | slot i =>
        rw [KanvaModel.target_of_slot hpos] at htarget
        obtain ⟨n, ⟨mob, r⟩, hr⟩ := ih i htarget
        refine ⟨n + 2, (.ai (m.setMob i mob), r), ?_⟩
        rw [removeModelOrBin, removeRetrain, hrem]
        simp only [hr, Option.map_some]

theorem remove_returns (fit : List K → LinearRegressionModel K) {m : KanvaModel K} {t : Target K}
    (htarget : m.target key = some t) (hends : t.Ends key) :
    ∃ n r, removeRetrain fit key n m = some r := by
  have hmob : (ModelOrBin.ai m).target key = some t := htarget
  obtain ⟨n, r, hr⟩ := removeModelOrBin_returns fit hmob hends
  cases n with
  | zero => exact absurd hr (by simp [removeModelOrBin])
  | succ n =>
    rw [removeModelOrBin] at hr
    obtain ⟨p, hp, -⟩ := Option.map_eq_some_iff.mp hr
    exact ⟨n, p, hp⟩

end Calls

/-- A removal that ends at the target reports presence: the slot is empty, the entry is not a
tombstone, or the bin finds the key and `Bin::remove` ends in it. -/
def Target.Reported (key : K) : Target K → Prop
  | .null => True
  | .bin lflb => lflb.search key ≠ 0 ∧ lflb.Ends key
  | .entry val => val ≠ -1

omit [Zero K] in
/-- `search` finds the keys that have a value in the leaf they are routed to. -/
theorem SeqBin.search_ne_zero_iff (b : SeqBin K) {key : K} (hkey : key < ⊤) :
    b.search key ≠ 0 ↔ (b.leafOf key).list.lookup key ≠ none := by
  have hlist : ∀ s : SeqList K, s.search key = true ↔ s.lookup key ≠ none := by
    intro s
    rw [SeqList.search, SeqList.lookup]
    split_ifs
    · simp
    · split
      · next c _ => by_cases hc : c.key = key <;> cases c.mark <;> simp [hc]
      · simpa using hkey.ne'
  rw [search, leafOf]
  split <;> rw [← hlist] <;> split <;> simp_all

/-- A target is null or has the key, and the removal ends there, exactly when it reports
presence. -/
theorem Target.reported_iff {key : K} (hkey : key < ⊤) (t : Target K) :
    t.Reported key ↔ t.Ends key ∧ (t ≠ .null ↔ t.lookup key ≠ none) := by
  cases t with
  | null => simp [Reported, Ends, lookup]
  | bin lflb => simp [Reported, Ends, lookup, lflb.search_ne_zero_iff hkey, and_comm]
  | entry val => by_cases hv : val = -1 <;> simp [Reported, Ends, lookup, hv]

namespace KanvaIndex

variable {fit : List K → LinearRegressionModel K} {kv kv₀ kv' : KanvaIndex K} {key : K}

/-- In every state a removal returns and reports presence exactly when the searches for the key end,
and the key ends at an empty slot, at an entry that is not a tombstone, or at a bin that finds it
and in which `Bin::remove` does not flow off the end of `remove_internal`. -/
theorem remove_reports_iff (fit : List K → LinearRegressionModel K) (kv : KanvaIndex K)
    (hkey : ⊥ < key ∧ key < ⊤) :
    (∃ kv' r, (∃ n₀, ∀ n ≥ n₀, kv.call fit n (.remove key) = some (kv', r)) ∧
      (r = true ↔ kv.lookup key ≠ none)) ↔ ∃ t, kv.target key = some t ∧ t.Reported key := by
  constructor
  · rintro ⟨kv', r, ⟨n, hcall⟩, hreport⟩
    obtain ⟨m, m', hm, hrem, -⟩ := call_eq_some.mp (hcall n le_rfl)
    obtain ⟨t, ht, hends, hr⟩ := (remove_spec n).1 hrem
    have htarget : kv.target key = some t := (target_of_findModel hm rfl).trans ht
    rw [KanvaIndex.lookup, htarget, Option.bind_some, hr] at hreport
    exact ⟨t, htarget, (Target.reported_iff hkey.2 t).mpr ⟨hends, hreport⟩⟩
  · rintro ⟨t, htarget, hreported⟩
    obtain ⟨hends, hreport⟩ := (Target.reported_iff hkey.2 t).mp hreported
    obtain ⟨m, hm, ht⟩ := Option.bind_eq_some_iff.mp htarget
    obtain ⟨n₀, ⟨m', r⟩, hrem⟩ := remove_returns fit ht hends
    have hcall : kv.call fit n₀ (.remove key) = some (kv.setModel key m', r) :=
      call_eq_some.mpr ⟨m, m', hm, hrem, rfl⟩
    refine ⟨kv.setModel key m', r, ⟨n₀, fun n hn => call_mono hn hcall⟩, ?_⟩
    obtain ⟨t', ht', -, hr⟩ := (remove_spec n₀).1 hrem
    obtain rfl : t' = t := Option.some.inj (ht'.symm.trans ht)
    rw [KanvaIndex.lookup, htarget, Option.bind_some, hr, hreport]

theorem remove_reports_iff_five : ∃ kv₀ kv,
    trained [(10, 1), (20, 2)] = some kv₀ ∧
    Runs zeroFit (fun _ c => c.Args) kv₀ [.insert 15 8, .remove 10] kv ∧
    ((∃ kv' r, (∃ n₀, ∀ n ≥ n₀, kv.call zeroFit n (.remove 15) = some (kv', r)) ∧
      (r = true ↔ kv.lookup 15 ≠ none)) ↔ ∃ t, kv.target 15 = some t ∧ t.Reported 15) := by
  have hexec : ((trained [(10, 1), (20, 2)]).bind fun kv₀ =>
      (exec zeroFit (fun _ c => c.Args) 5 kv₀ [.insert 15 8, .remove 10]).map fun _ => ()) =
        some () := by
    decide +kernel
  obtain ⟨kv₀, htrain, hexec⟩ := Option.bind_eq_some_iff.mp hexec
  obtain ⟨kv, hrun, -⟩ := Option.map_eq_some_iff.mp hexec
  exact ⟨kv₀, kv, htrain, exec_runs .nil hrun, remove_reports_iff zeroFit kv (by decide)⟩

/-- The second removal of a trained key and the removal of a key that a bin does not have return
true. -/
theorem remove_not_reported : ∃ kv₀ kv,
    trained [(10, 1), (20, 2)] = some kv₀ ∧
    Runs zeroFit (fun _ c => c.Args) kv₀ [.insert 15 8, .remove 10] kv ∧
    (kv.lookup 10 = none ∧ ∃ kv', kv.call zeroFit 5 (.remove 10) = some (kv', true)) ∧
    kv.lookup 16 = none ∧ ∃ kv', kv.call zeroFit 5 (.remove 16) = some (kv', true) := by
  have hexec : ((trained [(10, 1), (20, 2)]).bind fun kv₀ =>
      (exec zeroFit (fun _ c => c.Args) 5 kv₀ [.insert 15 8, .remove 10]).map fun kv =>
      ((kv.lookup 10, (kv.call zeroFit 5 (.remove 10)).map Prod.snd),
        (kv.lookup 16, (kv.call zeroFit 5 (.remove 16)).map Prod.snd))) =
        some ((none, some true), (none, some true)) := by
    decide +kernel
  obtain ⟨kv₀, htrain, hexec⟩ := Option.bind_eq_some_iff.mp hexec
  obtain ⟨kv, hrun, hexec⟩ := Option.map_eq_some_iff.mp hexec
  obtain ⟨htrained, hbin⟩ := Prod.mk.inj hexec
  obtain ⟨hnone, hcall⟩ := Prod.mk.inj htrained
  obtain ⟨hnone', hcall'⟩ := Prod.mk.inj hbin
  obtain ⟨p, hp, hr⟩ := Option.map_eq_some_iff.mp hcall
  obtain ⟨p', hp', hr'⟩ := Option.map_eq_some_iff.mp hcall'
  refine ⟨kv₀, kv, htrain, exec_runs .nil hrun, ⟨hnone, p.1, ?_⟩, hnone', p'.1, ?_⟩
  · rw [hp, ← hr]
  · rw [hp', ← hr']

end KanvaIndex

end KanvaImpl
