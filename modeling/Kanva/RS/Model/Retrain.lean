import Kanva.RS.Model.Effects

/-!
# Retraining a full list

An insertion into a full list collects the nodes with their chains, trains a model on the keys, and
goes on in the new model, whose slots are empty. The array takes over the chains as they are, so all
versions stay readable. The chain of the max sentinel is not collected.

## Main results

* `ModelOrBin.versions_ofVersions`: the model has the chains of the list.
* `insertBin_preserves`: the other keys keep their newest value and what is read at any timestamp,
  and the inserted key is there afterwards. The greatest key of the type, which is the key of the
  max sentinel, is left out.
-/

namespace KanvaRS

open Kanva SortedArray

section Versions

variable {K : Type} [LinearOrder K]

/-- The chain a target has for a key. -/
def Target.versions (key : K) : Target K → Option (VersionedKey K)
  | .null => none
  | .bin lflb => lflb.node key
  | .entry e => some e

theorem Target.newest_eq (key : K) (t : Target K) :
    t.newest key = (t.versions key).map VersionedKey.getValue := by
  cases t <;> rfl

variable [Zero K]

/-- The chain of a key from a slot on. -/
def ModelOrBin.versions (key : K) (mob : ModelOrBin K) : Option (VersionedKey K) :=
  (mob.target key).versions key

/-- The value of a key that a query reads at a timestamp. -/
def ModelOrBin.valueAt (globalTs ts : ℤ) (key : K) (mob : ModelOrBin K) : Option Val :=
  (mob.versions key).map fun e => (e.initTs globalTs).versionedValue ts

theorem ModelOrBin.newest_eq (key : K) (mob : ModelOrBin K) :
    mob.newest key = (mob.versions key).map VersionedKey.getValue :=
  (mob.target key).newest_eq key

theorem ModelOrBin.versions_ai {m : KanvaRSModel K} {key : K} {e : VersionedKey K}
    (he : m.modelArray[m.locate key]? = some e) :
    (ModelOrBin.ai m).versions key =
      if key = e.key then some e else (m.mobsLf (m.binPos key)).versions key := by
  rw [versions, target_ai he]
  split <;> rfl

end Versions

variable {K : Type} [LinearOrder K] [BoundedOrder K]

omit [LinearOrder K] [BoundedOrder K] in
/-- The lists that the calls of one thread build. -/
inductive VersionedList.Built [LinearOrder K] [BoundedOrder K] : VersionedList K → Prop
  | new : Built .new
  | insert {l} (key : K) (value : Val) (globalTs : ℤ) :
      Built l → Built (l.insert key value globalTs).1
  | remove {l} (key : K) (globalTs : ℤ) : Built l → Built (l.remove key globalTs).1

theorem VersionedList.Wf.insert {l : VersionedList K} (h : l.Wf) (key : K) (value : Val)
    (globalTs : ℤ) : (l.insert key value globalTs).1.Wf := by
  cases h.insert_cases key value globalTs with
  | full _ heq => rwa [heq]
  | write _ e _ l' heq hwf _ => rwa [heq]
  | skip _ _ _ l' heq hwf _ => rwa [heq]
  | link hsize hnode htop _ heq =>
    rw [heq]
    exact h.link hnode htop hsize

theorem VersionedList.Built.wf {l : VersionedList K} (h : l.Built) : l.Wf := by
  induction h with
  | new => exact wf_new
  | insert key value globalTs _ ih => exact ih.insert key value globalTs
  | remove key globalTs _ ih => exact ih.insert key (-1) globalTs

variable [Zero K] {l : VersionedList K} {key x : K} {val : Val}

/-- A list that is made a model keeps its chains. -/
theorem ModelOrBin.versions_ofVersions (h : l.Wf) (hpos : 0 < l.size)
    (lrmodel : LinearRegressionModel K) (x : K) :
    (ModelOrBin.ai (KanvaRSModel.ofVersions lrmodel l.nodes)).versions x = l.node x := by
  obtain ⟨hwf, -, -⟩ := retrained_ok h hpos lrmodel
  obtain ⟨e, he⟩ := hwf.entry x
  rw [versions_ai he]
  refine Option.ext fun e' => ?_
  rw [h.node_iff]
  split
  · next hkey =>
    rw [Option.some.injEq]
    constructor
    · rintro rfl
      exact ⟨List.mem_of_getElem? he, hkey.symm⟩
    · rintro ⟨hmem, rfl⟩
      rw [(wf_ai.mp hwf).1.entry_of_mem hmem] at he
      exact (Option.some.inj he).symm
  · next hkey =>
    refine iff_of_false (Option.some_ne_none e').symm ?_
    rintro ⟨hmem, rfl⟩
    rw [(wf_ai.mp hwf).1.entry_of_mem hmem] at he
    exact hkey (congrArg VersionedKey.key (Option.some.inj he))

/-- A store to the entry of a key leaves the chains of the others. -/
theorem ModelOrBin.versions_setEntry {m : KanvaRSModel K} {e e' : VersionedKey K}
    (h : (ModelOrBin.ai m).Wf) (he : m.modelArray[m.locate key]? = some e) (hkey : key = e.key)
    (hkey' : e'.key = e.key) (hx : x ≠ key) :
    (ModelOrBin.ai (m.setEntry (m.locate key) e')).versions x = (ModelOrBin.ai m).versions x := by
  obtain ⟨ex, hex⟩ := h.entry x
  have hbin : (m.setEntry (m.locate key) e').binPos x = m.binPos x :=
    RSModelOver.binPos_setEntry he hkey'
  have hget : (m.setEntry (m.locate key) e').modelArray[(m.setEntry (m.locate key) e').locate x]? =
      if m.locate key = m.locate x then some e' else some ex := by
    rw [RSModelOver.getElem?_setEntry he hkey', hex]
  by_cases heq : m.locate key = m.locate x
  · rw [if_pos heq] at hget
    rw [heq, hex] at he
    obtain rfl := Option.some.inj he
    rw [versions_ai hget, versions_ai hex, hkey', ← hkey, if_neg hx, if_neg hx, hbin]
    rfl
  · rw [if_neg heq] at hget
    rw [versions_ai hget, versions_ai hex, hbin]
    rfl

/-- A store to the slot of a key leaves the chain of another, if the slot has the same for it. -/
theorem ModelOrBin.versions_setMob {m : KanvaRSModel K} {mob : ModelOrBin K}
    (h : (ModelOrBin.ai m).Wf)
    (hmob : mob.versions x = (m.mobsLf (m.binPos key)).versions x) :
    (ModelOrBin.ai (m.setMob (m.binPos key) mob)).versions x = (ModelOrBin.ai m).versions x := by
  obtain ⟨e, he⟩ := h.entry x
  have hget : (m.setMob (m.binPos key) mob).modelArray[(m.setMob (m.binPos key) mob).locate x]? =
      some e := he
  have hslot : (m.setMob (m.binPos key) mob).mobsLf (m.binPos x) =
      if m.binPos x = m.binPos key then mob else m.mobsLf (m.binPos x) :=
    Function.update_apply m.mobsLf (m.binPos key) mob (m.binPos x)
  rw [versions_ai hget, versions_ai he]
  split
  · rfl
  · show ((m.setMob (m.binPos key) mob).mobsLf (m.binPos x)).versions x = _
    rw [hslot]
    split
    · next heq => rw [hmob, heq]
    · rfl

/-- The insertion into a list of one node. -/
theorem insertNull_versions (hkey : key ≠ ⊤) (hval : val ≠ -1) (hx : x ≠ key) (globalTs : ℤ) :
    (insertNull key val globalTs).1.versions x = none := by
  have hroom : ¬ threshhold ≤ (VersionedList.new : VersionedList K).size :=
    Nat.not_succ_le_zero 9
  have hinsert : (VersionedList.new : VersionedList K).insert key val globalTs =
      (VersionedList.new.link key val globalTs, 1) := by
    rw [VersionedList.insert, if_neg hroom]
    show (if (⊤ : K) = key then _ else if val = -1 then _ else _) = _
    rw [if_neg hkey.symm, if_neg hval]
  rw [insertNull, hinsert]
  show ((VersionedList.new : VersionedList K).link key val globalTs).node x = none
  rw [VersionedList.node_link, if_neg hx]
  rfl

/-- The insertion publishes a model in which the other keys below the max sentinel keep their newest
values and what is read at every timestamp, and the key keeps its value if it is present, and has
the new one otherwise. -/
def RetrainPreserves (fit : List K → LinearRegressionModel K) (l : VersionedList K) (key : K)
    (val : Val) (globalTs : ℤ) : Prop :=
  ∃ ai ok, insertBin fit key val globalTs l = some (.ai ai, ok) ∧
    (∀ x, x ≠ key → x ≠ ⊤ → (ModelOrBin.ai ai).newest x = (ModelOrBin.bin l).newest x ∧
      ∀ gts ts, (ModelOrBin.ai ai).valueAt gts ts x = (ModelOrBin.bin l).valueAt gts ts x) ∧
    (ModelOrBin.ai ai).newest key =
      some ((((ModelOrBin.bin l).newest key).filter (· ≠ -1)).getD val)

/-- An insertion of another key than the greatest into a full list. -/
theorem insertBin_preserves (fit : List K → LinearRegressionModel K) (hbuilt : l.Built)
    (hfull : threshhold ≤ l.size) (hkey : key ≠ ⊤) (hval : val ≠ -1) (globalTs : ℤ) :
    RetrainPreserves fit l key val globalTs := by
  have hwf := hbuilt.wf
  have hpos : 0 < l.size := (Nat.succ_pos 9).trans_le hfull
  set m := KanvaRSModel.ofVersions (fit (l.nodes.map VersionedKey.key)) l.nodes with hm
  obtain ⟨hai, -, -⟩ := retrained_ok hwf hpos (fit (l.nodes.map VersionedKey.key))
  rw [← hm] at hai
  obtain ⟨e, he⟩ := hai.entry key
  -- every other key has the same chain in the published model
  obtain ⟨ai, ok, hinsert, hversions⟩ :
      ∃ ai ok, insertBin fit key val globalTs l = some (.ai ai, ok) ∧
      ∀ x, x ≠ key → (ModelOrBin.ai ai).versions x = (ModelOrBin.ai m).versions x := by
    simp only [insertBin, VersionedList.insert_full hfull, if_pos]
    rw [← hm]
    simp only [RSModelOver.updateAt, he]
    split
    · next heq =>
      exact ⟨_, _, rfl, fun x hx =>
        ModelOrBin.versions_setEntry hai he heq (insertEntry_key val globalTs e) hx⟩
    · exact ⟨_, _, rfl, fun x hx =>
        ModelOrBin.versions_setMob hai (insertNull_versions hkey hval hx globalTs)⟩
  have hsame : ∀ x, x ≠ key → (ModelOrBin.ai ai).versions x = (ModelOrBin.bin l).versions x := by
    intro x hx
    rw [hversions x hx, hm, ModelOrBin.versions_ofVersions hwf hpos]
    rfl
  refine ⟨ai, ok, hinsert, fun x hx _ => ⟨?_, fun gts ts => ?_⟩, ?_⟩
  · rw [ModelOrBin.newest_eq, ModelOrBin.newest_eq, hsame x hx]
  · rw [ModelOrBin.valueAt, ModelOrBin.valueAt, hsame x hx]
  · obtain ⟨p, hp, -, hresult⟩ : ∃ p, insertBin fit key val globalTs l = some p ∧
        UpdateOk key (.bin l) p.1 ∧ (p.1.newest key, p.2) = (Target.bin l).inserted key val :=
      insertBin_ok hwf
    rw [hinsert] at hp
    obtain rfl := Option.some.inj hp
    have hnewest := congrArg Prod.fst hresult
    have hsealed : (Target.bin l).Sealed := hfull
    rw [Target.inserted] at hnewest
    show (ModelOrBin.ai ai).newest key = some ((((Target.bin l).newest key).filter _).getD val)
    cases hold : (Target.bin l).newest key with
    | none =>
      rw [hold] at hnewest
      simpa [hkey, hval] using hnewest
    | some v =>
      rw [hold] at hnewest
      simp only [hsealed, if_true] at hnewest
      rw [hnewest]
      by_cases hv : v = -1 <;> simp [Option.filter, hv]

/-- The keys 1 to 10 are inserted. -/
def VersionedList.insertTen (l : VersionedList (Fin 16)) : VersionedList (Fin 16) :=
  (List.range 10).foldl (fun l i => (l.insert (Fin.ofNat 16 (i + 1)) 7 0).1) l

theorem VersionedList.Built.insertTen {l : VersionedList (Fin 16)} (h : l.Built) :
    l.insertTen.Built := by
  rw [VersionedList.insertTen]
  induction List.range 10 generalizing l with
  | nil => exact h
  | cons i is ih => exact ih (h.insert (Fin.ofNat 16 (i + 1)) 7 0)

/-- A linear model that predicts position 0 for every key. -/
def fitFirst : List (Fin 16) → LinearRegressionModel (Fin 16) := fun _ => ⟨fun _ => 0, 0⟩

/-- The key 12 is inserted into a full list. -/
theorem insertBin_preserves_twelve : RetrainPreserves fitFirst VersionedList.new.insertTen 12 5 3 :=
  insertBin_preserves fitFirst VersionedList.Built.new.insertTen (by decide) (by decide)
    (by decide) 3

/-- The greatest key is inserted with the value 5, and again, with the value 6, when the list is
full. -/
def topInserted : VersionedList (Fin 16) := ((VersionedList.new.insert ⊤ 5 0).1).insertTen

/-- The greatest key has the value 5 before the retraining and the value 6 after it. When another
key is inserted, it has no value after the retraining. -/
theorem insertBin_top : topInserted.Built ∧ threshhold ≤ topInserted.size ∧
    (ModelOrBin.bin topInserted).findRetrain ⊤ 5 = some (true, 5) ∧
    ((insertBin fitFirst ⊤ 6 0 topInserted).bind fun p => p.1.findRetrain ⊤ 5) = some (false, 5) ∧
    ((insertBin fitFirst ⊤ 6 0 topInserted).bind fun p => p.1.findRetrain ⊤ 6) = some (true, 6) ∧
    ((insertBin fitFirst 12 6 0 topInserted).bind fun p => p.1.findRetrain ⊤ 5) = some (false, 5) :=
  ⟨(VersionedList.Built.new.insert ⊤ 5 0).insertTen, by decide, by decide, by decide, by decide,
    by decide⟩

end KanvaRS
