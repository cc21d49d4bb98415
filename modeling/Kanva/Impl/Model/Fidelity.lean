import Kanva.Impl.Bin.Counting
import Kanva.Impl.Bin.Strict
import Kanva.Impl.Model.Presence

/-!
# What `find` returns

Under insertions that meet no separator, an index holds the first value of every key: in an array,
in the leaves of a bin, or in the model a sealed bin was retrained into. `place` is where it is, by
the search on whole numbers, and `content` reads it there. The insertions act on the content as on a
finite map.

`find` looks for the key on machine words, where the search may fail. It returns the value of an
array entry, but for a key that is routed to a bin it returns the `bool` of the list's `search`.

## Main results

* `ModelOrBin.target_eq_place`: the search on machine words ends at the place of the key, unless a
  sum wraps around.
* `insert_content`: an insertion into a model or a slot, through sealed bins and nested models.
* `KanvaIndex.content_of_train`: training stores the training data.
* `KanvaIndex.insert_returns`: the insertions of such runs return.
* `KanvaIndex.find_iff`: for which keys `find` returns the first value.
-/

namespace KanvaImpl

open Kanva SortedArray SortedAssoc

variable {K : Type} [LinearOrder K] [BoundedOrder K] [Zero K]

omit [Zero K] in
/-- The value with which a target stores a key. -/
def Target.content (key : K) : Target K → Option Val
  | .null => none
  | .bin lflb => lflb.collect.2.lookup key
  | .entry val => some val

/-! ### The place of a key -/

section Place

omit [BoundedOrder K] [Zero K] in
/-- The place of a key from a slot on, by the search on whole numbers. -/
def ModelOrBin.place (key : K) : ModelOrBin K → Target K
  | .null => .null
  | .bin lflb => .bin lflb
  | .ai ⟨model, maxErr, capacity, keys, vals, mobsLf⟩ =>
    let m : KanvaModel K := ⟨model, maxErr, capacity, keys, vals, mobsLf⟩
    if key = m.keys (m.locate key) then .entry (m.vals (m.locate key))
    else (mobsLf (m.binPos key)).place key

/-- The place of a key in a model. -/
def KanvaModel.place (m : KanvaModel K) (key : K) : Target K := (ModelOrBin.ai m).place key

/-- The value with which a slot stores a key. -/
def ModelOrBin.content (mob : ModelOrBin K) (key : K) : Option Val := (mob.place key).content key

/-- The value with which a model stores a key. -/
def KanvaModel.content (m : KanvaModel K) (key : K) : Option Val := (m.place key).content key

variable {m : KanvaModel K} {key : K}

omit [BoundedOrder K] [Zero K] in
theorem KanvaModel.place_eq (m : KanvaModel K) (key : K) : m.place key =
    if key = m.keys (m.locate key) then .entry (m.vals (m.locate key))
    else (m.mobsLf (m.binPos key)).place key := rfl

omit [BoundedOrder K] [Zero K] in
theorem KanvaModel.place_of_hit (h : key = m.keys (m.locate key)) :
    m.place key = .entry (m.vals (m.locate key)) := by
  rw [place_eq, if_pos h]

omit [BoundedOrder K] [Zero K] in
theorem KanvaModel.place_of_miss (h : key ≠ m.keys (m.locate key)) :
    m.place key = (m.mobsLf (m.binPos key)).place key := by
  rw [place_eq, if_neg h]

omit [BoundedOrder K] [Zero K] in
/-- Writing a slot changes the places of the keys that go there. -/
theorem place_setMob (m : KanvaModel K) (key : K) (i : ℕ) (mob : ModelOrBin K) :
    KanvaModel.place (m.setMob i mob) key =
      if key ≠ m.keys (m.locate key) ∧ m.binPos key = i then mob.place key else m.place key := by
  rw [KanvaModel.place_eq, KanvaModel.place_eq]
  show (if key = m.keys (m.locate key) then Target.entry (m.vals (m.locate key))
    else (Function.update m.mobsLf i mob (m.binPos key)).place key) = _
  by_cases hhit : key = m.keys (m.locate key)
  · rw [if_pos hhit, if_pos hhit, if_neg (fun h => h.1 hhit)]
  · rw [if_neg hhit, if_neg hhit]
    by_cases hi : m.binPos key = i
    · rw [if_pos ⟨hhit, hi⟩, hi, Function.update_self]
    · rw [if_neg (fun h => hi h.2), Function.update_of_ne hi]

omit [BoundedOrder K] [Zero K] in
/-- A search that ends does so at the place of the key. -/
theorem findPos?_place (hcap : m.capacity + 1 < 2 ^ 31) (hpos : 0 < m.capacity)
    (hmax : m.maxErr < 2 ^ 64) {p : ModelPos} (h : m.findPos? key = some p) :
    key = m.keys (m.locate key) ∧ p = .entry (m.locate key) ∨
      key ≠ m.keys (m.locate key) ∧ p = .slot (m.binPos key) := by
  have hfits : m.SumFits key :=
    (ModelOver.findPos?_isSome_iff hcap hpos hmax).mp (Option.isSome_of_eq_some h)
  rw [ModelOver.findPos?_of_fits hcap hpos hfits] at h
  split at h
  · next hhit => exact .inl ⟨hhit, (Option.some.inj h).symm⟩
  · next hmiss => exact .inr ⟨hmiss, (Option.some.inj h).symm⟩

omit [BoundedOrder K] [Zero K] in
/-- The search ends at the place of the key, unless a sum wraps around. -/
theorem ModelOrBin.target_eq_place {mob : ModelOrBin K} (h : mob.Counted)
    (hfits : mob.SumsFit key) : mob.target key = some (mob.place key) := by
  induction h with
  | null => rfl
  | bin lflb => rfl
  | @ai m hpos hcap hmax _ ih =>
    obtain ⟨hfits, hslots⟩ := hfits
    show KanvaModel.target m key = some (KanvaModel.place m key)
    rw [KanvaModel.target_eq, ModelOver.findPos?_of_fits hcap hpos hfits, KanvaModel.place_eq]
    by_cases hhit : key = m.keys (m.locate key)
    · rw [if_pos hhit, if_pos hhit]
    · rw [if_neg hhit, if_neg hhit]
      exact ih _ (hslots hhit)

end Place

/-- The bins hold sorted lists with exact counts, and the models are sorted, accurate and not
empty. -/
inductive ModelOrBin.Wf : ModelOrBin K → Prop
  | null : Wf .null
  | bin {lflb : SeqBin K} {l : List (K × Val)} : lflb.Holds l → lflb.Shape → Wf (.bin lflb)
  | ai {m : KanvaModel K} : 0 < m.capacity → m.capacity + 1 < 2 ^ 31 → m.maxErr < 2 ^ 64 →
      m.StrictKeys → m.WithinError → (∀ i, Wf (m.mobsLf i)) → Wf (.ai m)

omit [BoundedOrder K] [Zero K] in
theorem ModelOrBin.Wf.model {m : KanvaModel K} (h : (ModelOrBin.ai m).Wf) :
    0 < m.capacity ∧ m.capacity + 1 < 2 ^ 31 ∧ m.maxErr < 2 ^ 64 ∧ ∀ i, (m.mobsLf i).Wf := by
  cases h with
  | ai hpos hcap hmax _ _ hmobs => exact ⟨hpos, hcap, hmax, hmobs⟩

omit [BoundedOrder K] [Zero K] in
theorem ModelOrBin.Wf.counted {mob : ModelOrBin K} (h : mob.Wf) : mob.Counted := by
  induction h with
  | null => exact .null
  | bin _ _ => exact .bin _
  | ai hpos hcap hmax _ _ _ ih => exact .ai hpos hcap hmax ih

omit [BoundedOrder K] [Zero K] in
/-- A bin that a key is routed to holds a sorted list. -/
theorem ModelOrBin.Wf.place_holds {mob : ModelOrBin K} (h : mob.Wf) (key : K) {lflb : SeqBin K}
    (hplace : mob.place key = .bin lflb) : ∃ l, lflb.Holds l := by
  induction h with
  | null => cases hplace
  | bin hl _ =>
    obtain rfl := Target.bin.inj hplace
    exact ⟨_, hl⟩
  | @ai m _ _ _ _ _ _ ih =>
    change KanvaModel.place m key = .bin lflb at hplace
    rw [KanvaModel.place_eq] at hplace
    split at hplace
    · cases hplace
    · exact ih _ hplace

/-- The insertion does not meet a separator in the bin it ends in. -/
def Target.NoSeparator (key : K) : Target K → Prop
  | .bin lflb => ¬ lflb.MeetsSeparator key
  | _ => True

instance (key : K) : ∀ t : Target K, Decidable (t.NoSeparator key)
  | .null => inferInstanceAs (Decidable True)
  | .bin lflb => inferInstanceAs (Decidable (¬ lflb.MeetsSeparator key))
  | .entry _ => inferInstanceAs (Decidable True)

/-! ### New models -/

section New

variable {fit : List K → LinearRegressionModel K} {pairs : List (K × Val)} {maxErr : ℕ}

omit [LinearOrder K] [BoundedOrder K] in
/-- The entries of a new model. -/
theorem getElem_new (model : LinearRegressionModel K) (maxErr : ℕ) {i : ℕ} (hi : i < pairs.length) :
    pairs[i] = ((KanvaModel.new model pairs maxErr).keys i,
      (KanvaModel.new model pairs maxErr).vals i) := by
  simp [KanvaModel.new, List.getD, hi]

omit [BoundedOrder K] in
theorem strictKeys_new (model : LinearRegressionModel K) (h : Sorted pairs) (maxErr : ℕ) :
    (KanvaModel.new model pairs maxErr).StrictKeys := by
  intro i j hij hj
  have hj : j < pairs.length := hj
  have hlt := List.pairwise_iff_getElem.mp h i j (hij.trans hj) hj hij
  rwa [getElem_new model maxErr (hij.trans hj), getElem_new model maxErr hj] at hlt

omit [LinearOrder K] [BoundedOrder K] in
theorem withinError_new {model : LinearRegressionModel K}
    (hacc : model.Accurate (pairs.map Prod.fst))
    (herr : model.maxErr ≤ maxErr) : (KanvaModel.new model pairs maxErr).WithinError := by
  intro i hi
  have hi : i < pairs.length := hi
  obtain ⟨hhi, hlo⟩ := hacc i (by rwa [List.length_map])
  rw [List.length_map] at hhi hlo
  have hpred : (KanvaModel.new model pairs maxErr).predict
      ((KanvaModel.new model pairs maxErr).keys i) =
        min (model.predict ((pairs.map Prod.fst).getD i 0)) (pairs.length - 1) := by
    show (if model.predict ((pairs.map Prod.fst).getD i 0) < pairs.length
      then model.predict ((pairs.map Prod.fst).getD i 0) else pairs.length - 1) = _
    split <;> omega
  rw [hpred]
  show _ ≤ i + maxErr ∧ i ≤ _ + maxErr
  omega

/-- A new model stores its pairs. -/
theorem content_new {model : LinearRegressionModel K} (hs : Sorted pairs) (hne : pairs ≠ [])
    (herr : (KanvaModel.new model pairs maxErr).WithinError) (key : K) :
    KanvaModel.content (.new model pairs maxErr) key = pairs.lookup key := by
  have hpos : 0 < pairs.length := List.length_pos_iff.mpr hne
  have hkeys := strictKeys_new model hs maxErr
  refine Option.ext fun v => ?_
  rw [hs.lookup_eq_some_iff]
  obtain ⟨m, hm⟩ : ∃ m, m = KanvaModel.new model pairs maxErr := ⟨_, rfl⟩
  rw [← hm, KanvaModel.content]
  by_cases hhit : key = m.keys (m.locate key)
  · have hlt : m.locate key < pairs.length := by
      rw [hm]
      exact ModelOver.locate_lt_capacity _ hpos key
    have hpair : pairs[m.locate key] = (key, m.vals (m.locate key)) := by
      subst hm
      exact (getElem_new model maxErr hlt).trans (Prod.ext hhit.symm rfl)
    have hmem : (key, m.vals (m.locate key)) ∈ pairs := hpair ▸ List.getElem_mem hlt
    rw [KanvaModel.place_of_hit hhit, Target.content, Option.some.injEq]
    exact ⟨fun heq => heq ▸ hmem, fun hv => hs.eq_of_mem hmem hv⟩
  · rw [KanvaModel.place_of_miss hhit]
    subst hm
    refine ⟨fun h => (by cases h), fun hv => absurd ?_ hhit⟩
    -- a key of the array is located
    obtain ⟨i, hi, heq⟩ := List.mem_iff_getElem.mp hv
    have hkey : (KanvaModel.new model pairs maxErr).keys i = key :=
      congrArg Prod.fst ((getElem_new model maxErr hi).symm.trans heq)
    have hloc := (KanvaModel.new model pairs maxErr).locate_keys hkeys herr (i := i) hi
    rw [hkey] at hloc
    rw [hloc, hkey]

omit [BoundedOrder K] in
theorem wf_new {model : LinearRegressionModel K} (hs : Sorted pairs) (hne : pairs ≠ [])
    (hlen : pairs.length + 1 < 2 ^ 31) (hmax : maxErr < 2 ^ 64)
    (hacc : model.Accurate (pairs.map Prod.fst)) (herr : model.maxErr ≤ maxErr) :
    ModelOrBin.Wf (.ai (KanvaModel.new model pairs maxErr)) :=
  .ai (List.length_pos_iff.mpr hne) hlen hmax (strictKeys_new model hs maxErr)
    (withinError_new hacc herr) fun _ => .null

end New

/-! ### Insertions -/

section Insert

variable {fit : List K → LinearRegressionModel K} {key : K} {val : Val}

/-- The values after an insertion: the first value of a key stays. -/
def insertValue (key : K) (val : Val) (before : K → Option Val) (x : K) : Option Val :=
  if x = key then some ((before key).getD val) else before x

omit [Zero K] in
theorem content_bin {lflb : SeqBin K} {l : List (K × Val)} (h : lflb.Holds l) (x : K) :
    (ModelOrBin.bin lflb).content x = l.lookup x := by
  show lflb.collect.2.lookup x = _
  rw [h.collect_eq]

/-- An insertion that meets no separator, with its array accesses checked. -/
theorem SeqBin.Holds.insert_checked {lflb : SeqBin K} {l : List (K × Val)} (h : lflb.Holds l)
    (hshape : lflb.Shape) (hmeets : ¬ lflb.MeetsSeparator key) (hkey : key < ⊤) (hv : val ≠ -1) :
    ∃ lflb' r, lflb.insertLoop? key val 3 = some (lflb', r) ∧ lflb'.Shape ∧
      if r then lflb'.Inserted key val l else lflb'.collect.2 = l ∧ l ≠ [] := by
  obtain ⟨lflb', r, hins, hcase⟩ := h.insert_ok hmeets hkey hv
  obtain ⟨lflb₁, r₁, hplain, hchecked, hshape'⟩ := hshape.insert_ok key val
  -- both are about three rounds
  have heq : some (lflb₁, r₁) = some (lflb', r) := hplain.symm.trans hins
  obtain ⟨rfl, rfl⟩ := Prod.mk.inj (Option.some.inj heq)
  exact ⟨lflb₁, r₁, hchecked, hshape', hcase⟩

omit [Zero K] in
/-- The content of a slot after an insertion into its bin. -/
theorem content_inserted {lflb lflb' : SeqBin K} {l : List (K × Val)} (h : lflb.Holds l)
    (hshape : lflb'.Shape) (hins : lflb'.Inserted key val l) :
    (ModelOrBin.bin lflb').Wf ∧ ∀ x, (ModelOrBin.bin lflb').content x =
      insertValue key val (fun x => l.lookup x) x := by
  obtain ⟨l', hholds, hmem⟩ := hins
  refine ⟨.bin hholds hshape, fun x => ?_⟩
  rw [content_bin hholds, insertValue, ← h.sorted.lookup_insertPair]
  refine Option.ext fun v => ?_
  rw [hholds.sorted.lookup_eq_some_iff, h.sorted.insertPair.lookup_eq_some_iff, hmem]

omit [BoundedOrder K] [Zero K] in
theorem ModelOrBin.Wf.setMob {m : KanvaModel K} (h : (ModelOrBin.ai m).Wf) {mob : ModelOrBin K}
    (hmob : mob.Wf) (i : ℕ) : ModelOrBin.Wf (.ai (m.setMob i mob)) := by
  cases h with
  | ai hpos hcap hmax hkeys herr hmobs =>
    exact .ai hpos hcap hmax hkeys herr (forall_setMob m i hmobs hmob)

omit [Zero K] in
/-- A key of the array keeps its value. -/
theorem content_of_hit {m : KanvaModel K} (hhit : key = m.keys (m.locate key)) (x : K) :
    m.content x = insertValue key val m.content x := by
  rw [insertValue]
  split
  · next hx =>
    rw [hx, KanvaModel.content, KanvaModel.place_of_hit hhit]
    rfl
  · rfl

omit [Zero K] in
/-- The content of a model after an insertion into the slot of a key outside its array. -/
theorem content_setMob {m : KanvaModel K} (hmiss : key ≠ m.keys (m.locate key))
    {mob : ModelOrBin K} (hmob : ∀ x, mob.content x = insertValue key val
      (m.mobsLf (m.binPos key)).content x) (x : K) :
    KanvaModel.content (m.setMob (m.binPos key) mob) x = insertValue key val m.content x := by
  have hmobs : ∀ x, x ≠ m.keys (m.locate x) → m.content x = (m.mobsLf (m.binPos x)).content x :=
    fun x hx => by rw [KanvaModel.content, KanvaModel.place_of_miss hx, ModelOrBin.content]
  rw [KanvaModel.content, place_setMob]
  by_cases hslot : x ≠ m.keys (m.locate x) ∧ m.binPos x = m.binPos key
  · rw [if_pos hslot, ← ModelOrBin.content, hmob, insertValue, insertValue, hmobs key hmiss,
      hmobs x hslot.1, hslot.2]
  · -- the key itself goes to this slot
    rw [if_neg hslot, insertValue, if_neg, KanvaModel.content]
    rintro rfl
    exact hslot ⟨hmiss, rfl⟩

/-- A bin with pairs is retrained into a well-formed model of them. No separator is left in it. -/
theorem retrained_ok (key : K)
    (hfit : ∀ keys : List K, keys.Pairwise (· < ·) → (fit keys).Accurate keys)
    (hsize : ∀ keys : List K, keys.Pairwise (· < ·) → (fit keys).maxErr < 2 ^ 64)
    {l : List (K × Val)} (hs : Sorted l) (hne : l ≠ []) (hlen : l.length + 1 < 2 ^ 31) :
    ModelOrBin.Wf (.ai (retrained fit l)) ∧ ((retrained fit l).place key).NoSeparator key ∧
      ∀ x, (retrained fit l).content x = l.lookup x := by
  have hkeys : (l.map Prod.fst).Pairwise (· < ·) := List.pairwise_map.mpr hs
  have hacc := hfit _ hkeys
  refine ⟨wf_new hs hne hlen (hsize _ hkeys) hacc le_rfl, ?_,
    content_new hs hne (withinError_new hacc le_rfl)⟩
  rw [KanvaModel.place_eq]
  split <;> trivial

/-- An insertion into a slot with a bin, or with none. A full bin is retrained, and the insertion
goes on in the new model. -/
theorem insertBin_content (hkey : key < ⊤) (hv : val ≠ -1) {n : ℕ} {mob mob' : ModelOrBin K}
    {r : Bool} {lflb : SeqBin K} {l : List (K × Val)} (horNew : mob.orNewBin = .bin lflb)
    (hholds : lflb.Holds l) (hshape : lflb.Shape) (hmeets : ¬ lflb.MeetsSeparator key)
    (hbefore : ∀ x, mob.content x = l.lookup x)
    (hmodel : l ≠ [] → l.length + 1 < 2 ^ 31 →
      ∀ {m' r}, insertRetrain fit key val n (retrained fit l) = some (m', r) →
        (ModelOrBin.ai m').Wf ∧ ∀ x, m'.content x = insertValue key val (fun x => l.lookup x) x)
    (h : insertModelOrBin fit key val (n + 1) mob = some (mob', r)) :
    mob'.Wf ∧ ∀ x, mob'.content x = insertValue key val mob.content x := by
  rw [show mob.content = fun x => l.lookup x from funext hbefore]
  obtain ⟨lflb₁, r₁, hins, hshape', hcase⟩ := hholds.insert_checked hshape hmeets hkey hv
  rw [insertModelOrBin, horNew] at h
  simp only at h
  -- the rounds of the bin agree with its specification, whatever the bound on them
  split at h
  · cases h
  · next lflb' hloop =>
    obtain ⟨rfl, rfl⟩ := Prod.mk.inj (SeqBin.insertLoop?_det hins hloop)
    obtain ⟨rfl, -⟩ := Prod.ext_iff.mp (Option.some.inj h)
    exact content_inserted hholds hshape' hcase
  · -- the bin is sealed and retrained
    next lflb' hloop =>
    obtain ⟨rfl, rfl⟩ := Prod.mk.inj (SeqBin.insertLoop?_det hins hloop)
    obtain ⟨hcollect, hne⟩ := hcase
    split at h
    · cases h
    · next ai hai =>
      obtain ⟨hlen, rfl⟩ := retrained?_eq_some.mp hai
      obtain ⟨p, hp, heq⟩ := Option.map_eq_some_iff.mp h
      obtain ⟨rfl, -⟩ := Prod.ext_iff.mp heq
      rw [hcollect] at hp hlen
      exact hmodel hne hlen hp

/-- An insertion that meets no separator keeps the first values, in a model and in a slot. -/
theorem insert_content (hfit : ∀ keys : List K, keys.Pairwise (· < ·) → (fit keys).Accurate keys)
    (hsize : ∀ keys : List K, keys.Pairwise (· < ·) → (fit keys).maxErr < 2 ^ 64)
    (hkey : key < ⊤) (hv : val ≠ -1) (n : ℕ) :
    (∀ {m m' : KanvaModel K} {r}, (ModelOrBin.ai m).Wf → (m.place key).NoSeparator key →
      insertRetrain fit key val n m = some (m', r) →
        (ModelOrBin.ai m').Wf ∧ ∀ x, m'.content x = insertValue key val m.content x) ∧
    ∀ {mob mob' : ModelOrBin K} {r}, mob.Wf → (mob.place key).NoSeparator key →
      insertModelOrBin fit key val n mob = some (mob', r) →
        mob'.Wf ∧ ∀ x, mob'.content x = insertValue key val mob.content x := by
  -- the two functions call each other, so both are followed down one depth
  induction n with
  | zero =>
    exact ⟨fun _ _ h => by simp [insertRetrain] at h, fun _ _ h => by simp [insertModelOrBin] at h⟩
  | succ n ih =>
    obtain ⟨ihm, ihb⟩ := ih
    refine ⟨fun {m m' r} hwf hsep h => ?_, fun {mob mob' r} hwf hsep h => ?_⟩
    · obtain ⟨hpos, hcap, hmax, hmobs⟩ := hwf.model
      rw [insertRetrain, ModelOver.insertPos?_eq hcap] at h
      cases hfind : m.findPos? key with
      | none =>
        rw [hfind] at h
        cases h
      | some p =>
        rw [hfind] at h
        obtain ⟨hhit, rfl⟩ | ⟨hmiss, rfl⟩ := findPos?_place hcap hpos hmax hfind
        · -- the key is in the array
          have hm : m' = m := by
            simp only at h
            split at h <;> exact (Prod.ext_iff.mp (Option.some.inj h)).1.symm
          subst hm
          exact ⟨hwf, content_of_hit hhit⟩
        · obtain ⟨p, hp, heq⟩ := Option.map_eq_some_iff.mp h
          obtain ⟨rfl, -⟩ := Prod.ext_iff.mp heq
          rw [KanvaModel.place_of_miss hmiss] at hsep
          obtain ⟨hwf', hcontent⟩ := ihb (hmobs _) hsep hp
          exact ⟨hwf.setMob hwf' _, content_setMob hmiss hcontent⟩
    · have hmodel : ∀ {l : List (K × Val)}, Sorted l → l ≠ [] → l.length + 1 < 2 ^ 31 →
          ∀ {m' r}, insertRetrain fit key val n (retrained fit l) = some (m', r) →
            (ModelOrBin.ai m').Wf ∧
              ∀ x, m'.content x = insertValue key val (fun x => l.lookup x) x := by
        intro l hs hne hlen m' r hp
        obtain ⟨hnew, hnosep, hlookup⟩ := retrained_ok key hfit hsize hs hne hlen
        obtain ⟨hwf', hcontent⟩ := ihm hnew hnosep hp
        refine ⟨hwf', fun x => (hcontent x).trans ?_⟩
        exact congrArg (fun before => insertValue key val before x) (funext hlookup)
      cases hwf with
      | null =>
        -- a null slot is as good as an empty bin
        refine insertBin_content hkey hv rfl SeqBin.holds_new SeqBin.shape_new ?_ (fun x => rfl)
          (hmodel SeqBin.holds_new.sorted) h
        rintro (hsep | ⟨hfull, -⟩)
        · exact hsep
        · exact absurd hfull (show ¬ (32 : ℤ) ≤ 0 by decide)
      | bin hholds hshape =>
        exact insertBin_content hkey hv rfl hholds hshape hsep (content_bin hholds)
          (hmodel hholds.sorted) h
      | ai hpos hcap hmax hkeys herr hmobs =>
        rw [insertModelOrBin] at h
        obtain ⟨p, hp, heq⟩ := Option.map_eq_some_iff.mp h
        obtain ⟨rfl, -⟩ := Prod.ext_iff.mp heq
        exact ihm (.ai hpos hcap hmax hkeys herr hmobs) hsep hp

/-- The searches of an insertion that returns have not wrapped around. -/
theorem insert_sumsFit (n : ℕ) :
    (∀ {m : KanvaModel K} {r}, (ModelOrBin.ai m).Counted →
      insertRetrain fit key val n m = some r → KanvaModel.SumsFit m key) ∧
    ∀ {mob : ModelOrBin K} {r}, mob.Counted →
      insertModelOrBin fit key val n mob = some r → mob.SumsFit key := by
  induction n with
  | zero =>
    exact ⟨fun _ h => by simp [insertRetrain] at h, fun _ h => by simp [insertModelOrBin] at h⟩
  | succ n ih =>
    obtain ⟨ihm, ihb⟩ := ih
    refine ⟨fun {m r} hm h => ?_, fun {mob r} hmob h => ?_⟩
    · cases hm with
      | ai hpos hcap hmax hmobs =>
        -- `insert_model` searches like `find`, so its result is that of a search that did not wrap
        rw [insertRetrain, ModelOver.insertPos?_eq hcap] at h
        cases hfind : m.findPos? key with
        | none =>
          rw [hfind] at h
          cases h
        | some p =>
          have hfits := (ModelOver.findPos?_isSome_iff hcap hpos hmax).mp
            (Option.isSome_of_eq_some hfind)
          refine ⟨hfits, fun hmiss => ?_⟩
          obtain ⟨hhit, -⟩ | ⟨-, rfl⟩ := findPos?_place hcap hpos hmax hfind
          · exact absurd hhit hmiss
          · rw [hfind] at h
            obtain ⟨q, hq, -⟩ := Option.map_eq_some_iff.mp h
            exact ihb (hmobs _) hq
    · cases hmob with
      | null | bin _ => trivial
      | ai hpos hcap hmax hmobs =>
        rw [insertModelOrBin] at h
        obtain ⟨q, hq, -⟩ := Option.map_eq_some_iff.mp h
        exact ihm (.ai hpos hcap hmax hmobs) hq

/-- An insertion into an empty slot returns. -/
theorem insertModelOrBin_null (fit : List K → LinearRegressionModel K) (hkey : key < ⊤)
    (hv : val ≠ -1) : ∃ r, insertModelOrBin fit key val 4 .null = some r := by
  have hnew : ¬ (SeqBin.new : SeqBin K).MeetsSeparator key := by
    rintro (hsep | ⟨hfull, -⟩)
    · exact hsep
    · exact absurd hfull (show ¬ (32 : ℤ) ≤ 0 by decide)
  obtain ⟨lflb', r, hins, -, hcase⟩ :=
    SeqBin.holds_new.insert_checked SeqBin.shape_new hnew hkey hv
  rw [insertModelOrBin]
  simp only [ModelOrBin.orNewBin, hins]
  cases r with
  | true => exact ⟨_, rfl⟩
  | false => exact absurd rfl hcase.2

/-- An insertion that meets no separator returns, when no sum wraps around in its searches. -/
theorem insertModelOrBin_returns (fit : List K → LinearRegressionModel K) (hkey : key < ⊤)
    (hv : val ≠ -1) {mob : ModelOrBin K} (hwf : mob.Wf) (hfits : mob.SumsFit key)
    (hsep : (mob.place key).NoSeparator key)
    (hnew : ∀ lflb, mob.place key = .bin lflb → (retrained fit lflb.collect.2).SumFits key) :
    ∃ n r, insertModelOrBin fit key val n mob = some r := by
  induction hwf with
  | null => exact ⟨4, insertModelOrBin_null fit hkey hv⟩
  | @bin lflb l hholds hshape =>
    obtain ⟨lflb', r, hins, -, hcase⟩ := hholds.insert_checked hshape hsep hkey hv
    refine ⟨6, ?_⟩
    rw [insertModelOrBin]
    simp only [ModelOrBin.orNewBin, SeqBin.insertLoop?_mono (SeqBin.insertLoop?_mono hins)]
    cases r with
    | true => exact ⟨_, rfl⟩
    | false =>
      obtain ⟨hcollect, hne⟩ := hcase
      have hlen := hholds.length_le
      have hfits := hnew lflb rfl
      rw [hholds.collect_eq] at hfits
      simp only [hcollect,
        retrained?_eq_some.mpr ⟨(show l.length + 1 < 2 ^ 31 by omega), rfl⟩]
      -- the retrained model has empty slots only
      have hpos : 0 < (retrained fit l).capacity := List.length_pos_iff.mpr hne
      have hcap : (retrained fit l).capacity + 1 < 2 ^ 31 := show l.length + 1 < 2 ^ 31 by omega
      obtain ⟨p, hp⟩ := insertModelOrBin_null fit hkey hv
      simp only [insertRetrain, ModelOver.insertPos?_eq hcap,
        ModelOver.findPos?_of_fits hcap hpos hfits]
      split
      · next h => split at h <;> cases h
      · split_ifs <;> exact ⟨_, rfl⟩
      · rw [show (retrained fit l).mobsLf _ = .null from rfl, hp]
        exact ⟨_, rfl⟩
  | @ai m hpos hcap hmax hkeys herr hmobs ih =>
    obtain ⟨hsum, hslots⟩ := hfits
    change (KanvaModel.place m key).NoSeparator key at hsep
    change ∀ lflb, KanvaModel.place m key = .bin lflb → _ at hnew
    have hfind := ModelOver.findPos?_of_fits hcap hpos hsum
    by_cases hhit : key = m.keys (m.locate key)
    · rw [if_pos hhit] at hfind
      refine ⟨2, ?_⟩
      simp only [insertModelOrBin, ModelOrBin.orNewBin, insertRetrain,
        ModelOver.insertPos?_eq hcap, hfind]
      split_ifs <;> exact ⟨_, rfl⟩
    · rw [if_neg hhit] at hfind
      rw [KanvaModel.place_of_miss hhit] at hsep hnew
      obtain ⟨n, p, hp⟩ := ih _ (hslots hhit) hsep hnew
      refine ⟨n + 2, ?_⟩
      simp only [insertModelOrBin, ModelOrBin.orNewBin, insertRetrain,
        ModelOver.insertPos?_eq hcap, hfind, hp]
      exact ⟨_, rfl⟩

end Insert

namespace KanvaIndex

variable {fit : List K → LinearRegressionModel K} {kv kv₀ kv' : KanvaIndex K}
  {data : List (K × Val)} {segs : List (List (K × Val))}

/-- The value with which the index stores a key. -/
def content (kv : KanvaIndex K) (key : K) : Option Val :=
  (kv.aimodels[kv.findModel key]?).bind fun m => m.content key

/-- All models are well formed. -/
def Wf (kv : KanvaIndex K) : Prop := ∀ m ∈ kv.aimodels, (ModelOrBin.ai m).Wf

/-- The call has proper arguments, and an insertion meets no separator. -/
def NoSeparator (kv : KanvaIndex K) (c : Call K) : Prop :=
  c.Args ∧ match c with
    | .insert key _ => ∀ t ∈ kv.target key, t.NoSeparator key
    | .remove _ => True

instance (kv : KanvaIndex K) : ∀ c : Call K, Decidable (kv.NoSeparator c)
  | .insert key val => inferInstanceAs
      (Decidable ((Call.insert key val).Args ∧ ∀ t ∈ kv.target key, t.NoSeparator key))
  | .remove key => inferInstanceAs (Decidable ((Call.remove key).Args ∧ True))

/-! ### Training -/

omit [BoundedOrder K] in
/-- `find_model` finds the segment of a trained key. -/
theorem findModel_eq (hsegs : Segments fit kv segs) (hs : Sorted segs.flatten)
    (hlen : segs.length < 2 ^ 31) {x : K} {v : Val} {j : ℕ} (hj : j < segs.length)
    (hx : (x, v) ∈ segs[j]) : kv.findModel x = j := by
  have hmono : ∀ i i', i ≤ i' → i' < segs.length →
      kv.modelKeys.getD i 0 ≤ kv.modelKeys.getD i' 0 := by
    rw [hsegs.modelKeys]
    exact lastKeys_mono hsegs.nonempty hs
  have hidx : lowerBound (fun i => kv.modelKeys.getD i 0) x segs.length = j := by
    rw [hsegs.modelKeys]
    exact lowerBound_lastKeys hsegs.nonempty hs hj hx
  have hsize : toInt32 kv.modelKeys.length = segs.length := by
    rw [hsegs.modelKeys, List.length_map]
    exact toInt32_of_lt hlen
  have hmodels : kv.aimodels.length = segs.length := by
    rw [hsegs.aimodels, List.length_map]
  rw [findModel, hsize, binarySearchBranchless_eq hmono, hidx, hmodels]
  simp [hj]

/-- Training stores the training data. -/
theorem content_of_train (hsegs : Segments fit kv segs) (hs : Sorted segs.flatten)
    (hfit : ∀ keys : List K, keys.Pairwise (· < ·) → (fit keys).Accurate keys)
    (hlen : segs.length < 2 ^ 31) :
    kv.Wf ∧ ∀ x, kv.content x = segs.flatten.lookup x := by
  have hsorted : ∀ seg ∈ segs, Sorted seg := (List.pairwise_flatten.mp hs).1
  have hacc : ∀ seg ∈ segs, (fit (seg.map Prod.fst)).Accurate (seg.map Prod.fst) :=
    fun seg hseg => hfit _ (List.pairwise_map.mpr (hsorted seg hseg))
  refine ⟨fun m hm => ?_, fun x => ?_⟩
  · rw [hsegs.aimodels, List.mem_map] at hm
    obtain ⟨seg, hseg, rfl⟩ := hm
    have hmax : toSize kv.maxErr < 2 ^ 64 := by
      rw [toSize]
      omega
    exact wf_new (hsorted seg hseg) (hsegs.nonempty seg hseg) (hsegs.counted seg hseg) hmax
      (hacc seg hseg) (hsegs.fitted seg hseg)
  · cases hm : kv.aimodels[kv.findModel x]? with
    | none =>
      -- there is no segment
      have hnil : segs = [] := by
        have hmodels : kv.aimodels.length = segs.length := by
          rw [hsegs.aimodels, List.length_map]
        have hout := List.getElem?_eq_none_iff.mp hm
        rw [findModel] at hout
        refine List.length_eq_zero_iff.mp ?_
        split at hout <;> omega
      rw [content, hm, hnil]
      rfl
    | some m =>
      have hseg := hm
      rw [hsegs.aimodels, List.getElem?_map] at hseg
      obtain ⟨seg, hget, rfl⟩ := Option.map_eq_some_iff.mp hseg
      have hmem := List.mem_of_getElem? hget
      rw [content, hm, Option.bind_some, content_new (hsorted seg hmem) (hsegs.nonempty seg hmem)
        (withinError_new (hacc seg hmem) (hsegs.fitted seg hmem))]
      refine Option.ext fun v => ?_
      rw [(hsorted seg hmem).lookup_eq_some_iff, hs.lookup_eq_some_iff]
      refine ⟨fun hv => List.mem_flatten.mpr ⟨seg, hmem, hv⟩, fun hv => ?_⟩
      obtain ⟨seg', hseg', hv'⟩ := List.mem_flatten.mp hv
      obtain ⟨j, hj, rfl⟩ := List.mem_iff_getElem.mp hseg'
      rw [findModel_eq hsegs hs hlen hj hv', List.getElem?_eq_getElem hj] at hget
      rwa [← Option.some.inj hget]

/-! ### Runs of insertions -/

/-- The content of the keys of a model is in it. -/
theorem content_of_findModel {x key : K} {m : KanvaModel K}
    (hm : kv.aimodels[kv.findModel key]? = some m) (hx : kv.findModel x = kv.findModel key) :
    kv.content x = m.content x := by
  rw [content, hx, hm]
  rfl

/-- Writing the model of a key changes the content of the keys of that model. -/
theorem content_setModel {key : K} {m m' : KanvaModel K}
    (hm : kv.aimodels[kv.findModel key]? = some m) (x : K) : (kv.setModel key m').content x =
      if kv.findModel x = kv.findModel key then m'.content x else kv.content x := by
  rw [content, findModel_setModel]
  simp only [setModel]
  split
  · next h =>
    rw [h, List.getElem?_set_self (List.getElem?_eq_some_iff.mp hm).1]
    rfl
  · next h =>
    rw [List.getElem?_set_ne (Ne.symm h)]
    rfl

/-- An insertion into the index. -/
theorem call_content (hfit : ∀ keys : List K, keys.Pairwise (· < ·) → (fit keys).Accurate keys)
    (hsize : ∀ keys : List K, keys.Pairwise (· < ·) → (fit keys).maxErr < 2 ^ 64)
    (hwf : kv.Wf) {key : K} {val : Val} (hok : kv.NoSeparator (.insert key val)) {n : ℕ} {r : Bool}
    (hcall : kv.call fit n (.insert key val) = some (kv', r)) :
    kv'.Wf ∧ ∀ x, kv'.content x = insertValue key val kv.content x := by
  obtain ⟨⟨hkey, hv⟩, hsep⟩ := hok
  obtain ⟨m, m', hm, hins, rfl⟩ := call_eq_some.mp hcall
  have hm : kv.aimodels[kv.findModel key]? = some m := hm
  have hmwf := hwf m (List.mem_of_getElem? hm)
  have hfits : KanvaModel.SumsFit m key := (insert_sumsFit n).1 hmwf.counted hins
  have htarget : kv.target key = some (m.place key) :=
    (target_of_findModel hm rfl).trans (ModelOrBin.target_eq_place hmwf.counted hfits)
  obtain ⟨hwf', hcontent⟩ := (insert_content hfit hsize hkey hv n).1 hmwf (hsep _ htarget) hins
  refine ⟨fun m₁ hm₁ => ?_, fun x => ?_⟩
  · rcases List.mem_or_eq_of_mem_set hm₁ with hold | rfl
    · exact hwf m₁ hold
    · exact hwf'
  · show (kv.setModel key m').content x = _
    rw [content_setModel hm]
    split
    · next hx =>
      rw [hcontent, insertValue, insertValue, content_of_findModel hm hx,
        content_of_findModel hm rfl]
    · next hx =>
      rw [insertValue, if_neg fun heq => hx (by rw [heq])]

/-- An insertion that meets no separator returns, with a large enough bound on its depth, when no
sum wraps around in its searches. -/
theorem insert_returns (fit : List K → LinearRegressionModel K) (hwf : kv.Wf) {key : K} {val : Val}
    (hok : kv.NoSeparator (.insert key val)) (hfits : kv.SumsFit key)
    (hnew : ∀ lflb, kv.target key = some (.bin lflb) → (retrained fit lflb.collect.2).SumFits key)
    {m : KanvaModel K} (hm : kv.aimodels[kv.findModel key]? = some m) :
    ∃ n r, kv.call fit n (.insert key val) = some r := by
  obtain ⟨⟨hkey, hv⟩, hsep⟩ := hok
  have hmwf := hwf m (List.mem_of_getElem? hm)
  have htarget : kv.target key = some (m.place key) :=
    (target_of_findModel hm rfl).trans (ModelOrBin.target_eq_place hmwf.counted (hfits m hm))
  obtain ⟨n, p, hp⟩ := insertModelOrBin_returns fit hkey hv hmwf (hfits m hm) (hsep _ htarget)
    fun lflb hlflb => hnew lflb (htarget.trans (congrArg some hlflb))
  cases n with
  | zero => simp [insertModelOrBin] at hp
  | succ n =>
    rw [insertModelOrBin] at hp
    obtain ⟨q, hq, -⟩ := Option.map_eq_some_iff.mp hp
    exact ⟨n, (kv.setModel key q.1, q.2), call_eq_some.mpr ⟨m, q.1, hm, hq, rfl⟩⟩

/-- The calls `insert(k, v)`. -/
def inserts (calls : List (K × Val)) : List (Call K) := calls.map fun p => .insert p.1 p.2

/-- The first values of the training data and the insertions after it. -/
theorem content_of_runs (hfit : ∀ keys : List K, keys.Pairwise (· < ·) → (fit keys).Accurate keys)
    (hsize : ∀ keys : List K, keys.Pairwise (· < ·) → (fit keys).maxErr < 2 ^ 64)
    (hwf : kv₀.Wf) (hcontent : ∀ x, kv₀.content x = data.lookup x) {cs : List (Call K)}
    (hrun : Runs fit NoSeparator kv₀ cs kv) {calls : List (K × Val)} (hcs : cs = inserts calls) :
    kv.Wf ∧ ∀ x, kv.content x = (data ++ calls).lookup x := by
  induction hrun generalizing calls with
  | nil =>
    obtain rfl : calls = [] := by
      cases calls with
      | nil => rfl
      | cons p calls => cases hcs
    rw [List.append_nil]
    exact ⟨hwf, hcontent⟩
  | @call cs kv c n kv' r _ hok hcall ih =>
    rcases List.eq_nil_or_concat calls with rfl | ⟨calls', p, rfl⟩
    · simp [inserts] at hcs
    rw [inserts, List.concat_eq_append, List.map_append, List.map_singleton] at hcs
    obtain ⟨hcs', hc⟩ := List.append_inj' hcs rfl
    obtain rfl : c = .insert p.1 p.2 := List.singleton_inj.mp hc
    obtain ⟨hwf₁, hcontent₁⟩ := ih hcs'
    obtain ⟨hwf', hcontent'⟩ := call_content hfit hsize hwf₁ hok hcall
    refine ⟨hwf', fun x => ?_⟩
    rw [hcontent', insertValue, hcontent₁, hcontent₁, List.concat_eq_append, ← List.append_assoc]
    exact (lookup_concat (data ++ calls') p.1 p.2 x).symm

omit [Zero K] in
/-- The answer of a bin is the value of the key, or -1, for the keys whose value is the `bool` of
`search`. -/
theorem answer_bin_iff {lflb : SeqBin K} {l : List (K × Val)} (hl : lflb.Holds l) {key : K}
    (hkey : key < ⊤) : (Target.bin lflb).answer key =
        ((Target.bin lflb).content key).getD (-1) ↔
      ∀ b, Target.bin lflb = .bin b →
        (Target.bin lflb).content key = some (if b.IsSeparator key then 0 else 1) := by
  have hhas := hasKey_iff_lookup l (k := key)
  simp only [Target.answer, Target.content, hl.collect_eq, hl.search_eq hkey, Target.bin.injEq,
    forall_eq']
  cases hlook : l.lookup key with
  | none =>
    have hno : ¬ HasKey key l := fun h => by
      obtain ⟨v, hv⟩ := hhas.mp h
      rw [hlook] at hv
      cases hv
    by_cases hbot : key = ⊥ <;> simp [hno, hbot]
  | some v =>
    have hyes : HasKey key l := hhas.mpr ⟨v, hlook⟩
    rcases eq_or_ne key ⊥ with rfl | hbot
    · simp [hl.not_isSeparator_bot, eq_comm]
    · by_cases hsep : lflb.IsSeparator key <;> simp [hyes, hsep, hbot, eq_comm]

/-- In a run of insertions from training that meet no separator, `find` returns the first value of a
key, and -1 for a key without one, exactly when no sum wraps around in the searches for the key, and
the key is not routed to a bin, or is routed to a bin with the value that `search` makes of it: 1,
or 0 when it is a separator of the bin. -/
theorem find_iff {scale : ℤ → ℤ} {step fuel maxErr : ℕ} {calls : List (K × Val)} {key : K}
    (hfit : ∀ keys : List K, keys.Pairwise (· < ·) → (fit keys).Accurate keys)
    (hsize : ∀ keys : List K, keys.Pairwise (· < ·) → (fit keys).maxErr < 2 ^ 64)
    (hdata : Sorted data) (hne : data ≠ []) (hstep : 0 < step)
    (htrain : (KanvaIndex.new step).train fit scale data fuel maxErr = some kv₀)
    (hlen : kv₀.aimodels.length < 2 ^ 31)
    (hrun : Runs fit NoSeparator kv₀ (inserts calls) kv) (hkey : key < ⊤) :
    kv.find key = some (((data ++ calls).lookup key).getD (-1)) ↔
      kv.SumsFit key ∧ ∀ lflb, kv.target key = some (.bin lflb) →
        (data ++ calls).lookup key = some (if lflb.IsSeparator key then 0 else 1) := by
  obtain ⟨segs, hsegs, hflat⟩ := train_segments hstep htrain
  rw [hsegs.aimodels, List.length_map] at hlen
  subst hflat
  obtain ⟨hwf₀, hcontent₀⟩ := content_of_train hsegs hdata hfit hlen
  obtain ⟨hwf, hcontent⟩ := content_of_runs hfit hsize hwf₀ hcontent₀ hrun rfl
  -- there is a model, since the index stores the training data
  obtain ⟨m, hm⟩ : ∃ m, kv.aimodels[kv.findModel key]? = some m := by
    obtain ⟨⟨x, v⟩, hmem⟩ := List.exists_mem_of_ne_nil _ hne
    have hx := hcontent x
    rw [List.lookup_append, hdata.lookup_eq_some_iff.mpr hmem, Option.some_or] at hx
    have hpos : kv.aimodels ≠ [] := by
      intro hnil
      rw [content, hnil] at hx
      cases hx
    exact exists_model hpos key
  have hmwf := hwf m (List.mem_of_getElem? hm)
  have hc := hcontent key
  rw [content_of_findModel hm rfl, KanvaModel.content] at hc
  have hsums : kv.SumsFit key ↔ KanvaModel.SumsFit m key :=
    ⟨fun h => h m hm, fun h m' hm' => Option.some.inj (hm.symm.trans hm') ▸ h⟩
  rw [find_eq, target_of_findModel hm rfl, hsums, ← hc]
  by_cases hfits : KanvaModel.SumsFit m key
  · rw [show m.target key = some (m.place key) from
      ModelOrBin.target_eq_place hmwf.counted hfits, Option.map_some, Option.some.injEq]
    simp only [hfits, true_and, Option.some.injEq]
    obtain ⟨t, ht⟩ : ∃ t, t = m.place key := ⟨_, rfl⟩
    have hbin : ∀ lflb, t = .bin lflb → ∃ l, lflb.Holds l :=
      fun lflb h => hmwf.place_holds key (ht.symm.trans h)
    rw [← ht]
    cases t with
    | null => simp [Target.answer, Target.content]
    | entry v => simp [Target.answer, Target.content]
    | bin lflb =>
      obtain ⟨l, hl⟩ := hbin lflb rfl
      exact answer_bin_iff hl hkey
  · -- the search fails
    have hnone : m.target key = none := by
      rw [← Option.not_isSome_iff_eq_none]
      exact fun h => hfits ((ModelOrBin.target_isSome_iff hmwf.counted key).mp h)
    rw [hnone]
    exact iff_of_false (Option.some_ne_none _).symm fun h => hfits h.1

theorem zeroFit_accurate (keys : List (Fin 64)) : (zeroFit keys).Accurate keys := by
  intro i hi
  show min 0 (keys.length - 1) ≤ i + keys.length ∧ i ≤ min 0 (keys.length - 1) + keys.length
  omega

theorem zeroFit_size (keys : List (Fin 64)) (h : keys.Pairwise (· < ·)) :
    (zeroFit keys).maxErr < 2 ^ 64 := by
  have hnodup : keys.Nodup := h.imp ne_of_lt
  have hlen := hnodup.length_le_card
  rw [Fintype.card_fin] at hlen
  exact hlen.trans_lt (by decide)

/-- The run of the insertions 1, …, 33 splits a leaf with the separator 17. -/
theorem find_iff_split : ∃ kv₀ kv, trained [(50, 5)] = some kv₀ ∧
    Runs zeroFit NoSeparator kv₀ (inserts (SeqBin.upTo 33)) kv ∧
    (kv.find 17 = some ((([(50, 5)] ++ SeqBin.upTo 33).lookup 17).getD (-1)) ↔
      kv.SumsFit 17 ∧ ∀ lflb, kv.target 17 = some (.bin lflb) →
        ([(50, 5)] ++ SeqBin.upTo 33).lookup 17 = some (if lflb.IsSeparator 17 then 0 else 1)) := by
  have hexec : ((trained [(50, 5)]).bind fun kv₀ =>
      if kv₀.aimodels.length < 2 ^ 31 then
        (exec zeroFit NoSeparator 5 kv₀ (inserts (SeqBin.upTo 33))).map fun _ => ()
      else none) = some () := by
    decide +kernel
  obtain ⟨kv₀, htrain, hexec⟩ := Option.bind_eq_some_iff.mp hexec
  split at hexec
  · next hlen =>
    obtain ⟨kv, hrun, -⟩ := Option.map_eq_some_iff.mp hexec
    have hruns := exec_runs .nil hrun
    exact ⟨kv₀, kv, htrain, hruns, find_iff (fun keys _ => zeroFit_accurate keys)
      zeroFit_size (List.pairwise_singleton _ _) (by simp) (by decide) htrain
      hlen hruns (by decide)⟩
  · cases hexec

/-- `find` of a key in a bin returns 1, not its value. -/
theorem find_not_faithful : ∃ kv₀ kv, trained [(10, 1)] = some kv₀ ∧
    Runs zeroFit (fun _ c => c.Args) kv₀ (inserts [(5, 7)]) kv ∧
    kv.find 5 ≠ some ((([(10, 1)] ++ [(5, 7)] : List (Fin 64 × Val)).lookup 5).getD (-1)) := by
  have hexec : ((trained [(10, 1)]).bind fun kv₀ =>
      (exec zeroFit (fun _ c => c.Args) 5 kv₀ (inserts [(5, 7)])).map fun kv => kv.find 5) =
        some (some 1) := by
    decide +kernel
  obtain ⟨kv₀, htrain, hexec⟩ := Option.bind_eq_some_iff.mp hexec
  obtain ⟨kv, hrun, hfind⟩ := Option.map_eq_some_iff.mp hexec
  refine ⟨kv₀, kv, htrain, exec_runs .nil hrun, ?_⟩
  rw [hfind]
  decide

end KanvaIndex

end KanvaImpl
