import Kanva.RS.Model.Lookup

/-!
# The effects of the calls of Kanva_RS

What `insert`, `remove` and `find` do, told by the target of their key. At an array entry and at a
full list, which an insertion makes a model first, an insertion does not overwrite a value; at a
list with room it does. The status does not follow suit.

## Main results

* `KanvaRSModel.insertRetrain_ok`, `KanvaRSModel.remove_ok`: a call changes its own key only; its
  status and what it leaves there.
-/

namespace KanvaRS

open Kanva SortedArray SortedAssoc

variable {K : Type} [LinearOrder K] [BoundedOrder K] [Zero K]

omit [BoundedOrder K] [Zero K] [LinearOrder K] in
theorem insertEntry_key (val : Val) (globalTs : ℤ) (e : VersionedKey K) :
    (insertEntry val globalTs e).1.key = e.key := by
  rw [insertEntry, VersionedKey.insert]
  split
  · rfl
  · exact VersionedKey.update_key _ _ _

omit [BoundedOrder K] [Zero K] [LinearOrder K] in
theorem removeEntry_key (globalTs : ℤ) (e : VersionedKey K) :
    (removeEntry globalTs e).1.key = e.key := by
  rw [removeEntry, VersionedKey.insert]
  split
  · exact VersionedKey.update_key _ _ _
  · rfl

/-! ### Lists -/

section Lists

variable {l l' : VersionedList K} {key : K} {val : Val} {globalTs : ℤ}

omit [BoundedOrder K] in
theorem newest_bin (l : VersionedList K) (x : K) :
    (ModelOrBin.bin l).newest x = (l.node x).map VersionedKey.getValue := rfl

theorem UpdateOk.refl {mob : ModelOrBin K} (h : mob.Wf) : UpdateOk key mob mob :=
  ⟨h, fun _ _ => rfl, fun e he => .inr ⟨e, he, rfl⟩⟩

/-- A list that changes at most at one key. -/
theorem UpdateOk.bin (h : l.Wf) (h' : l'.Wf) (hnodes : ∀ x, x ≠ key → l'.node x = l.node x) :
    UpdateOk key (.bin l) (.bin l') := by
  refine ⟨h', fun x hx => by rw [newest_bin, newest_bin, hnodes x hx], fun e he => ?_⟩
  by_cases hkey : e.key = key
  · exact .inl hkey
  · have hnode := h'.node_iff.mpr ⟨he, rfl⟩
    rw [hnodes _ hkey] at hnode
    exact .inr ⟨e, (h.node_iff.mp hnode).1, rfl⟩

/-- An insertion into a list that is not full. -/
theorem VersionedList.Wf.insert_room (h : l.Wf) (hsize : l.size < threshhold) (key : K) (val : Val)
    (globalTs : ℤ) :
    ∃ l' res, l.insert key val globalTs = (l', res) ∧ 0 ≤ res ∧
      UpdateOk key (.bin l) (.bin l') ∧ (ModelOrBin.bin l').newest key =
        if (ModelOrBin.bin l).newest key = none ∧ (key = ⊤ ∨ val = -1) then none else some val := by
  cases h.insert_cases key val globalTs with
  | full hfull heq => omega
  | write _ e hnode l' heq hwf hnodes =>
    refine ⟨l', 0, heq, le_rfl, .bin h hwf fun x hx => by rw [hnodes, if_neg hx], ?_⟩
    rw [newest_bin, newest_bin, hnodes, if_pos rfl, hnode]
    simp
  | skip _ hnode hskip l' heq hwf hnodes =>
    have hsame : ∀ x, l'.node x = l.node x := fun x => by
      rw [VersionedList.node, hnodes, ← VersionedList.node]
    refine ⟨l', 0, heq, le_rfl, .bin h hwf fun x _ => hsame x, ?_⟩
    rw [newest_bin, newest_bin, hsame, hnode]
    simp [hskip]
  | link _ hnode htop hvalue heq =>
    refine ⟨_, 1, heq, by omega, .bin h (h.link hnode htop hsize) fun x hx => by
      rw [VersionedList.node_link, if_neg hx], ?_⟩
    rw [newest_bin, newest_bin, VersionedList.node_link, if_pos rfl, hnode]
    simp only [Option.map_none, true_and, Option.map_some, VersionedKey.initTs_getValue]
    rw [if_neg (by simp [htop, hvalue])]
    rfl

omit [Zero K] in
theorem VersionedList.insert_full (hsize : threshhold ≤ l.size) :
    l.insert key val globalTs = (l, -2) := by
  rw [VersionedList.insert, if_pos hsize]

/-- A list that is made a model keeps its keys. -/
theorem retrained_ok (h : l.Wf) (hpos : 0 < l.size) (lrmodel : LinearRegressionModel K) :
    (ModelOrBin.ai (KanvaRSModel.ofVersions lrmodel l.nodes)).Wf ∧
      (∀ x, (ModelOrBin.ai (KanvaRSModel.ofVersions lrmodel l.nodes)).newest x =
          (ModelOrBin.bin l).newest x) ∧
      (ModelOrBin.ai (KanvaRSModel.ofVersions lrmodel l.nodes)).entries = l.nodes := by
  have hentries : (ModelOrBin.ai (KanvaRSModel.ofVersions lrmodel l.nodes)).entries = l.nodes := by
    show l.nodes ++ (List.range (l.nodes.length + 1)).flatMap (fun _ => []) = l.nodes
    simp
  have hwf : (ModelOrBin.ai (KanvaRSModel.ofVersions lrmodel l.nodes)).Wf := by
    have hsize := h.size_eq
    have hle := h.size_le
    have hcap : (KanvaRSModel.ofVersions lrmodel l.nodes).capacity = l.nodes.length := rfl
    refine ModelOrBin.wf_ai.mpr ⟨.of_sorted h.sorted (by omega) ?_, fun i => ⟨trivial, ?_⟩⟩
    · rw [hcap]
      rw [threshhold] at hle
      omega
    · exact fun e he => (by cases he)
  refine ⟨hwf, fun x => Option.ext fun v => ?_, hentries⟩
  have hbin : (ModelOrBin.bin l).Wf := h
  rw [ModelOrBin.newest_iff hwf, hentries, ModelOrBin.newest_iff hbin]
  rfl

end Lists

/-! ### Insertions -/

section Insert

variable {fit : List K → LinearRegressionModel K} {mob : ModelOrBin K} {m : KanvaRSModel K}
    {key : K}
  {val : Val} {globalTs : ℤ}

/-- An insertion never gets to a target that overwrites: it is an array entry, or a full list. -/
def Target.Sealed : Target K → Prop
  | .null => False
  | .bin lflb => threshhold ≤ lflb.size
  | .entry _ => True

instance : ∀ t : Target K, Decidable t.Sealed
  | .null => inferInstanceAs (Decidable False)
  | .bin lflb => inferInstanceAs (Decidable (threshhold ≤ lflb.size))
  | .entry _ => inferInstanceAs (Decidable True)

/-- The newest value an insertion leaves, and its status. -/
def Target.inserted (key : K) (val : Val) (t : Target K) : Option Val × Bool :=
  match t.newest key with
  | none => (if key = ⊤ ∨ val = -1 then none else some val, true)
  | some v => if t.Sealed then (some (if v = -1 then val else v), false) else (some val, true)

omit [Zero K] in
theorem Target.inserted_congr {t t' : Target K} (hnewest : t.newest key = t'.newest key)
    (hsealed : t.newest key = none ∨ (t.Sealed ↔ t'.Sealed)) :
    t.inserted key val = t'.inserted key val := by
  rw [inserted, inserted, ← hnewest]
  cases hv : t.newest key with
  | none => rfl
  | some v =>
    rw [hv] at hsealed
    simp only [hsealed.resolve_left (Option.some_ne_none v)]

omit [Zero K] in
theorem insertEntry_result (e : VersionedKey K) :
    (some (insertEntry val globalTs e).1.getValue, (insertEntry val globalTs e).2) =
      (Target.entry e).inserted key val := by
  rw [insertEntry, VersionedKey.insert, Target.inserted, Target.newest]
  by_cases hv : e.getValue = -1
  · simp [hv, Target.Sealed]
  · simp [hv, Target.Sealed]

theorem insertNull_ok (key : K) (val : Val) (globalTs : ℤ) :
    UpdateOk key .null (insertNull key val globalTs).1 ∧
      ((insertNull key val globalTs).1.newest key, (insertNull key val globalTs).2) =
        Target.null.inserted key val := by
  have hroom : (VersionedList.new : VersionedList K).size < threshhold := Nat.succ_pos 9
  obtain ⟨l', res, heq, hres, hok, hnewest⟩ :=
    VersionedList.wf_new.insert_room hroom key val globalTs
  rw [insertNull, heq]
  refine ⟨⟨hok.wf, hok.frame, hok.keys⟩, ?_⟩
  have hnone : (ModelOrBin.bin (VersionedList.new : VersionedList K)).newest key = none := rfl
  rw [hnone] at hnewest
  simp only [true_and] at hnewest
  rw [hnewest]
  simp only [hres, decide_true]
  rfl

/-- A full list becomes a model before the insertion goes on. -/
theorem insertBin_ok {l : VersionedList K} (h : l.Wf) :
    ∃ p, insertBin fit key val globalTs l = some p ∧ UpdateOk key (.bin l) p.1 ∧
      (p.1.newest key, p.2) = (Target.bin l).inserted key val := by
  rcases Nat.lt_or_ge l.size threshhold with hsize | hsize
  · -- a list with room takes the key itself
    obtain ⟨l', res, heq, hres, hok, hnewest⟩ := h.insert_room hsize key val globalTs
    refine ⟨(.bin l', true), ?_, hok, ?_⟩
    · have hne : res ≠ -2 := by omega
      simp [insertBin, heq, hres, hne]
    · have hopen : ¬ (Target.bin l).Sealed := not_le.mpr hsize
      rw [hnewest, Target.inserted]
      show _ = match (ModelOrBin.bin l).newest key with
        | none => _
        | some v => _
      cases (ModelOrBin.bin l).newest key with
      | none => simp
      | some v => simp [hopen]
  · -- the new model has empty slots, so the insertion ends in it
    set m := KanvaRSModel.ofVersions (fit (l.nodes.map VersionedKey.key)) l.nodes with hm
    obtain ⟨hwf, hsame, hentries⟩ := retrained_ok h (lt_of_lt_of_le (Nat.succ_pos 9) hsize)
      (fit (l.nodes.map VersionedKey.key))
    have hnull := insertNull_ok key val globalTs
    obtain ⟨p, hp, hok, hresult⟩ := updateAt_ok (fun _ => some (insertNull key val globalTs)) hwf
      (insertEntry_key val globalTs) insertEntry_result ⟨_, rfl, hnull⟩
    refine ⟨(.ai p.1, p.2), ?_, ⟨hok.wf, fun x hx => (hok.frame x hx).trans (hsame x), ?_⟩, ?_⟩
    · simp only [insertBin, VersionedList.insert_full hsize, if_pos]
      rw [← hm, hp]
      rfl
    · intro e he
      refine (hok.keys e he).imp_right ?_
      rw [hentries]
      exact id
    · -- the target in the new model is an entry or an empty slot
      obtain ⟨e, he⟩ := hwf.entry key
      have hnewest := hsame key
      rw [ModelOrBin.newest_ai he] at hnewest
      rw [hresult, ModelOrBin.target_ai he]
      have hsealed : (Target.bin l).Sealed := hsize
      split
      · next hkey =>
        rw [if_pos hkey] at hnewest
        exact Target.inserted_congr hnewest (.inr ⟨fun _ => hsealed, fun _ => trivial⟩)
      · next hkey =>
        rw [if_neg hkey] at hnewest
        exact Target.inserted_congr hnewest (.inl rfl)

/-- What an insertion leaves below a slot. -/
theorem ModelOrBin.insertModelOrBin_ok (h : mob.Wf) :
    ∃ p, mob.insertModelOrBin fit key val globalTs = some p ∧ UpdateOk key mob p.1 ∧
      (p.1.newest key, p.2) = (mob.target key).inserted key val :=
  ModelOrBin.update_ok (insertEntry_key val globalTs) insertEntry_result
    (insertNull_ok key val globalTs)
    (fun _ hl => insertBin_ok hl) h

theorem KanvaRSModel.insertRetrain_ok (fit : List K → LinearRegressionModel K) (key : K) (val : Val)
    (globalTs : ℤ) (h : (ModelOrBin.ai m).Wf) :
    ∃ p, m.insertRetrain fit key val globalTs = some p ∧ UpdateOk key (.ai m) (.ai p.1) ∧
      ((ModelOrBin.ai p.1).newest key, p.2) = ((ModelOrBin.ai m).target key).inserted key val :=
  updateAt_ok _ h (insertEntry_key val globalTs) insertEntry_result
    (ModelOrBin.insertModelOrBin_ok ((ModelOrBin.wf_ai.mp h).2 _).1)

end Insert

/-! ### Removals -/

section Remove

variable {mob : ModelOrBin K} {m : KanvaRSModel K} {key : K} {globalTs : ℤ}

/-- The newest value a removal leaves, and its status. -/
def Target.removed (key : K) : Target K → Option Val × Bool
  | .null => (none, false)
  | .bin lflb =>
    if threshhold ≤ lflb.size then ((Target.bin lflb).newest key, false)
    else (((Target.bin lflb).newest key).map fun _ => -1, true)
  | .entry _ => (some (-1), false)

omit [BoundedOrder K] [Zero K] in
theorem removeEntry_result (e : VersionedKey K) :
    (some (removeEntry globalTs e).1.getValue, (removeEntry globalTs e).2) =
      (Target.entry e).removed key := by
  rw [removeEntry, VersionedKey.insert, Target.removed]
  split
  · rw [VersionedKey.update_getValue]
  · next hv => rw [not_not.mp hv]

/-- A full list refuses a removal. -/
theorem removeBin_ok {l : VersionedList K} (h : l.Wf) :
    ∃ p, removeBin key globalTs l = some p ∧ UpdateOk key (.bin l) p.1 ∧
      (p.1.newest key, p.2) = (Target.bin l).removed key := by
  rw [removeBin, VersionedList.remove, Target.removed]
  rcases Nat.lt_or_ge l.size threshhold with hsize | hsize
  · obtain ⟨l', res, heq, hres, hok, hnewest⟩ := h.insert_room hsize key (-1) globalTs
    have hne : res ≠ -2 := by omega
    rw [heq, if_neg (not_le.mpr hsize)]
    refine ⟨_, rfl, hok, ?_⟩
    simp only [or_true, and_true] at hnewest
    rw [hnewest]
    show _ = (((ModelOrBin.bin l).newest key).map fun _ => (-1 : Val), true)
    cases (ModelOrBin.bin l).newest key <;> simp [hne, hres]
  · rw [VersionedList.insert_full hsize, if_pos hsize]
    exact ⟨_, rfl, .refl h, rfl⟩

theorem ModelOrBin.removeModelOrBin_ok (h : mob.Wf) :
    ∃ p, mob.removeModelOrBin key globalTs = some p ∧ UpdateOk key mob p.1 ∧
      (p.1.newest key, p.2) = (mob.target key).removed key :=
  ModelOrBin.update_ok (removeEntry_key globalTs) removeEntry_result ⟨.refl trivial, rfl⟩
    (fun _ hl => removeBin_ok hl) h

theorem KanvaRSModel.remove_ok (key : K) (globalTs : ℤ) (h : (ModelOrBin.ai m).Wf) :
    ∃ p, m.remove key globalTs = some p ∧ UpdateOk key (.ai m) (.ai p.1) ∧
      ((ModelOrBin.ai p.1).newest key, p.2) = ((ModelOrBin.ai m).target key).removed key :=
  updateAt_ok _ h (removeEntry_key globalTs) removeEntry_result
    (ModelOrBin.removeModelOrBin_ok ((ModelOrBin.wf_ai.mp h).2 _).1)

end Remove

/-! ### Statuses -/

section Statuses

variable {key : K} {val : Val} {t : Target K}

/-- The newest value of a key that is present. -/
def Live (newest : Option Val) : Prop := ∃ v, v ≠ -1 ∧ newest = some v

@[simp] theorem live_some {v : Val} : Live (some v) ↔ v ≠ -1 := by simp [Live]

@[simp] theorem not_live_none : ¬ Live none := by simp [Live]

/-- A removal that does not give up at a full list. -/
def Target.RemoveTakesEffect (key : K) (t : Target K) : Prop :=
  match t with
  | .bin lflb => threshhold ≤ lflb.size → ¬ Live (t.newest key)
  | _ => True

/-- An insertion whose status tells what it does: the key is new, and not that of the max sentinel,
or it is present where nothing is overwritten, or a tombstone where something is. -/
def Target.InsertFits (key : K) (t : Target K) : Prop :=
  match t.newest key with
  | none => key ≠ ⊤
  | some v => t.Sealed ↔ v ≠ -1

/-- A removal whose status tells what it does: not of a present array entry, nor of an absent key in
a list that is not full. -/
def Target.RemoveFits (key : K) (t : Target K) : Prop :=
  match t with
  | .null => True
  | .bin lflb => lflb.size < threshhold → Live (t.newest key)
  | .entry e => e.getValue = -1

omit [Zero K] [BoundedOrder K] in
theorem Target.removed_absent_iff : ¬ Live (t.removed key).1 ↔ t.RemoveTakesEffect key := by
  cases t with
  | null => simp [removed, RemoveTakesEffect]
  | bin lflb =>
    rw [removed, RemoveTakesEffect]
    split
    · next hsize => simp [hsize]
    · next hsize =>
      refine iff_of_true ?_ fun h => absurd h hsize
      cases (Target.bin lflb).newest key <;> simp
  | entry e => simp [removed, RemoveTakesEffect]

omit [Zero K] in
theorem Target.inserted_faithful_iff (hval : val ≠ -1) :
    (((t.inserted key val).2 = true ↔
        ¬ Live (t.newest key) ∧ (t.inserted key val).1 = some val) ∧
      ((t.inserted key val).2 = false → (t.inserted key val).1 = t.newest key)) ↔
      t.InsertFits key := by
  rw [inserted, InsertFits]
  cases t.newest key with
  | none => by_cases htop : key = ⊤ <;> simp [htop, hval]
  | some v =>
    by_cases hsealed : t.Sealed
    · by_cases hv : v = -1 <;> simp [hsealed, hv]
    · by_cases hv : v = -1 <;> simp [hsealed, hv]

omit [Zero K] [BoundedOrder K] in
theorem Target.removed_faithful_iff :
    (((t.removed key).2 = true ↔ Live (t.newest key) ∧ ¬ Live (t.removed key).1) ∧
      ((t.removed key).2 = false → (t.removed key).1 = t.newest key)) ↔ t.RemoveFits key := by
  cases t with
  | null => simp [removed, RemoveFits, newest]
  | bin lflb =>
    rw [removed, RemoveFits]
    by_cases hsize : threshhold ≤ lflb.size
    · have hnot : ¬ lflb.size < threshhold := not_lt.mpr hsize
      simp [hsize, hnot]
    · have hlt : lflb.size < threshhold := not_le.mp hsize
      cases (Target.bin lflb).newest key <;> simp [hsize, hlt]
  | entry e =>
    have hnewest : (Target.entry e).newest key = some e.getValue := rfl
    rw [removed, RemoveFits, hnewest]
    by_cases hv : e.getValue = -1 <;> simp [hv]

end Statuses

/-! ### Lookups -/

section Find

variable {l : VersionedList K} {mob : ModelOrBin K} {key : K}

omit [Zero K] in
/-- `search` stops at a node with the key. -/
def VersionedList.Meets (l : VersionedList K) (key : K) : Prop :=
  key = ⊥ ∨ key = ⊤ ∨ ∃ e, l.node key = some e

omit [Zero K] in
/-- The node `search` stops at. -/
def VersionedList.stop (l : VersionedList K) (key : K) : VersionedKey K :=
  if key = ⊥ then ⟨⊥, [⟨0, -1⟩]⟩
  else ((l.nodes.dropWhile fun e => e.key < key).head?).getD ⟨⊤, l.maxVhead⟩

omit [Zero K] in
theorem VersionedList.search_iff (val : Val) :
    l.search key val = true ↔ (l.stop key).key = key ∧ (l.stop key).getValue = val := by
  rw [search, stop]
  by_cases hbot : key = ⊥
  · subst hbot
    simp
  · have hhead : ∀ nodes : List (VersionedKey K),
        ((⟨⊥, [⟨0, -1⟩]⟩ : VersionedKey K) :: nodes).dropWhile (fun e => e.key < key) =
          nodes.dropWhile fun e => e.key < key :=
      fun nodes => List.dropWhile_cons_of_pos (by simpa using bot_lt_iff_ne_bot.mpr hbot)
    rw [if_neg hbot]
    simp only [List.cons_append]
    rw [hhead, List.dropWhile_append]
    cases hdrop : l.nodes.dropWhile fun e => e.key < key with
    | nil => simp
    | cons right nodes => simp

omit [Zero K] in
/-- `search` compares the value with the one of the key. -/
theorem VersionedList.Wf.search_of_meets (h : l.Wf) (hmeets : l.Meets key) :
    ∃ w, ∀ val, l.search key val = decide (w = val) := by
  refine ⟨(l.stop key).getValue, fun val => ?_⟩
  have hkey : (l.stop key).key = key := by
    rw [stop]
    split
    · next hbot => exact hbot.symm
    · next hbot =>
      rcases hmeets with hb | rfl | ⟨e, he⟩
      · exact absurd hb hbot
      · cases hdrop : l.nodes.dropWhile fun e => e.key < ⊤ with
        | nil => rfl
        | cons right nodes =>
          have hmem : right ∈ l.nodes := (List.dropWhile_sublist _).subset (by rw [hdrop]; simp)
          have hnot := List.head?_dropWhile_not (fun e : VersionedKey K =>
              decide (e.key < ⊤)) l.nodes
          rw [hdrop] at hnot
          exact absurd (h.lt_top right hmem) (by simpa using hnot)
      · rw [h.node_eq, Option.filter_eq_some_iff] at he
        rw [he.1]
        simpa using he.2
  rw [Bool.eq_iff_iff, search_iff, and_iff_right hkey, decide_eq_true_eq]

omit [Zero K] in
theorem VersionedList.Wf.search_of_not_meets (h : l.Wf) (hmeets : ¬ l.Meets key) (val : Val) :
    l.search key val = false := by
  obtain ⟨hbot, htop, hnode⟩ : key ≠ ⊥ ∧ key ≠ ⊤ ∧ ∀ e, l.node key ≠ some e := by
    simpa [VersionedList.Meets] using hmeets
  rw [← Bool.not_eq_true, search_iff, stop, if_neg hbot]
  rintro ⟨hkey, -⟩
  cases hdrop : (l.nodes.dropWhile fun e => e.key < key).head? with
  | none =>
    rw [hdrop] at hkey
    exact htop hkey.symm
  | some right =>
    rw [hdrop] at hkey
    refine hnode right ?_
    rw [h.node_eq, hdrop]
    simpa [Option.filter] using hkey

/-- The answer of `find_retrain` at a target. -/
def Target.answer (key : K) (val : Val) : Target K → Bool × Val
  | .null => (false, val)
  | .bin lflb => (lflb.search key val, val)
  | .entry e => if e.getValue ≠ -1 then (true, e.getValue) else (false, val)

theorem ModelOrBin.findRetrain_eq (h : mob.Wf) (val : Val) :
    mob.findRetrain key val = some ((mob.target key).answer key val) := by
  induction mob using ModelOrBin.slotInduction with
  | null => rfl
  | bin lflb => rfl
  | ai m ih =>
    obtain ⟨e, he⟩ := h.entry key
    show m.findRetrain key val (fun i => (m.mobsLf i).findRetrain key val) = _
    rw [RSModelOver.findRetrain, he, ModelOrBin.target_ai he]
    simp only
    split
    · rw [Target.answer]
      split <;> rfl
    · exact ih _ ((wf_ai.mp h).2 _).1

/-- An answer that does not depend on the caller's variable: there is one if the newest value is not
a tombstone, and then it is that value. -/
structure Target.Reports (t : Target K) (key : K) (answer : Option Val) : Prop where
  newest : ∀ v, answer = some v ↔ t.newest key = some v ∧ v ≠ -1
  status : ∀ val, (t.answer key val).1 = answer.isSome
  value : ∀ val v, answer = some v → (t.answer key val).2 = v

/-- A lookup that does not meet the key in a list. -/
def Target.FindFits (key : K) : Target K → Prop
  | .bin lflb => ¬ lflb.Meets key
  | _ => True

omit [Zero K] in
theorem Target.reports_iff {t : Target K} (h : t.Wf) :
    (∃ answer, t.Reports key answer) ↔ t.FindFits key := by
  cases t with
  | null =>
    refine iff_of_true ⟨none, ⟨fun v => ?_, fun val => rfl, fun val v hv => by cases hv⟩⟩ trivial
    simp [newest]
  | entry e =>
    refine iff_of_true ?_ trivial
    by_cases hv : e.getValue = -1
    · refine ⟨none, ⟨fun v => ?_, fun val => ?_, fun val v hv => by cases hv⟩⟩
      · simp only [newest, hv, reduceCtorEq, Option.some.injEq, false_iff]
        rintro ⟨rfl, hne⟩
        exact hne rfl
      · simp [answer, hv]
    · refine ⟨some e.getValue, ⟨fun v => ?_, fun val => ?_, fun val v heq => ?_⟩⟩
      · simp only [newest, Option.some.injEq]
        constructor
        · rintro rfl
          exact ⟨rfl, hv⟩
        · exact And.left
      · simp [answer, hv]
      · rw [← Option.some.inj heq]
        simp [answer, hv]
  | bin lflb =>
    have hwf : lflb.Wf := h
    constructor
    · rintro ⟨answer, hanswer⟩ hmeets
      -- two callers with different variables get different statuses
      obtain ⟨w, hw⟩ := hwf.search_of_meets hmeets
      have hsame : lflb.search key w = lflb.search key (w + 1) :=
        (hanswer.status w).trans (hanswer.status (w + 1)).symm
      rw [hw, hw] at hsame
      simp at hsame
    · intro hfits
      refine ⟨none, ⟨fun v => ?_, hwf.search_of_not_meets hfits, fun val v hv => by cases hv⟩⟩
      cases hnode : lflb.node key with
      | none => simp [newest, hnode]
      | some e => exact absurd (.inr (.inr ⟨e, hnode⟩)) hfits

end Find

end KanvaRS
