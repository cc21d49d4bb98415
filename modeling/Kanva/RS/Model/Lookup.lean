import Kanva.RS.Model.Updates
import Kanva.SortedAssoc

/-!
# Where Kanva_RS has a key

A key is stored once at most: in the array of a model, or as a node of one list, in the slot its key
is routed to. The sentinels of a list are no keys.

## Main results

* `ModelOrBin.newest_iff`: the entry a key is routed to is the one that is stored.
* `ModelOrBin.update_ok`: an update that is sound where a key is routed to is sound.
-/

namespace KanvaRS

open Kanva SortedArray SortedAssoc

variable {K : Type}

/-- The end of the way down for a key: an empty slot, a bin, or an array entry with the key. -/
inductive Target (K : Type) where
  | null
  | bin (lflb : VersionedList K)
  | entry (e : VersionedKey K)

/-- The first node with the key. -/
def VersionedList.node [DecidableEq K] (l : VersionedList K) (key : K) : Option (VersionedKey K) :=
  l.nodes.find? fun e => e.key = key

/-- The newest value a target has for a key. -/
def Target.newest [DecidableEq K] (key : K) : Target K → Option Val
  | .null => none
  | .bin lflb => (lflb.node key).map VersionedKey.getValue
  | .entry e => some e.getValue

/-- The entries of the arrays and the nodes of the lists. -/
def ModelOrBin.entries : ModelOrBin K → List (VersionedKey K)
  | .null => []
  | .bin lflb => lflb.nodes
  | .ai ⟨_, modelArray, mobsLf⟩ =>
    modelArray ++ (List.range (modelArray.length + 1)).flatMap fun i => (mobsLf i).entries

theorem ModelOrBin.slotInduction {motive : ModelOrBin K → Prop} (null : motive .null)
    (bin : ∀ lflb, motive (.bin lflb))
    (ai : ∀ m : KanvaRSModel K, (∀ i, motive (m.mobsLf i)) → motive (.ai m)) : ∀ mob, motive mob
  | .null => null
  | .bin lflb => bin lflb
  | .ai ⟨_, _, mobsLf⟩ => ai _ fun i => slotInduction null bin ai (mobsLf i)

variable [LinearOrder K]

/-- The nodes of a list: their keys strictly increase, and there are at most `threshhold`. -/
structure VersionedList.Wf [BoundedOrder K] (l : VersionedList K) : Prop where
  sorted : (l.nodes.map VersionedKey.key).Pairwise (· < ·)
  lt_top : ∀ e ∈ l.nodes, e.key < ⊤
  size_eq : l.size = l.nodes.length
  size_le : l.size ≤ threshhold

section Zero

variable [Zero K]

/-- The target of a key from a slot on. -/
def ModelOrBin.target (key : K) : ModelOrBin K → Target K
  | .null => .null
  | .bin lflb => .bin lflb
  | .ai ⟨model, modelArray, mobsLf⟩ =>
    let m : KanvaRSModel K := ⟨model, modelArray, mobsLf⟩
    match modelArray[m.locate key]? with
    | none => .null
    | some e => if key = e.key then .entry e else (mobsLf (m.binPos key)).target key

/-- The newest value of a key from a slot on. -/
def ModelOrBin.newest (key : K) (mob : ModelOrBin K) : Option Val := (mob.target key).newest key

/-- The array of a model: its keys strictly increase, and the search can add a power of two to any
of its positions as an `int`. -/
structure RSModelOver.ArrayWf {Slot : Type} (m : RSModelOver K Slot) : Prop where
  strict : m.StrictKeys
  pos : 0 < m.capacity
  lt : m.capacity < 2 ^ 30

/-- A key that is not in the array goes to this slot. -/
structure RSModelOver.RoutesTo {Slot : Type} (m : RSModelOver K Slot) (key : K) (i : ℕ) : Prop where
  not_mem : key ∉ m.modelArray.map VersionedKey.key
  binPos : m.binPos key = i

/-- Arrays and lists are well formed, and every key below a slot is routed there. -/
def ModelOrBin.Wf [BoundedOrder K] : ModelOrBin K → Prop
  | .null => True
  | .bin lflb => lflb.Wf
  | .ai ⟨model, modelArray, mobsLf⟩ =>
    let m : KanvaRSModel K := ⟨model, modelArray, mobsLf⟩
    m.ArrayWf ∧ ∀ i, (mobsLf i).Wf ∧ ∀ e ∈ (mobsLf i).entries, m.RoutesTo e.key i

end Zero

/-! ### Arrays -/

namespace RSModelOver

variable [Zero K] {Slot : Type} {m : RSModelOver K Slot} {key : K} {i : ℕ}

omit [LinearOrder K] in
theorem keys_eq (hi : i < m.capacity) : m.keys i = m.modelArray[i].key :=
  getD_map_of_lt _ hi

theorem ArrayWf.locate_lt (h : m.ArrayWf) (key : K) : m.locate key < m.capacity :=
  (keys_lt_of_lt_locate h.strict h.pos (h.lt.trans (by decide)) key).1

/-- A key of the array is found there. -/
theorem ArrayWf.locate_eq (h : m.ArrayWf) (hi : i < m.capacity) :
    m.locate m.modelArray[i].key = i := by
  rw [← keys_eq hi]
  exact locate_keys h.strict (h.lt.trans (by decide)) hi

/-- The entry that is looked at has the key if an entry has. -/
theorem ArrayWf.entry_of_mem (h : m.ArrayWf) {e : VersionedKey K} (he : e ∈ m.modelArray) :
    m.modelArray[m.locate e.key]? = some e := by
  obtain ⟨i, hi, rfl⟩ := List.mem_iff_getElem.mp he
  rw [h.locate_eq hi, List.getElem?_eq_getElem]

/-- The array is well formed if its keys are sorted. -/
theorem ArrayWf.of_sorted (hs : (m.modelArray.map VersionedKey.key).Pairwise (· < ·))
    (hpos : 0 < m.capacity) (hlt : m.capacity < 2 ^ 30) : m.ArrayWf := by
  refine ⟨fun i j hij hj => ?_, hpos, hlt⟩
  rw [keys_eq (hij.trans hj), keys_eq hj]
  exact List.pairwise_iff_getElem.mp (List.pairwise_map.mp hs) i j (hij.trans hj) hj hij

theorem ArrayWf.sorted (h : m.ArrayWf) : m.modelArray.Pairwise fun e e' => e.key < e'.key := by
  refine List.pairwise_iff_getElem.mpr fun i j hi hj hij => ?_
  rw [← keys_eq (m := m) hi, ← keys_eq (m := m) hj]
  exact h.strict i j hij hj

end RSModelOver

/-! ### The way down -/

namespace ModelOrBin

variable [Zero K] {m : KanvaRSModel K} {mob : ModelOrBin K} {key : K} {e : VersionedKey K}

omit [LinearOrder K] [Zero K] in
theorem mem_entries_ai :
    e ∈ (ModelOrBin.ai m).entries ↔
      e ∈ m.modelArray ∨ ∃ i ≤ m.capacity, e ∈ (m.mobsLf i).entries := by
  show e ∈ m.modelArray ++ (List.range (m.capacity + 1)).flatMap (fun i => (m.mobsLf i).entries) ↔ _
  simp only [List.mem_append, List.mem_flatMap, List.mem_range, Nat.lt_succ_iff]

theorem wf_ai [BoundedOrder K] :
    (ModelOrBin.ai m).Wf ↔
      m.ArrayWf ∧ ∀ i, (m.mobsLf i).Wf ∧ ∀ e ∈ (m.mobsLf i).entries, m.RoutesTo e.key i :=
  Iff.rfl

theorem target_ai (he : m.modelArray[m.locate key]? = some e) :
    (ModelOrBin.ai m).target key =
      if key = e.key then .entry e else (m.mobsLf (m.binPos key)).target key := by
  show (match m.modelArray[m.locate key]? with
    | none => Target.null
    | some e => if key = e.key then .entry e else (m.mobsLf (m.binPos key)).target key) = _
  rw [he]

theorem newest_ai (he : m.modelArray[m.locate key]? = some e) :
    (ModelOrBin.ai m).newest key =
      if key = e.key then some e.getValue else (m.mobsLf (m.binPos key)).newest key := by
  rw [newest, target_ai he]
  split <;> rfl

end ModelOrBin

section Stored

variable [BoundedOrder K] [Zero K] {key : K} {e : VersionedKey K}

omit [Zero K] in
theorem VersionedList.Wf.node_iff {l : VersionedList K} (h : l.Wf) :
    l.node key = some e ↔ e ∈ l.nodes ∧ e.key = key := by
  refine ⟨fun he => ⟨List.mem_of_find?_eq_some he, by simpa using List.find?_some he⟩, ?_⟩
  rintro ⟨hmem, rfl⟩
  obtain ⟨i, hi, rfl⟩ := List.mem_iff_getElem.mp hmem
  refine List.find?_eq_some_iff_getElem.mpr ⟨by simp, i, hi, rfl, fun j hj => ?_⟩
  have hlt := List.pairwise_iff_getElem.mp (List.pairwise_map.mp h.sorted) j i (by omega) hi hj
  simpa using hlt.ne

/-- The list a key is routed to is well formed. -/
def Target.Wf : Target K → Prop
  | .bin lflb => lflb.Wf
  | _ => True

theorem ModelOrBin.target_wf {mob : ModelOrBin K} (h : mob.Wf) : (mob.target key).Wf := by
  induction mob using ModelOrBin.slotInduction with
  | null => trivial
  | bin lflb => exact h
  | ai m ih =>
    obtain ⟨harr, hslots⟩ := wf_ai.mp h
    rw [target_ai (List.getElem?_eq_getElem (harr.locate_lt key))]
    split
    · trivial
    · exact ih _ (hslots _).1

/-- Every stored key is the one that is found on its way down, and the other way round. -/
theorem ModelOrBin.newest_iff {mob : ModelOrBin K} (h : mob.Wf) {v : Val} :
    mob.newest key = some v ↔ ∃ e ∈ mob.entries, e.key = key ∧ e.getValue = v := by
  induction mob using ModelOrBin.slotInduction with
  | null => simp [newest, target, Target.newest, entries]
  | bin lflb =>
    show (lflb.node key).map VersionedKey.getValue = some v ↔ ∃ e ∈ lflb.nodes, _
    rw [Option.map_eq_some_iff]
    exact exists_congr fun e => by rw [VersionedList.Wf.node_iff h, and_assoc]
  | ai m ih =>
    obtain ⟨harr, hslots⟩ := wf_ai.mp h
    obtain ⟨e, he⟩ : ∃ e, m.modelArray[m.locate key]? = some e :=
      ⟨_, List.getElem?_eq_getElem (harr.locate_lt key)⟩
    -- a stored key that is met in the array is in no slot, and the others have one way down
    rw [newest_ai he]
    split
    · next hkey =>
      rw [Option.some.injEq]
      refine ⟨fun hv => ⟨e, mem_entries_ai.mpr (.inl (List.mem_of_getElem? he)), hkey.symm, hv⟩, ?_⟩
      rintro ⟨e', hmem, rfl, hv⟩
      rcases mem_entries_ai.mp hmem with hmem | ⟨i, -, hmem⟩
      · rw [harr.entry_of_mem hmem] at he
        rwa [← Option.some.inj he]
      · refine absurd ?_ ((hslots i).2 e' hmem).not_mem
        rw [hkey]
        exact List.mem_map_of_mem (List.mem_of_getElem? he)
    · next hkey =>
      rw [ih _ (hslots _).1]
      constructor
      · rintro ⟨e', hmem, rfl, hv⟩
        have hroute := (hslots _).2 e' hmem
        refine ⟨e', mem_entries_ai.mpr (.inr ⟨_, ?_, hmem⟩), rfl, hv⟩
        have hlt := harr.locate_lt e'.key
        rw [RSModelOver.binPos]
        split <;> omega
      · rintro ⟨e', hmem, rfl, hv⟩
        rcases mem_entries_ai.mp hmem with hmem | ⟨i, -, hmem⟩
        · rw [harr.entry_of_mem hmem] at he
          exact absurd (congrArg VersionedKey.key (Option.some.inj he)) hkey
        · rw [((hslots i).2 e' hmem).binPos]
          exact ⟨e', hmem, rfl, hv⟩

end Stored

/-! ### Writes to a list -/

namespace VersionedList

variable {l : VersionedList K} {key x : K} {value : Val} {globalTs : ℤ}

/-- The node at the place of a key is found under its key, and hides no other. -/
theorem find?_place {nodes nodes' : List (VersionedKey K)} {e : VersionedKey K} (he : e.key = key)
    (hlt : ∀ e' ∈ nodes, e'.key < key) :
    (nodes ++ e :: nodes').find? (fun e' => e'.key = x) =
      if x = key then some e else (nodes ++ nodes').find? fun e' => e'.key = x := by
  rw [List.find?_append, List.find?_append]
  split
  · next hx =>
    have hnone : nodes.find? (fun e' => e'.key = x) = none := by
      refine List.find?_eq_none.mpr fun e' he' => ?_
      rw [hx]
      simpa using (hlt e' he').ne
    rw [hnone, List.find?_cons_of_pos (by simp [he, hx])]
    rfl
  · next hx =>
    rw [List.find?_cons_of_neg (by simpa [he] using Ne.symm hx)]

theorem lt_of_mem_takeWhile {e : VersionedKey K}
    (he : e ∈ l.nodes.takeWhile fun e => e.key < key) : e.key < key := by
  simpa using List.mem_takeWhile_imp he

/-- A node of the list with its chain. -/
theorem Wf.sorted_chains [BoundedOrder K] (h : l.Wf) :
    Sorted (l.nodes.map fun e => (e.key, e.vhead)) :=
  List.pairwise_map.mpr (List.pairwise_map.mp h.sorted)

theorem node_eq_none : l.node key = none ↔ ∀ e ∈ l.nodes, e.key ≠ key := by
  simp [node]

variable [BoundedOrder K]

/-- The first node that is not less has the key if a node has. -/
theorem Wf.node_eq (h : l.Wf) :
    l.node key = (l.nodes.dropWhile fun e => e.key < key).head?.filter fun e => e.key = key := by
  have hsplit := List.takeWhile_append_dropWhile (p := fun e : VersionedKey K => e.key < key)
    (l := l.nodes)
  have hbelow : ∀ e ∈ l.nodes.takeWhile (fun e => e.key < key), e.key < key :=
    fun e => lt_of_mem_takeWhile
  cases hdrop : l.nodes.dropWhile fun e => e.key < key with
  | nil =>
    rw [hdrop, List.append_nil] at hsplit
    exact node_eq_none.mpr fun e he => (hbelow e (by rwa [hsplit])).ne
  | cons right nodes =>
    rw [hdrop] at hsplit
    rw [List.head?_cons]
    -- the node in front is the one of the key, or a larger one with only larger ones behind it
    by_cases hkey : right.key = key
    · rw [node, ← hsplit, find?_place hkey hbelow, if_pos rfl]
      simp [Option.filter, hkey]
    · have hle : key ≤ right.key := by
        have hhead :=
          List.head?_dropWhile_not (fun e : VersionedKey K => decide (e.key < key)) l.nodes
        rw [hdrop] at hhead
        simpa using hhead
      have hs := h.sorted
      rw [← hsplit, List.map_append, List.pairwise_append, List.map_cons, List.pairwise_cons] at hs
      have hnone : l.node key = none := by
        refine node_eq_none.mpr fun e he => ?_
        rw [← hsplit] at he
        rcases List.mem_append.mp he with he | he
        · exact (hbelow e he).ne
        · rcases List.mem_cons.mp he with rfl | he
          · exact hkey
          · exact (hle.trans_lt (hs.2.1.1 e.key (List.mem_map_of_mem he))).ne'
      rw [hnone]
      simp [Option.filter, hkey]

theorem wf_new : (new : VersionedList K).Wf :=
  ⟨List.Pairwise.nil, by simp [new], rfl, Nat.zero_le _⟩

/-- A new node keeps the list well formed. -/
theorem Wf.link (h : l.Wf) (hnone : l.node key = none) (htop : key ≠ ⊤)
    (hsize : l.size < threshhold) : (l.link key value globalTs).Wf := by
  refine ⟨?_, fun e he => ?_, ?_, hsize⟩
  · -- the keys are those of a sorted list with one pair more
    have hnew : ¬ HasKey key (l.nodes.map fun e => (e.key, e.vhead)) := by
      rintro ⟨v, hv⟩
      obtain ⟨e, he, heq⟩ := List.mem_map.mp hv
      exact node_eq_none.mp hnone e he (Prod.ext_iff.mp heq).1
    have hs := h.sorted_chains.insertNew (v := ([] : List Version)) hnew
    rw [SortedAssoc.insertNew, below, above, List.takeWhile_map, List.dropWhile_map] at hs
    have hkeys : (l.link key value globalTs).nodes.map VersionedKey.key =
        (List.map (fun e : VersionedKey K => (e.key, e.vhead))
          (l.nodes.takeWhile fun e => e.key < key) ++ (key, []) ::
            List.map (fun e : VersionedKey K => (e.key, e.vhead))
              (l.nodes.dropWhile fun e => e.key < key)).map Prod.fst := by
      simp [VersionedList.link, VersionedKey.new, Function.comp_def]
    rw [hkeys]
    exact List.pairwise_map.mpr hs
  · rcases List.mem_append.mp he with he | he
    · exact h.lt_top e ((List.takeWhile_sublist _).subset he)
    · rcases List.mem_cons.mp he with rfl | he
      · rw [VersionedKey.initTs_key]
        exact lt_top_iff_ne_top.mpr htop
      · exact h.lt_top e ((List.dropWhile_sublist _).subset he)
  · -- the size counts the new node
    have hlen := congrArg List.length
      (List.takeWhile_append_dropWhile (p := fun e : VersionedKey K => e.key < key) (l := l.nodes))
    rw [List.length_append] at hlen
    simp only [VersionedList.link, List.length_append, List.length_cons, h.size_eq]
    omega

omit [BoundedOrder K] in
theorem node_link : (l.link key value globalTs).node x =
    if x = key then some ((VersionedKey.new key value).initTs globalTs) else l.node x := by
  have hbelow : ∀ e ∈ l.nodes.takeWhile (fun e => e.key < key), e.key < key :=
    fun e => lt_of_mem_takeWhile
  have hkey := VersionedKey.initTs_key (VersionedKey.new key value) globalTs
  refine (find?_place hkey hbelow).trans ?_
  rw [List.takeWhile_append_dropWhile]
  rfl

/-- What `insert` can do: refuse, write to the node of the key, leave the nodes alone, or link a new
one. -/
inductive InsertCase (l : VersionedList K) (key : K) (value : Val) (globalTs : ℤ) : Prop
  | full (hsize : threshhold ≤ l.size) (heq : l.insert key value globalTs = (l, -2))
  | write (hsize : l.size < threshhold) (e : VersionedKey K) (hnode : l.node key = some e)
      (l' : VersionedList K) (heq : l.insert key value globalTs = (l', 0)) (hwf : l'.Wf)
      (hnodes : ∀ x, l'.node x = if x = key then some (e.update value globalTs) else l.node x)
  | skip (hsize : l.size < threshhold) (hnode : l.node key = none) (hskip : key = ⊤ ∨ value = -1)
      (l' : VersionedList K) (heq : l.insert key value globalTs = (l', 0)) (hwf : l'.Wf)
      (hnodes : l'.nodes = l.nodes)
  | link (hsize : l.size < threshhold) (hnode : l.node key = none) (htop : key ≠ ⊤)
      (hvalue : value ≠ -1) (heq : l.insert key value globalTs = (l.link key value globalTs, 1))

theorem Wf.insert_cases (h : l.Wf) (key : K) (value : Val) (globalTs : ℤ) :
    l.InsertCase key value globalTs := by
  rcases Nat.lt_or_ge l.size threshhold with hsize | hsize
  swap
  · exact .full hsize (by rw [insert, if_pos hsize])
  have hnot : ¬ threshhold ≤ l.size := not_le.mpr hsize
  have hsplit := List.takeWhile_append_dropWhile (p := fun e : VersionedKey K => e.key < key)
    (l := l.nodes)
  have hbelow : ∀ e ∈ l.nodes.takeWhile (fun e => e.key < key), e.key < key :=
    fun e => lt_of_mem_takeWhile
  cases hdrop : l.nodes.dropWhile fun e => e.key < key with
  | nil =>
    -- `find` returns the max sentinel
    have hnode : l.node key = none := by
      rw [h.node_eq, hdrop]
      rfl
    have hinsert : l.insert key value globalTs =
        if (⊤ : K) = key then
          ({ l with
            maxVhead := ((⟨⊤, l.maxVhead⟩ : VersionedKey K).update value globalTs).vhead }, 0)
        else if value = -1 then (l, 0)
        else (l.link key value globalTs, 1) := by
      rw [insert, if_neg hnot, hdrop]
    by_cases htop : (⊤ : K) = key
    · rw [if_pos htop] at hinsert
      exact .skip hsize hnode (.inl htop.symm) _ hinsert
        ⟨h.sorted, h.lt_top, h.size_eq, h.size_le⟩ rfl
    rw [if_neg htop] at hinsert
    by_cases hvalue : value = -1
    · rw [if_pos hvalue] at hinsert
      exact .skip hsize hnode (.inr hvalue) l hinsert h rfl
    · rw [if_neg hvalue] at hinsert
      exact .link hsize hnode (Ne.symm htop) hvalue hinsert
  | cons right nodes =>
    have hnode : l.node key = if right.key = key then some right else none := by
      rw [h.node_eq, hdrop, List.head?_cons]
      simp [Option.filter]
    have hinsert : l.insert key value globalTs =
        if right.key = key then
          ({ l with
            nodes := l.nodes.takeWhile (fun e => e.key < key) ++
              right.update value globalTs :: nodes },
            0)
        else if value = -1 then (l, 0)
        else (l.link key value globalTs, 1) := by
      rw [insert, if_neg hnot, hdrop]
    rw [hdrop] at hsplit
    by_cases hkey : right.key = key
    · rw [if_pos hkey] at hinsert hnode
      have hupdate := VersionedKey.update_key right value globalTs
      have hnodes : ∀ x, l.node x = if x = key then some right else
          (l.nodes.takeWhile (fun e => e.key < key) ++ nodes).find? fun e => e.key = x := by
        intro x
        rw [node, ← find?_place hkey hbelow, hsplit]
      refine .write hsize right hnode _ hinsert ⟨?_, ?_, ?_, h.size_le⟩ ?_
      · have hs := h.sorted
        rw [← hsplit, List.map_append, List.map_cons] at hs
        rw [List.map_append, List.map_cons, hupdate]
        exact hs
      · have ht := h.lt_top
        rw [← hsplit] at ht
        simpa [or_imp, forall_and, hupdate] using ht
      · have hlen := h.size_eq
        rw [← hsplit] at hlen
        simpa using hlen
      · intro x
        rw [node, find?_place (hupdate.trans hkey) hbelow]
        split
        · rfl
        · next hx => rw [hnodes, if_neg hx]
    · rw [if_neg hkey] at hinsert hnode
      by_cases hvalue : value = -1
      · rw [if_pos hvalue] at hinsert
        exact .skip hsize hnode (.inr hvalue) l hinsert h rfl
      · rw [if_neg hvalue] at hinsert
        refine .link hsize hnode (fun htop => ?_) hvalue hinsert
        -- no node is as large as the max sentinel
        have hle := List.head?_dropWhile_not (fun e : VersionedKey K =>
            decide (e.key < key)) l.nodes
        rw [hdrop, htop] at hle
        have hmem : right ∈ l.nodes := by
          rw [← hsplit]
          exact List.mem_append_right _ List.mem_cons_self
        exact absurd (h.lt_top right hmem) (by simpa using hle)

end VersionedList

/-! ### Writes to a model -/

namespace RSModelOver

variable [Zero K] {Slot : Type} {m : RSModelOver K Slot} {key x : K} {i : ℕ} {e e' : VersionedKey K}

omit [LinearOrder K] [Zero K] in
/-- The store of an entry with the same key. -/
theorem map_key_setEntry (he : m.modelArray[i]? = some e) (hkey : e'.key = e.key) :
    (m.setEntry i e').modelArray.map VersionedKey.key = m.modelArray.map VersionedKey.key := by
  obtain ⟨hi, rfl⟩ := List.getElem?_eq_some_iff.mp he
  rw [setEntry, List.map_set, hkey]
  refine List.ext_getElem (by simp) fun j hj hj' => ?_
  rw [List.getElem_set]
  split
  · next h => simp [h]
  · rfl

omit [LinearOrder K] in
theorem keys_setEntry (he : m.modelArray[i]? = some e) (hkey : e'.key = e.key) :
    (m.setEntry i e').keys = m.keys := by
  funext j
  rw [keys, keys, map_key_setEntry he hkey]

omit [LinearOrder K] [Zero K] in
@[simp] theorem capacity_setEntry : (m.setEntry i e').capacity = m.capacity := List.length_set

theorem locate_setEntry (he : m.modelArray[i]? = some e) (hkey : e'.key = e.key) :
    (m.setEntry i e').locate x = m.locate x := by
  rw [locate, locate, locateInLevelbin, locateInLevelbin, predict, predict, keys_setEntry he hkey,
    capacity_setEntry]
  rfl

theorem binPos_setEntry (he : m.modelArray[i]? = some e) (hkey : e'.key = e.key) :
    (m.setEntry i e').binPos x = m.binPos x := by
  rw [binPos, binPos, locate_setEntry he hkey, keys_setEntry he hkey]

/-- The entry that a search finds after a store to an entry. -/
theorem getElem?_setEntry (he : m.modelArray[i]? = some e) (hkey : e'.key = e.key) :
    (m.setEntry i e').modelArray[(m.setEntry i e').locate x]? =
      if i = m.locate x then some e' else m.modelArray[m.locate x]? := by
  obtain ⟨hlt, -⟩ := List.getElem?_eq_some_iff.mp he
  rw [locate_setEntry he hkey, setEntry, List.getElem?_set, if_pos hlt]

theorem ArrayWf.setEntry (h : m.ArrayWf) (he : m.modelArray[i]? = some e) (hkey : e'.key = e.key) :
    (m.setEntry i e').ArrayWf := by
  refine ⟨?_, by simpa using h.pos, by simpa using h.lt⟩
  rw [StrictKeys, keys_setEntry he hkey, capacity_setEntry]
  exact h.strict

theorem RoutesTo.setEntry (h : m.RoutesTo x i) {j : ℕ} (he : m.modelArray[j]? = some e)
    (hkey : e'.key = e.key) : (m.setEntry j e').RoutesTo x i :=
  ⟨by rw [map_key_setEntry he hkey]; exact h.not_mem,
    by rw [binPos_setEntry he hkey]; exact h.binPos⟩

/-- A key that the entry at its position does not have is not in the array. -/
theorem ArrayWf.routesTo (h : m.ArrayWf) (he : m.modelArray[m.locate key]? = some e)
    (hkey : key ≠ e.key) : m.RoutesTo key (m.binPos key) := by
  refine ⟨fun hmem => ?_, rfl⟩
  obtain ⟨e', he', rfl⟩ := List.mem_map.mp hmem
  rw [h.entry_of_mem he'] at he
  exact hkey (congrArg VersionedKey.key (Option.some.inj he))

end RSModelOver

/-- An update of a key that changes no other: what is there stays well formed, and no other key
comes in. -/
structure UpdateOk [BoundedOrder K] [Zero K] (key : K) (mob mob' : ModelOrBin K) : Prop where
  wf : mob'.Wf
  frame : ∀ x, x ≠ key → mob'.newest x = mob.newest x
  keys : ∀ e ∈ mob'.entries, e.key = key ∨ ∃ e' ∈ mob.entries, e'.key = e.key

section Update

variable [BoundedOrder K] [Zero K] {m : KanvaRSModel K} {mob mob' : ModelOrBin K} {key : K}
  {e e' : VersionedKey K}

theorem ModelOrBin.Wf.entry (h : (ModelOrBin.ai m).Wf) (key : K) :
    ∃ e, m.modelArray[m.locate key]? = some e :=
  ⟨_, List.getElem?_eq_getElem ((wf_ai.mp h).1.locate_lt key)⟩

/-- The store to the entry of a key. -/
theorem setEntry_ok (h : (ModelOrBin.ai m).Wf) (he : m.modelArray[m.locate key]? = some e)
    (hkey : key = e.key) (hkey' : e'.key = e.key) :
    UpdateOk key (.ai m) (.ai (m.setEntry (m.locate key) e')) ∧
      (ModelOrBin.ai (m.setEntry (m.locate key) e')).newest key = some e'.getValue := by
  obtain ⟨harr, hslots⟩ := ModelOrBin.wf_ai.mp h
  have hget : ∀ x, (m.setEntry (m.locate key) e').modelArray[
      (m.setEntry (m.locate key) e').locate x]? =
        if m.locate key = m.locate x then some e' else m.modelArray[m.locate x]? :=
    fun x => RSModelOver.getElem?_setEntry he hkey'
  refine ⟨⟨?_, fun x hx => ?_, fun e'' he'' => ?_⟩, ?_⟩
  · -- the keys of the array are the same, and so are all ways down
    exact ModelOrBin.wf_ai.mpr ⟨harr.setEntry he hkey', fun i => ⟨(hslots i).1, fun e'' he'' =>
      ((hslots i).2 e'' he'').setEntry he hkey'⟩⟩
  · obtain ⟨ex, hex⟩ := h.entry x
    have hget := hget x
    have hbin : (m.setEntry (m.locate key) e').binPos x = m.binPos x :=
      RSModelOver.binPos_setEntry he hkey'
    -- another key may be located at the same entry, and goes past it
    by_cases heq : m.locate key = m.locate x
    · rw [if_pos heq] at hget
      rw [heq, hex] at he
      obtain rfl := Option.some.inj he
      rw [ModelOrBin.newest_ai hget, ModelOrBin.newest_ai hex, hkey', ← hkey, if_neg hx, if_neg hx,
        hbin]
      rfl
    · rw [if_neg heq, hex] at hget
      rw [ModelOrBin.newest_ai hget, ModelOrBin.newest_ai hex, hbin]
      rfl
  · rcases ModelOrBin.mem_entries_ai.mp he'' with hmem | ⟨i, hi, hmem⟩
    · rcases List.mem_or_eq_of_mem_set hmem with hmem | rfl
      · exact .inr ⟨e'', ModelOrBin.mem_entries_ai.mpr (.inl hmem), rfl⟩
      · exact .inl (hkey'.trans hkey.symm)
    · rw [RSModelOver.capacity_setEntry] at hi
      exact .inr ⟨e'', ModelOrBin.mem_entries_ai.mpr (.inr ⟨i, hi, hmem⟩), rfl⟩
  · have hget := hget key
    rw [if_pos rfl] at hget
    rw [ModelOrBin.newest_ai hget, hkey', if_pos hkey]

/-- The store to the slot of a key that is not in the array. -/
theorem setMob_ok (h : (ModelOrBin.ai m).Wf) (he : m.modelArray[m.locate key]? = some e)
    (hkey : key ≠ e.key) (hok : UpdateOk key (m.mobsLf (m.binPos key)) mob') :
    UpdateOk key (.ai m) (.ai (m.setMob (m.binPos key) mob')) ∧
      (ModelOrBin.ai (m.setMob (m.binPos key) mob')).newest key = mob'.newest key := by
  obtain ⟨harr, hslots⟩ := ModelOrBin.wf_ai.mp h
  have hroute := harr.routesTo he hkey
  set m' := m.setMob (m.binPos key) mob' with hm'
  have hslot : ∀ i, m'.mobsLf i = if i = m.binPos key then mob' else m.mobsLf i := fun i =>
    Function.update_apply m.mobsLf (m.binPos key) mob' i
  have hroutes : ∀ {x i}, m.RoutesTo x i → m'.RoutesTo x i := fun h => ⟨h.not_mem, h.binPos⟩
  have hbin : ∀ x, m'.binPos x = m.binPos x := fun x => rfl
  refine ⟨⟨?_, fun x hx => ?_, fun e' he' => ?_⟩, ?_⟩
  · -- what is new in the slot is the key, which goes there
    refine ModelOrBin.wf_ai.mpr ⟨⟨harr.strict, harr.pos, harr.lt⟩, fun i => ?_⟩
    rw [hslot]
    split
    · next hi =>
      refine ⟨hok.wf, fun e' he' => ?_⟩
      rcases hok.keys e' he' with hnew | ⟨e'', hmem, heq⟩
      · rw [hnew, hi]
        exact hroutes hroute
      · rw [← heq, hi]
        exact hroutes ((hslots _).2 e'' hmem)
    · exact ⟨(hslots i).1, fun e' he' => hroutes ((hslots i).2 e' he')⟩
  · obtain ⟨ex, hex⟩ := h.entry x
    have hget : m'.modelArray[m'.locate x]? = some ex := hex
    rw [ModelOrBin.newest_ai hget, ModelOrBin.newest_ai hex, hslot, hbin]
    split
    · rfl
    · split
      · next hi => rw [hok.frame x hx, hi]
      · rfl
  · -- an entry of the array, of the written slot, or of another one
    rcases ModelOrBin.mem_entries_ai.mp he' with hmem | ⟨i, hi, hmem⟩
    · exact .inr ⟨e', ModelOrBin.mem_entries_ai.mpr (.inl hmem), rfl⟩
    · rw [hslot] at hmem
      split at hmem
      · next hib =>
        rcases hok.keys e' hmem with hnew | ⟨e'', hmem, heq⟩
        · exact .inl hnew
        · rw [← hib] at hmem
          exact .inr ⟨e'', ModelOrBin.mem_entries_ai.mpr (.inr ⟨i, hi, hmem⟩), heq⟩
      · exact .inr ⟨e', ModelOrBin.mem_entries_ai.mpr (.inr ⟨i, hi, hmem⟩), rfl⟩
  · have hget : m'.modelArray[m'.locate key]? = some e := he
    rw [ModelOrBin.newest_ai hget, if_neg hkey, hslot, hbin, if_pos rfl]

variable {atEntry : VersionedKey K → VersionedKey K × Bool} {atNull : ModelOrBin K × Bool}
  {atBin : VersionedList K → Option (ModelOrBin K × Bool)} {spec : Target K → Option Val × Bool}

/-- An update of a model, given what it does to an entry and to the slot of the key. The
specification tells the newest value it leaves, and its status. -/
theorem updateAt_ok (atSlot : ℕ → Option (ModelOrBin K × Bool)) (h : (ModelOrBin.ai m).Wf)
    (hkey : ∀ e, (atEntry e).1.key = e.key)
    (hentry : ∀ e, (some (atEntry e).1.getValue, (atEntry e).2) = spec (.entry e))
    (hslot : ∃ p, atSlot (m.binPos key) = some p ∧ UpdateOk key (m.mobsLf (m.binPos key)) p.1 ∧
      (p.1.newest key, p.2) = spec ((m.mobsLf (m.binPos key)).target key)) :
    ∃ p, m.updateAt key atEntry atSlot = some p ∧ UpdateOk key (.ai m) (.ai p.1) ∧
      ((ModelOrBin.ai p.1).newest key, p.2) = spec ((ModelOrBin.ai m).target key) := by
  obtain ⟨e, he⟩ := h.entry key
  rw [RSModelOver.updateAt, he, ModelOrBin.target_ai he]
  simp only
  split
  · next heq =>
    obtain ⟨hok, hnewest⟩ := setEntry_ok h he heq (hkey e)
    exact ⟨_, rfl, hok, by rw [hnewest, hentry]⟩
  · next hne =>
    obtain ⟨p, hp, hok, hresult⟩ := hslot
    obtain ⟨hok, hnewest⟩ := setMob_ok h he hne hok
    exact ⟨_, by rw [hp]; rfl, hok, by rw [hnewest, hresult]⟩

/-- An update meets its specification if it does so where keys are routed to. -/
theorem ModelOrBin.update_ok (hkey : ∀ e, (atEntry e).1.key = e.key)
    (hentry : ∀ e, (some (atEntry e).1.getValue, (atEntry e).2) = spec (.entry e))
    (hnull : UpdateOk key .null atNull.1 ∧ (atNull.1.newest key, atNull.2) = spec .null)
    (hbin : ∀ l, l.Wf → ∃ p, atBin l = some p ∧ UpdateOk key (.bin l) p.1 ∧
      (p.1.newest key, p.2) = spec (.bin l)) (h : mob.Wf) :
    ∃ p, mob.update key atEntry atNull atBin = some p ∧ UpdateOk key mob p.1 ∧
      (p.1.newest key, p.2) = spec (mob.target key) := by
  induction mob using ModelOrBin.slotInduction with
  | null => exact ⟨_, rfl, hnull⟩
  | bin lflb => exact hbin lflb h
  | ai m ih =>
    obtain ⟨p, hp, hok, hresult⟩ :=
      updateAt_ok (fun i => (m.mobsLf i).update key atEntry atNull atBin) h hkey hentry
        (ih _ ((wf_ai.mp h).2 _).1)
    refine ⟨(.ai p.1, p.2), ?_, hok, hresult⟩
    show (m.updateAt key atEntry fun i => (m.mobsLf i).update key atEntry atNull atBin).map _ = _
    rw [hp]
    rfl

end Update

end KanvaRS
