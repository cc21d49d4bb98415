import Kanva.Impl.Bin.Retention
import Kanva.Impl.LinkedList.Seeking

/-!
# The bounds of the leaves

The separators of the root give every leaf a lower and an upper bound, and a split divides them at
its separator. `BinMem.KeyInv` follows one key through the bin: the keys of a leaf are between its
bounds, so that at most one leaf below the root holds the key, as long as it is no separator, and a
leaf that has been replaced is completely frozen.

## Main results

* `InternalNode.routed_bounds`: a key is routed to a child that has it between its bounds.
* `BinMem.KeyInv.setList`, `BinMem.KeyInv.installSplit`: a step in a list and a split keep the
  invariant.
-/

namespace KanvaImpl

open Kanva Interleaving PointerChain SortedArray

/-- The loops of `split_root` freeze no word. -/
theorem LinkedList.ofPairs_thawed {K : Type} [LE K] [BoundedOrder K] (l : List (K × Val)) (a : ℕ) :
    ((ofPairs l).next a).freeze = false := by
  have hfold : ∀ (l : List (K × Val)) (st : LinkedList K × ℕ), (∀ a, (st.1.next a).freeze = false) →
      ((l.foldl appendPair st).1.next a).freeze = false := by
    intro l
    induction l with
    | nil => exact fun st hst => hst a
    | cons p l ih =>
      refine fun st hst => ih _ fun b => ?_
      rw [appendPair, next_alloc, next_setNext]
      split_ifs
      · rfl
      · rfl
      · exact hst b
  refine hfold l (new, head) fun b => ?_
  by_cases hb : b = maxAddr <;> simp [next, new, hb, TaggedPtr.null]

/-! ### The bounds of the leaves -/

namespace InternalNode

variable {K : Type} [LinearOrder K] [BoundedOrder K]

/-- No key below the child at `i` is less. -/
def lower (n : InternalNode K) (i : ℕ) : K := if i = 0 then ⊥ else n.key (i - 1)

/-- No key below the child at `i` is greater. -/
def upper (n : InternalNode K) (i : ℕ) : K := if i < n.count then n.key i else ⊤

/-- The separators increase, and none is the key. -/
structure Separates (n : InternalNode K) (key : K) : Prop where
  mono : ∀ i j, i ≤ j → j < n.count → n.key i ≤ n.key j
  ne_key : ∀ i < n.count, n.key i ≠ key

/-- The child a key is routed to has it between its bounds. -/
theorem routed_bounds (n : InternalNode K) (k : K) :
    n.lower (lowerBound n.key k n.count) ≤ k ∧ k ≤ n.upper (lowerBound n.key k n.count) := by
  constructor
  · rw [lower]
    split
    · exact bot_le
    · exact (lt_of_lt_lowerBound (n := n.count) (by omega)).le
  · rw [upper]
    split
    · next hlt => exact le_key_lowerBound hlt
    · exact le_top

/-- A key that is no separator is between the bounds of one child. -/
theorem Separates.eq_of_bounds {n : InternalNode K} {key : K} (h : n.Separates key) {i j : ℕ}
    (hi : i ≤ n.count) (hj : j ≤ n.count) (hil : n.lower i ≤ key) (hiu : key ≤ n.upper i)
    (hjl : n.lower j ≤ key) (hju : key ≤ n.upper j) : i = j := by
  -- the separator between two children would be the key
  have hbetween : ∀ {i j : ℕ}, j ≤ n.count → i < j → key ≤ n.upper i → ¬ n.lower j ≤ key := by
    intro i j hj hij hiu hjl
    rw [upper, if_pos (by omega)] at hiu
    rw [lower, if_neg (by omega)] at hjl
    have hmono := h.mono i (j - 1) (by omega) (by omega)
    exact h.ne_key i (by omega) (le_antisymm (hmono.trans hjl) hiu)
  rcases lt_trichotomy i j with hlt | heq | hgt
  · exact absurd hjl (hbetween hj hlt hiu)
  · exact heq
  · exact absurd hil (hbetween hi hgt hju)

variable [Zero K]

/-- The bounds of the children after a split: the separator comes between the two halves. -/
theorem bounds_insertSplit (n split : InternalNode K) {i : ℕ} (hi : i ≤ n.count) {j : ℕ}
    (hj : j ≤ n.count + 1) :
    (n.insertSplit i split).lower j =
      (if j ≤ i then n.lower j else if j = i + 1 then split.key 0 else n.lower (j - 1)) ∧
    (n.insertSplit i split).upper j =
      (if j < i then n.upper j else if j = i then split.key 0 else n.upper (j - 1)) := by
  have hkey := fun {j : ℕ} (hj : j < n.count + 1) => insertSplit_key n split hi hj
  refine ⟨?_, ?_⟩
  · rw [lower, lower, lower]
    rcases Nat.eq_zero_or_pos j with rfl | hpos
    · simp
    · rw [if_neg (by omega), hkey (by omega)]
      rcases lt_trichotomy j (i + 1) with hlt | heq | hgt
      · rw [if_pos (by omega), if_pos (by omega), if_neg (by omega)]
      · rw [if_neg (by omega), if_pos (by omega), if_neg (by omega), if_pos heq]
      · rw [if_neg (by omega), if_neg (by omega), if_neg (by omega), if_neg (by omega),
          if_neg (by omega)]
  · rw [upper, upper, upper, insertSplit_count]
    rcases lt_trichotomy j i with hlt | heq | hgt
    · rw [if_pos (by omega), hkey (by omega), if_pos hlt, if_pos hlt, if_pos (by omega)]
    · rw [if_pos (by omega), hkey (by omega), if_neg (by omega), if_pos heq, if_neg (by omega),
        if_pos heq]
    · rw [if_neg (show ¬ j < i by omega), if_neg (show ¬ j = i by omega)]
      by_cases hlast : j < n.count + 1
      · rw [if_pos hlast, hkey hlast, if_neg (by omega), if_neg (by omega), if_pos (by omega)]
      · rw [if_neg hlast, if_neg (by omega)]

/-- A separator between the bounds of the child that is split keeps the order. -/
theorem Separates.insertSplit {n split : InternalNode K} {key : K} (h : n.Separates key) {i : ℕ}
    (hi : i ≤ n.count) (hl : n.lower i ≤ split.key 0) (hu : split.key 0 ≤ n.upper i)
    (hne : split.key 0 ≠ key) : (n.insertSplit i split).Separates key := by
  have hkey := fun {j : ℕ} (hj : j < n.count + 1) => insertSplit_key n split hi hj
  constructor
  · intro a b hab hb
    rw [insertSplit_count] at hb
    rcases Nat.eq_or_lt_of_le hab with rfl | hlt
    · exact le_rfl
    rw [hkey (by omega), hkey hb]
    rcases lt_trichotomy b i with hbi | rfl | hbi
    · rw [if_pos (by omega), if_pos hbi]
      exact h.mono a b hab (by omega)
    · -- up to the new separator
      rw [if_pos hlt, if_neg (lt_irrefl _), if_pos rfl]
      rw [lower, if_neg (by omega)] at hl
      exact (h.mono a (b - 1) (by omega) (by omega)).trans hl
    · rw [if_neg (show ¬ b < i by omega), if_neg (show ¬ b = i by omega)]
      rcases lt_trichotomy a i with hai | rfl | hai
      · rw [if_pos hai]
        exact h.mono a (b - 1) (by omega) (by omega)
      · -- from the new separator on
        rw [if_neg (lt_irrefl _), if_pos rfl]
        rw [upper, if_pos (by omega)] at hu
        exact hu.trans (h.mono a (b - 1) (by omega) (by omega))
      · rw [if_neg (by omega), if_neg (by omega)]
        exact h.mono (a - 1) (b - 1) (by omega) (by omega)
  · intro a ha
    rw [insertSplit_count] at ha
    rw [hkey ha]
    split_ifs with hlt heq
    · exact h.ne_key a (by omega)
    · exact hne
    · exact h.ne_key (a - 1) (by omega)

end InternalNode

/-- The leaves below a root node have the bounds its separators give them. -/
def RootNode.Fits {K : Type} [LinearOrder K] [BoundedOrder K] (key : K) (bound : ℕ → K × K) :
    RootNode K → Prop
  | .leaf id => bound id = (⊥, ⊤)
  | .internal n => n.Separates key ∧ ∀ i ≤ n.count, bound (n.ptr i) = (n.lower i, n.upper i)

/-- An update of the key is routed to the leaf. -/
def Place.Routes {K : Type} [LinearOrder K] (pl : Place K) (k : K) : Prop :=
  match pl.parent with
  | none => True
  | some (n, i) => i = lowerBound n.key k n.count

/-- The nodes between the sentinels have keys of the vector. -/
def LinkedList.Only {K : Type} [LinearOrder K] [BoundedOrder K] (l : LinkedList K)
    (keys : List K) : Prop :=
  ∀ a, l.IsNode a → ⊥ < l.keyOf a → l.keyOf a < ⊤ → l.keyOf a ∈ keys

namespace BinMem

variable {K : Type}

/-- The keys of a leaf are between two bounds. -/
def Within [LinearOrder K] [BoundedOrder K] (b : BinMem K) (c : ℕ) (bound : K × K) : Prop :=
  ∀ a, (b.leaf c).list.IsNode a → ⊥ < (b.leaf c).list.keyOf a → (b.leaf c).list.keyOf a < ⊤ →
    bound.1 ≤ (b.leaf c).list.keyOf a ∧ (b.leaf c).list.keyOf a ≤ bound.2

/-- A collection of a leaf below the root may have copied the key. -/
def TakenBelow (b : BinMem K) (key : K) : Prop := ∃ c ∈ b.children, (b.leaf c).list.Taken key

/-- The invariant of a bin in which one key is followed. -/
structure KeyInv [LinearOrder K] [BoundedOrder K] (key : K) (b : BinMem K) : Prop where
  list : ∀ c, b.IsLeaf c → (b.leaf c).list.KeyInv key
  root : b.IsNode b.root.addr
  child : ∀ a, b.IsNode a → ∀ c ∈ (b.node a).children, b.IsLeaf c
  /-- A leaf that is not below the root any more is completely frozen. -/
  replaced : ∀ c, b.IsLeaf c → c ∉ b.children → (b.leaf c).list.Done
  bounds : ∃ bound : ℕ → K × K, (∀ a, b.IsNode a → (b.node a).Fits key bound) ∧
    ∀ c, b.IsLeaf c → b.Within c (bound c)

/-- What a step of any thread leaves alone. While the key is `quiet`, a live node with it is only
lost with the key, the key does not come back, and an old leaf gets no live node with it. -/
structure KeyGuar (key : K) (quiet : Prop) (b b' : BinMem K) : Prop where
  leafSize_le : b.leafSize ≤ b'.leafSize
  nodeSize_le : b.nodeSize ≤ b'.nodeSize
  node_eq : ∀ a, b.IsNode a → b'.node a = b.node a
  list : ∀ c, b.IsLeaf c → LinkedList.KeyGuar (b.leaf c).list (b'.leaf c).list
  sealed : b.root.isMarked = true → b'.root = b.root
  live : quiet → ∀ c a, b.IsLeaf c → (b.leaf c).list.LiveAt key a →
    (b'.leaf c).list.LiveAt key a ∨ ¬ b'.Held key
  absent : quiet → ¬ b.Held key → ¬ b'.Held key
  old : quiet → ∀ c a, b.IsLeaf c → (b'.leaf c).list.LiveAt key a → (b.leaf c).list.LiveAt key a

theorem KeyGuar.refl (key : K) (quiet : Prop) (b : BinMem K) : KeyGuar key quiet b b :=
  ⟨le_rfl, le_rfl, fun _ _ => rfl, fun _ _ => .refl _, fun _ => rfl, fun _ _ _ _ h => .inl h,
    fun _ h => h, fun _ _ _ _ h => h⟩

theorem KeyGuar.isLeaf {key : K} {quiet : Prop} {b b' : BinMem K} (hg : KeyGuar key quiet b b')
    {c : ℕ} (h : b.IsLeaf c) : b'.IsLeaf c := ⟨h.1, h.2.trans_le hg.leafSize_le⟩

theorem KeyGuar.isNode {key : K} {quiet : Prop} {b b' : BinMem K} (hg : KeyGuar key quiet b b')
    {a : ℕ} (h : b.IsNode a) : b'.IsNode a := ⟨h.1, h.2.trans_le hg.nodeSize_le⟩

theorem KeyGuar.trans {key : K} {quiet : Prop} {b b' b'' : BinMem K} (h : KeyGuar key quiet b b')
    (h' : KeyGuar key quiet b' b'') : KeyGuar key quiet b b'' where
  leafSize_le := h.leafSize_le.trans h'.leafSize_le
  nodeSize_le := h.nodeSize_le.trans h'.nodeSize_le
  node_eq a ha := (h'.node_eq a (h.isNode ha)).trans (h.node_eq a ha)
  list c hc := (h.list c hc).trans (h'.list c (h.isLeaf hc))
  sealed hm := by
    have heq := h.sealed hm
    exact (h'.sealed (heq ▸ hm)).trans heq
  live hq c a hc ha := by
    rcases h.live hq c a hc ha with hlive | hnot
    · exact h'.live hq c a (h.isLeaf hc) hlive
    · exact .inr (h'.absent hq hnot)
  absent hq hnot := h'.absent hq (h.absent hq hnot)
  old hq c a hc ha := h.old hq c a hc (h'.old hq c a (h.isLeaf hc) ha)

variable [LinearOrder K] [BoundedOrder K] {key : K} {quiet : Prop} {b b' : BinMem K} {c d : ℕ}
  {pl : Place K}

/-! ### The leaf of a key -/

/-- The leaves below the root hold the keys of their live nodes. -/
theorem KeyInv.held_iff (h : b.KeyInv key) :
    b.Held key ↔ ∃ c ∈ b.children, ∃ a, (b.leaf c).list.LiveAt key a := by
  refine exists_congr fun c => and_congr_right fun hc => ?_
  exact (h.list c (h.child _ h.root c hc)).inv.holdsKey_iff_live

/-- A key that has been taken below the root is held. -/
theorem KeyInv.held_of_taken (h : b.KeyInv key) (ht : b.TakenBelow key) : b.Held key := by
  obtain ⟨c, hc, htaken⟩ := ht
  exact h.held_iff.mpr ⟨c, hc, (h.list c (h.child _ h.root c hc)).live_of_taken htaken⟩

/-- Below a sealed root the leaves stay. -/
theorem KeyGuar.children_eq (hg : KeyGuar key quiet b b') (h : b.KeyInv key)
    (hm : b.root.isMarked = true) : b'.children = b.children := by
  rw [children, children, hg.sealed hm, hg.node_eq _ h.root]

theorem TakenBelow.mono (h : b.KeyInv key) (hg : KeyGuar key quiet b b')
    (hm : b.root.isMarked = true) (ht : b.TakenBelow key) : b'.TakenBelow key := by
  obtain ⟨c, hc, htaken⟩ := ht
  have hleaf := h.child _ h.root c hc
  exact ⟨c, hg.children_eq h hm ▸ hc, htaken.mono (h.list c hleaf).inv (hg.list c hleaf).guar⟩

/-- A live node has its key between the bounds of its leaf. -/
theorem live_within {bound : K × K} (hrange : ⊥ < key ∧ key < ⊤) (hwithin : b.Within c bound)
    {a : ℕ} (ha : (b.leaf c).list.LiveAt key a) : bound.1 ≤ key ∧ key ≤ bound.2 := by
  have hbetween := hwithin a ha.isNode
  rw [ha.key_eq] at hbetween
  exact hbetween hrange.1 hrange.2

/-- One leaf of a node has the key between its bounds. -/
theorem leaf_unique {bound : ℕ → K × K} {node : RootNode K} (hfits : node.Fits key bound)
    (hc : c ∈ node.children) (hd : d ∈ node.children)
    (hcb : (bound c).1 ≤ key ∧ key ≤ (bound c).2) (hdb : (bound d).1 ≤ key ∧ key ≤ (bound d).2) :
    c = d := by
  cases node with
  | leaf id => exact (List.mem_singleton.mp hc).trans (List.mem_singleton.mp hd).symm
  | internal n =>
    obtain ⟨hsep, hbound⟩ := hfits
    obtain ⟨i, hi, rfl⟩ := List.mem_map.mp hc
    obtain ⟨j, hj, rfl⟩ := List.mem_map.mp hd
    have hi := Nat.lt_succ_iff.mp (List.mem_range.mp hi)
    have hj := Nat.lt_succ_iff.mp (List.mem_range.mp hj)
    rw [hbound i hi] at hcb
    rw [hbound j hj] at hdb
    rw [hsep.eq_of_bounds hi hj hcb.1 hcb.2 hdb.1 hdb.2]

/-- The leaf of an update is a leaf. -/
theorem KeyInv.isLeaf (h : b.KeyInv key) (hpl : pl.Ok b) : b.IsLeaf pl.child :=
  h.child _ hpl.1 _ hpl.mem_children

/-- A key has the bounds of the leaf it is routed to. -/
theorem routed_within {bound : ℕ → K × K} (hfits : ∀ a, b.IsNode a → (b.node a).Fits key bound)
    (hpl : pl.Ok b) {k : K} (hk : pl.Routes k) :
    (bound pl.child).1 ≤ k ∧ k ≤ (bound pl.child).2 := by
  have hnode := hfits _ hpl.1
  obtain ⟨-, hparent⟩ := hpl
  unfold Place.Routes at hk
  split at hparent
  · rw [hparent] at hnode
    rw [show bound pl.child = (⊥, ⊤) from hnode]
    exact ⟨bot_le, le_top⟩
  · next n i hpar =>
    rw [hpar] at hk
    obtain ⟨hn, hi, hchild⟩ := hparent
    rw [hn] at hnode
    have hki : i = lowerBound n.key k n.count := hk
    rw [hchild, hnode.2 i hi, hki]
    exact n.routed_bounds k

/-! ### The writes -/

omit [LinearOrder K] [BoundedOrder K] in
/-- The lists after a step in one of them. -/
theorem leaf_setList (b : BinMem K) (c d : ℕ) (l : LinkedList K) :
    ((b.setList c l).leaf d).list = if d = c then l else (b.leaf d).list := by
  by_cases hd : d = c <;> simp [BinMem.setList, hd]

omit [LinearOrder K] [BoundedOrder K] in
/-- The list of a leaf after a step in it. -/
theorem list_setList (b : BinMem K) (c : ℕ) (l : LinkedList K) :
    ((b.setList c l).leaf c).list = l := by
  rw [leaf_setList, if_pos rfl]

omit [LinearOrder K] [BoundedOrder K] in
theorem setList_self (b : BinMem K) (c : ℕ) : b.setList c (b.leaf c).list = b := by
  simp [BinMem.setList]

omit [LinearOrder K] [BoundedOrder K] in
theorem keyGuar_setList {l : LinkedList K} (hg : LinkedList.KeyGuar (b.leaf c).list l) (d : ℕ) :
    LinkedList.KeyGuar (b.leaf d).list ((b.setList c l).leaf d).list := by
  rw [leaf_setList]
  split
  · next hd => exact hd ▸ hg
  · exact .refl _

/-- A step in the list of a leaf keeps the invariant, when a new node has a key that is routed to
the leaf. -/
theorem KeyInv.inv_setList (h : b.KeyInv key) {l : LinkedList K} (hc : b.IsLeaf c)
    (hl : l.KeyInv key) (hg : LinkedList.KeyGuar (b.leaf c).list l)
    (hnew : ∀ a, l.IsNode a → (b.leaf c).list.IsNode a ∨
      ∃ pl : Place K, pl.Ok b ∧ pl.child = c ∧ pl.Routes (l.keyOf a)) :
    (b.setList c l).KeyInv key := by
  refine ⟨fun d hd => ?_, h.root, h.child, fun d hd hout => ?_, ?_⟩
  · rw [leaf_setList]
    split
    · exact hl
    · exact h.list d hd
  · exact (keyGuar_setList hg d).done (h.replaced d hd hout)
  · obtain ⟨bound, hfits, hwithin⟩ := h.bounds
    refine ⟨bound, hfits, fun d hd a ha hbot htop => ?_⟩
    rw [leaf_setList] at ha hbot htop ⊢
    by_cases hdc : d = c
    · rw [if_pos hdc] at ha hbot htop ⊢
      rcases hnew a ha with hold | ⟨pl, hpl, rfl, hroute⟩
      · have hkey := hg.guar.key_eq a hold
        rw [hkey] at hbot htop ⊢
        exact hdc ▸ hwithin c hc a hold hbot htop
      · exact hdc ▸ routed_within hfits hpl hroute
    · rw [if_neg hdc] at ha hbot htop ⊢
      exact hwithin d hd a ha hbot htop

omit [LinearOrder K] [BoundedOrder K] in
/-- When no new node has the key, a live node with it is an old one. -/
theorem live_of_setList {l : LinkedList K} (hg : LinkedList.KeyGuar (b.leaf c).list l)
    (hnew : ∀ a, l.IsNode a → (b.leaf c).list.IsNode a ∨ l.keyOf a ≠ key) {a : ℕ}
    (ha : ((b.setList c l).leaf d).list.LiveAt key a) : (b.leaf d).list.LiveAt key a := by
  have hlist := keyGuar_setList hg d
  have hnode : (b.leaf d).list.IsNode a := by
    have ha' := ha
    rw [leaf_setList] at ha'
    by_cases hdc : d = c
    · rw [if_pos hdc] at ha'
      exact hdc ▸ (hnew a ha'.isNode).resolve_right (not_not.mpr ha'.key_eq)
    · rw [if_neg hdc] at ha'
      exact ha'.isNode
  refine ⟨hnode, (hlist.guar.key_eq a hnode).symm.trans ha.key_eq, ?_⟩
  by_contra hm
  have hmarked := (hlist.guar.marked a hnode (by simpa using hm)).1
  rw [ha.unmarked] at hmarked
  cases hmarked

/-- A step in the list of a leaf keeps the invariant, when a new node has a key that is routed to
the leaf, and a live node with the key is only lost while its word is not frozen. -/
theorem KeyInv.setList (h : b.KeyInv key) (quiet : Prop) (hrange : ⊥ < key ∧ key < ⊤)
    {l : LinkedList K} (hc : b.IsLeaf c) (hl : l.KeyInv key)
    (hg : LinkedList.KeyGuar (b.leaf c).list l)
    (hnew : ∀ a, l.IsNode a → (b.leaf c).list.IsNode a ∨
      ∃ pl : Place K, pl.Ok b ∧ pl.child = c ∧ pl.Routes (l.keyOf a) ∧ (quiet → l.keyOf a ≠ key))
    (hlive : ∀ a, (b.leaf c).list.LiveAt key a → l.LiveAt key a ∨
      ((b.leaf c).list.next a).freeze = false) :
    (b.setList c l).KeyInv key ∧ KeyGuar key quiet b (b.setList c l) := by
  have hinv : (b.setList c l).KeyInv key := by
    refine h.inv_setList hc hl hg fun a ha => (hnew a ha).imp_right ?_
    rintro ⟨pl, hpl, hchild, hroute, -⟩
    exact ⟨pl, hpl, hchild, hroute⟩
  have hold : quiet → ∀ d a, ((b.setList c l).leaf d).list.LiveAt key a →
      (b.leaf d).list.LiveAt key a := by
    intro hq d a ha
    refine live_of_setList hg (fun x hx => (hnew x hx).imp_right ?_) ha
    rintro ⟨pl, -, -, -, hne⟩
    exact hne hq
  refine ⟨hinv, le_rfl, le_rfl, fun _ _ => rfl, fun d _ => keyGuar_setList hg d, fun _ => rfl,
    ?_, ?_, fun hq d a _ ha => hold hq d a ha⟩
  · intro hq d a hd ha
    by_cases hdc : d = c
    · subst hdc
      rcases hlive a ha with hstill | hthawed
      · left
        rwa [list_setList]
      · by_cases hm : (l.next a).mark = false
        · left
          rw [list_setList]
          exact ha.mono hg.guar hm
        -- the key is marked in its leaf, which is below the root, and in no other one
        · refine .inr fun hheld => ?_
          obtain ⟨e, he, x, hx⟩ := hinv.held_iff.mp hheld
          have hxold := hold hq e x hx
          have hin : d ∈ b.children := by
            by_contra hout
            have hmax := (h.list d hc).inv.ne_max (ha.key_eq.trans_lt hrange.2)
            rw [h.replaced d hc hout a ha.isNode hmax ha.unmarked] at hthawed
            cases hthawed
          obtain ⟨bound, hfits, hwithin⟩ := h.bounds
          obtain rfl := leaf_unique (hfits _ h.root) hin he (live_within hrange (hwithin d hd) ha)
            (live_within hrange (hwithin e (h.child _ h.root e he)) hxold)
          obtain rfl := (h.list d hc).inv.live_unique ha hxold
          rw [list_setList] at hx
          exact hm hx.unmarked
    · left
      rwa [leaf_setList, if_neg hdc]
  · intro hq hnot hheld
    obtain ⟨e, he, x, hx⟩ := hinv.held_iff.mp hheld
    exact hnot (h.held_iff.mpr ⟨e, he, x, hold hq e x hx⟩)

/-- A write that changes only counts, or seals the bin, keeps the invariant. -/
theorem KeyInv.congr (h : b.KeyInv key) (quiet : Prop) (b' : BinMem K)
    (hleafSize : b'.leafSize = b.leafSize)
    (hnodeSize : b'.nodeSize = b.nodeSize) (hnode : b'.node = b.node)
    (hlist : ∀ c, (b'.leaf c).list = (b.leaf c).list) (haddr : b'.root.addr = b.root.addr)
    (hseal : b.root.isMarked = true → b'.root = b.root) :
    b'.KeyInv key ∧ KeyGuar key quiet b b' := by
  have hisLeaf : ∀ c, b'.IsLeaf c ↔ b.IsLeaf c := fun c => by rw [IsLeaf, IsLeaf, hleafSize]
  have hisNode : ∀ a, b'.IsNode a ↔ b.IsNode a := fun a => by rw [IsNode, IsNode, hnodeSize]
  have hchildren : b'.children = b.children := by rw [children, children, hnode, haddr]
  have hinv : b'.KeyInv key := by
    refine ⟨fun c hc => ?_, ?_, fun a ha c hc => ?_, fun c hc hout => ?_, ?_⟩
    · rw [hlist]
      exact h.list c ((hisLeaf c).mp hc)
    · rw [hisNode, haddr]
      exact h.root
    · rw [hnode] at hc
      exact (hisLeaf c).mpr (h.child a ((hisNode a).mp ha) c hc)
    · rw [hlist]
      exact h.replaced c ((hisLeaf c).mp hc) (hchildren ▸ hout)
    · obtain ⟨bound, hfits, hwithin⟩ := h.bounds
      refine ⟨bound, fun a ha => ?_, fun c hc => ?_⟩
      · rw [hnode]
        exact hfits a ((hisNode a).mp ha)
      · rw [Within, hlist]
        exact hwithin c ((hisLeaf c).mp hc)
  have hheld : b'.Held key ↔ b.Held key := by
    rw [Held, Held, hchildren]
    exact exists_congr fun c => by rw [hlist]
  refine ⟨hinv, hleafSize.ge, hnodeSize.ge, fun a _ => by rw [hnode], fun c _ => ?_, hseal,
    fun _ c a _ ha => ?_, fun _ hnot => fun hh => hnot (hheld.mp hh), fun _ c a _ ha => ?_⟩
  · rw [hlist]
    exact .refl _
  · left
    rwa [hlist]
  · rwa [hlist] at ha

/-! ### A split -/

omit [BoundedOrder K] in
/-- The halves of sorted keys lie on the two sides of the key in the middle. -/
theorem halves_bounds [Zero K] {keys : List K} (hsorted : keys.Pairwise (· < ·)) (hne : keys ≠ []) :
    (∀ k ∈ keys.take (keys.length / 2), k ≤ keys.getD (keys.length / 2) 0) ∧
    (∀ k ∈ keys.drop (keys.length / 2), keys.getD (keys.length / 2) 0 ≤ k) ∧
    keys.getD (keys.length / 2) 0 ∈ keys := by
  have hpos := List.length_pos_iff.mpr hne
  have hlt : keys.length / 2 < keys.length := by omega
  have hget : keys.getD (keys.length / 2) 0 = keys[keys.length / 2] := by
    rw [List.getD_eq_getElem?_getD, List.getElem?_eq_getElem hlt]
    rfl
  have hdrop := List.drop_eq_getElem_cons hlt
  rw [← List.take_append_drop (keys.length / 2) keys, List.pairwise_append] at hsorted
  obtain ⟨-, hright, hcross⟩ := hsorted
  rw [hget]
  refine ⟨fun k hk => ?_, fun k hk => ?_, List.getElem_mem hlt⟩
  · refine (hcross k hk _ ?_).le
    rw [hdrop]
    exact List.mem_cons_self
  · rw [hdrop] at hk hright
    rcases List.mem_cons.mp hk with rfl | hk
    · exact le_rfl
    · exact ((List.pairwise_cons.mp hright).1 k hk).le

/-- The list of a new leaf follows the rules and has the keys of its pairs. -/
theorem newLeaf_ok [Nontrivial K] {l : List (K × Val)} (key : K)
    (hsorted : (l.map Prod.fst).Pairwise (· < ·)) (hrange : ∀ k ∈ l.map Prod.fst, ⊥ < k ∧ k < ⊤) :
    (LinkedList.ofPairs l).KeyInv key ∧ (LinkedList.ofPairs l).Only (l.map Prod.fst) := by
  obtain ⟨hinv, hm, hkeys⟩ := LinkedList.ofPairs_ok hsorted hrange
  refine ⟨.of_thawed hinv (LinkedList.ofPairs_thawed l), fun a ha hbot htop => ?_⟩
  exact (hkeys _ hbot htop).mp (hinv.holdsKey_iff.mpr ⟨a, ha, rfl, hm a ha⟩)

/-- The bounds below a node are those of its leaves. -/
theorem fits_congr {bound bound' : ℕ → K × K} {node : RootNode K}
    (hbound : ∀ c ∈ node.children, bound' c = bound c) (h : node.Fits key bound) :
    node.Fits key bound' := by
  cases node with
  | leaf id => exact (hbound id (List.mem_singleton_self id)).trans h
  | internal n =>
    refine ⟨h.1, fun i hi => (hbound _ ?_).trans (h.2 i hi)⟩
    exact List.mem_map_of_mem (List.mem_range.mpr (Nat.lt_succ_of_le hi))

omit [LinearOrder K] [BoundedOrder K] in
/-- The entries of the node of `split_root`. -/
theorem ofSplit_entries [Zero K] (sep : K) (left right : ℕ) :
    (InternalNode.ofSplit sep left right).key 0 = sep ∧
      (InternalNode.ofSplit sep left right).ptr 0 = left ∧
      (InternalNode.ofSplit sep left right).ptr 1 = right := by
  simp [InternalNode.ofSplit, InternalNode.setKey, InternalNode.setPtr]

/-- The node of a split has the separator of the split between the bounds of the two halves. -/
theorem fits_splitNode [Zero K] {bound bound' : ℕ → K × K} {u : Update K} {keys : List K}
    {left right : ℕ} (hpl : pl.Ok b) (hu : u.IsInsert)
    (hfits : (b.node pl.root.addr).Fits key bound)
    (hsep : keys.getD (keys.length / 2) 0 ≠ key)
    (hlo : (bound pl.child).1 ≤ keys.getD (keys.length / 2) 0)
    (hhi : keys.getD (keys.length / 2) 0 ≤ (bound pl.child).2)
    (hleft : bound' left = ((bound pl.child).1, keys.getD (keys.length / 2) 0))
    (hright : bound' right = (keys.getD (keys.length / 2) 0, (bound pl.child).2))
    (hothers : ∀ c ∈ (b.node pl.root.addr).children, bound' c = bound c) :
    (RootNode.internal (splitNode u pl keys left right)).Fits key bound' := by
  obtain ⟨-, k, v, rfl⟩ := hu
  obtain ⟨-, hparent⟩ := hpl
  rcases hpar : pl.parent with _ | ⟨n, i⟩
  · -- one separator over the leaf root
    rw [hpar] at hparent
    have hnode : b.node pl.root.addr = .leaf pl.child := hparent
    rw [hnode] at hfits
    have hbound : bound pl.child = (⊥, ⊤) := hfits
    rw [hbound] at hleft hright
    have heq : splitNode (.insert k v) pl keys left right =
        .ofSplit (keys.getD (keys.length / 2) 0) left right := by simp only [splitNode, hpar]
    rw [heq]
    generalize keys.getD (keys.length / 2) 0 = sep at *
    obtain ⟨hkey, hptr0, hptr1⟩ := ofSplit_entries sep left right
    refine ⟨⟨fun i j hij hj => ?_, fun i hi => ?_⟩, fun i hi => ?_⟩
    · have hj : j < 1 := hj
      obtain rfl : i = j := by omega
      exact le_rfl
    · have hi : i < 1 := hi
      obtain rfl : i = 0 := by omega
      exact hkey ▸ hsep
    · have hi : i ≤ 1 := hi
      obtain rfl | rfl : i = 0 ∨ i = 1 := by omega
      · rw [hptr0, hleft, ← hkey]
        rfl
      · rw [hptr1, hright, ← hkey]
        rfl
  · -- the separator and the two leaves go into the arrays at the position of the child
    rw [hpar] at hparent
    obtain ⟨hnode, hi, hchild⟩ : b.node pl.root.addr = .internal n ∧ i ≤ n.count ∧
      pl.child = n.ptr i := hparent
    rw [hnode] at hfits hothers
    obtain ⟨hn, hbound⟩ := hfits
    rw [hchild, hbound i hi] at hlo hhi hleft hright
    have heq : splitNode (.insert k v) pl keys left right =
        n.insertSplit i (.ofSplit (keys.getD (keys.length / 2) 0) left right) := by
      simp only [splitNode, hpar]
    rw [heq]
    generalize keys.getD (keys.length / 2) 0 = sep at *
    obtain ⟨hkey, hptr0, hptr1⟩ := ofSplit_entries sep left right
    rw [← hkey] at hlo hhi hsep hleft hright
    refine ⟨hn.insertSplit hi hlo hhi hsep, fun j hj => ?_⟩
    have hj : j ≤ n.count + 1 := hj
    have hold : ∀ j ≤ n.count, bound' (n.ptr j) = (n.lower j, n.upper j) := by
      intro j hj
      rw [hothers _ (List.mem_map_of_mem (List.mem_range.mpr (Nat.lt_succ_of_le hj))), hbound j hj]
    obtain ⟨hlower, hupper⟩ := n.bounds_insertSplit (.ofSplit sep left right) hi hj
    rw [hlower, hupper, InternalNode.insertSplit_ptr _ _ hi hj, hptr0, hptr1]
    rcases lt_trichotomy j i with hlt | rfl | hgt
    · rw [if_pos hlt, if_pos hlt.le, if_pos hlt]
      exact hold j (by omega)
    · rw [if_neg (lt_irrefl _), if_pos rfl, if_pos le_rfl, if_neg (lt_irrefl _), if_pos rfl]
      exact hleft
    · rw [if_neg (by omega), if_neg (by omega), if_neg (show ¬ j ≤ i by omega),
        if_neg (show ¬ j < i by omega), if_neg (show ¬ j = i by omega)]
      by_cases hnext : j = i + 1
      · rw [if_pos hnext, if_pos hnext, hright, hnext, Nat.add_sub_cancel]
      · rw [if_neg hnext, if_neg hnext]
        exact hold (j - 1) (by omega)

/-- The new leaves of a split have the keys of the two halves. -/
theorem halves_installSplit [Nontrivial K] [Zero K] (u : Update K) (pl : Place K) {keys : List K}
    {vals : List Val} {l : LinkedList K} (hv : l.Vectors key keys vals) :
    (((b.installSplit u pl keys vals).leaf b.leafSize).list.KeyInv key ∧
      ((b.installSplit u pl keys vals).leaf b.leafSize).list.Only (keys.take (keys.length / 2))) ∧
    ((b.installSplit u pl keys vals).leaf (b.leafSize + 1)).list.KeyInv key ∧
      ((b.installSplit u pl keys vals).leaf (b.leafSize + 1)).list.Only
        (keys.drop (keys.length / 2)) := by
  have hkeys : (keys.zip vals).map Prod.fst = keys := List.map_fst_zip hv.length.le
  have hhalf : ∀ {half : List (K × Val)}, half.Sublist (keys.zip vals) →
      (LinkedList.ofPairs half).KeyInv key ∧
        (LinkedList.ofPairs half).Only (half.map Prod.fst) := fun {half} hsub =>
    newLeaf_ok key (l := half) (hv.sorted.sublist (hkeys ▸ hsub.map Prod.fst)) fun k hk => by
      obtain ⟨hbot, htop, -⟩ := hv.mem k (hkeys ▸ (hsub.map Prod.fst).subset hk)
      exact ⟨hbot, htop⟩
  have hleft := hhalf (List.take_sublist (keys.length / 2) (keys.zip vals))
  have hright := hhalf (List.drop_sublist (keys.length / 2) (keys.zip vals))
  rw [List.map_take, hkeys] at hleft
  rw [List.map_drop, hkeys] at hright
  simpa [BinMem.installSplit] using And.intro hleft hright

/-- The separator of a split divides the bounds of the old leaf. -/
theorem KeyInv.bounds_installSplit [Nontrivial K] [Zero K] (h : b.KeyInv key) {u : Update K}
    (hu : u.IsInsert) (hpl : pl.Ok b) {keys : List K} {vals : List Val}
    (hv : (b.leaf pl.child).list.Vectors key keys vals) (hne : keys ≠ [])
    (hsep : keys.getD (keys.length / 2) 0 ≠ key) :
    ∃ bound : ℕ → K × K, (∀ a, (b.installSplit u pl keys vals).IsNode a →
        ((b.installSplit u pl keys vals).node a).Fits key bound) ∧
      ∀ c, (b.installSplit u pl keys vals).IsLeaf c →
        (b.installSplit u pl keys vals).Within c (bound c) := by
  obtain ⟨bound, hfits, hwithin⟩ := h.bounds
  obtain ⟨htake, hdrop, hmid⟩ := halves_bounds hv.sorted hne
  obtain ⟨⟨-, hlkeys⟩, -, hrkeys⟩ := halves_installSplit (b := b) u pl hv
  generalize hmiddle : keys.getD (keys.length / 2) 0 = sep at hsep htake hdrop hmid
  -- the bounds of the old leaf hold for what was collected from it
  have hbound : ∀ k ∈ keys, (bound pl.child).1 ≤ k ∧ k ≤ (bound pl.child).2 := by
    intro k hk
    obtain ⟨hbot, htop, a, ha, rfl⟩ := hv.mem k hk
    exact hwithin _ (h.isLeaf hpl) a ha hbot htop
  let bound' : ℕ → K × K := Function.update
    (Function.update bound b.leafSize ((bound pl.child).1, sep)) (b.leafSize + 1)
    (sep, (bound pl.child).2)
  have hleft : bound' b.leafSize = ((bound pl.child).1, sep) := by simp [bound']
  have hright : bound' (b.leafSize + 1) = (sep, (bound pl.child).2) := by simp [bound']
  have hothers : ∀ c, b.IsLeaf c → bound' c = bound c := by
    intro c hc
    have hlt := hc.2
    simp [bound', hlt.ne, (hlt.trans (Nat.lt_succ_self _)).ne]
  refine ⟨bound', fun a ha => ?_, fun c hc => ?_⟩
  -- an old node leads to old leaves only; the new one has the separator
  · rcases Nat.lt_succ_iff_lt_or_eq.mp ha.2 with hlt | rfl
    · have hnode : b.IsNode a := ⟨ha.1, hlt⟩
      rw [node_installSplit u pl keys vals hnode]
      exact fits_congr (fun c hc => hothers c (h.child a hnode c hc)) (hfits a hnode)
    · have hnode : (b.installSplit u pl keys vals).node b.nodeSize =
          .internal (splitNode u pl keys b.leafSize (b.leafSize + 1)) := by
        simp [BinMem.installSplit]
      rw [hnode]
      obtain ⟨hlo, hhi⟩ := hbound sep hmid
      rw [← hmiddle] at hsep hlo hhi hleft hright
      exact fits_splitNode hpl hu (hfits _ hpl.1) hsep hlo hhi hleft hright
        fun c hc => hothers c (h.child _ hpl.1 c hc)
  -- an old leaf is as before, and the new ones got keys of their half only
  · rcases isLeaf_installSplit u pl keys vals hc with hold | rfl | rfl
    · rw [Within, leaf_installSplit u pl keys vals hold, hothers c hold]
      exact hwithin c hold
    · rw [Within, hleft]
      intro a ha hbot htop
      have hk := hlkeys a ha hbot htop
      exact ⟨(hbound _ (List.mem_of_mem_take hk)).1, htake _ hk⟩
    · rw [Within, hright]
      intro a ha hbot htop
      have hk := hrkeys a ha hbot htop
      exact ⟨hdrop _ hk, (hbound _ (List.mem_of_mem_drop hk)).2⟩

/-- A split keeps the invariant, and the two new leaves hold the key only if the old one does. -/
theorem KeyInv.installSplit [Nontrivial K] [Zero K] (h : b.KeyInv key)
    (hrange : ⊥ < key ∧ key < ⊤) {u : Update K} (hu : u.IsInsert) (hpl : pl.Ok b)
    (hroot : b.root = pl.root) (hmark : pl.root.isMarked = false) {keys : List K} {vals : List Val}
    (hv : (b.leaf pl.child).list.Vectors key keys vals) (hne : keys ≠ [])
    (hsep : keys.getD (keys.length / 2) 0 ≠ key) :
    (b.installSplit u pl keys vals).KeyInv key ∧
      KeyGuar key quiet b (b.installSplit u pl keys vals) := by
  have hchild := h.isLeaf hpl
  have hin : pl.child ∈ b.children := by
    rw [children, hroot]
    exact hpl.mem_children
  have hguar := guar_installSplit (b := b) u pl keys vals
  have hpos : 0 < b.leafSize := hchild.1.trans hchild.2
  obtain ⟨⟨hlinv, hlkeys⟩, hrinv, hrkeys⟩ := halves_installSplit (b := b) u pl hv
  -- the leaves below the new root
  have hmem := hpl.mem_children_splitNode hu keys b.leafSize (b.leafSize + 1)
  rw [← hroot, ← children_installSplit u pl keys vals] at hmem
  have hsplit := fun {c : ℕ} (hc : b.IsLeaf c) => leaf_installSplit u pl keys vals hc
  have hcases := fun (c : ℕ) hc => isLeaf_installSplit (b := b) (c := c) u pl keys vals hc
  have hinv : (b.installSplit u pl keys vals).KeyInv key := by
    refine ⟨fun c hc => ?_, ?_, fun a ha c hc => ?_, fun c hc hout => ?_,
      h.bounds_installSplit hu hpl hv hne hsep⟩
    · rcases hcases c hc with hc | rfl | rfl
      · rw [hsplit hc]
        exact h.list c hc
      · exact hlinv
      · exact hrinv
    · exact ⟨h.root.1.trans h.root.2, Nat.lt_succ_self _⟩
    · have hold : ∀ {c : ℕ}, b.IsLeaf c → (b.installSplit u pl keys vals).IsLeaf c :=
        fun hc => hc.mono hguar
      rcases Nat.lt_succ_iff_lt_or_eq.mp ha.2 with hlt | rfl
      · have hnode : b.IsNode a := ⟨ha.1, hlt⟩
        rw [node_installSplit u pl keys vals hnode] at hc
        exact hold (h.child a hnode c hc)
      · rcases (hmem c).1 hc with rfl | rfl | hc
        · exact ⟨hpos, Nat.lt_succ_of_lt (Nat.lt_succ_self _)⟩
        · exact ⟨Nat.succ_pos _, Nat.lt_succ_self _⟩
        · exact hold (h.child _ h.root c hc)
    · rcases hcases c hc with hold | rfl | rfl
      · rw [hsplit hold]
        by_cases heq : c = pl.child
        · exact heq ▸ hv.done
        · exact h.replaced c hold fun hc => hout ((hmem c).2 (.inr (.inr ⟨hc, heq⟩)))
      · exact absurd ((hmem _).2 (.inl rfl)) hout
      · exact absurd ((hmem _).2 (.inr (.inl rfl))) hout
  refine ⟨hinv, hguar.leafSize_le, hguar.nodeSize_le, hguar.node_eq, fun c hc => ?_, fun hm => ?_,
    fun _ c a hc ha => ?_, fun _ hnot hheld => ?_, fun _ c a hc ha => ?_⟩
  · rw [hsplit hc]
    exact .refl _
  · rw [hroot, hmark] at hm
    cases hm
  · left
    rwa [hsplit hc]
  · -- a half holds the key only if the collection has copied it
    have htaken : key ∈ keys → b.Held key := fun hk =>
      h.held_iff.mpr ⟨pl.child, hin, (h.list _ hchild).live_of_taken (hv.taken hk)⟩
    obtain ⟨c, hc, a, ha⟩ := hinv.held_iff.mp hheld
    have hlive := ha.key_eq
    rcases (hmem c).1 hc with rfl | rfl | hold
    · have hk := hlkeys a ha.isNode (hlive ▸ hrange.1) (hlive ▸ hrange.2)
      exact hnot (htaken (List.mem_of_mem_take (hlive ▸ hk)))
    · have hk := hrkeys a ha.isNode (hlive ▸ hrange.1) (hlive ▸ hrange.2)
      exact hnot (htaken (List.mem_of_mem_drop (hlive ▸ hk)))
    · rw [hsplit (h.child _ h.root c hold)] at ha
      exact hnot (h.held_iff.mpr ⟨c, hold, a, ha⟩)
  · rwa [hsplit hc] at ha

end BinMem

end KanvaImpl
