import Kanva.Impl.Bin.Sequential

/-!
# The contents of a bin under insertion

A bin that only insertions have changed has clean leaves whose counts are exact. `LeafHolds` and
`Layout` say so for a leaf root and for an internal root, and name the contents of the leaves.

The separator of a split is the first key of the right half, but a key equal to a separator is
routed to its left. So a separator stays in the child to its right (`Layout.sep_mem`), and a later
insertion of the same key puts it into the child on its left as well, which is why `Layout.upper` is
not strict.

## Main results

* `Layout.insert_ok`: an insertion into a child with room.
* `LeafHolds.split_ok` and `Layout.split_ok`: the split of a full leaf root and of a full child.
* `insertLoop_leaf` to `insertLoop_seal`: a round of `insert`, in all its cases.
-/

namespace KanvaImpl

open Kanva SortedArray SortedAssoc

/-- `f` with the entry at `i` replaced by the two entries `a` and `b`. -/
def splice {α : Type*} (f : ℕ → α) (i : ℕ) (a b : α) (j : ℕ) : α :=
  if j < i then f j else if j = i then a else if j = i + 1 then b else f (j - 1)

section Splice

variable {α : Type*} (f : ℕ → α) (a b : α) {i j : ℕ}

theorem splice_of_lt (h : j < i) : splice f i a b j = f j := if_pos h

@[simp] theorem splice_self : splice f i a b i = a := by
  simp [splice]

@[simp] theorem splice_succ : splice f i a b (i + 1) = b := by
  simp [splice]

theorem splice_of_gt (h : i + 1 < j) : splice f i a b j = f (j - 1) := by
  rw [splice, if_neg (by omega), if_neg (by omega), if_neg (by omega)]

/-- A position of a spliced array is before the replaced entry, one of the two new ones, or after
them. -/
theorem splice_cases (i j : ℕ) :
    (j < i ∧ splice f i a b j = f j) ∨ (j = i ∧ splice f i a b j = a) ∨
      (j = i + 1 ∧ splice f i a b j = b) ∨ (i + 1 < j ∧ splice f i a b j = f (j - 1)) := by
  rcases lt_trichotomy j i with hlt | rfl | hgt
  · exact .inl ⟨hlt, splice_of_lt f a b hlt⟩
  · exact .inr (.inl ⟨rfl, splice_self f a b⟩)
  · rcases Nat.lt_or_eq_of_le (Nat.succ_le_of_lt hgt) with hlt | rfl
    · exact .inr (.inr (.inr ⟨hlt, splice_of_gt f a b hlt⟩))
    · exact .inr (.inr (.inl ⟨rfl, splice_succ f a b⟩))

/-- Two fresh entries keep the entries of an array different. -/
theorem splice_inj {f : ℕ → ℕ} {a b n i j m : ℕ}
    (hinj : ∀ x ≤ n, ∀ y ≤ n, f x = f y → x = y) (hlt : ∀ x ≤ n, f x < a) (hab : a < b)
    (hi : i ≤ n) (hj : j ≤ n + 1) (hm : m ≤ n + 1) (h : splice f i a b j = splice f i a b m) :
    j = m := by
  -- two old entries are different ones of `f`, and a fresh entry is larger than all of `f`
  rcases splice_cases f a b i j with ⟨hj', ej⟩ | ⟨hj', ej⟩ | ⟨hj', ej⟩ | ⟨hj', ej⟩ <;>
    rcases splice_cases f a b i m with ⟨hm', em⟩ | ⟨hm', em⟩ | ⟨hm', em⟩ | ⟨hm', em⟩ <;>
    rw [ej, em] at h
  · exact hinj j (by omega) m (by omega) h
  · have := hlt j (by omega)
    omega
  · have := hlt j (by omega)
    omega
  · have := hinj j (by omega) (m - 1) (by omega) h
    omega
  · have := hlt m (by omega)
    omega
  · omega
  · omega
  · have := hlt (m - 1) (by omega)
    omega
  · have := hlt m (by omega)
    omega
  · omega
  · omega
  · have := hlt (m - 1) (by omega)
    omega
  · have := hinj (j - 1) (by omega) m (by omega) h
    omega
  · have := hlt (j - 1) (by omega)
    omega
  · have := hlt (j - 1) (by omega)
    omega
  · have := hinj (j - 1) (by omega) (m - 1) (by omega) h
    omega

end Splice

variable {K : Type} [LinearOrder K] [BoundedOrder K] [Zero K]

namespace SeqBin

/-- The leaf `id` holds exactly `l`. -/
structure LeafHolds (b : SeqBin K) (id : ℕ) (l : List (K × Val)) : Prop where
  live : id < b.fresh
  leaf : b.leaf id = ⟨l.length, SeqList.ofPairs l⟩
  sorted : Sorted l
  length_le : l.length ≤ 32

/-- The children of an internal node hold `c 0`, …, `c count`. -/
structure Layout (b : SeqBin K) (node : InternalNode K) (c : ℕ → List (K × Val)) : Prop where
  count_pos : 0 < node.count
  count_le : node.count ≤ rootMax
  child : ∀ i ≤ node.count, b.LeafHolds (node.ptr i) (c i)
  nonempty : ∀ i ≤ node.count, c i ≠ []
  inj : ∀ i ≤ node.count, ∀ j ≤ node.count, node.ptr i = node.ptr j → i = j
  sep : ∀ i j, i < j → j < node.count → node.key i < node.key j
  lower : ∀ i < node.count, ∀ p ∈ c (i + 1), node.key i ≤ p.1
  upper : ∀ i < node.count, ∀ p ∈ c i, p.1 ≤ node.key i
  sep_mem : ∀ i < node.count, HasKey (node.key i) (c (i + 1))

variable {b : SeqBin K} {node : InternalNode K} {c : ℕ → List (K × Val)} {id : ℕ}
  {l : List (K × Val)} {key : K} {value : Val}

omit [BoundedOrder K] [Zero K] in
/-- Another leaf may be written. -/
theorem LeafHolds.setLeaf_of_ne (h : b.LeafHolds id l) {id' : ℕ} (hne : id ≠ id')
    (x : LeafNode (SeqList K)) : (b.setLeaf id' x).LeafHolds id l where
  live := h.live
  leaf := by
    rw [SeqBin.setLeaf]
    simp only
    rw [Function.update_of_ne hne]
    exact h.leaf
  sorted := h.sorted
  length_le := h.length_le

omit [BoundedOrder K] [Zero K] in
/-- The leaf may be written with new contents. -/
theorem LeafHolds.setLeaf_self (h : b.LeafHolds id l) {l' : List (K × Val)} (hs : Sorted l')
    (hle : l'.length ≤ 32) :
    (b.setLeaf id ⟨l'.length, SeqList.ofPairs l'⟩).LeafHolds id l' where
  live := h.live
  leaf := by simp [SeqBin.setLeaf]
  sorted := hs
  length_le := hle

omit [Zero K] in
/-- The list insertion on a leaf with room, and the update of its count. -/
theorem LeafHolds.insert_ok (h : b.LeafHolds id l) (hlt : l.length < 32) (hkey : key < ⊤)
    (hv : value ≠ -1) :
    (b.leaf id).list.insert key value =
        (SeqList.ofPairs (insertPair key value l), if HasKey key l then 0 else 1) ∧
      (b.leaf id).count < childMax ∧
      Sorted (insertPair key value l) ∧ (insertPair key value l).length ≤ 32 := by
  have hleaf := h.leaf
  refine ⟨?_, ?_, h.sorted.insertPair, ?_⟩
  · rw [hleaf]
    exact SeqList.insert_ofPairs h.sorted hkey hv
  · rw [hleaf]
    show (l.length : ℤ) < 32
    omega
  · rw [length_insertPair]
    split <;> omega

omit [LinearOrder K] [BoundedOrder K] [Zero K] in
@[simp] theorem setLeaf_setLeaf (b : SeqBin K) (id : ℕ) (x y : LeafNode (SeqList K)) :
    (b.setLeaf id x).setLeaf id y = b.setLeaf id y := by
  simp [SeqBin.setLeaf]

/-- The leaf after an insertion that had room. -/
def inserted (key : K) (value : Val) (l : List (K × Val)) : LeafNode (SeqList K) :=
  ⟨(insertPair key value l).length, SeqList.ofPairs (insertPair key value l)⟩

omit [BoundedOrder K] [Zero K] in
/-- The leaf that the insertion branches of `insert_leaf` and `insert_internal` leave behind. -/
theorem LeafHolds.inserted_eq (h : b.LeafHolds id l) :
    inserted key value l =
      if HasKey key l then ⟨(b.leaf id).count, SeqList.ofPairs (insertPair key value l)⟩
      else ⟨(b.leaf id).count + 1, SeqList.ofPairs (insertPair key value l)⟩ := by
  rw [h.leaf, inserted, length_insertPair]
  split <;> simp

/-- `insert_leaf` on a leaf with room. -/
theorem LeafHolds.insertLeaf_eq (h : b.LeafHolds id l) (hlt : l.length < 32) (hkey : key < ⊤)
    (hv : value ≠ -1) :
    b.insertLeaf id key value = (b.setLeaf id (inserted key value l), none) := by
  obtain ⟨hins, hcount, -⟩ := h.insert_ok hlt hkey hv
  rw [insertLeaf, h.inserted_eq]
  simp only [hins, if_pos hcount]
  by_cases hk : HasKey key l <;> simp [hk, boolOfInt]

/-- `insert_internal` on a child with room. -/
theorem Layout.insertInternal_eq (h : b.Layout node c) (hkey : key < ⊤) (hv : value ≠ -1)
    (hlt : (c (lowerBound node.key key node.count)).length < 32) :
    b.insertInternal node key value =
      (b.setLeaf (node.ptr (lowerBound node.key key node.count))
        (inserted key value (c (lowerBound node.key key node.count))), none) := by
  have hchild := h.child _ (lowerBound_le node.key key node.count)
  obtain ⟨hins, hcount, -⟩ := hchild.insert_ok hlt hkey hv
  rw [insertInternal, hchild.inserted_eq]
  simp only [hins, if_pos hcount]
  by_cases hk : HasKey key (c (lowerBound node.key key node.count)) <;> simp [hk]

omit [Zero K] in
/-- An insertion into a child with room keeps the layout. -/
theorem Layout.insert_ok (h : b.Layout node c) (hkey : key < ⊤) (hv : value ≠ -1)
    (hlt : (c (lowerBound node.key key node.count)).length < 32) :
    (b.setLeaf (node.ptr (lowerBound node.key key node.count))
      (inserted key value (c (lowerBound node.key key node.count)))).Layout node
      (Function.update c (lowerBound node.key key node.count)
        (insertPair key value (c (lowerBound node.key key node.count)))) := by
  have hi := lowerBound_le node.key key node.count
  have hbefore := fun {j : ℕ} =>
    lt_of_lt_lowerBound (a := node.key) (k := key) (n := node.count) (i := j)
  have hat := le_key_lowerBound (a := node.key) (k := key) (n := node.count)
  generalize lowerBound node.key key node.count = i at hi hlt hbefore hat
  have hchild := h.child i hi
  obtain ⟨-, -, hs, hle⟩ := hchild.insert_ok hlt hkey hv
  refine ⟨h.count_pos, h.count_le, ?_, ?_, h.inj, h.sep, ?_, ?_, ?_⟩
  · -- every child is as before, or has got the pair
    intro j hj
    by_cases hji : j = i
    · subst hji
      rw [Function.update_self]
      exact hchild.setLeaf_self hs hle
    · rw [Function.update_of_ne hji]
      exact (h.child j hj).setLeaf_of_ne (fun heq => hji (h.inj j hj i hi heq)) _
  -- an insertion empties no child
  · intro j hj
    by_cases hji : j = i
    · subst hji
      rw [Function.update_self]
      intro hnil
      have hmem : HasKey key (insertPair key value (c j)) := hasKey_insertPair.mpr (.inl rfl)
      rw [hnil] at hmem
      obtain ⟨v, hv⟩ := hmem
      exact absurd hv List.not_mem_nil
    · rw [Function.update_of_ne hji]
      exact h.nonempty j hj
  · -- the new key is behind the separator in front of the child, and not behind its own one
    intro j hj p hp
    by_cases hji : j + 1 = i
    · subst hji
      rw [Function.update_self] at hp
      rcases mem_insertPair.mp hp with hp | ⟨rfl, -⟩
      · exact h.lower j hj p hp
      · exact (hbefore (Nat.lt_succ_self j)).le
    · rw [Function.update_of_ne hji] at hp
      exact h.lower j hj p hp
  · intro j hj p hp
    by_cases hji : j = i
    · subst hji
      rw [Function.update_self] at hp
      rcases mem_insertPair.mp hp with hp | ⟨rfl, -⟩
      · exact h.upper j hj p hp
      · exact hat hj
    · rw [Function.update_of_ne hji] at hp
      exact h.upper j hj p hp
  · intro j hj
    by_cases hji : j + 1 = i
    · subst hji
      rw [Function.update_self]
      exact hasKey_insertPair.mpr (.inr (h.sep_mem j hj))
    · rw [Function.update_of_ne hji]
      exact h.sep_mem j hj

/-- The left half of a list `split_root` splits. -/
def leftHalf (l : List (K × Val)) : List (K × Val) := l.take (l.length / 2)

/-- The right half of a list `split_root` splits. -/
def rightHalf (l : List (K × Val)) : List (K × Val) := l.drop (l.length / 2)

/-- The separator `split_root` chooses. -/
def halfSep (l : List (K × Val)) : K := (l.map Prod.fst).getD (l.length / 2) 0

/-- The separator is the first key of the right half. -/
structure Halves (l : List (K × Val)) : Prop where
  append : leftHalf l ++ rightHalf l = l
  left_pos : leftHalf l ≠ []
  left_lt : (leftHalf l).length < 32
  right_lt : (rightHalf l).length < 32
  left_lt_sep : ∀ p ∈ leftHalf l, p.1 < halfSep l
  sep_le_right : ∀ p ∈ rightHalf l, halfSep l ≤ p.1
  sep_mem : HasKey (halfSep l) (rightHalf l)
  sep_lt : ∃ p ∈ rightHalf l, halfSep l < p.1

omit [BoundedOrder K] in
/-- The halves of `split_root` on a full list. -/
theorem halves_of_full (hs : Sorted l) (hfull : l.length = 32) : Halves l := by
  have hleft : leftHalf l = l.take 16 := by rw [leftHalf, hfull]
  have hright : rightHalf l = l.drop 16 := by rw [rightHalf, hfull]
  have hlen : (l.drop 16).length = 16 := by
    rw [List.length_drop, hfull]
  -- the right half starts with the separator and a larger key
  obtain ⟨p, q, t, hdrop⟩ : ∃ p q t, l.drop 16 = p :: q :: t := by
    match hd : l.drop 16 with
    | [] => simp [hd] at hlen
    | [p] => simp [hd] at hlen
    | p :: q :: t => exact ⟨p, q, t, rfl⟩
  have hsep : halfSep l = p.1 := by
    rw [halfSep, hfull]
    have hget : l[16]? = some p := by
      rw [← List.head?_drop, hdrop]
      rfl
    simp [List.getD, hget]
  have hsplit := hs
  rw [← List.take_append_drop 16 l, Sorted.append_iff, hdrop] at hsplit
  obtain ⟨-, htail, hlr⟩ := hsplit
  have hpq : ∀ r ∈ q :: t, p.1 < r.1 := fun r hr => List.rel_of_pairwise_cons htail hr
  refine ⟨?_, ?_, ?_, ?_, ?_, ?_, ?_, ?_⟩
  all_goals simp only [hleft, hright, hsep]
  · exact List.take_append_drop 16 l
  · intro hnil
    have htake : (l.take 16).length = 16 := by
      rw [List.length_take, hfull]
      rfl
    rw [hnil] at htake
    cases htake
  · rw [List.length_take, hfull]
    decide
  · omega
  · exact fun r hr => hlr r hr p (by simp)
  · intro r hr
    rw [hdrop] at hr
    rcases List.mem_cons.mp hr with rfl | hr
    · exact le_rfl
    · exact (hpq r hr).le
  · exact ⟨p.2, by rw [hdrop]; simp⟩
  · exact ⟨q, by rw [hdrop]; simp, hpq q (by simp)⟩

/-- The leaves after a split of the leaf `id` with the contents `l`. -/
structure SplitLeaves (b : SeqBin K) (id : ℕ) (l : List (K × Val)) (b' : SeqBin K) : Prop where
  left : b'.LeafHolds b.fresh (leftHalf l)
  right : b'.LeafHolds (b.fresh + 1) (rightHalf l)
  keep : ∀ {id' l'}, id' ≠ id → b.LeafHolds id' l' → b'.LeafHolds id' l'

omit [LinearOrder K] [BoundedOrder K] in
/-- The leaves after `split_root`: two new ones, and the old ones as before. -/
theorem splitRoot_leaf (b : SeqBin K) (l : List (K × Val)) :
    (b.splitRoot l).1.leaf b.fresh = ⟨(leftHalf l).length, SeqList.ofPairs (leftHalf l)⟩ ∧
      (b.splitRoot l).1.leaf (b.fresh + 1) =
        ⟨(rightHalf l).length, SeqList.ofPairs (rightHalf l)⟩ ∧
      ∀ id < b.fresh, (b.splitRoot l).1.leaf id = b.leaf id := by
  refine ⟨?_, ?_, fun id hid => ?_⟩
  · simp [splitRoot, SeqBin.setLeaf, leftHalf]
    omega
  · simp [splitRoot, SeqBin.setLeaf, rightHalf]
  · simp only [splitRoot, SeqBin.setLeaf]
    rw [Function.update_of_ne (by omega), Function.update_of_ne (by omega)]

/-- `collect` and `split_root` on a full leaf. -/
theorem LeafHolds.split_ok (h : b.LeafHolds id l) (hfull : l.length = 32) :
    ∃ b', (b.collectLeaf id).1.splitRoot (b.collectLeaf id).2 =
        (b', .ofSplit (halfSep l) b.fresh (b.fresh + 1)) ∧ b.SplitLeaves id l b' := by
  have hhalves := halves_of_full h.sorted hfull
  have hcollect : (b.collectLeaf id).2 = l := by
    rw [collectLeaf, h.leaf]
    exact SeqList.collect_ofPairs l
  have hlive := h.live
  rw [hcollect]
  obtain ⟨hleft, hright, hkeep⟩ := splitRoot_leaf (b.collectLeaf id).1 l
  -- the two new leaves, then the leaves that were there before
  refine ⟨_, rfl, ⟨?_, hleft, ?_, ?_⟩, ⟨?_, hright, ?_, ?_⟩, ?_⟩
  · show b.fresh < b.fresh + 2
    omega
  · exact h.sorted.sublist (List.take_sublist _ _)
  · exact hhalves.left_lt.le
  · show b.fresh + 1 < b.fresh + 2
    omega
  · exact h.sorted.sublist (List.drop_sublist _ _)
  · exact hhalves.right_lt.le
  · intro id' l' hne h'
    have hlive' := h'.live
    refine ⟨show id' < b.fresh + 2 by omega, ?_, h'.sorted, h'.length_le⟩
    refine (hkeep id' hlive').trans ?_
    simp only [collectLeaf, SeqBin.setLeaf]
    rw [Function.update_of_ne hne]
    exact h'.leaf

/-- The split of a full leaf root. -/
theorem LeafHolds.splitLeaf_ok (h : b.LeafHolds id l) (hfull : l.length = 32) :
    ∃ b', b.splitLeaf id =
        (b', ⟨.internal (.ofSplit (halfSep l) b.fresh (b.fresh + 1)), false⟩) ∧
      b'.Layout (.ofSplit (halfSep l) b.fresh (b.fresh + 1))
        (splice (fun _ => l) 0 (leftHalf l) (rightHalf l)) := by
  obtain ⟨b', hsplit, hleaves⟩ := h.split_ok hfull
  have hhalves := halves_of_full h.sorted hfull
  refine ⟨b', ?_, ?_⟩
  · simp only [splitLeaf, hsplit]
  -- one separator and two children
  have hone : ∀ i < 1, i = 0 := fun i hi => by omega
  have hcases : ∀ i ≤ 1, i = 0 ∨ i = 0 + 1 := fun i hi => by omega
  refine ⟨Nat.one_pos, show 1 ≤ rootMax by decide, ?_, ?_, ?_, ?_, ?_, ?_, ?_⟩
  · intro i hi
    rcases hcases i hi with rfl | rfl
    · rw [splice_self]
      exact hleaves.left
    · rw [splice_succ]
      exact hleaves.right
  · intro i hi
    rcases hcases i hi with rfl | rfl
    · rw [splice_self]
      exact hhalves.left_pos
    · rw [splice_succ]
      obtain ⟨p, hp, -⟩ := hhalves.sep_lt
      exact List.ne_nil_of_mem hp
  · intro i hi j hj heq
    rcases hcases i hi with rfl | rfl <;> rcases hcases j hj with rfl | rfl <;>
      simp [InternalNode.ofSplit] at heq ⊢
  · intro i j hij hj
    have hj : j < 1 := hj
    omega
  · intro i hi p hp
    obtain rfl := hone i hi
    rw [splice_succ] at hp
    exact hhalves.sep_le_right p hp
  · intro i hi p hp
    obtain rfl := hone i hi
    rw [splice_self] at hp
    exact (hhalves.left_lt_sep p hp).le
  · intro i hi
    obtain rfl := hone i hi
    rw [splice_succ]
    exact hhalves.sep_mem

omit [LinearOrder K] [BoundedOrder K] in
/-- The separators of a node after the split of its child at `i`. -/
theorem insertSplit_key_ofSplit (node : InternalNode K) {i : ℕ} (hi : i ≤ node.count) (sep : K)
    (p q : ℕ) {j : ℕ} (hj : j < node.count + 1) :
    (node.insertSplit i (.ofSplit sep p q)).key j =
      if j < i then node.key j else if j = i then sep else node.key (j - 1) :=
  node.insertSplit_key _ hi hj

omit [LinearOrder K] [BoundedOrder K] in
/-- The children of a node after the split of its child at `i`. -/
theorem insertSplit_ptr_ofSplit (node : InternalNode K) {i : ℕ} (hi : i ≤ node.count) (sep : K)
    (p q : ℕ) {j : ℕ} (hj : j ≤ node.count + 1) :
    (node.insertSplit i (.ofSplit sep p q)).ptr j = splice node.ptr i p q j :=
  node.insertSplit_ptr _ hi hj

/-- The split of a full child. -/
theorem Layout.splitChild_ok (h : b.Layout node c) (hroom : node.count < rootMax) {i : ℕ}
    (hi : i ≤ node.count) (hfull : (c i).length = 32) :
    ∃ b', b.splitChild .insertSplit node i =
        (b', ⟨.internal (node.insertSplit i (.ofSplit (halfSep (c i)) b.fresh (b.fresh + 1))),
          false⟩) ∧
      b'.Layout (node.insertSplit i (.ofSplit (halfSep (c i)) b.fresh (b.fresh + 1)))
        (splice c i (leftHalf (c i)) (rightHalf (c i))) := by
  have hchild := h.child i hi
  obtain ⟨b', hsplit, hleaves⟩ := hchild.split_ok hfull
  have hhalves := halves_of_full hchild.sorted hfull
  refine ⟨b', by simp only [splitChild, hsplit], ?_⟩
  have hptr := fun {j : ℕ} (hj : j ≤ node.count + 1) =>
    insertSplit_ptr_ofSplit node hi (halfSep (c i)) b.fresh (b.fresh + 1) hj
  have hkey := fun {j : ℕ} (hj : j < node.count + 1) =>
    insertSplit_key_ofSplit node hi (halfSep (c i)) b.fresh (b.fresh + 1) hj
  have hcases := splice_cases c (leftHalf (c i)) (rightHalf (c i)) i
  have hleft : ∀ p ∈ leftHalf (c i), p ∈ c i := fun p hp => by
    rw [← hhalves.append]
    exact List.mem_append_left _ hp
  have hright : ∀ p ∈ rightHalf (c i), p ∈ c i := fun p hp => by
    rw [← hhalves.append]
    exact List.mem_append_right _ hp
  obtain ⟨pl, hpl⟩ := List.exists_mem_of_ne_nil _ hhalves.left_pos
  obtain ⟨pr, hpr, hprlt⟩ := hhalves.sep_lt
  -- the new separator lies strictly between its neighbours
  have hbefore : ∀ j < i, node.key j < halfSep (c i) := by
    intro j hj
    obtain ⟨m, rfl⟩ : ∃ m, i = m + 1 := ⟨i - 1, by omega⟩
    have hm : node.key m < halfSep (c (m + 1)) :=
      lt_of_le_of_lt (h.lower m (by omega) pl (hleft pl hpl)) (hhalves.left_lt_sep pl hpl)
    rcases Nat.lt_or_eq_of_le (Nat.le_of_lt_succ hj) with hjm | rfl
    · exact (h.sep j m hjm (by omega)).trans hm
    · exact hm
  have hafter : ∀ j, i ≤ j → j < node.count → halfSep (c i) < node.key j := by
    intro j hij hj
    have hm : halfSep (c i) < node.key i :=
      lt_of_lt_of_le hprlt (h.upper i (by omega) pr (hright pr hpr))
    rcases Nat.lt_or_eq_of_le hij with hlt | rfl
    · exact hm.trans (h.sep i j hlt hj)
    · exact hm
  refine ⟨Nat.succ_pos _, hroom, ?_, ?_, ?_, ?_, ?_, ?_, ?_⟩
  · intro j hj
    have hj : j ≤ node.count + 1 := hj
    rw [hptr hj]
    rcases splice_cases node.ptr b.fresh (b.fresh + 1) i j with
      ⟨hlt, hp⟩ | ⟨rfl, hp⟩ | ⟨rfl, hp⟩ | ⟨hgt, hp⟩ <;> rw [hp]
    · rw [splice_of_lt _ _ _ hlt]
      exact hleaves.keep (fun heq => absurd (h.inj j (by omega) i hi heq) hlt.ne)
        (h.child j (by omega))
    · rw [splice_self]
      exact hleaves.left
    · rw [splice_succ]
      exact hleaves.right
    · rw [splice_of_gt _ _ _ hgt]
      exact hleaves.keep (fun heq => absurd (h.inj (j - 1) (by omega) i hi heq) (by omega))
        (h.child (j - 1) (by omega))
  · intro j hj
    have hj : j ≤ node.count + 1 := hj
    rcases hcases j with ⟨hlt, hc⟩ | ⟨rfl, hc⟩ | ⟨rfl, hc⟩ | ⟨hgt, hc⟩ <;> rw [hc]
    · exact h.nonempty j (by omega)
    · exact hhalves.left_pos
    · exact List.ne_nil_of_mem hpr
    · exact h.nonempty (j - 1) (by omega)
  · intro j hj m hm heq
    rw [hptr hj, hptr hm] at heq
    exact splice_inj h.inj (fun x hx => (h.child x hx).live) (Nat.lt_succ_self _) hi hj hm heq
  · intro j m hjm hm
    have hm : m < node.count + 1 := hm
    rw [hkey hm, hkey (by omega)]
    rcases lt_trichotomy m i with hmi | hmi | hmi
    · rw [if_pos (by omega), if_pos hmi]
      exact h.sep j m hjm (by omega)
    · rw [if_pos (by omega), if_neg (by omega), if_pos hmi]
      exact hbefore j (by omega)
    · rw [if_neg (show ¬ m < i by omega), if_neg (show ¬ m = i by omega)]
      rcases lt_trichotomy j i with hji | hji | hji
      · rw [if_pos hji]
        exact h.sep j (m - 1) (by omega) (by omega)
      · rw [if_neg (by omega), if_pos hji]
        exact hafter (m - 1) (by omega) (by omega)
      · rw [if_neg (by omega), if_neg (by omega)]
        exact h.sep (j - 1) (m - 1) (by omega) (by omega)
  · intro j hj p hp
    have hj : j < node.count + 1 := hj
    rw [hkey hj]
    rcases hcases (j + 1) with ⟨hlt, hc⟩ | ⟨heq, hc⟩ | ⟨heq, hc⟩ | ⟨hgt, hc⟩ <;> rw [hc] at hp
    · rw [if_pos (by omega)]
      exact h.lower j (by omega) p hp
    · rw [if_pos (by omega)]
      exact h.lower j (by omega) p (heq ▸ hleft p hp)
    · rw [if_neg (by omega), if_pos (by omega)]
      exact hhalves.sep_le_right p hp
    · rw [if_neg (by omega), if_neg (by omega)]
      refine h.lower (j - 1) (by omega) p ?_
      rwa [show j - 1 + 1 = j + 1 - 1 by omega]
  · intro j hj p hp
    have hj : j < node.count + 1 := hj
    rw [hkey hj]
    rcases hcases j with ⟨hlt, hc⟩ | ⟨heq, hc⟩ | ⟨heq, hc⟩ | ⟨hgt, hc⟩ <;> rw [hc] at hp
    · rw [if_pos hlt]
      exact h.upper j (by omega) p hp
    · rw [if_neg (by omega), if_pos heq]
      exact (hhalves.left_lt_sep p hp).le
    · rw [if_neg (by omega), if_neg (by omega)]
      subst heq
      exact h.upper i (by omega) p (hright p hp)
    · rw [if_neg (by omega), if_neg (by omega)]
      exact h.upper (j - 1) (by omega) p hp
  · intro j hj
    have hj : j < node.count + 1 := hj
    rw [hkey hj]
    rcases hcases (j + 1) with ⟨hlt, hc⟩ | ⟨heq, hc⟩ | ⟨heq, hc⟩ | ⟨hgt, hc⟩ <;> rw [hc]
    · rw [if_pos (by omega)]
      exact h.sep_mem j (by omega)
    · -- the separator before the split child is its first key, which stays in the left half
      rw [if_pos (by omega)]
      obtain ⟨v, hv⟩ := h.sep_mem j (by omega)
      rw [heq, ← hhalves.append] at hv
      rcases List.mem_append.mp hv with hl | hr
      · exact ⟨v, hl⟩
      · exact absurd (hhalves.sep_le_right _ hr) (not_le.mpr (hbefore j (by omega)))
    · rw [if_neg (by omega), if_pos (by omega)]
      exact hhalves.sep_mem
    · rw [if_neg (by omega), if_neg (by omega)]
      have hmem := h.sep_mem (j - 1) (by omega)
      rwa [show j - 1 + 1 = j + 1 - 1 by omega] at hmem

omit [BoundedOrder K] in
/-- After the split of the child a key is routed to, the key is routed to one of the halves. -/
theorem lowerBound_insertSplit (node : InternalNode K) (k sep : K) (p q : ℕ) {i : ℕ}
    (hi : lowerBound node.key k node.count = i) :
    lowerBound (node.insertSplit i (.ofSplit sep p q)).key k (node.count + 1) =
      if k ≤ sep then i else i + 1 := by
  have hle := lowerBound_le node.key k node.count
  have hkey := fun {j : ℕ} (hj : j < node.count + 1) =>
    insertSplit_key_ofSplit node (hi ▸ hle) sep p q hj
  rw [hi] at hle
  have hbefore : ∀ j < i, node.key j < k := fun j hj =>
    lt_of_lt_lowerBound (n := node.count) (by omega)
  split
  · next hk =>
    -- the key goes to the left half, whose separator is the new one
    -- the key goes to the right half, whose separator was that of the child
    refine lowerBound_eq (by omega) (fun j hj => ?_) fun hlt => ?_
    · rw [hkey (by omega), if_pos hj]
      exact hbefore j hj
    · rw [hkey hlt, if_neg (lt_irrefl _), if_pos rfl]
      exact hk
  · next hk =>
    refine lowerBound_eq (by omega) (fun j hj => ?_) fun hlt => ?_
    · rw [hkey (by omega)]
      rcases Nat.lt_succ_iff_lt_or_eq.mp hj with hj | rfl
      · rw [if_pos hj]
        exact hbefore j hj
      · rw [if_neg (lt_irrefl _), if_pos rfl]
        exact not_le.mp hk
    · rw [hkey hlt, if_neg (by omega), if_neg (by omega), Nat.add_sub_cancel]
      have hat := le_key_lowerBound (a := node.key) (k := k) (n := node.count) (by omega)
      rwa [hi] at hat

omit [BoundedOrder K] in
/-- A key routed to a split child is routed to a half, which has room. -/
theorem splice_half_lt (key : K) (hs : Sorted l) (hfull : l.length = 32) (sep : K) (i : ℕ) :
    (splice c i (leftHalf l) (rightHalf l) (if key ≤ sep then i else i + 1)).length < 32 := by
  have hhalves := halves_of_full hs hfull
  split
  · rw [splice_self]
    exact hhalves.left_lt
  · rw [splice_succ]
    exact hhalves.right_lt

/-! ### The rounds of `insert` -/

omit [BoundedOrder K] [Zero K] in
/-- The counter says whether a leaf has room. -/
theorem LeafHolds.count_lt_iff (h : b.LeafHolds id l) :
    (b.leaf id).count < childMax ↔ l.length < 32 := by
  rw [h.leaf]
  show (l.length : ℤ) < 32 ↔ _
  omega

omit [BoundedOrder K] [Zero K] in
/-- The leaves do not depend on the root. -/
theorem Layout.setRoot (h : b.Layout node c) (r : RootWord K) :
    ({ b with root := r } : SeqBin K).Layout node c where
  count_pos := h.count_pos
  count_le := h.count_le
  child i hi :=
    have hc := h.child i hi
    ⟨hc.live, hc.leaf, hc.sorted, hc.length_le⟩
  nonempty := h.nonempty
  inj := h.inj
  sep := h.sep
  lower := h.lower
  upper := h.upper
  sep_mem := h.sep_mem

/-- A round on a leaf root with room. -/
theorem insertLoop_leaf (hroot : b.root = ⟨.leaf id, false⟩) (h : b.LeafHolds id l)
    (hlt : l.length < 32) (hkey : key < ⊤) (hv : value ≠ -1) (n : ℕ) :
    b.insertLoop key value (n + 1) = some (b.setLeaf id (inserted key value l), true) := by
  rw [insertLoop, hroot]
  simp [h.insertLeaf_eq hlt hkey hv]

/-- A round on an internal root whose child has room. -/
theorem insertLoop_internal (hroot : b.root = ⟨.internal node, false⟩) (h : b.Layout node c)
    (hlt : (c (lowerBound node.key key node.count)).length < 32) (hkey : key < ⊤) (hv : value ≠ -1)
    (n : ℕ) :
    b.insertLoop key value (n + 1) =
      some (b.setLeaf (node.ptr (lowerBound node.key key node.count))
        (inserted key value (c (lowerBound node.key key node.count))), true) := by
  rw [insertLoop, hroot]
  simp [h.insertInternal_eq hkey hv hlt]

/-- A round on a full leaf root replaces it. -/
theorem insertLoop_leaf_full (key : K) (value : Val) (hroot : b.root = ⟨.leaf id, false⟩)
    (h : b.LeafHolds id l)
    (hfull : l.length = 32) (n : ℕ) :
    ∃ (b' : SeqBin K) (node' : InternalNode K),
      b.insertLoop key value (n + 1) = b'.insertLoop key value n ∧
      b'.root = ⟨.internal node', false⟩ ∧ node'.count = 1 ∧ node'.key 0 = halfSep l ∧
      b'.Layout node' (splice (fun _ => l) 0 (leftHalf l) (rightHalf l)) := by
  obtain ⟨b', hsplit, hlay⟩ := h.splitLeaf_ok hfull
  refine ⟨{ b' with root := ⟨.internal (.ofSplit (halfSep l) b.fresh (b.fresh + 1)), false⟩ },
    _, ?_, rfl, rfl, rfl, hlay.setRoot _⟩
  rw [insertLoop, hroot]
  simp [insertLeaf, h.count_lt_iff, hfull, hsplit]

/-- A round on an internal root with room whose child is full replaces it. -/
theorem insertLoop_internal_full (value : Val) (hroot : b.root = ⟨.internal node, false⟩)
    (h : b.Layout node c)
    (hroom : node.count < rootMax) {i : ℕ} (hi : lowerBound node.key key node.count = i)
    (hfull : (c i).length = 32) (n : ℕ) :
    ∃ b' : SeqBin K, b.insertLoop key value (n + 1) = b'.insertLoop key value n ∧
      b'.root = ⟨.internal (node.insertSplit i
        (.ofSplit (halfSep (c i)) b.fresh (b.fresh + 1))), false⟩ ∧
      b'.Layout (node.insertSplit i (.ofSplit (halfSep (c i)) b.fresh (b.fresh + 1)))
        (splice c i (leftHalf (c i)) (rightHalf (c i))) := by
  have hle : i ≤ node.count := hi ▸ lowerBound_le node.key key node.count
  obtain ⟨b', hsplit, hlay⟩ := h.splitChild_ok hroom hle hfull
  refine ⟨{ b' with root := ⟨.internal (node.insertSplit i
    (.ofSplit (halfSep (c i)) b.fresh (b.fresh + 1))), false⟩ }, ?_, rfl, hlay.setRoot _⟩
  rw [insertLoop, hroot]
  simp [insertInternal, hi, (h.child i hle).count_lt_iff, hfull, hroom, hsplit]

/-- A full internal root whose child is full is sealed, and the call fails. -/
theorem insertLoop_seal (hroot : b.root = ⟨.internal node, false⟩) (h : b.Layout node c)
    (hfullRoot : node.count = rootMax)
    (hfull : (c (lowerBound node.key key node.count)).length = 32) (n : ℕ) :
    b.insertLoop key value (n + 2) = some ({ b with root := ⟨.internal node, true⟩ }, false) := by
  have hcount := mt (h.child _ (lowerBound_le node.key key node.count)).count_lt_iff.mp
    hfull.not_lt
  have hseal : b.insertInternal node key value = (b, some ⟨.internal node, true⟩) := by
    rw [insertInternal]
    simp only [if_neg hcount, if_neg (show ¬ node.count < rootMax by omega)]
  rw [insertLoop, hroot]
  simp [hseal, insertLoop]

end SeqBin

end KanvaImpl
