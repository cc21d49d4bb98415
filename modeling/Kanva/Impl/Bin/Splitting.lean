import Kanva.Impl.Bin.Checked

/-!
# The split of a child

`insert_internal` splits a child that is full or frozen. The arrays of the new node are written by
two loops around three single writes, and the lists of the two new leaves by the loops of
`split_root`. The child is taken with whatever freeze bits it has; its list is only assumed to have
no marked node.

## Main results

* `SeqBin.splitChild_ok`: the new node and the new leaves.
* `SeqBin.insertInternal_split`: what `insert_internal` makes of a child that is full or frozen.
-/

namespace KanvaImpl

open Kanva SortedArray SortedAssoc

section Arrays

variable {α : Type*} {f g : ℕ → α} {i n : ℕ}

/-- The entries of an array into which one is inserted. -/
theorem map_range_insertIdx {x : α} (hi : i ≤ n)
    (hg : ∀ j < n + 1, g j = if j < i then f j else if j = i then x else f (j - 1)) :
    (List.range (n + 1)).map g = ((List.range n).map f).insertIdx i x := by
  refine List.ext_getElem? fun j => ?_
  rw [List.getElem?_insertIdx, List.getElem?_map, List.length_map, List.length_range]
  rcases Nat.lt_or_ge j (n + 1) with hj | hj
  · rw [List.getElem?_range hj, Option.map_some, hg j hj]
    rcases lt_trichotomy j i with hlt | rfl | hgt
    · rw [if_pos hlt, if_pos hlt, List.getElem?_map, List.getElem?_range (by omega)]
      rfl
    · simp [hi]
    · rw [if_neg hgt.not_gt, if_neg hgt.ne', if_neg hgt.not_gt, if_neg hgt.ne', List.getElem?_map,
        List.getElem?_range (by omega)]
      rfl
  · rw [List.getElem?_eq_none (by simpa using hj), if_neg (by omega), if_neg (by omega),
      List.getElem?_eq_none (by simp; omega)]
    rfl

/-- The entries of an array in which two replace one. -/
theorem map_range_splice {a b : α} (hi : i ≤ n) :
    (List.range (n + 2)).map (splice f i a b) =
      ((List.range (n + 1)).map f).take i ++ [a, b] ++
        ((List.range (n + 1)).map f).drop (i + 1) := by
  have hbefore : (List.range' 0 i).map (splice f i a b) = (List.range' 0 i).map f :=
    List.map_congr_left fun j hj => splice_of_lt f a b (by have := List.mem_range'_1.mp hj; omega)
  have hafter : (List.range' (i + 2) (n - i)).map (splice f i a b) =
      (List.range' (i + 1) (n - i)).map f := by
    rw [List.range'_succ_left, List.map_map]
    refine List.map_congr_left fun j hj => ?_
    have hj := List.mem_range'_1.mp hj
    exact splice_of_gt f a b (j := j + 1) (by omega)
  have hsplit : List.range (n + 2) = List.range' 0 i ++ [i, i + 1] ++
      List.range' (i + 2) (n - i) := by
    rw [List.range_eq_range', show n + 2 = i + (2 + (n - i)) by omega, ← List.range'_append_1,
      ← List.range'_append_1, Nat.zero_add, List.append_assoc]
    rfl
  have hdrop : (List.range (n + 1)).drop (i + 1) = List.range' (i + 1) (n - i) := by
    rw [List.range_eq_range', List.drop_range']
    congr 1 <;> omega
  rw [hsplit, List.map_append, List.map_append, hbefore, hafter, ← List.map_take, ← List.map_drop,
    hdrop, List.take_range, List.range_eq_range', show min i (n + 1) = i by omega]
  simp

end Arrays

namespace InternalNode

variable {K : Type}

/-- The separators of a node. -/
def separators (n : InternalNode K) : List K := (List.range n.count).map n.key

/-- The leaves of a node. -/
def children (n : InternalNode K) : List ℕ := (List.range (n.count + 1)).map n.ptr

variable [Zero K] {current : InternalNode K} {ptrIdx : ℕ}

/-- The separators after the split of the child at `ptrIdx`. -/
theorem separators_insertSplit (split : InternalNode K) (hi : ptrIdx ≤ current.count) :
    (current.insertSplit ptrIdx split).separators =
      current.separators.insertIdx ptrIdx (split.key 0) :=
  map_range_insertIdx hi fun _ hj => current.insertSplit_key split hi hj

/-- The leaves after the split of the child at `ptrIdx`. -/
theorem children_insertSplit (split : InternalNode K) (hi : ptrIdx ≤ current.count) :
    (current.insertSplit ptrIdx split).children =
      current.children.take ptrIdx ++ [split.ptr 0, split.ptr 1] ++
        current.children.drop (ptrIdx + 1) := by
  rw [children, children, ← map_range_splice hi]
  exact List.map_congr_left fun j hj =>
    current.insertSplit_ptr split hi (Nat.lt_succ_iff.mp (List.mem_range.mp hj))

end InternalNode

namespace SeqBin

variable {K : Type} [LinearOrder K] [BoundedOrder K] [Zero K] {b : SeqBin K}
  {current : InternalNode K} {key : K}

/-- The contents of the leaves of a node. -/
def contents (b : SeqBin K) (node : InternalNode K) : List (List (K × Val)) :=
  node.children.map fun id => (b.leaf id).list.pairs

/-- The node `new` replaces `current`: the child at `i` has given way to two leaves with the pairs
`left` and `p :: right`. -/
structure ChildSplit (b b' : SeqBin K) (current new : InternalNode K) (i : ℕ)
    (left : List (K × Val)) (p : K × Val) (right : List (K × Val)) : Prop where
  count : new.count = current.count + 1
  child : (b.contents current)[i]? = some (left ++ p :: right)
  balanced : left.length = (left ++ p :: right).length / 2
  separators : new.separators = current.separators.insertIdx i p.1
  children : new.children = current.children.take i ++ [b.fresh, b.fresh + 1] ++
    current.children.drop (i + 1)
  contents : b'.contents new = (b.contents current).take i ++ [left, p :: right] ++
    (b.contents current).drop (i + 1)
  left_leaf : b'.leaf b.fresh = ⟨left.length, SeqList.ofPairs left⟩
  right_leaf : b'.leaf (b.fresh + 1) = ⟨(p :: right).length, SeqList.ofPairs (p :: right)⟩
  keep : ∀ id < b.fresh, id ≠ current.ptr i → b'.leaf id = b.leaf id

variable {b' : SeqBin K} {new : InternalNode K} {i : ℕ} {left right : List (K × Val)} {p : K × Val}

omit [LinearOrder K] [BoundedOrder K] [Zero K] in
/-- A split loses no pair and keeps their order. -/
theorem ChildSplit.flatten (h : b.ChildSplit b' current new i left p right) :
    (b'.contents new).flatten = (b.contents current).flatten := by
  obtain ⟨hlt, hget⟩ := List.getElem?_eq_some_iff.mp h.child
  have hsplit : (b.contents current).take i ++ (left ++ p :: right) ::
      (b.contents current).drop (i + 1) = b.contents current := by
    rw [← hget, ← List.drop_eq_getElem_cons hlt, List.take_append_drop]
  have hflat := congrArg List.flatten hsplit
  rw [h.contents, ← hflat]
  simp

omit [LinearOrder K] [BoundedOrder K] in
/-- The halves of a list that is not empty. -/
theorem halves_of_ne_nil {l : List (K × Val)} (h : l ≠ []) :
    ∃ p right, rightHalf l = p :: right ∧ halfSep l = p.1 ∧ leftHalf l ++ p :: right = l := by
  have hpos := List.length_pos_iff.mpr h
  have hlt : l.length / 2 < l.length := by omega
  have hdrop := List.drop_eq_getElem_cons hlt
  refine ⟨_, _, hdrop, getD_map_of_lt Prod.fst hlt, ?_⟩
  rw [← hdrop]
  exact List.take_append_drop _ l

omit [Zero K] in
/-- `collect` keeps the pairs of every leaf. -/
theorem collectLeaf_pairs (b : SeqBin K) (id id' : ℕ) :
    ((b.collectLeaf id).1.leaf id').list.pairs = (b.leaf id').list.pairs := by
  by_cases h : id' = id
  · subst h
    simp [collectLeaf, SeqBin.setLeaf]
  · simp only [collectLeaf, SeqBin.setLeaf]
    rw [Function.update_of_ne h]

omit [Zero K] in
/-- `collect` keeps the other leaves. -/
theorem collectLeaf_of_ne {id id' : ℕ} (h : id' ≠ id) :
    (b.collectLeaf id).1.leaf id' = b.leaf id' :=
  Function.update_of_ne h _ _

/-- The split of a child without marked nodes that holds a key. -/
theorem splitChild_ok (hlive : ∀ j ≤ current.count, current.ptr j < b.fresh)
    (hi : i ≤ current.count) (hclean : (b.leaf (current.ptr i)).list.Clean)
    (hne : (b.leaf (current.ptr i)).list.pairs ≠ []) :
    ∃ b' new left p right,
      b.splitChild .insertSplit current i = (b', ⟨.internal new, false⟩) ∧
        b.ChildSplit b' current new i left p right := by
  obtain ⟨p, right, hright, hsep, happend⟩ := halves_of_ne_nil hne
  have hcollect : (b.collectLeaf (current.ptr i)).2 = (b.leaf (current.ptr i)).list.pairs :=
    SeqList.collect_eq_pairs hclean
  generalize hl : (b.leaf (current.ptr i)).list.pairs = l at *
  obtain ⟨hleftLeaf, hrightLeaf, hkeep⟩ := splitRoot_leaf (b.collectLeaf (current.ptr i)).1 l
  have hcount := Nat.lt_succ_iff.mpr hi
  have hchildren := InternalNode.children_insertSplit
    (.ofSplit (halfSep l) b.fresh (b.fresh + 1)) hi
  -- neither the collection nor the split changes the pairs of a child
  have hpairs : ∀ id ∈ current.children,
      ((((b.collectLeaf (current.ptr i)).1.splitRoot l).1).leaf id).list.pairs =
        (b.leaf id).list.pairs := by
    intro id hid
    obtain ⟨j, hj, rfl⟩ := List.mem_map.mp hid
    rw [hkeep _ (hlive j (Nat.lt_succ_iff.mp (List.mem_range.mp hj))), collectLeaf_pairs]
  refine ⟨((b.collectLeaf (current.ptr i)).1.splitRoot l).1,
    current.insertSplit i (.ofSplit (halfSep l) b.fresh (b.fresh + 1)), leftHalf l, p, right, ?_,
    rfl, ?_, ?_, ?_, hchildren, ?_, hleftLeaf, ?_, ?_⟩
  · -- what `split_child` returns
    rw [splitChild]
    simp only [hcollect]
    rfl
  · rw [contents, InternalNode.children, List.map_map, List.getElem?_map,
      List.getElem?_range hcount, happend, ← hl]
    rfl
  · rw [happend, leftHalf, List.length_take]
    omega
  · rw [← hsep]
    exact InternalNode.separators_insertSplit _ hi
  · -- the halves stand where the child has stood
    rw [contents, hchildren, contents, List.map_append, List.map_append, ← List.map_take,
      ← List.map_drop, List.map_congr_left fun id hid => hpairs id (List.mem_of_mem_take hid),
      List.map_congr_left fun id hid => hpairs id (List.mem_of_mem_drop hid)]
    have hfirst := congrArg (fun leaf => leaf.list.pairs) hleftLeaf
    have hsecond := congrArg (fun leaf => leaf.list.pairs) hrightLeaf
    simp only [SeqList.pairs_ofPairs, hright] at hfirst hsecond
    rw [List.map_cons, List.map_cons, List.map_nil, ← hfirst, ← hsecond]
    rfl
  · rw [← hright]
    exact hrightLeaf
  · intro id hid hne
    rw [hkeep id hid, collectLeaf_of_ne hne]

/-- A split on the insert path: the node gets one separator and one child more, and its children
hold what they held. -/
theorem insertInternal_split (hroom : current.count < rootMax)
    (hsize : current.count ≤ current.keySize)
    (hlive : ∀ j ≤ current.count, current.ptr j < b.fresh)
    (hi : lowerBound current.key key current.count = i)
    (hclean : (b.leaf (current.ptr i)).list.Clean)
    (hne : (b.leaf (current.ptr i)).list.pairs ≠ [])
    (hfull : childMax ≤ (b.leaf (current.ptr i)).count ∨
      (b.leaf (current.ptr i)).list.FrozenFor key) (value : Val) :
    ∃ b' new left p right,
      b.insertInternal current key value = (b', some ⟨.internal new, false⟩) ∧
      b.insertInternal? current key value = some (b', some ⟨.internal new, false⟩) ∧
      b.ChildSplit b' current new i left p right ∧
      (b'.contents new).flatten = (b.contents current).flatten := by
  have hle : i ≤ current.count := hi ▸ lowerBound_le current.key key current.count
  obtain ⟨b', new, left, p, right, hsplit, hchild⟩ := splitChild_ok hlive hle hclean hne
  have hrejects := hfull.imp_right fun h => h.rejects hclean
  rw [← SeqList.collect_eq_pairs hclean] at hne
  refine ⟨b', new, left, p, right, ?_, ?_, hchild, hchild.flatten⟩
  · rw [insertInternal_of_full hroom hi hrejects, hsplit]
  · rw [insertInternal?_of_full hroom hsize hi hne hrejects, hsplit]

/-- A bin with two leaves, the first of which a `collect` has frozen. -/
def halfFrozen : SeqBin (Fin 64) where
  root := ⟨.internal (.ofSplit 10 1 2), false⟩
  fresh := 3
  leaf id := if id = 1 then ⟨2, (SeqList.ofPairs [(3, 30), (7, 70)]).collect.1⟩
    else ⟨1, SeqList.ofPairs [(10, 100)]⟩

theorem insertInternal_split_halfFrozen : ∃ b' new left p right,
    halfFrozen.insertInternal (.ofSplit 10 1 2) 5 50 = (b', some ⟨.internal new, false⟩) ∧
    halfFrozen.insertInternal? (.ofSplit 10 1 2) 5 50 = some (b', some ⟨.internal new, false⟩) ∧
    halfFrozen.ChildSplit b' (.ofSplit 10 1 2) new 0 left p right ∧
    (b'.contents new).flatten = (halfFrozen.contents (.ofSplit 10 1 2)).flatten :=
  insertInternal_split (by decide) (by decide) (by decide) (by decide) (by decide) (by decide)
    (.inr (by decide)) 50

end SeqBin

end KanvaImpl
