import Kanva.Impl.Bin.Splitting

/-!
# The split of the remove path

A remover that meets a frozen child helps: it splits the child, as an inserter would. The loops of
`remove_internal` are a copy of those of `insert_internal` with two differences. They append the
separators before the child to a vector that already has `root_max` zeros, so that the zeros are the
separators of the new node; and they shift the children after the split one by one position too far,
so that the old child is kept and the last child is lost.

## Main results

* `InternalNode.removeSplit_key` and `InternalNode.removeSplit_ptr`: the arrays `remove_internal`
  builds.
* `SeqBin.removeInternal_agrees_iff`: when the two splits agree.
* `SeqBin.not_agrees_of_increasing`: they never do in a node whose separators increase.
-/

namespace KanvaImpl

open Kanva SortedArray SortedAssoc

namespace InternalNode

variable {K : Type}

/-- The entries of the arrays after the first loop of `remove_internal`. -/
theorem foldl_push (g : ℕ → K) (p : ℕ → ℕ) (n : InternalNode K) (len : ℕ) :
    ((List.range len).foldl (fun n i => (n.pushKey (g i)).setPtr i (p i)) n).keySize =
        n.keySize + len ∧
      (∀ j < n.keySize,
        ((List.range len).foldl (fun n i => (n.pushKey (g i)).setPtr i (p i)) n).key j = n.key j) ∧
      ∀ j, ((List.range len).foldl (fun n i => (n.pushKey (g i)).setPtr i (p i)) n).ptr j =
        if j < len then p j else n.ptr j := by
  induction len with
  | zero => exact ⟨rfl, fun _ _ => rfl, fun _ => rfl⟩
  | succ len ih =>
    rw [List.range_succ, List.foldl_append]
    obtain ⟨hsize, hkey, hptr⟩ := ih
    generalize (List.range len).foldl (fun n i => (n.pushKey (g i)).setPtr i (p i)) n = m at *
    refine ⟨congrArg Nat.succ hsize, fun j hj => ?_, fun j => ?_⟩
    · rw [List.foldl_cons, List.foldl_nil, key_setPtr, key_pushKey, if_neg (by omega), hkey j hj]
    · rw [List.foldl_cons, List.foldl_nil, ptr_setPtr, ptr_pushKey, hptr j]
      by_cases hj : j = len
      · rw [if_pos hj, if_pos (by omega), hj]
      · have hiff : j < len ↔ j < len + 1 := by omega
        simp only [if_neg hj, hiff]

variable [Zero K] (current split : InternalNode K) {ptrIdx : ℕ}

/-- The separators `remove_internal` writes: zeros up to the new one. -/
theorem removeSplit_key (hroom : current.count < rootMax) {i : ℕ} (hi : i < current.count + 1) :
    (removeSplit current ptrIdx split).key i = if i ≤ ptrIdx then 0 else current.key (i - 1) := by
  obtain ⟨hsize, hkey, -⟩ := foldl_push current.key current.ptr (new : InternalNode K) ptrIdx
  have hnew : (new : InternalNode K).keySize = rootMax := rfl
  simp only [removeSplit]
  rw [(foldl_set (fun i => current.key (i - 1)) (fun i => current.ptr (i - 1)) 1 _ (ptrIdx + 1) _
    i).1]
  by_cases hle : i ≤ ptrIdx
  · rw [if_neg (by omega), if_pos hle, key_setPtr, key_setPtr, key_pushKey, if_neg (by omega),
      hkey i (by omega)]
    rfl
  · rw [if_pos (by omega), if_neg hle]

/-- The leaves `remove_internal` writes: those after the split one are shifted by two. -/
theorem removeSplit_ptr (hle : ptrIdx ≤ current.count) {i : ℕ} (hi : i ≤ current.count + 1) :
    (removeSplit current ptrIdx split).ptr i =
      if i < ptrIdx then current.ptr i else if i = ptrIdx then split.ptr 0
      else if i = ptrIdx + 1 then split.ptr 1 else current.ptr (i - 2) := by
  obtain ⟨-, -, hptr⟩ := foldl_push current.key current.ptr (new : InternalNode K) ptrIdx
  simp only [removeSplit]
  rw [(foldl_set (fun i => current.key (i - 1)) (fun i => current.ptr (i - 1)) 1 _ (ptrIdx + 1) _
    i).2]
  simp only [ptr_setPtr, ptr_pushKey, hptr i]
  rcases lt_trichotomy i ptrIdx with hlt | rfl | hgt
  · rw [if_neg (by omega), if_neg (by omega), if_neg hlt.ne, if_pos hlt, if_pos hlt]
  · rw [if_neg (by omega), if_neg (by omega), if_pos rfl, if_neg (lt_irrefl _), if_pos rfl]
  · rw [if_neg hgt.not_gt, if_neg hgt.ne', if_neg hgt.not_gt, if_neg hgt.ne']
    by_cases hnext : i = ptrIdx + 1
    · rw [if_neg (by omega), if_pos hnext, if_pos hnext]
    · rw [if_pos (by omega), if_neg hnext]
      rfl

@[simp] theorem removeSplit_count (ptrIdx : ℕ) :
    (removeSplit current ptrIdx split).count = current.count + 1 := rfl

/-- The separators of the two copies are the same only if they are zeros up to the new one. -/
theorem removeSplit_separators_iff (hroom : current.count < rootMax)
    (hle : ptrIdx ≤ current.count) :
    (removeSplit current ptrIdx split).separators = (insertSplit current ptrIdx split).separators ↔
      (∀ j < ptrIdx, current.key j = 0) ∧ split.key 0 = 0 := by
  rw [separators, separators, removeSplit_count, insertSplit_count, List.map_inj_left]
  simp only [List.mem_range]
  constructor
  · intro h
    have hentry := fun j (hj : j ≤ ptrIdx) => by
      have hj' : j < current.count + 1 := by omega
      simpa only [removeSplit_key current split hroom hj', insertSplit_key current split hle hj',
        if_pos hj] using h j hj'
    refine ⟨fun j hj => ?_, ?_⟩
    · simpa [hj] using (hentry j hj.le).symm
    · simpa using (hentry ptrIdx le_rfl).symm
  · rintro ⟨hbefore, hsep⟩ j hj
    rw [removeSplit_key current split hroom hj, insertSplit_key current split hle hj]
    rcases lt_trichotomy j ptrIdx with hlt | rfl | hgt
    · rw [if_pos hlt.le, if_pos hlt, hbefore j hlt]
    · rw [if_pos le_rfl, if_neg (lt_irrefl _), if_pos rfl, hsep]
    · rw [if_neg (by omega), if_neg (by omega), if_neg (by omega)]

end InternalNode

namespace SeqBin

variable {K : Type} [LinearOrder K] [BoundedOrder K] [Zero K] {b : SeqBin K}
  {current : InternalNode K} {key key' : K} {i : ℕ}

/-- The nodes stand for the same bin: for the same separators and the same contents. -/
structure Agrees (b : SeqBin K) (new new' : InternalNode K) : Prop where
  count : new'.count = new.count
  separators : new'.separators = new.separators
  contents : b.contents new' = b.contents new

/-- `split_root` keeps the pairs of every old leaf. -/
theorem splitRoot_pairs (b : SeqBin K) (id : ℕ) (l : List (K × Val)) :
    ∀ id' < b.fresh, (((b.collectLeaf id).1.splitRoot l).1.leaf id').list.pairs =
      (b.leaf id').list.pairs := by
  intro id' hid
  obtain ⟨-, -, hkeep⟩ := splitRoot_leaf (b.collectLeaf id).1 l
  rw [hkeep id' hid, collectLeaf_pairs]

/-- A remover that meets a frozen child splits it, if the node has room. -/
theorem removeInternal_of_frozen (hroom : current.count < rootMax)
    (hi : lowerBound current.key key current.count = i)
    (hrejects : (b.leaf (current.ptr i)).list.Rejects key)
    (offEnd : Option (Option (RootWord K))) :
    b.removeInternal offEnd current key = some ((b.splitChild .removeSplit current i).1,
      some (b.splitChild .removeSplit current i).2) := by
  rw [removeInternal]
  simp only [hi, hrejects.remove, if_pos hroom, setLeaf_eq_self]
  rfl

omit [BoundedOrder K] in
/-- The copies of the two paths agree only if the separators are zeros up to the new one and all
children from the split one on hold the same. -/
theorem agrees_iff (hroom : current.count < rootMax)
    (hlive : ∀ j ≤ current.count, current.ptr j < b.fresh) (hi : i ≤ current.count)
    (split : InternalNode K) {b' : SeqBin K}
    (hpairs : ∀ id < b.fresh, (b'.leaf id).list.pairs = (b.leaf id).list.pairs) :
    b'.Agrees (current.insertSplit i split) (current.removeSplit i split) ↔
      (∀ j < i, current.key j = 0) ∧ split.key 0 = 0 ∧
        ∀ j, i < j → j ≤ current.count →
          (b.leaf (current.ptr (j - 1))).list.pairs = (b.leaf (current.ptr j)).list.pairs := by
  have hcontents : b'.contents (current.removeSplit i split) =
      b'.contents (current.insertSplit i split) ↔ ∀ j, i < j → j ≤ current.count →
        (b.leaf (current.ptr (j - 1))).list.pairs = (b.leaf (current.ptr j)).list.pairs := by
    -- a child after the split one, in the two copies
    have hafter : ∀ j, i < j → j ≤ current.count →
        (current.removeSplit i split).ptr (j + 1) = current.ptr (j - 1) ∧
          (current.insertSplit i split).ptr (j + 1) = current.ptr j := by
      intro j hij hj
      rw [current.removeSplit_ptr split hi (Nat.succ_le_succ hj),
        current.insertSplit_ptr split hi (Nat.succ_le_succ hj), if_neg (by omega),
        if_neg (by omega), if_neg (by omega), if_neg (by omega), if_neg (by omega),
        if_neg (by omega)]
      exact ⟨rfl, rfl⟩
    simp only [contents, InternalNode.children, InternalNode.removeSplit_count,
      InternalNode.insertSplit_count, List.map_map, List.map_inj_left, List.mem_range,
      Function.comp_apply]
    constructor
    · intro h j hij hj
      obtain ⟨hremove, hinsert⟩ := hafter j hij hj
      have hentry := h (j + 1) (by omega)
      rw [hremove, hinsert, hpairs _ (hlive _ (by omega)), hpairs _ (hlive _ hj)] at hentry
      exact hentry
    · intro h j hj
      rcases Nat.lt_or_ge (i + 1) j with hij | hji
      · obtain ⟨m, rfl⟩ : ∃ m, j = m + 1 := ⟨j - 1, by omega⟩
        obtain ⟨hremove, hinsert⟩ := hafter m (by omega) (by omega)
        rw [hremove, hinsert, hpairs _ (hlive _ (by omega)), hpairs _ (hlive _ (by omega))]
        exact h m (by omega) (by omega)
      · rw [current.removeSplit_ptr split hi (by omega),
        current.insertSplit_ptr split hi (by omega)]
        split_ifs
        · rfl
        · rfl
        · rfl
        · omega
  constructor
  · intro h
    obtain ⟨hbefore, hsep⟩ :=
      (current.removeSplit_separators_iff split hroom hi).mp h.separators
    exact ⟨hbefore, hsep, hcontents.mp h.contents⟩
  · rintro ⟨hbefore, hsep, hafter⟩
    exact ⟨rfl, (current.removeSplit_separators_iff split hroom hi).mpr ⟨hbefore, hsep⟩,
      hcontents.mpr hafter⟩

omit [BoundedOrder K] in
/-- In a node whose separators increase and whose neighbouring children differ, the copies of the
two paths never agree. -/
theorem not_agrees_of_increasing (hroom : current.count < rootMax) (hpos : 0 < current.count)
    (hlive : ∀ j ≤ current.count, current.ptr j < b.fresh) (hi : i ≤ current.count)
    (split : InternalNode K) {b' : SeqBin K}
    (hpairs : ∀ id < b.fresh, (b'.leaf id).list.pairs = (b.leaf id).list.pairs)
    (hsep : ∀ j < i, current.key j < split.key 0)
    (hdiff : ∀ j, i < j → j ≤ current.count →
      (b.leaf (current.ptr (j - 1))).list.pairs ≠ (b.leaf (current.ptr j)).list.pairs) :
    ¬ b'.Agrees (current.insertSplit i split) (current.removeSplit i split) := by
  intro h
  obtain ⟨hbefore, hzero, hafter⟩ := (agrees_iff hroom hlive hi split hpairs).mp h
  rcases Nat.eq_zero_or_pos i with rfl | hipos
  · exact hdiff 1 Nat.one_pos hpos (hafter 1 Nat.one_pos hpos)
  · have hlt := hsep (i - 1) (by omega)
    rw [hbefore (i - 1) (by omega), hzero] at hlt
    exact lt_irrefl _ hlt

/-- When the split of a remover agrees with the split of an inserter. -/
theorem removeInternal_agrees_iff (hroom : current.count < rootMax)
    (hlive : ∀ j ≤ current.count, current.ptr j < b.fresh)
    (hi : lowerBound current.key key current.count = i)
    (hi' : lowerBound current.key key' current.count = i)
    (hfrozen : (b.leaf (current.ptr i)).list.headFreeze = true)
    (hne : (b.leaf (current.ptr i)).list.collect.2 ≠ []) (value : Val)
    (offEnd : Option (Option (RootWord K))) :
    ∃ b' new new' p,
      b.insertInternal current key value = (b', some ⟨.internal new, false⟩) ∧
      b.removeInternal offEnd current key' = some (b', some ⟨.internal new', false⟩) ∧
      (rightHalf (b.leaf (current.ptr i)).list.collect.2).head? = some p ∧
      (b'.Agrees new new' ↔ (∀ j < i, current.key j = 0) ∧ p.1 = 0 ∧
        ∀ j, i < j → j ≤ current.count →
          (b.leaf (current.ptr (j - 1))).list.pairs = (b.leaf (current.ptr j)).list.pairs) := by
  have hle : i ≤ current.count := hi ▸ lowerBound_le current.key key current.count
  obtain ⟨p, right, hright, hsep, -⟩ := halves_of_ne_nil hne
  have hagrees := agrees_iff hroom hlive hle
    ((b.collectLeaf (current.ptr i)).1.splitRoot (b.leaf (current.ptr i)).list.collect.2).2
    (splitRoot_pairs b (current.ptr i) (b.leaf (current.ptr i)).list.collect.2)
  refine ⟨_, _, _, p,
    insertInternal_of_full hroom hi (.inr (SeqList.rejects_of_headFreeze hfrozen key)) value,
    removeInternal_of_frozen hroom hi' (SeqList.rejects_of_headFreeze hfrozen key') offEnd,
    ?_, ?_⟩
  · rw [hright]
    rfl
  · rw [← hsep]
    exact hagrees

theorem removeInternal_agrees_iff_halfFrozen : ∃ b' new new' p,
    halfFrozen.insertInternal (.ofSplit 10 1 2) 5 50 = (b', some ⟨.internal new, false⟩) ∧
    halfFrozen.removeInternal none (.ofSplit 10 1 2) 3 =
      some (b', some ⟨.internal new', false⟩) ∧
    (rightHalf (halfFrozen.leaf 1).list.collect.2).head? = some p ∧
    (b'.Agrees new new' ↔ (∀ j < 0, (InternalNode.ofSplit (10 : Fin 64) 1 2).key j = 0) ∧ p.1 = 0 ∧
      ∀ j, 0 < j → j ≤ 1 →
        (halfFrozen.leaf ((InternalNode.ofSplit (10 : Fin 64) 1 2).ptr (j - 1))).list.pairs =
          (halfFrozen.leaf ((InternalNode.ofSplit (10 : Fin 64) 1 2).ptr j)).list.pairs) :=
  @removeInternal_agrees_iff (Fin 64) _ _ _ halfFrozen (.ofSplit 10 1 2) 5 3 0 (by decide)
    (by decide)
    (by decide) (by decide) (by decide) (by decide) 50 none

/-- A remover of 3 and an inserter of 5 meet the frozen leaf. The remover's node has the separator 0
in place of 7, and its last child holds 3 and 7 in place of 10. -/
theorem not_agrees_halfFrozen : ∃ b' new new',
    halfFrozen.insertInternal (.ofSplit 10 1 2) 5 50 = (b', some ⟨.internal new, false⟩) ∧
    halfFrozen.removeInternal none (.ofSplit 10 1 2) 3 =
      some (b', some ⟨.internal new', false⟩) ∧
    new.separators = [7, 10] ∧ new'.separators = [0, 10] ∧
    b'.contents new = [[(3, 30)], [(7, 70)], [(10, 100)]] ∧
    b'.contents new' = [[(3, 30)], [(7, 70)], [(3, 30), (7, 70)]] ∧ ¬ b'.Agrees new new' := by
  refine ⟨_, _, _, rfl, rfl, by decide, by decide, by decide, by decide, fun h => ?_⟩
  exact absurd h.separators (by decide)

end SeqBin

end KanvaImpl
