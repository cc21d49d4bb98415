import Kanva.Common
import Kanva.Impl.Bin.Contents

/-!
# A bin with its array accesses checked

The functions of `Bin` again, with every access of an array checked against the size of the array:
the vector `key` of an internal node, the `root_max + 1` entries of its `ptr`, and the vectors
`keys` and `vals` that `collect` has filled. A function that leaves its arrays returns nothing.

## Main results

* `InternalNode.insertSplit?_eq`: the loops of `insert_internal` stay within the arrays.
* `SeqBin.splitRoot?_eq`: `split_root` does, unless the collected vectors are empty.
* `SeqBin.insertInternal?_of_full` and `SeqBin.insertInternal?_of_thawed`: `insert_internal` does,
  on a frozen child and on one that is not.
-/

namespace KanvaImpl

open Kanva SortedArray SortedAssoc

namespace InternalNode

variable {K : Type}

/-- A read of `node->key[i]`. -/
def key? (n : InternalNode K) (i : ℕ) : Option K := if i < n.keySize then some (n.key i) else none

/-- A read of `node->ptr[i]`. -/
def ptr? (n : InternalNode K) (i : ℕ) : Option ℕ := if i < rootMax + 1 then some (n.ptr i) else none

/-- `node->key[i] = k` -/
def setKey? (n : InternalNode K) (i : ℕ) (k : K) : Option (InternalNode K) :=
  if i < n.keySize then some (n.setKey i k) else none

/-- `node->ptr[i] = p` -/
def setPtr? (n : InternalNode K) (i : ℕ) (p : ℕ) : Option (InternalNode K) :=
  if i < rootMax + 1 then some (n.setPtr i p) else none

/-- `insertSplit` with every index checked. -/
def insertSplit? [Zero K] (current : InternalNode K) (ptrIdx : ℕ) (split : InternalNode K) :
    Option (InternalNode K) := do
  let prefixed ← (List.range ptrIdx).foldlM (fun n i => do
    let n ← n.setKey? i (← current.key? i)
    n.setPtr? i (← current.ptr? i)) new
  let spliced ← prefixed.setKey? ptrIdx (← split.key? 0)
  let spliced ← spliced.setPtr? ptrIdx (← split.ptr? 0)
  let spliced ← spliced.setPtr? (ptrIdx + 1) (← split.ptr? 1)
  let suffixed ← (List.range' (ptrIdx + 1) (current.count - ptrIdx)).foldlM (fun n i => do
    let n ← n.setKey? i (← current.key? (i - 1))
    n.setPtr? (i + 1) (← current.ptr? i)) spliced
  return { suffixed with count := current.count + 1 }

/-- `removeSplit` with every index checked. -/
def removeSplit? [Zero K] (current : InternalNode K) (ptrIdx : ℕ) (split : InternalNode K) :
    Option (InternalNode K) := do
  let prefixed ← (List.range ptrIdx).foldlM (fun n i => do
    let n := pushKey n (← current.key? i)
    n.setPtr? i (← current.ptr? i)) new
  let spliced := prefixed.pushKey (← split.key? 0)
  let spliced ← spliced.setPtr? ptrIdx (← split.ptr? 0)
  let spliced ← spliced.setPtr? (ptrIdx + 1) (← split.ptr? 1)
  let suffixed ← (List.range' (ptrIdx + 1) (current.count - ptrIdx)).foldlM (fun n i => do
    let n ← n.setKey? i (← current.key? (i - 1))
    n.setPtr? (i + 1) (← current.ptr? (i - 1))) spliced
  return { suffixed with count := current.count + 1 }

/-- `ofSplit` with every index checked. -/
def ofSplit? [Zero K] (sep : K) (left right : ℕ) : Option (InternalNode K) := do
  let n ← new.setKey? 0 sep
  let n ← n.setPtr? 0 left
  let n ← n.setPtr? 1 right
  return { n with count := 1 }

/-- The position `lower_bound` returns for a range that must lie in the vector. -/
def ptrIdx? [LinearOrder K] (n : InternalNode K) (key : K) : Option ℕ :=
  if n.count ≤ n.keySize then some (lowerBound n.key key n.count) else none

section Accesses

variable {n : InternalNode K} {i p : ℕ} {k : K}

theorem key?_eq (h : i < n.keySize) : n.key? i = some (n.key i) := if_pos h

theorem ptr?_eq (h : i < rootMax + 1) : n.ptr? i = some (n.ptr i) := if_pos h

theorem setKey?_eq (h : i < n.keySize) : n.setKey? i k = some (n.setKey i k) := if_pos h

theorem setPtr?_eq (h : i < rootMax + 1) : n.setPtr? i p = some (n.setPtr i p) := if_pos h

end Accesses

/-- A loop that reads and writes within the arrays. -/
theorem foldlM_set {g? : ℕ → Option K} {p? : ℕ → Option ℕ} {g : ℕ → K} {p : ℕ → ℕ}
    (a len shift : ℕ) (n : InternalNode K)
    (hread : ∀ i, a ≤ i → i < a + len → g? i = some (g i) ∧ p? i = some (p i))
    (hkey : a + len ≤ n.keySize) (hptr : a + len + shift ≤ rootMax + 1) :
    (List.range' a len).foldlM (fun n i => do
        let n ← n.setKey? i (← g? i)
        n.setPtr? (i + shift) (← p? i)) n =
      some ((List.range' a len).foldl (fun n i => (n.setKey i (g i)).setPtr (i + shift) (p i)) n) ∧
    ((List.range' a len).foldl
      (fun n i => (n.setKey i (g i)).setPtr (i + shift) (p i)) n).keySize = n.keySize := by
  refine foldlM_eq_some (fun m : InternalNode K => m.keySize = n.keySize)
    (fun m i hmem hm => ?_) rfl
  obtain ⟨hge, hlt⟩ := List.mem_range'_1.mp hmem
  obtain ⟨hg, hp⟩ := hread i hge hlt
  have hkey' : i < m.keySize := by omega
  have hptr' : i + shift < rootMax + 1 := by omega
  refine ⟨?_, hm⟩
  simp [hg, hp, setKey?_eq hkey', setPtr?_eq hptr']

variable [Zero K] {current split : InternalNode K} {ptrIdx : ℕ}

omit current split ptrIdx in
theorem ofSplit?_eq (sep : K) (left right : ℕ) :
    ofSplit? sep left right = some (ofSplit sep left right) := by
  simp [ofSplit?, ofSplit, setKey?, setPtr?, setKey, setPtr, new, rootMax]

/-- No access of the loops of `insert_internal` is out of bounds, not even for the node that gets
the last separator. -/
theorem insertSplit?_eq (hroom : current.count < rootMax) (hsize : current.count ≤ current.keySize)
    (hi : ptrIdx ≤ current.count) (hsplit : 0 < split.keySize) :
    current.insertSplit? ptrIdx split = some (current.insertSplit ptrIdx split) := by
  have hzero : 0 < rootMax + 1 := by decide
  have hone : 1 < rootMax + 1 := by decide
  -- the loop over the entries in front of the split child
  obtain ⟨hpre, hpreSize⟩ := foldlM_set 0 ptrIdx 0 new
    (fun i _ hlt => ⟨key?_eq (n := current) (i := i) (by omega),
      ptr?_eq (n := current) (i := i) (by omega)⟩)
    (show 0 + ptrIdx ≤ rootMax by omega) (by omega)
  simp only [Nat.add_zero, ← List.range_eq_range'] at hpre hpreSize
  rw [insertSplit?, insertSplit, hpre]
  generalize (List.range ptrIdx).foldl (fun (n : InternalNode K) i =>
    (n.setKey i (current.key i)).setPtr i (current.ptr i)) new = prefixed at hpreSize ⊢
  have hsize' : prefixed.keySize = rootMax := hpreSize
  -- the loop over the entries behind it, shifted by one
  obtain ⟨hsuf, -⟩ := foldlM_set (ptrIdx + 1) (current.count - ptrIdx) 1
    (((prefixed.setKey ptrIdx (split.key 0)).setPtr ptrIdx (split.ptr 0)).setPtr
      (ptrIdx + 1) (split.ptr 1))
    (fun i _ hlt => ⟨key?_eq (n := current) (i := i - 1) (by omega),
      ptr?_eq (n := current) (i := i) (by omega)⟩)
    (show ptrIdx + 1 + (current.count - ptrIdx) ≤ prefixed.keySize by omega) (by omega)
  simp only [Option.bind_eq_bind] at hsuf ⊢
  simp [key?_eq hsplit, setKey?_eq (show ptrIdx < prefixed.keySize by omega), ptr?_eq hzero,
    ptr?_eq hone, setPtr?_eq (show ptrIdx < rootMax + 1 by omega),
    setPtr?_eq (show ptrIdx + 1 < rootMax + 1 by omega), hsuf]

end InternalNode

namespace SeqBin

variable {K : Type} [LinearOrder K] [BoundedOrder K] [Zero K]

/-- The loops of `split_root` that link the nodes of `n` collected pairs from position `j` on. -/
def linkNodes? (pairs : List (K × Val)) (j : ℕ) : ℕ → Option (List (ListCell K))
  | 0 => some []
  | n + 1 => do
    let p ← pairs[j]?
    return SeqList.cellOf p :: (← linkNodes? pairs (j + 1) n)

/-- `splitRoot` with every index checked. -/
def splitRoot? (b : SeqBin K) (pairs : List (K × Val)) : Option (SeqBin K × InternalNode K) := do
  let leftCount := pairs.length / 2
  let rightCount := pairs.length - leftCount
  let left ← linkNodes? pairs 0 leftCount
  let right ← linkNodes? pairs leftCount rightCount
  let p ← pairs[leftCount]?
  let newRoot ← InternalNode.ofSplit? p.1 b.fresh (b.fresh + 1)
  return ({ (b.setLeaf b.fresh ⟨leftCount, ⟨false, left⟩⟩).setLeaf (b.fresh + 1)
      ⟨rightCount, ⟨false, right⟩⟩ with fresh := b.fresh + 2 }, newRoot)

/-- `splitLeaf` with every index checked. -/
def splitLeaf? (b : SeqBin K) (id : ℕ) : Option (SeqBin K × RootWord K) := do
  let (b', pairs) := b.collectLeaf id
  let (b'', newRoot) ← b'.splitRoot? pairs
  return (b'', ⟨.internal newRoot, false⟩)

/-- `splitChild` with every index checked. -/
def splitChild? (copy? : InternalNode K → ℕ → InternalNode K → Option (InternalNode K))
    (b : SeqBin K) (current : InternalNode K) (ptrIdx : ℕ) : Option (SeqBin K × RootWord K) := do
  let (b', pairs) := b.collectLeaf (← current.ptr? ptrIdx)
  let (b'', newRoot) ← b'.splitRoot? pairs
  return (b'', ⟨.internal (← copy? current ptrIdx newRoot), false⟩)

/-- `insertLeaf` with every index checked. -/
def insertLeaf? (b : SeqBin K) (id : ℕ) (key : K) (value : Val) :
    Option (SeqBin K × Option (RootWord K)) := do
  let child := b.leaf id
  if child.count < childMax then
    let (list, r) := child.list.insert key value
    let res := boolOfInt r
    let b' := b.setLeaf id { child with list := list }
    if res = -1 then
      let (b'', newRoot) ← b'.splitLeaf? id
      return (b'', some newRoot)
    else if res = 1 then return (b'.setLeaf id ⟨child.count + 1, list⟩, none)
    else return (b', none)
  else
    let (b', newRoot) ← b.splitLeaf? id
    return (b', some newRoot)

/-- `insertInternal` with every index checked. -/
def insertInternal? (b : SeqBin K) (current : InternalNode K) (key : K) (value : Val) :
    Option (SeqBin K × Option (RootWord K)) := do
  let ptrIdx ← current.ptrIdx? key
  let id ← current.ptr? ptrIdx
  let child := b.leaf id
  if child.count < childMax then
    let (list, res) := child.list.insert key value
    let b' := b.setLeaf id { child with list := list }
    if res = -1 then
      if current.count < rootMax then
        let (b'', newRoot) ← b'.splitChild? InternalNode.insertSplit? current ptrIdx
        return (b'', some newRoot)
      else return (b', some ⟨.internal current, true⟩)
    else if res = 1 then return (b'.setLeaf id ⟨child.count + 1, list⟩, none)
    else return (b', none)
  else if current.count < rootMax then
    let (b', newRoot) ← b.splitChild? InternalNode.insertSplit? current ptrIdx
    return (b', some newRoot)
  else return (b, some ⟨.internal current, true⟩)

/-- A round of `insert`. -/
def insertRound? (b : SeqBin K) (key : K) (value : Val) :
    Option (SeqBin K × Option (RootWord K)) :=
  match b.root.node with
  | .leaf id => b.insertLeaf? id key value
  | .internal node => b.insertInternal? node key value

/-- `insertLoop` with every index checked. -/
def insertLoop? (b : SeqBin K) (key : K) (value : Val) : ℕ → Option (SeqBin K × Bool)
  | 0 => none
  | n + 1 =>
    if b.root.mark then some (b, false)
    else
      match b.insertRound? key value with
      | none => none
      | some (b', some newRoot) => insertLoop? { b' with root := newRoot } key value n
      | some (b', none) => some (b', true)

/-- `insert` with every index checked. -/
def insert? (b : SeqBin K) (key : K) (value : Val) : Option (SeqBin K × Bool) :=
  b.insertLoop? key value 3

/-- `removeLeaf` with every index checked. -/
def removeLeaf? (b : SeqBin K) (id : ℕ) (key : K) : Option (SeqBin K × Option (RootWord K)) := do
  let child := b.leaf id
  let (list, r) := child.list.remove key
  let res := boolOfInt r
  let b' := b.setLeaf id { child with list := list }
  if res = -1 then
    let (b'', newRoot) ← b'.splitLeaf? id
    return (b'', some newRoot)
  else return (b'.setLeaf id ⟨child.count - 1, list⟩, none)

/-- `removeInternal` with every index checked. -/
def removeInternal? (offEnd : Option (Option (RootWord K))) (b : SeqBin K)
    (current : InternalNode K) (key : K) : Option (SeqBin K × Option (RootWord K)) := do
  let ptrIdx ← current.ptrIdx? key
  let id ← current.ptr? ptrIdx
  let child := b.leaf id
  let (list, res) := child.list.remove key
  let b' := b.setLeaf id { child with list := list }
  if res = -1 then
    if current.count < rootMax then
      let (b'', newRoot) ← b'.splitChild? InternalNode.removeSplit? current ptrIdx
      return (b'', some newRoot)
    else return (b', some ⟨.internal current, true⟩)
  else
    let newNode ← offEnd
    return (b', newNode)

/-- A round of `remove`. -/
def removeRound? (offEnd : Option (Option (RootWord K))) (b : SeqBin K) (key : K) :
    Option (SeqBin K × Option (RootWord K)) :=
  match b.root.node with
  | .leaf id => b.removeLeaf? id key
  | .internal node => b.removeInternal? offEnd node key

/-- `removeLoop` with every index checked. -/
def removeLoop? (offEnd : Option (Option (RootWord K))) (b : SeqBin K) (key : K) :
    ℕ → Option (SeqBin K × Bool)
  | 0 => none
  | n + 1 =>
    if b.root.mark then some (b, false)
    else
      match b.removeRound? offEnd key with
      | none => none
      | some (b', some newRoot) => removeLoop? offEnd { b' with root := newRoot } key n
      | some (b', none) => some (b', true)

/-! ### Enough rounds -/

/-- A larger bound on the rounds does not change the result of an insertion. -/
theorem insertLoop?_mono {b : SeqBin K} {key : K} {value : Val} {n : ℕ} {r : SeqBin K × Bool}
    (h : b.insertLoop? key value n = some r) : b.insertLoop? key value (n + 1) = some r := by
  induction n generalizing b with
  | zero => simp [insertLoop?] at h
  | succ n ih =>
    rw [insertLoop?] at h ⊢
    split_ifs at h ⊢ with hmark
    · exact h
    · split at h
      · cases h
      · next hround => exact ih h
      · next hround => exact h

/-- A larger bound on the rounds does not change the result of a removal. -/
theorem removeLoop?_mono {offEnd : Option (Option (RootWord K))} {b : SeqBin K} {key : K} {n : ℕ}
    {r : SeqBin K × Bool} (h : b.removeLoop? offEnd key n = some r) :
    b.removeLoop? offEnd key (n + 1) = some r := by
  induction n generalizing b with
  | zero => simp [removeLoop?] at h
  | succ n ih =>
    rw [removeLoop?] at h ⊢
    split_ifs at h ⊢ with hmark
    · exact h
    · split at h
      · cases h
      · next hround => exact ih h
      · next hround => exact h

/-- Bounds on the rounds that are large enough give the same result. -/
theorem insertLoop?_det {b : SeqBin K} {key : K} {value : Val} {n n' : ℕ} {r r' : SeqBin K × Bool}
    (h : b.insertLoop? key value n = some r) (h' : b.insertLoop? key value n' = some r') :
    r = r' := by
  have hle : ∀ {n : ℕ} {r} (d : ℕ), b.insertLoop? key value n = some r →
      b.insertLoop? key value (n + d) = some r := by
    intro n r d h
    induction d with
    | zero => exact h
    | succ d ih => exact insertLoop?_mono ih
  have hn := hle n' h
  rw [Nat.add_comm, hle n h'] at hn
  exact (Option.some.inj hn).symm

variable {b : SeqBin K} {current : InternalNode K} {key : K} {value : Val} {pairs : List (K × Val)}

omit [LinearOrder K] [BoundedOrder K] [Zero K] in
theorem linkNodes?_eq {j n : ℕ} (h : j + n ≤ pairs.length) :
    linkNodes? pairs j n = some (((pairs.drop j).take n).map SeqList.cellOf) := by
  induction n generalizing j with
  | zero => rfl
  | succ n ih =>
    have hlt : j < pairs.length := by omega
    rw [linkNodes?, List.getElem?_eq_getElem hlt, ih (by omega), List.drop_eq_getElem_cons hlt]
    rfl

omit [LinearOrder K] [BoundedOrder K] in
/-- `split_root` stays within the collected vectors unless they are empty. -/
theorem splitRoot?_eq (h : pairs ≠ []) : b.splitRoot? pairs = some (b.splitRoot pairs) := by
  have hpos := List.length_pos_iff.mpr h
  have hlt : pairs.length / 2 < pairs.length := by omega
  have hright : (pairs.drop (pairs.length / 2)).take (pairs.length - pairs.length / 2) =
      pairs.drop (pairs.length / 2) := List.take_of_length_le (by simp)
  have hsep := getD_map_of_lt Prod.fst (d := (0 : K)) hlt
  rw [splitRoot?, linkNodes?_eq (by omega), linkNodes?_eq (by omega), List.getElem?_eq_getElem hlt,
    hright, splitRoot, hsep, List.drop_zero]
  simp only [Option.bind_eq_bind, Option.bind_some, InternalNode.ofSplit?_eq]
  rfl

/-- The split of a child stays within the arrays if the collected vectors are not empty. -/
theorem splitChild?_eq (hroom : current.count < rootMax) (hsize : current.count ≤ current.keySize)
    {i : ℕ} (hi : i ≤ current.count) (hne : (b.leaf (current.ptr i)).list.collect.2 ≠ []) :
    b.splitChild? InternalNode.insertSplit? current i =
      some (b.splitChild .insertSplit current i) := by
  have hptr : i < rootMax + 1 := by omega
  have hcollect : (b.collectLeaf (current.ptr i)).2 ≠ [] := hne
  generalize hsplit : (b.collectLeaf (current.ptr i)).1.splitRoot
    (b.collectLeaf (current.ptr i)).2 = split
  have hpos : 0 < split.2.keySize := hsplit ▸ (show 0 < rootMax by decide)
  have hcopy := InternalNode.insertSplit?_eq hroom hsize hi hpos
  rw [splitChild?, InternalNode.ptr?_eq hptr]
  simp [splitRoot?_eq hcollect, hsplit, hcopy, splitChild]

variable {i : ℕ}

omit [LinearOrder K] [BoundedOrder K] [Zero K] in
/-- Writing back what a rejected call has left unchanged. -/
theorem setLeaf_eq_self (b : SeqBin K) (id : ℕ) :
    b.setLeaf id ⟨(b.leaf id).count, (b.leaf id).list⟩ = b := by
  show ({ b with leaf := Function.update b.leaf id (b.leaf id) } : SeqBin K) = b
  rw [Function.update_eq_self]

/-- A child that is full or frozen is split, if the node has room. -/
theorem insertInternal_of_full (hroom : current.count < rootMax)
    (hi : lowerBound current.key key current.count = i)
    (hfull : childMax ≤ (b.leaf (current.ptr i)).count ∨
      (b.leaf (current.ptr i)).list.Rejects key) (value : Val) :
    b.insertInternal current key value =
      ((b.splitChild .insertSplit current i).1, some (b.splitChild .insertSplit current i).2) := by
  rw [insertInternal]
  simp only [hi]
  by_cases hlt : (b.leaf (current.ptr i)).count < childMax
  · have hrejects := hfull.resolve_left (not_le.mpr hlt)
    rw [if_pos hlt, hrejects.insert]
    simp only [if_pos hroom, setLeaf_eq_self]
    rfl
  · rw [if_neg hlt, if_pos hroom]

/-- The split of a child on the insert path stays within the arrays. -/
theorem insertInternal?_of_full (hroom : current.count < rootMax)
    (hsize : current.count ≤ current.keySize) (hi : lowerBound current.key key current.count = i)
    (hne : (b.leaf (current.ptr i)).list.collect.2 ≠ [])
    (hfull : childMax ≤ (b.leaf (current.ptr i)).count ∨
      (b.leaf (current.ptr i)).list.Rejects key) (value : Val) :
    b.insertInternal? current key value =
      some ((b.splitChild .insertSplit current i).1,
        some (b.splitChild .insertSplit current i).2) := by
  have hle : i ≤ current.count := hi ▸ lowerBound_le current.key key current.count
  have hptr : i < rootMax + 1 := by omega
  have hsplit := splitChild?_eq hroom hsize hle hne
  rw [insertInternal?, InternalNode.ptrIdx?, if_pos hsize, hi]
  simp only [Option.bind_eq_bind, Option.bind_some, InternalNode.ptr?_eq hptr]
  by_cases hlt : (b.leaf (current.ptr i)).count < childMax
  · have hrejects := hfull.resolve_left (not_le.mpr hlt)
    rw [if_pos hlt, hrejects.insert]
    simp only [if_pos hroom, setLeaf_eq_self, hsplit]
    rfl
  · rw [if_neg hlt, if_pos hroom, hsplit]
    rfl

/-! ### Leaves that are not frozen -/

/-- The split of a leaf root stays within the arrays if the collected vectors are not empty. -/
theorem splitLeaf?_eq {id : ℕ} (hne : (b.leaf id).list.collect.2 ≠ []) :
    b.splitLeaf? id = some (b.splitLeaf id) := by
  have hcollect : (b.collectLeaf id).2 ≠ [] := hne
  simp [splitLeaf?, splitRoot?_eq hcollect, splitLeaf]

/-- `insert_leaf` splits only a full leaf. -/
theorem insertLeaf?_eq {id : ℕ}
    (hne : childMax ≤ (b.leaf id).count → (b.leaf id).list.collect.2 ≠ []) :
    b.insertLeaf? id key value = some (b.insertLeaf id key value) := by
  rw [insertLeaf?, insertLeaf]
  by_cases hlt : (b.leaf id).count < childMax
  · simp only [if_pos hlt, if_neg (boolOfInt_ne_neg_one _)]
    split_ifs <;> rfl
  · rw [if_neg hlt, if_neg hlt, splitLeaf?_eq (hne (not_lt.mp hlt))]
    rfl

/-- `insert_internal` splits a child that is not frozen only if the child is full. -/
theorem insertInternal?_of_thawed (hcount : current.count ≤ rootMax)
    (hsize : current.count ≤ current.keySize) (hi : lowerBound current.key key current.count = i)
    (hthawed : ¬ (b.leaf (current.ptr i)).list.FrozenFor key)
    (hne : childMax ≤ (b.leaf (current.ptr i)).count →
      (b.leaf (current.ptr i)).list.collect.2 ≠ []) (value : Val) :
    b.insertInternal? current key value = some (b.insertInternal current key value) := by
  have hle : i ≤ current.count := hi ▸ lowerBound_le current.key key current.count
  have hptr : i < rootMax + 1 := by omega
  rw [insertInternal?, InternalNode.ptrIdx?, if_pos hsize, hi, insertInternal]
  simp only [Option.bind_eq_bind, Option.bind_some, InternalNode.ptr?_eq hptr, hi]
  by_cases hlt : (b.leaf (current.ptr i)).count < childMax
  · have hres : ((b.leaf (current.ptr i)).list.insert key value).2 ≠ -1 :=
      fun heq => hthawed (SeqList.insert_eq_neg_one_iff.mp heq)
    simp only [if_pos hlt, if_neg hres]
    split_ifs <;> rfl
  · by_cases hroom : current.count < rootMax
    · simp only [if_neg hlt, if_pos hroom,
        splitChild?_eq hroom hsize hle (hne (not_lt.mp hlt))]
      rfl
    · simp only [if_neg hlt, if_neg hroom]
      rfl

/-- `remove_leaf` never splits. -/
theorem removeLeaf?_eq {id : ℕ} : b.removeLeaf? id key = some (b.removeLeaf id key) := by
  rw [removeLeaf?, removeLeaf]
  simp only [if_neg (boolOfInt_ne_neg_one _)]
  rfl

/-- `remove_internal` splits only when the list returns -1. -/
theorem removeInternal?_eq (hcount : current.count ≤ rootMax)
    (hsize : current.count ≤ current.keySize) (hi : lowerBound current.key key current.count = i)
    (hres : ((b.leaf (current.ptr i)).list.remove key).2 ≠ -1)
    (offEnd : Option (Option (RootWord K))) :
    b.removeInternal? offEnd current key = b.removeInternal offEnd current key := by
  have hle : i ≤ current.count := hi ▸ lowerBound_le current.key key current.count
  have hptr : i < rootMax + 1 := by omega
  rw [removeInternal?, InternalNode.ptrIdx?, if_pos hsize, hi, removeInternal]
  simp only [Option.bind_eq_bind, Option.bind_some, InternalNode.ptr?_eq hptr, hi, if_neg hres]
  cases offEnd <;> rfl

end SeqBin

end KanvaImpl
