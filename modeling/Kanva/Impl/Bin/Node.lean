import Kanva.TaggedPtr
import Mathlib.Data.List.Lemmas
import Mathlib.Data.List.Range

/-!
# The root nodes of a bin

A bin starts as one leaf. When a leaf is full or frozen it is split in two under an `Internal_Node`,
an array of separator keys and an array of leaf pointers. A full internal node is not split further:
its bin is sealed and retrained into a model.

The three places that split a child write the arrays of a new node in loops. `insert_internal` and
`remove_internal` each have their own copy of these loops, and the copies differ: the one of
`remove_internal` appends to a vector that the constructor has already filled, and shifts the
pointers by one too far.

## Main results

* `InternalNode.insertSplit_key` and `InternalNode.insertSplit_ptr`: the arrays `insert_internal`
  builds.
-/

namespace KanvaImpl

open Kanva

/-- `child_max` -/
def childMax : ℤ := 32

/-- `root_max` -/
def rootMax : ℕ := 32

/-- `Internal_Node`. The vector `key` is its length and its entries, and an entry of `ptr` is the
identity of a leaf, 0 being the null pointer. -/
structure InternalNode (K : Type) where
  count : ℕ
  keySize : ℕ
  key : ℕ → K
  ptr : ℕ → ℕ

namespace InternalNode

variable {K : Type}

/-- `Internal_Node::Internal_Node`: `root_max` zero keys and null pointers. The constructor leaves
`count` to its caller. -/
def new [Zero K] : InternalNode K := ⟨0, rootMax, fun _ => 0, fun _ => 0⟩

/-- `node->key[i] = k` -/
def setKey (n : InternalNode K) (i : ℕ) (k : K) : InternalNode K :=
  { n with key := Function.update n.key i k }

/-- `node->key.push_back(k)` -/
def pushKey (n : InternalNode K) (k : K) : InternalNode K :=
  { n with keySize := n.keySize + 1, key := Function.update n.key n.keySize k }

/-- `node->ptr[i] = p` -/
def setPtr (n : InternalNode K) (i : ℕ) (p : ℕ) : InternalNode K :=
  { n with ptr := Function.update n.ptr i p }

/-- The node of `split_root`: one separator and two leaves. -/
def ofSplit [Zero K] (sep : K) (left right : ℕ) : InternalNode K :=
  { ((new.setKey 0 sep).setPtr 0 left).setPtr 1 right with count := 1 }

/-- The loops of `insert_internal` that put the two halves of the child at `ptrIdx` and their
separator into a new node. -/
def insertSplit [Zero K] (current : InternalNode K) (ptrIdx : ℕ) (split : InternalNode K) :
    InternalNode K :=
  let prefixed := (List.range ptrIdx).foldl
    (fun n i => (n.setKey i (current.key i)).setPtr i (current.ptr i)) new
  let spliced := ((prefixed.setKey ptrIdx (split.key 0)).setPtr ptrIdx (split.ptr 0)).setPtr
    (ptrIdx + 1) (split.ptr 1)
  let suffixed := (List.range' (ptrIdx + 1) (current.count - ptrIdx)).foldl
    (fun n i => (n.setKey i (current.key (i - 1))).setPtr (i + 1) (current.ptr i)) spliced
  { suffixed with count := current.count + 1 }

/-- The loops of `remove_internal`: the keys before `ptrIdx` and the separator are appended behind
the zeros of the constructor, and the pointers after the child are taken one position too early. -/
def removeSplit [Zero K] (current : InternalNode K) (ptrIdx : ℕ) (split : InternalNode K) :
    InternalNode K :=
  let prefixed := (List.range ptrIdx).foldl
    (fun n i => (n.pushKey (current.key i)).setPtr i (current.ptr i)) new
  let spliced := ((prefixed.pushKey (split.key 0)).setPtr ptrIdx (split.ptr 0)).setPtr
    (ptrIdx + 1) (split.ptr 1)
  let suffixed := (List.range' (ptrIdx + 1) (current.count - ptrIdx)).foldl
    (fun n i => (n.setKey i (current.key (i - 1))).setPtr (i + 1) (current.ptr (i - 1))) spliced
  { suffixed with count := current.count + 1 }

section Writes

variable (n : InternalNode K) (i j p : ℕ) (k : K)

@[simp] theorem key_setKey : (n.setKey i k).key j = if j = i then k else n.key j := by
  by_cases h : j = i <;> simp [setKey, h]

@[simp] theorem key_pushKey : (n.pushKey k).key j = if j = n.keySize then k else n.key j := by
  by_cases h : j = n.keySize <;> simp [pushKey, h]

@[simp] theorem ptr_pushKey : (n.pushKey k).ptr j = n.ptr j := rfl

@[simp] theorem ptr_setKey : (n.setKey i k).ptr j = n.ptr j := rfl

@[simp] theorem key_setPtr : (n.setPtr i p).key j = n.key j := rfl

@[simp] theorem ptr_setPtr : (n.setPtr i p).ptr j = if j = i then p else n.ptr j := by
  by_cases h : j = i <;> simp [setPtr, h]

end Writes

/-- The entries of the arrays after a loop that writes both at increasing positions. -/
theorem foldl_set (g : ℕ → K) (p : ℕ → ℕ) (shift : ℕ) (n : InternalNode K) (a len : ℕ) (i : ℕ) :
    ((List.range' a len).foldl
        (fun n i => (n.setKey i (g i)).setPtr (i + shift) (p i)) n).key i =
      (if a ≤ i ∧ i < a + len then g i else n.key i) ∧
    ((List.range' a len).foldl
        (fun n i => (n.setKey i (g i)).setPtr (i + shift) (p i)) n).ptr i =
      (if a + shift ≤ i ∧ i < a + shift + len then p (i - shift) else n.ptr i) := by
  induction len with
  | zero =>
    refine ⟨?_, ?_⟩
    · rw [if_neg (by omega)]
      rfl
    · rw [if_neg (by omega)]
      rfl
  | succ len ih =>
    simp only [List.range'_concat, List.foldl_append, List.foldl_cons, List.foldl_nil, Nat.one_mul,
      key_setPtr, key_setKey, ptr_setPtr, ptr_setKey, ih.1, ih.2]
    refine ⟨?_, ?_⟩
    · by_cases hi : i = a + len
      · rw [if_pos hi, if_pos (by omega), hi]
      · have hiff : (a ≤ i ∧ i < a + len) ↔ (a ≤ i ∧ i < a + (len + 1)) := by omega
        simp only [if_neg hi, hiff]
    · by_cases hi : i = a + len + shift
      · rw [if_pos hi, if_pos (by omega), hi, Nat.add_sub_cancel]
      · have hiff : (a + shift ≤ i ∧ i < a + shift + len) ↔
            (a + shift ≤ i ∧ i < a + shift + (len + 1)) := by omega
        simp only [if_neg hi, hiff]

/-- The writes of a loop do not change the size of the vector. -/
theorem keySize_foldl_set (g : ℕ → K) (p : ℕ → ℕ) (shift : ℕ) (is : List ℕ) (n : InternalNode K) :
    (is.foldl (fun n i => (n.setKey i (g i)).setPtr (i + shift) (p i)) n).keySize = n.keySize := by
  induction is generalizing n with
  | nil => rfl
  | cons i is ih => exact ih _

variable [Zero K] (current split : InternalNode K) {ptrIdx : ℕ}

/-- The separators `insert_internal` writes: the new one is put in at `ptrIdx`. -/
theorem insertSplit_key (hle : ptrIdx ≤ current.count) {i : ℕ} (hi : i < current.count + 1) :
    (insertSplit current ptrIdx split).key i =
      if i < ptrIdx then current.key i else if i = ptrIdx then split.key 0
      else current.key (i - 1) := by
  have hpre := (foldl_set current.key current.ptr 0 new 0 ptrIdx i).1
  rw [← List.range_eq_range'] at hpre
  simp only [insertSplit]
  rw [(foldl_set (fun i => current.key (i - 1)) current.ptr 1 _ (ptrIdx + 1) _ i).1]
  simp only [key_setPtr, key_setKey]
  rcases lt_trichotomy i ptrIdx with hlt | rfl | hgt
  · rw [if_neg (by omega), if_pos hlt, if_neg hlt.ne]
    rw [if_pos (by omega)] at hpre
    exact hpre
  · rw [if_neg (by omega), if_neg (lt_irrefl _), if_pos rfl, if_pos rfl]
  · rw [if_pos (by omega), if_neg (by omega), if_neg (by omega)]

/-- The leaves `insert_internal` writes: the child at `ptrIdx` gives way to the two halves. -/
theorem insertSplit_ptr (hle : ptrIdx ≤ current.count) {i : ℕ} (hi : i ≤ current.count + 1) :
    (insertSplit current ptrIdx split).ptr i =
      if i < ptrIdx then current.ptr i else if i = ptrIdx then split.ptr 0
      else if i = ptrIdx + 1 then split.ptr 1 else current.ptr (i - 1) := by
  have hpre := (foldl_set current.key current.ptr 0 new 0 ptrIdx i).2
  rw [← List.range_eq_range'] at hpre
  simp only [insertSplit]
  rw [(foldl_set (fun i => current.key (i - 1)) current.ptr 1 _ (ptrIdx + 1) _ i).2]
  simp only [ptr_setPtr, ptr_setKey]
  rcases Nat.lt_or_ge i ptrIdx with hlt | hge
  · rw [if_neg (by omega), if_pos hlt, if_neg (by omega), if_neg hlt.ne]
    rw [if_pos (by omega)] at hpre
    exact hpre
  · rw [if_neg (Nat.not_lt.mpr hge)]
    by_cases h0 : i = ptrIdx
    · rw [if_neg (by omega), if_neg (by omega), if_pos h0, if_pos h0]
    · by_cases h1 : i = ptrIdx + 1
      · rw [if_neg (by omega), if_pos h1, if_neg h0, if_pos h1]
      · rw [if_pos (by omega), if_neg h0, if_neg h1]

/-- The vector of the new node has the size the constructor gave it. -/
theorem insertSplit_keySize (ptrIdx : ℕ) :
    (insertSplit current ptrIdx split).keySize = rootMax := by
  have hpre := keySize_foldl_set current.key current.ptr 0 (List.range ptrIdx) new
  have hsuf := keySize_foldl_set (fun i => current.key (i - 1)) current.ptr 1
    (List.range' (ptrIdx + 1) (current.count - ptrIdx))
  exact (hsuf _).trans hpre

@[simp] theorem insertSplit_count (ptrIdx : ℕ) :
    (insertSplit current ptrIdx split).count = current.count + 1 := rfl

end InternalNode

/-- `leaf_node`, over the representation of its list. -/
structure LeafNode (L : Type) where
  /-- An `int64_t` that `remove` may take below zero. -/
  count : ℤ
  list : L
deriving DecidableEq, Repr

/-- The node a root word points at. -/
inductive RootNode (K : Type) where
  | leaf (id : ℕ)
  | internal (node : InternalNode K)

/-- The word in `root`, with the mark that seals a bin. -/
structure RootWord (K : Type) where
  node : RootNode K
  mark : Bool

/-- The conversion of an `int` to a `bool`, read back as an `int`. -/
def boolOfInt (r : ℤ) : ℤ := if r = 0 then 0 else 1

/-- A status that has gone through a `bool` is never negative. -/
theorem boolOfInt_ne_neg_one (r : ℤ) : boolOfInt r ≠ -1 := by
  rw [boolOfInt]
  split_ifs <;> decide

end KanvaImpl
