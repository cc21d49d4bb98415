import Kanva.Impl.Bin.Splitting

/-!
# The counts of the leaves

`insert` decides by the count of a leaf whether the leaf is split, so a count that has drifted lets
a list grow without bound or splits it when it is empty. Insertions count what they have put in. A
removal below an internal root counts nothing, and a removal from a leaf root always counts one,
since the status of the list passes through a `bool` and no status is negative as a `bool`.

## Main results

* `SeqBin.Shape.insert_ok`: an insertion keeps the counts, and stays within its arrays.
* `SeqBin.Shape.remove_ok`: so does a removal that has something to count just when it counts.
* `SeqBin.Shape.drifts`: any other removal leaves a wrong count.
* `SeqBin.counts_exact`: the counts in all runs of such calls.
-/

namespace KanvaImpl

open Kanva SortedArray SortedAssoc

variable {K : Type} [LinearOrder K] [BoundedOrder K] [Zero K]

/-- The count of a leaf is the number of its nodes that are not marked, and they fit into a leaf. -/
structure LeafNode.Exact (leaf : LeafNode (SeqList K)) : Prop where
  count_eq : leaf.count = leaf.list.pairs.length
  count_nonneg : 0 ≤ leaf.count
  count_le : leaf.count ≤ childMax

namespace SeqBin

/-- The leaves under the root. -/
def leaves (b : SeqBin K) : List ℕ :=
  match b.root.node with
  | .leaf id => [id]
  | .internal node => node.children

/-- The leaf a key is routed to. -/
def routed (b : SeqBin K) (key : K) : ℕ :=
  match b.root.node with
  | .leaf id => id
  | .internal node => node.ptr (lowerBound node.key key node.count)

/-- A removal keeps the counts: the bin is sealed, or the key is an inner key that a leaf root holds
or that the leaf below an internal root misses. -/
def KeepsCount (b : SeqBin K) (key : K) : Prop :=
  b.root.mark = true ∨ key < ⊤ ∧
    match b.root.node with
    | .leaf id => HasKey key (b.leaf id).list.pairs
    | .internal node =>
      ¬ HasKey key (b.leaf (node.ptr (lowerBound node.key key node.count))).list.pairs

/-- The bins that insertions and removals make of a new one, as long as every removal keeps the
counts. -/
inductive CountRun : SeqBin K → Prop
  | new : CountRun new
  | insert {b b' : SeqBin K} {key : K} {value : Val} {r : Bool} : CountRun b →
      b.insert key value = some (b', r) → CountRun b'
  | remove {b b' : SeqBin K} {key : K} {n : ℕ} {r : Bool} : CountRun b → b.KeepsCount key →
      b.removeLoop (some none) key n = some (b', r) → CountRun b'

/-- The leaves hold sorted lists without tag bits, and their counts are exact. -/
inductive Shape (b : SeqBin K) : Prop
  | leaf {id : ℕ} {l : List (K × Val)} : b.root = ⟨.leaf id, false⟩ → b.LeafHolds id l → Shape b
  | internal {node : InternalNode K} {c : ℕ → List (K × Val)} {mark : Bool} :
      b.root = ⟨.internal node, mark⟩ → node.keySize = rootMax → b.Layout node c → Shape b

/-- A round of `insert`. -/
def insertRound (b : SeqBin K) (key : K) (value : Val) : SeqBin K × Option (RootWord K) :=
  match b.root.node with
  | .leaf id => b.insertLeaf id key value
  | .internal node => b.insertInternal node key value

/-- A round of `insert` for the key makes no new root. -/
def Ready (b : SeqBin K) (key : K) : Prop :=
  b.root.mark = true ∨ (b.leaf (b.routed key)).count < childMax

variable {b b' : SeqBin K} {node : InternalNode K} {c : ℕ → List (K × Val)} {id : ℕ}
  {l : List (K × Val)} {key : K} {value : Val}

omit [BoundedOrder K] [Zero K] in
theorem LeafHolds.exact (h : b.LeafHolds id l) : (b.leaf id).Exact := by
  have hle := h.length_le
  rw [h.leaf]
  refine ⟨by simp, Int.natCast_nonneg _, ?_⟩
  show (l.length : ℤ) ≤ 32
  omega

omit [BoundedOrder K] [Zero K] in
theorem Shape.exact (h : b.Shape) : ∀ id ∈ b.leaves, (b.leaf id).Exact := by
  intro id hid
  rw [leaves] at hid
  cases h with
  | leaf hroot hleaf =>
    rw [hroot] at hid
    obtain rfl := List.mem_singleton.mp hid
    exact hleaf.exact
  | internal hroot _ hlay =>
    rw [hroot] at hid
    obtain ⟨i, hi, rfl⟩ := List.mem_map.mp hid
    exact (hlay.child i (Nat.lt_succ_iff.mp (List.mem_range.mp hi))).exact

omit [BoundedOrder K] [Zero K] in
theorem shape_new : (new : SeqBin K).Shape :=
  .leaf rfl ⟨show 1 < 2 by decide, rfl, Sorted.nil, Nat.zero_le _⟩

/-! ### `insert` -/

theorem insertLoop_succ (b : SeqBin K) (key : K) (value : Val) (n : ℕ) :
    b.insertLoop key value (n + 1) =
      if b.root.mark then some (b, false)
      else
        match (b.insertRound key value).2 with
        | some newRoot =>
          insertLoop { (b.insertRound key value).1 with root := newRoot } key value n
        | none => some ((b.insertRound key value).1, true) := rfl

/-- `insert_leaf` with arguments that the list ignores. -/
theorem LeafHolds.insertLeaf_of_not_args (h : b.LeafHolds id l) (hlt : l.length < 32)
    (hargs : ¬ (key < ⊤ ∧ value ≠ -1)) : b.insertLeaf id key value = (b, none) := by
  have hins : (b.leaf id).list.insert key value = ((b.leaf id).list, 0) := by
    rw [h.leaf]
    exact SeqList.insert_of_not_args hargs
  have hbool : boolOfInt 0 = 0 := rfl
  rw [insertLeaf]
  simp only [hins, if_pos (h.count_lt_iff.mpr hlt), hbool]
  rw [if_neg (by decide), if_neg (by decide), setLeaf_eq_self]

/-- `insert_internal` with arguments that the list ignores. -/
theorem Layout.insertInternal_of_not_args (h : b.Layout node c) {i : ℕ}
    (hi : lowerBound node.key key node.count = i) (hlt : (c i).length < 32)
    (hargs : ¬ (key < ⊤ ∧ value ≠ -1)) : b.insertInternal node key value = (b, none) := by
  have hchild := h.child i (hi ▸ lowerBound_le node.key key node.count)
  have hins : (b.leaf (node.ptr i)).list.insert key value = ((b.leaf (node.ptr i)).list, 0) := by
    rw [hchild.leaf]
    exact SeqList.insert_of_not_args hargs
  rw [insertInternal]
  simp only [hi, hins, if_pos (hchild.count_lt_iff.mpr hlt)]
  rw [if_neg (by decide), if_neg (by decide), setLeaf_eq_self]

/-- A round that finds room inserts and ends the call. -/
theorem Shape.insertRound_room (h : b.Shape) (hroom : (b.leaf (b.routed key)).count < childMax)
    (value : Val) : ∃ b', b.insertRound key value = (b', none) ∧ b'.Shape := by
  cases h with
  | @leaf id l hroot hleaf =>
    rw [routed, hroot] at hroom
    have hlt := hleaf.count_lt_iff.mp hroom
    rw [insertRound, hroot]
    by_cases hargs : key < ⊤ ∧ value ≠ -1
    · obtain ⟨-, -, hs, hle⟩ := hleaf.insert_ok hlt hargs.1 hargs.2
      exact ⟨_, hleaf.insertLeaf_eq hlt hargs.1 hargs.2,
        .leaf hroot (hleaf.setLeaf_self hs hle)⟩
    · exact ⟨_, hleaf.insertLeaf_of_not_args hlt hargs, .leaf hroot hleaf⟩
  | @internal node c mark hroot hsize hlay =>
    rw [routed, hroot] at hroom
    have hlt := (hlay.child _ (lowerBound_le node.key key node.count)).count_lt_iff.mp hroom
    rw [insertRound, hroot]
    by_cases hargs : key < ⊤ ∧ value ≠ -1
    · exact ⟨_, hlay.insertInternal_eq hargs.1 hargs.2 hlt,
        .internal hroot hsize (hlay.insert_ok hargs.1 hargs.2 hlt)⟩
    · exact ⟨_, hlay.insertInternal_of_not_args rfl hlt hargs, .internal hroot hsize hlay⟩

/-- A round that finds no room splits the leaf or seals the bin, and the next round ends the
call. -/
theorem Shape.insertRound_full (h : b.Shape) (hfull : ¬ (b.leaf (b.routed key)).count < childMax)
    (value : Val) :
    ∃ b' newRoot, b.insertRound key value = (b', some newRoot) ∧
      ({ b' with root := newRoot } : SeqBin K).Shape ∧
      ({ b' with root := newRoot } : SeqBin K).Ready key := by
  cases h with
  | @leaf id l hroot hleaf =>
    rw [routed, hroot] at hfull
    have hlen : l.length = 32 :=
      le_antisymm hleaf.length_le (not_lt.mp (mt hleaf.count_lt_iff.mpr hfull))
    -- the leaf becomes two under an internal root
    obtain ⟨b', hsplit, hlay⟩ := hleaf.splitLeaf_ok hlen
    refine ⟨b', ⟨.internal (.ofSplit (halfSep l) b.fresh (b.fresh + 1)), false⟩, ?_,
      .internal rfl rfl (hlay.setRoot _), .inr ?_⟩
    · rw [insertRound, hroot]
      simp only [insertLeaf, if_neg hfull, hsplit]
    · refine (hlay.child _ (lowerBound_le _ key _)).count_lt_iff.mpr ?_
      show (splice (fun _ => l) 0 (leftHalf l) (rightHalf l) (lowerBound _ key 1)).length < 32
      rw [lowerBound_one]
      exact splice_half_lt key hleaf.sorted hlen _ 0
  | @internal node c mark hroot hsize hlay =>
    rw [routed, hroot] at hfull
    have hle := lowerBound_le node.key key node.count
    have hchild := hlay.child _ hle
    have hlen : (c (lowerBound node.key key node.count)).length = 32 :=
      le_antisymm hchild.length_le (not_lt.mp (mt hchild.count_lt_iff.mpr hfull))
    rw [insertRound, hroot]
    -- a root with room gets the two halves of the child, and a full one is sealed
    rcases Nat.lt_or_eq_of_le hlay.count_le with hroom | hseal
    · obtain ⟨b', hsplit, hlay'⟩ := hlay.splitChild_ok hroom hle hlen
      refine ⟨b', ⟨.internal (node.insertSplit (lowerBound node.key key node.count)
        (.ofSplit (halfSep (c (lowerBound node.key key node.count))) b.fresh (b.fresh + 1))),
          false⟩,
        ?_, .internal rfl (InternalNode.insertSplit_keySize _ _ _) (hlay'.setRoot _), .inr ?_⟩
      · simp only [insertInternal, if_neg hfull, if_pos hroom, hsplit]
      · refine (hlay'.child _ (lowerBound_le _ key _)).count_lt_iff.mpr ?_
        show (splice c _ _ _ (lowerBound _ key (node.count + 1))).length < 32
        rw [lowerBound_insertSplit node key _ _ _ rfl]
        exact splice_half_lt key hchild.sorted hlen _ _
    · refine ⟨b, ⟨.internal node, true⟩, ?_, .internal rfl hsize (hlay.setRoot _), .inl rfl⟩
      simp only [insertInternal, if_neg hfull, if_neg (show ¬ node.count < rootMax by omega)]

/-- The rounds of `insert` stay within the arrays: `split_root` gets the keys of a full leaf. -/
theorem Shape.insertRound?_eq (h : b.Shape) (key : K) (value : Val) :
    b.insertRound? key value = some (b.insertRound key value) := by
  have hfull : ∀ {id : ℕ} {l : List (K × Val)}, b.LeafHolds id l → childMax ≤ (b.leaf id).count →
      (b.leaf id).list.collect.2 ≠ [] := by
    intro id l hleaf hcount hnil
    rw [hleaf.leaf, SeqList.collect_ofPairs] at hnil
    exact hcount.not_gt (hleaf.count_lt_iff.mpr (by simp [hnil]))
  rw [insertRound?, insertRound]
  cases h with
  | leaf hroot hleaf =>
    rw [hroot]
    exact insertLeaf?_eq (hfull hleaf)
  | @internal node c mark hroot hsize hlay =>
    have hchild := hlay.child _ (lowerBound_le node.key key node.count)
    rw [hroot]
    refine insertInternal?_of_thawed hlay.count_le (hsize.symm ▸ hlay.count_le) rfl ?_
      (hfull hchild) value
    rw [hchild.leaf]
    exact SeqList.not_frozenFor_ofPairs _ key

/-- The last round of `insert`. -/
theorem Shape.insertLoop_ready (h : b.Shape) (hready : b.Ready key) (value : Val) (n : ℕ) :
    ∃ b' r, b.insertLoop key value (n + 1) = some (b', r) ∧
      b.insertLoop? key value (n + 1) = some (b', r) ∧ b'.Shape := by
  rw [insertLoop_succ, insertLoop?, h.insertRound?_eq]
  by_cases hmark : b.root.mark = true
  · exact ⟨b, false, if_pos hmark, if_pos hmark, h⟩
  · obtain ⟨b', hround, hshape⟩ := h.insertRound_room (hready.resolve_left hmark) value
    rw [hround]
    exact ⟨b', true, if_neg hmark, if_neg hmark, hshape⟩

/-- An insertion returns, keeps the counts exact and stays within its arrays. -/
theorem Shape.insert_ok (h : b.Shape) (key : K) (value : Val) :
    ∃ b' r, b.insert key value = some (b', r) ∧ b.insert? key value = some (b', r) ∧ b'.Shape := by
  by_cases hready : b.Ready key
  · exact h.insertLoop_ready hready value 2
  · obtain ⟨hmark, hfull⟩ := not_or.mp hready
    obtain ⟨b', newRoot, hround, hshape, hready'⟩ := h.insertRound_full hfull value
    rw [insert, insert?, insertLoop_succ, insertLoop?, h.insertRound?_eq, hround, if_neg hmark,
      if_neg hmark]
    exact hshape.insertLoop_ready hready' value 1

/-! ### `remove` -/

/-- A round that keeps the counts ends the call. -/
theorem Shape.removeRound_ok (h : b.Shape) (hkeeps : b.KeepsCount key)
    (hmark : b.root.mark = false) :
    ∃ b', b.removeRound (some none) key = some (b', none) ∧
      b.removeRound? (some none) key = some (b', none) ∧ b'.Shape := by
  obtain ⟨hkey, hhas⟩ := hkeeps.resolve_left (by simp [hmark])
  rw [removeRound, removeRound?]
  cases h with
  | @leaf id l hroot hleaf =>
    rw [hroot] at hhas ⊢
    have hhas : HasKey key l := by simpa [hleaf.leaf] using hhas
    obtain ⟨r, hremove⟩ := SeqList.remove_ofPairs hleaf.sorted hkey
    have hlen := hleaf.sorted.length_erasePair hhas
    have hle := hleaf.length_le
    -- a leaf root counts down, and the key was there
    have hcount : (b.leaf id).count - 1 = (erasePair key l).length := by
      rw [hleaf.leaf]
      show (l.length : ℤ) - 1 = _
      omega
    have hround : b.removeLeaf id key =
        (b.setLeaf id ⟨(erasePair key l).length, SeqList.ofPairs (erasePair key l)⟩, none) := by
      have hlist : (b.leaf id).list.remove key = (SeqList.ofPairs (erasePair key l), r) := by
        rw [hleaf.leaf]
        exact hremove
      rw [removeLeaf]
      simp only [hlist, if_neg (boolOfInt_ne_neg_one r), hcount, setLeaf_setLeaf]
    refine ⟨_, congrArg some hround, ?_,
      .leaf hroot (hleaf.setLeaf_self hleaf.sorted.erasePair (by omega))⟩
    rw [← hround]
    exact removeLeaf?_eq
  | @internal node c mark hroot hsize hlay =>
    rw [hroot] at hhas ⊢
    have hchild := hlay.child _ (lowerBound_le node.key key node.count)
    have hhas : ¬ HasKey key (c (lowerBound node.key key node.count)) := by
      simpa [hchild.leaf] using hhas
    -- below an internal root nothing is counted, and the key was not there
    have hlist : (b.leaf (node.ptr (lowerBound node.key key node.count))).list.remove key =
        ((b.leaf (node.ptr (lowerBound node.key key node.count))).list, -2) := by
      rw [hchild.leaf]
      exact SeqList.remove_of_not_hasKey hchild.sorted hkey hhas
    have hround : b.removeInternal (some none) node key = some (b, none) := by
      rw [removeInternal]
      simp only [hlist]
      rw [if_neg (by decide), setLeaf_eq_self, Option.map_some]
    refine ⟨b, hround, ?_, .internal hroot hsize hlay⟩
    rw [← hround]
    exact removeInternal?_eq hlay.count_le (hsize.symm ▸ hlay.count_le) rfl (by simp [hlist]) _

/-- A removal that keeps the counts returns and stays within its arrays. -/
theorem Shape.remove_ok (h : b.Shape) (hkeeps : b.KeepsCount key) (n : ℕ) :
    ∃ b' r, b.removeLoop (some none) key (n + 1) = some (b', r) ∧
      b.removeLoop? (some none) key (n + 1) = some (b', r) ∧ b'.Shape := by
  rw [removeLoop, removeLoop?]
  by_cases hmark : b.root.mark = true
  · exact ⟨b, false, if_pos hmark, if_pos hmark, h⟩
  · obtain ⟨b', hround, hround', hshape⟩ := h.removeRound_ok hkeeps (by simpa using hmark)
    rw [hround, hround']
    exact ⟨b', true, if_neg hmark, if_neg hmark, hshape⟩

/-- A removal from an open bin that does not keep the counts leaves a count that is wrong, unless
the list's `remove` has taken the value of the key for the status of a frozen list. -/
theorem Shape.drifts (h : b.Shape) (hmark : b.root.mark = false) (hkey : key < ⊤)
    (hnot : ¬ b.KeepsCount key)
    (hvalue : ((b.leaf (b.routed key)).list.remove key).2 ≠ -1) (n : ℕ) :
    ∃ b', b.removeLoop (some none) key (n + 1) = some (b', true) ∧
      ∃ id ∈ b'.leaves, ¬ (b'.leaf id).Exact := by
  have hhas := not_and.mp (not_or.mp hnot).2 hkey
  have hopen : ¬ b.root.mark = true := by simp [hmark]
  rw [routed] at hvalue
  rw [removeLoop, removeRound]
  cases h with
  | @leaf id l hroot hleaf =>
    rw [hroot] at hhas
    have hhas : ¬ HasKey key l := by simpa [hleaf.leaf] using hhas
    -- the list stays as it is, and the counter goes down
    have hlist : (b.leaf id).list.remove key = ((b.leaf id).list, -2) := by
      rw [hleaf.leaf]
      exact SeqList.remove_of_not_hasKey hleaf.sorted hkey hhas
    have hround : b.removeLeaf id key =
        (b.setLeaf id ⟨(b.leaf id).count - 1, (b.leaf id).list⟩, none) := by
      rw [removeLeaf]
      simp only [hlist, if_neg (boolOfInt_ne_neg_one _), setLeaf_setLeaf]
    refine ⟨b.setLeaf id ⟨(b.leaf id).count - 1, (b.leaf id).list⟩, ?_, id, ?_, fun hexact => ?_⟩
    · rw [if_neg hopen, hroot]
      simp only [hround]
    · rw [leaves]
      show id ∈ match b.root.node with
        | .leaf id => [id]
        | .internal node => node.children
      rw [hroot]
      exact List.mem_singleton_self id
    · have hcount := hexact.count_eq
      have hbefore := hleaf.exact.count_eq
      simp only [SeqBin.setLeaf, Function.update_self] at hcount
      omega
  | @internal node c mark hroot hsize hlay =>
    rw [hroot] at hhas hvalue
    have hle := lowerBound_le node.key key node.count
    generalize hi : lowerBound node.key key node.count = i at hhas hvalue hle
    have hchild := hlay.child i hle
    simp only [hi, not_not, hchild.leaf, SeqList.pairs_ofPairs] at hhas hvalue
    have hlen := hchild.sorted.length_erasePair hhas
    obtain ⟨v, hv⟩ := hhas
    -- the pair is removed, and the counter stays as it is
    have hremove := SeqList.remove_of_mem hchild.sorted hkey hv
    have herase : below key (c i) ++ (above key (c i)).tail = erasePair key (c i) :=
      (if_pos ⟨v, hv⟩).symm
    rw [herase] at hremove
    rw [hremove] at hvalue
    have hround : b.removeInternal (some none) node key =
        some (b.setLeaf (node.ptr i) ⟨(b.leaf (node.ptr i)).count,
          SeqList.ofPairs (erasePair key (c i))⟩,
          none) := by
      rw [removeInternal]
      simp only [hi, hchild.leaf, hremove, if_neg hvalue, Option.map_some]
    refine ⟨b.setLeaf (node.ptr i) ⟨(b.leaf (node.ptr i)).count,
      SeqList.ofPairs (erasePair key (c i))⟩, ?_, node.ptr i, ?_, fun hexact => ?_⟩
    · rw [if_neg hopen, hroot]
      simp only [hround]
    · rw [leaves]
      show node.ptr i ∈ match b.root.node with
        | .leaf id => [id]
        | .internal node => node.children
      rw [hroot]
      exact List.mem_map.mpr ⟨i, List.mem_range.mpr (Nat.lt_succ_of_le hle), rfl⟩
    · have hcount := hexact.count_eq
      simp only [SeqBin.setLeaf, Function.update_self, SeqList.pairs_ofPairs, hchild.leaf] at hcount
      omega

/-! ### Runs -/

theorem CountRun.shape (h : b.CountRun) : b.Shape := by
  induction h with
  | new => exact shape_new
  | @insert b b' key value r _ hcall ih =>
    obtain ⟨b'', r', hins, -, hshape⟩ := ih.insert_ok key value
    obtain ⟨rfl, rfl⟩ := Prod.mk.inj (Option.some.inj (hins.symm.trans hcall))
    exact hshape
  | @remove b b' key n r _ hkeeps hcall ih =>
    cases n with
    | zero => exact absurd hcall (by simp [removeLoop])
    | succ n =>
      obtain ⟨b'', r', hrem, -, hshape⟩ := ih.remove_ok hkeeps n
      obtain ⟨rfl, rfl⟩ := Prod.mk.inj (Option.some.inj (hrem.symm.trans hcall))
      exact hshape

/-- In a run in which every removal keeps the counts, the counts are exact, every insertion and
every such removal returns, and none of them leaves its arrays. -/
theorem counts_exact (h : b.CountRun) :
    (∀ id ∈ b.leaves, (b.leaf id).Exact) ∧
      (∀ key value, ∃ r, b.insert key value = some r ∧ b.insert? key value = some r) ∧
      ∀ key, b.KeepsCount key → ∀ n, ∃ r, b.removeLoop (some none) key (n + 1) = some r ∧
        b.removeLoop? (some none) key (n + 1) = some r := by
  refine ⟨h.shape.exact, fun key value => ?_, fun key hkeeps n => ?_⟩
  · obtain ⟨b', r, hins, hins', -⟩ := h.shape.insert_ok key value
    exact ⟨_, hins, hins'⟩
  · obtain ⟨b', r, hrem, hrem', -⟩ := h.shape.remove_ok hkeeps n
    exact ⟨_, hrem, hrem'⟩

theorem counts_exact_after_two : ∃ b b' : SeqBin (Fin 64),
    new.insert 5 50 = some (b, true) ∧ b.removeLoop (some none) 5 1 = some (b', true) ∧
    (∀ id ∈ b'.leaves, (b'.leaf id).Exact) ∧
      (∀ key value, ∃ r, b'.insert key value = some r ∧ b'.insert? key value = some r) ∧
      ∀ key, b'.KeepsCount key → ∀ n, ∃ r, b'.removeLoop (some none) key (n + 1) = some r ∧
        b'.removeLoop? (some none) key (n + 1) = some r := by
  have hkeeps : (new.setLeaf 1 ⟨1, SeqList.ofPairs [(5, 50)]⟩ : SeqBin (Fin 64)).KeepsCount 5 :=
    .inr ⟨by decide, 50, by decide⟩
  have hins : (new : SeqBin (Fin 64)).insert 5 50 =
      some (new.setLeaf 1 ⟨1, SeqList.ofPairs [(5, 50)]⟩, true) :=
    insertLoop_leaf rfl ⟨show 1 < 2 by decide, rfl, Sorted.nil, Nat.zero_le _⟩ (by decide)
      (by decide) (by decide) 2
  exact ⟨_, _, hins, rfl, counts_exact (.remove (.insert .new hins) hkeeps (n := 1) rfl)⟩

/-- The removal of a key that a new bin does not hold. -/
theorem not_exact_of_absent : ∃ b : SeqBin (Fin 64),
    new.removeLoop (some none) 5 1 = some (b, true) ∧
    1 ∈ b.leaves ∧ (b.leaf 1).count = -1 ∧ (b.leaf 1).list.pairs = [] ∧ ¬ (b.leaf 1).Exact :=
  ⟨_, rfl, by decide, by decide, by decide, fun h => absurd h.count_eq (by decide)⟩

end SeqBin

end KanvaImpl
