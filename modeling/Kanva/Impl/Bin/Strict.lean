import Kanva.Impl.Bin.Refinement
import Mathlib.Algebra.Order.BigOperators.Group.List

/-!
# Bins whose separators are not inserted again

As long as no insertion has the key of a separator on its way, the keys of a child are strictly
below the separator that follows it. The children then hold a sorted list cut in pieces: every key
but the separators is in the child it is routed to, and `collect` returns the list.

## Main results

* `SeqBin.Holds.insert_ok`: an insertion that meets no separator.
* `SeqBin.Holds.search_eq`: `search` finds the keys of the list except the separators.
-/

namespace KanvaImpl

open Kanva SortedArray SortedAssoc

variable {K : Type} [LinearOrder K] [BoundedOrder K] [Zero K]

/-- `k` is a separator of the root. -/
def SeqBin.IsSeparator (b : SeqBin K) (k : K) : Prop :=
  match b.root.node with
  | .leaf _ => False
  | .internal node => lowerBound node.key k node.count < node.count ∧
      node.key (lowerBound node.key k node.count) = k

/-- The separator that a split of the leaf chooses. -/
def splitKey (leaf : LeafNode (SeqList K)) : K := SeqBin.halfSep leaf.list.collect.2

/-- An insertion of `k` meets a separator: `k` is one, or is the one of the split that the insertion
makes. -/
def SeqBin.MeetsSeparator (b : SeqBin K) (k : K) : Prop :=
  b.IsSeparator k ∨
    match b.root.node with
    | .leaf id => childMax ≤ (b.leaf id).count ∧ splitKey (b.leaf id) = k
    | .internal node => node.count < rootMax ∧
        childMax ≤ (b.leaf (node.ptr (lowerBound node.key k node.count))).count ∧
        splitKey (b.leaf (node.ptr (lowerBound node.key k node.count))) = k

instance (b : SeqBin K) (k : K) : Decidable (b.IsSeparator k) := by
  unfold SeqBin.IsSeparator
  split <;> infer_instance

instance (b : SeqBin K) (k : K) : Decidable (b.MeetsSeparator k) := by
  unfold SeqBin.MeetsSeparator
  cases b.root.node <;> infer_instance

namespace SeqBin

variable {b b' : SeqBin K} {node : InternalNode K} {c : ℕ → List (K × Val)} {id : ℕ}
  {l : List (K × Val)} {key : K} {value : Val}

/-- The contents of all children in order. -/
def flat (node : InternalNode K) (c : ℕ → List (K × Val)) : List (K × Val) :=
  (List.range (node.count + 1)).flatMap c

omit [LinearOrder K] [BoundedOrder K] [Zero K] in
theorem mem_flat {p : K × Val} : p ∈ flat node c ↔ ∃ i ≤ node.count, p ∈ c i := by
  rw [flat, List.mem_flatMap]
  simp only [List.mem_range, Nat.lt_succ_iff]

/-- The keys of a child are strictly below the separator that follows it. -/
def Strict (node : InternalNode K) (c : ℕ → List (K × Val)) : Prop :=
  ∀ i < node.count, ∀ p ∈ c i, p.1 < node.key i

omit [BoundedOrder K] [Zero K] in
/-- The children of a strict node hold a sorted list. -/
theorem Layout.sorted_flat (h : b.Layout node c) (hs : Strict node c) : Sorted (flat node c) := by
  refine List.pairwise_flatMap.mpr ⟨fun i hi => ?_, ?_⟩
  · exact (h.child i (Nat.lt_succ_iff.mp (List.mem_range.mp hi))).sorted
  · refine List.pairwise_lt_range.imp_of_mem fun {i j} hi hj hij p hp q hq => ?_
    have hj : j ≤ node.count := Nat.lt_succ_iff.mp (List.mem_range.mp hj)
    obtain ⟨m, rfl⟩ : ∃ m, j = m + 1 := ⟨j - 1, by omega⟩
    have hpi := hs i (by omega) p hp
    have hqm := h.lower m (by omega) q hq
    rcases Nat.lt_or_eq_of_le (Nat.le_of_lt_succ hij) with him | rfl
    · exact (hpi.trans (h.sep i m him (by omega))).trans_le hqm
    · exact hpi.trans_le hqm

omit [BoundedOrder K] [Zero K] in
/-- A key that is not a separator is in no child but the one it is routed to. -/
theorem Layout.eq_lowerBound (h : b.Layout node c) (hs : Strict node c) {x : K} {v : Val} {i : ℕ}
    (hi : i ≤ node.count) (hmem : (x, v) ∈ c i)
    (hsep : lowerBound node.key x node.count < node.count →
      node.key (lowerBound node.key x node.count) ≠ x) :
    i = lowerBound node.key x node.count := by
  have hle := lowerBound_le node.key x node.count
  rcases lt_trichotomy i (lowerBound node.key x node.count) with hlt | heq | hgt
  · exact absurd (lt_of_lt_lowerBound hlt) (hs i (by omega) _ hmem).not_gt
  · exact heq
  · have hat := le_key_lowerBound (a := node.key) (k := x) (n := node.count) (by omega)
    have hlt : x < node.key (lowerBound node.key x node.count) :=
      lt_of_le_of_ne hat (hsep (by omega)).symm
    obtain ⟨m, rfl⟩ : ∃ m, i = m + 1 := ⟨i - 1, by omega⟩
    have hlow : node.key m ≤ x := h.lower m (by omega) _ hmem
    rcases Nat.lt_or_eq_of_le (Nat.le_of_lt_succ hgt) with hm | hm
    · exact absurd (hlt.trans (h.sep _ m hm (by omega))) hlow.not_gt
    · exact absurd (hm ▸ hlt) hlow.not_gt

/-- The bin holds exactly the sorted list `l`: in one leaf, or cut at the separators. -/
inductive Holds (b : SeqBin K) (l : List (K × Val)) : Prop
  | leaf {id : ℕ} : b.root = ⟨.leaf id, false⟩ → b.LeafHolds id l → Holds b l
  | internal {node : InternalNode K} {c : ℕ → List (K × Val)} : b.root = ⟨.internal node, false⟩ →
      b.Layout node c → Strict node c → l = flat node c → Holds b l

omit [BoundedOrder K] [Zero K] in
theorem Holds.sorted (h : b.Holds l) : Sorted l := by
  cases h with
  | leaf _ hleaf => exact hleaf.sorted
  | internal _ hlay hstrict hl => exact hl ▸ hlay.sorted_flat hstrict

omit [BoundedOrder K] [Zero K] in
/-- The leaves of a bin have room for `33 * 32` pairs. -/
theorem Holds.length_le (h : b.Holds l) : l.length ≤ 1056 := by
  cases h with
  | leaf _ hleaf => exact hleaf.length_le.trans (by decide)
  | @internal node c _ hlay _ hl =>
    rw [hl, flat, List.length_flatMap]
    have hsum : ((List.range (node.count + 1)).map fun i => (c i).length).sum ≤
        (node.count + 1) * 32 := by
      refine (List.sum_le_card_nsmul _ 32 fun n hn => ?_).trans_eq (by simp)
      obtain ⟨i, hi, rfl⟩ := List.mem_map.mp hn
      exact (hlay.child i (Nat.lt_succ_iff.mp (List.mem_range.mp hi))).length_le
    have hcount : node.count ≤ 32 := hlay.count_le
    omega

omit [BoundedOrder K] [Zero K] in
theorem holds_new : (new : SeqBin K).Holds [] :=
  .leaf rfl ⟨show 1 < 2 by decide, rfl, Sorted.nil, Nat.zero_le _⟩

omit [Zero K] in
theorem Holds.collect_eq (h : b.Holds l) : b.collect.2 = l := by
  cases h with
  | @leaf id hroot hleaf =>
    rw [collect, hroot]
    show (b.leaf id).list.collect.2 = l
    rw [hleaf.leaf]
    exact SeqList.collect_ofPairs l
  | internal hroot hlay _ hl => rw [hl, hlay.collect_eq (by rw [hroot]), flat]

/-! ### `search` -/

omit [Zero K] in
/-- The least key is in front of all separators. -/
theorem Holds.not_isSeparator_bot (h : b.Holds l) : ¬ b.IsSeparator ⊥ := by
  cases h with
  | leaf hroot _ =>
    rw [IsSeparator, hroot]
    exact not_false
  | internal hroot hlay hstrict _ =>
    rw [IsSeparator, hroot]
    rintro ⟨hlt, heq⟩
    obtain ⟨p, hp⟩ := List.exists_mem_of_ne_nil _ (hlay.nonempty _ hlt.le)
    have hbelow := hstrict _ hlt p hp
    rw [heq] at hbelow
    exact not_lt_bot hbelow

omit [Zero K] in
/-- `search` finds the keys of the list that are not separators, and the least key. -/
theorem Holds.search_eq (h : b.Holds l) (hkey : key < ⊤) :
    b.search key = if key = ⊥ ∨ HasKey key l ∧ ¬ b.IsSeparator key then 1 else 0 := by
  rcases eq_or_ne key ⊥ with rfl | hbot
  · rw [search]
    split <;> simp [SeqList.search_bot]
  have hbot : ⊥ < key := bot_lt_iff_ne_bot.mpr hbot
  cases h with
  | @leaf id hroot hleaf =>
    have hsearch := SeqList.search_ofPairs hleaf.sorted hbot hkey
    have hsep : ¬ b.IsSeparator key := by
      rw [IsSeparator, hroot]
      exact not_false
    rw [search, hroot]
    simp only [hleaf.leaf, hsearch, hsep, hbot.ne', not_false_iff, and_true, false_or]
  | @internal node c hroot hlay hstrict hl =>
    have hle := lowerBound_le node.key key node.count
    have hchild := hlay.child _ hle
    have hsearch := SeqList.search_ofPairs hchild.sorted hbot hkey
    have hsep : b.IsSeparator key ↔ lowerBound node.key key node.count < node.count ∧
        node.key (lowerBound node.key key node.count) = key := by
      rw [IsSeparator, hroot]
    -- a separator is stored on its right and looked for on its left
    have hiff : HasKey key (c (lowerBound node.key key node.count)) ↔
        HasKey key l ∧ ¬ b.IsSeparator key := by
      rw [hsep, hl]
      constructor
      · rintro ⟨v, hv⟩
        refine ⟨⟨v, mem_flat.mpr ⟨_, hle, hv⟩⟩, fun hmeets => ?_⟩
        obtain ⟨hlt, heq⟩ := hmeets
        exact absurd (hstrict _ hlt _ hv) (by rw [heq]; exact lt_irrefl _)
      · rintro ⟨⟨v, hv⟩, hnot⟩
        obtain ⟨i, hi, hv⟩ := mem_flat.mp hv
        have hidx := hlay.eq_lowerBound hstrict hi hv fun hlt heq => hnot ⟨hlt, heq⟩
        exact ⟨v, hidx ▸ hv⟩
    rw [search, hroot]
    simp only [hchild.leaf, hsearch, hiff, hbot.ne', false_or]

/-! ### `insert` -/

/-- The bin after an insertion holds `l'` and had held `l`. -/
def Inserted (key : K) (value : Val) (l : List (K × Val)) (b' : SeqBin K) : Prop :=
  ∃ l', b'.Holds l' ∧ ∀ p, p ∈ l' ↔ p ∈ insertPair key value l

/-- An insertion below an internal root, into a child with room. -/
private theorem insertLoop_strict (hroot : b.root = ⟨.internal node, false⟩) (h : b.Layout node c)
    (hs : Strict node c) (hmem : ∀ p, p ∈ flat node c ↔ p ∈ l)
    (hlt : (c (lowerBound node.key key node.count)).length < 32)
    (hsep : lowerBound node.key key node.count < node.count →
      node.key (lowerBound node.key key node.count) ≠ key)
    (hkey : key < ⊤) (hv : value ≠ -1) (n : ℕ) :
    ∃ b', b.insertLoop key value (n + 1) = some (b', true) ∧ b'.Inserted key value l := by
  have hle := lowerBound_le node.key key node.count
  have hlay := h.insert_ok hkey hv hlt
  refine ⟨_, insertLoop_internal hroot h hlt hkey hv n, _, .internal hroot hlay ?_ rfl, fun p => ?_⟩
  · intro i hi p hp
    by_cases hidx : i = lowerBound node.key key node.count
    · subst hidx
      rw [Function.update_self] at hp
      rcases mem_insertPair.mp hp with hp | ⟨rfl, -⟩
      · exact hs _ hi p hp
      · exact lt_of_le_of_ne (le_key_lowerBound hi) (hsep hi).symm
    · rw [Function.update_of_ne hidx] at hp
      exact hs i hi p hp
  · -- the key is nowhere else
    have hhas : HasKey key (c (lowerBound node.key key node.count)) ↔ HasKey key l := by
      constructor
      · rintro ⟨v, hv⟩
        exact ⟨v, (hmem _).mp (mem_flat.mpr ⟨_, hle, hv⟩)⟩
      · rintro ⟨v, hv⟩
        obtain ⟨i, hi, hv⟩ := mem_flat.mp ((hmem _).mpr hv)
        exact ⟨v, h.eq_lowerBound hs hi hv hsep ▸ hv⟩
    rw [mem_flat, mem_insertPair, ← hmem, mem_flat]
    -- only the child that the key is routed to has changed
    constructor
    · rintro ⟨i, hi, hp⟩
      by_cases hidx : i = lowerBound node.key key node.count
      · subst hidx
        rw [Function.update_self, mem_insertPair, hhas] at hp
        exact hp.imp_left fun hp => ⟨_, hi, hp⟩
      · rw [Function.update_of_ne hidx] at hp
        exact .inl ⟨i, hi, hp⟩
    · rintro (⟨i, hi, hp⟩ | ⟨rfl, hk⟩)
      · refine ⟨i, hi, ?_⟩
        by_cases hidx : i = lowerBound node.key key node.count
        · subst hidx
          rw [Function.update_self, mem_insertPair]
          exact .inl hp
        · rwa [Function.update_of_ne hidx]
      · refine ⟨_, hle, ?_⟩
        rw [Function.update_self, mem_insertPair]
        exact .inr ⟨rfl, fun h => hk (hhas.mp h)⟩

omit [BoundedOrder K] in
/-- The halves of a split hold what the child has held. -/
private theorem mem_splice_halves (hs : Sorted l) (hfull : l.length = 32) {n i : ℕ} (hi : i ≤ n)
    (hl : c i = l) {p : K × Val} :
    (∃ j ≤ n + 1, p ∈ splice c i (leftHalf l) (rightHalf l) j) ↔ ∃ j ≤ n, p ∈ c j := by
  have hhalves := halves_of_full hs hfull
  have happend : p ∈ l ↔ p ∈ leftHalf l ∨ p ∈ rightHalf l := by
    conv_lhs => rw [← hhalves.append, List.mem_append]
  constructor
  · -- in front of the halves, in one of them, or behind them
    rintro ⟨j, hj, hp⟩
    rcases splice_cases c (leftHalf l) (rightHalf l) i j with
      ⟨h, e⟩ | ⟨h, e⟩ | ⟨h, e⟩ | ⟨h, e⟩ <;> rw [e] at hp
    · exact ⟨j, by omega, hp⟩
    · exact ⟨i, hi, hl ▸ happend.mpr (.inl hp)⟩
    · exact ⟨i, hi, hl ▸ happend.mpr (.inr hp)⟩
    · exact ⟨j - 1, by omega, hp⟩
  · rintro ⟨j, hj, hp⟩
    rcases lt_trichotomy j i with h | rfl | h
    · exact ⟨j, by omega, by rwa [splice_of_lt _ _ _ h]⟩
    · rw [hl, happend] at hp
      rcases hp with hp | hp
      · exact ⟨j, by omega, by rwa [splice_self]⟩
      · exact ⟨j + 1, by omega, by rwa [splice_succ]⟩
    · exact ⟨j + 1, by omega, by rwa [splice_of_gt _ _ _ (by omega), Nat.add_sub_cancel]⟩

omit [Zero K] [BoundedOrder K] in
theorem LeafHolds.full_iff (h : b.LeafHolds id l) :
    childMax ≤ (b.leaf id).count ↔ l.length = 32 := by
  have hle := h.length_le
  rw [← not_lt, h.count_lt_iff]
  omega

theorem LeafHolds.splitKey_eq (h : b.LeafHolds id l) : splitKey (b.leaf id) = halfSep l := by
  rw [splitKey, h.leaf]
  exact congrArg halfSep (SeqList.collect_ofPairs l)

/-- The first insertion below a full leaf root. -/
private theorem insert_leaf_full (hroot : b.root = ⟨.leaf id, false⟩) (h : b.LeafHolds id l)
    (hfull : l.length = 32) (hsep : halfSep l ≠ key) (hkey : key < ⊤) (hv : value ≠ -1) :
    ∃ b', b.insertLoop key value 3 = some (b', true) ∧ b'.Inserted key value l := by
  obtain ⟨b₁, node, hloop, hroot₁, hcount, hnode, hlay⟩ :=
    insertLoop_leaf_full key value hroot h hfull 2
  have hhalves := halves_of_full h.sorted hfull
  have hidx : lowerBound node.key key node.count = if key ≤ node.key 0 then 0 else 0 + 1 := by
    rw [hcount, lowerBound_one]
  rw [hloop]
  refine insertLoop_strict hroot₁ hlay (fun i hi p hp => ?_)
    (fun p => ?_) ?_ (fun hlt => ?_) hkey hv 1
  · -- the left half is below the new separator
    obtain rfl : i = 0 := by omega
    rw [splice_self] at hp
    exact hnode ▸ hhalves.left_lt_sep p hp
  · have hmem := mem_splice_halves (c := fun _ => l) h.sorted hfull (le_refl 0) rfl (p := p)
    rw [mem_flat, hcount, hmem]
    exact ⟨fun ⟨_, _, hp⟩ => hp, fun hp => ⟨0, le_rfl, hp⟩⟩
  · rw [hidx]
    exact splice_half_lt key h.sorted hfull (node.key 0) 0
  · have hzero : lowerBound node.key key node.count = 0 := by omega
    rwa [hzero, hnode]

/-- The first insertion below a full child of a root with room. -/
private theorem insert_child_full (hroot : b.root = ⟨.internal node, false⟩) (h : b.Layout node c)
    (hs : Strict node c) (hroom : node.count < rootMax) {i : ℕ}
    (hi : lowerBound node.key key node.count = i) (hfull : (c i).length = 32)
    (hsep : i < node.count → node.key i ≠ key) (hsplit : halfSep (c i) ≠ key) (hkey : key < ⊤)
    (hv : value ≠ -1) :
    ∃ b', b.insertLoop key value 3 = some (b', true) ∧ b'.Inserted key value (flat node c) := by
  obtain ⟨b₁, hloop, hroot₁, hlay⟩ :=
    insertLoop_internal_full value hroot h hroom hi hfull 2
  have hle : i ≤ node.count := hi ▸ lowerBound_le node.key key node.count
  have hchild := h.child i hle
  have hhalves := halves_of_full hchild.sorted hfull
  have hnode := fun {j : ℕ} (hj : j < node.count + 1) =>
    insertSplit_key_ofSplit node hle (halfSep (c i)) b.fresh (b.fresh + 1) hj
  have hidx := lowerBound_insertSplit node key (halfSep (c i)) b.fresh (b.fresh + 1) hi
  rw [hloop]
  refine insertLoop_strict hroot₁ hlay (fun j hj p hp => ?_)
    (fun p => ?_) ?_ (fun hlt => ?_) hkey hv 1
  · -- every child is below its separator: the left half below the new one
    have hj : j < node.count + 1 := hj
    rw [hnode hj]
    rcases splice_cases c (leftHalf (c i)) (rightHalf (c i)) i j with
      ⟨hlt, e⟩ | ⟨heq, e⟩ | ⟨heq, e⟩ | ⟨hgt, e⟩ <;> rw [e] at hp
    · rw [if_pos hlt]
      exact hs j (by omega) p hp
    · rw [if_neg (by omega), if_pos heq]
      exact hhalves.left_lt_sep p hp
    · rw [if_neg (by omega), if_neg (by omega)]
      subst heq
      refine hs i (by omega) p ?_
      rw [← hhalves.append]
      exact List.mem_append_right _ hp
    · rw [if_neg (by omega), if_neg (by omega)]
      exact hs (j - 1) (by omega) p hp
  · rw [mem_flat, mem_flat]
    exact mem_splice_halves hchild.sorted hfull hle rfl
  · show (splice c i _ _ (lowerBound _ key (node.count + 1))).length < 32
    rw [hidx]
    exact splice_half_lt key hchild.sorted hfull (halfSep (c i)) i
  · -- the key is neither the new separator nor the one behind the child
    have hlt : lowerBound (node.insertSplit i
        (.ofSplit (halfSep (c i)) b.fresh (b.fresh + 1))).key key (node.count + 1) <
        node.count + 1 := hlt
    show (node.insertSplit i _).key (lowerBound _ key (node.count + 1)) ≠ key
    rw [hidx] at hlt ⊢
    split at hlt
    · next hk =>
      rw [if_pos hk, hnode (by omega), if_neg (lt_irrefl _), if_pos rfl]
      exact hsplit
    · next hk =>
      rw [if_neg hk, hnode (by omega), if_neg (by omega), if_neg (by omega), Nat.add_sub_cancel]
      exact hsep (by omega)

/-- An insertion that meets no separator puts its pair into the list, unless the key is there, or
seals the bin. -/
theorem Holds.insert_ok (h : b.Holds l) (hmeets : ¬ b.MeetsSeparator key) (hkey : key < ⊤)
    (hv : value ≠ -1) :
    ∃ b' r, b.insertLoop key value 3 = some (b', r) ∧
      if r then b'.Inserted key value l else b'.collect.2 = l ∧ l ≠ [] := by
  rw [MeetsSeparator, not_or] at hmeets
  obtain ⟨hsep, hsplit⟩ := hmeets
  cases h with
  | @leaf id hroot hleaf =>
    rw [hroot] at hsplit
    -- a full leaf is split once, and the next round finds room
    rcases Nat.lt_or_eq_of_le hleaf.length_le with hlt | hfull
    · obtain ⟨-, -, hsorted, hle⟩ := hleaf.insert_ok hlt hkey hv
      exact ⟨_, true, insertLoop_leaf hroot hleaf hlt hkey hv 2, _,
        .leaf hroot (hleaf.setLeaf_self hsorted hle), fun p => Iff.rfl⟩
    · obtain ⟨b', hins, hinserted⟩ := insert_leaf_full hroot hleaf hfull
        (fun heq => hsplit ⟨hleaf.full_iff.mpr hfull, hleaf.splitKey_eq.trans heq⟩) hkey hv
      exact ⟨b', true, hins, hinserted⟩
  | @internal node c hroot hlay hstrict hl =>
    subst hl
    rw [IsSeparator, hroot] at hsep
    rw [hroot] at hsplit
    have hnot : lowerBound node.key key node.count < node.count →
        node.key (lowerBound node.key key node.count) ≠ key := fun hlt heq => hsep ⟨hlt, heq⟩
    have hchild := hlay.child _ (lowerBound_le node.key key node.count)
    rcases Nat.lt_or_eq_of_le hchild.length_le with hlt | hfull
    · obtain ⟨b', hins, hinserted⟩ :=
        insertLoop_strict hroot hlay hstrict (fun p => Iff.rfl) hlt hnot hkey hv 2
      exact ⟨b', true, hins, hinserted⟩
    · -- a full child is split below a root with room, else the bin is sealed
      rcases Nat.lt_or_eq_of_le hlay.count_le with hroom | hseal
      · obtain ⟨b', hins, hinserted⟩ := insert_child_full hroot hlay hstrict hroom rfl hfull hnot
          (fun heq => hsplit ⟨hroom, hchild.full_iff.mpr hfull, hchild.splitKey_eq.trans heq⟩)
            hkey hv
        exact ⟨b', true, hins, hinserted⟩
      · refine ⟨_, false, insertLoop_seal hroot hlay hseal hfull 1,
          (hlay.setRoot _).collect_eq rfl, fun hnil => ?_⟩
        obtain ⟨p, hp⟩ := List.exists_mem_of_ne_nil _ (hlay.nonempty 0 (Nat.zero_le _))
        have hmem : p ∈ flat node c := mem_flat.mpr ⟨0, Nat.zero_le _, hp⟩
        rw [hnil] at hmem
        exact List.not_mem_nil hmem

end SeqBin

end KanvaImpl
