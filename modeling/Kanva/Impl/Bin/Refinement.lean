import Kanva.Impl.Bin.Contents
import Mathlib.Data.Finset.Card
import Mathlib.Order.Fin.Basic

/-!
# When a bin refines a finite map under insertion

A single leaf is a sorted list of the first pair of every key. The first call that meets a full leaf
splits it, and from then on the key of a separator is stored on the right of the separator but
searched for on its left: it is not found, or, once it has been inserted again, collected twice.

## Main results

* `SeqBin.insert_returns`: an insertion returns, in every bin that insertions can reach.
* `SeqBin.runInserts_shape`: whether the bin is still one leaf depends only on the keys.
* `SeqBin.refinesMap_iff`: a bin refines a finite map exactly as long as it is one leaf.
-/

namespace KanvaImpl

open Kanva SortedArray SortedAssoc

variable {K : Type} [LinearOrder K] [BoundedOrder K] [Zero K]

namespace SeqBin

/-- The calls `insert(k, v)` one after the other, all of them returning true. -/
def runInserts (b : SeqBin K) : List (K × Val) → Option (SeqBin K)
  | [] => some b
  | (k, v) :: calls =>
    match b.insert k v with
    | some (b', true) => runInserts b' calls
    | _ => none

/-- The arguments of a call of `insert`: an inner key and a value that is not reserved. -/
def InsertArgs (p : K × Val) : Prop := ⊥ < p.1 ∧ p.1 < ⊤ ∧ p.2 ≠ -1

omit [Zero K] in
instance (p : K × Val) : Decidable (InsertArgs p) :=
  inferInstanceAs (Decidable (⊥ < p.1 ∧ p.1 < ⊤ ∧ p.2 ≠ -1))

/-- `search` and `collect` answer as the finite map of the first value of every key. -/
structure RefinesMap (calls : List (K × Val)) (b : SeqBin K) : Prop where
  search_iff : ∀ k, ⊥ < k → k < ⊤ → (b.search k ≠ 0 ↔ HasKey k calls)
  collect_sorted : Sorted b.collect.2
  collect_iff : ∀ k v, (k, v) ∈ b.collect.2 ↔ calls.lookup k = some v

variable {b b' : SeqBin K} {node : InternalNode K} {c : ℕ → List (K × Val)} {id : ℕ}
  {l : List (K × Val)} {key : K} {value : Val} {calls : List (K × Val)} {P : K → Prop}

theorem runInserts_concat {p : K × Val} :
    b.runInserts (calls ++ [p]) = some b' ↔
      ∃ b₁, b.runInserts calls = some b₁ ∧ b₁.insert p.1 p.2 = some (b', true) := by
  induction calls generalizing b with
  | nil =>
    obtain ⟨k, v⟩ := p
    simp only [List.nil_append, runInserts, Option.some.injEq, exists_eq_left']
    rcases b.insert k v with _ | ⟨b₁, _ | _⟩ <;> simp
  | cons q calls ih =>
    obtain ⟨k, v⟩ := q
    simp only [List.cons_append, runInserts]
    rcases b.insert k v with _ | ⟨b₁, _ | _⟩ <;> simp [ih]

/-! ### `insert` -/

/-- The bin has an internal root over leaves with keys in `P`. -/
def Grown (P : K → Prop) (b : SeqBin K) : Prop :=
  ∃ node c, b.root = ⟨.internal node, false⟩ ∧ b.Layout node c ∧
    ∀ i ≤ node.count, ∀ p ∈ c i, P p.1

/-- The last round of an insertion below an internal root. -/
private theorem insertLoop_grown (hroot : b.root = ⟨.internal node, false⟩) (h : b.Layout node c)
    (hP : ∀ i ≤ node.count, ∀ p ∈ c i, P p.1)
    (hlt : (c (lowerBound node.key key node.count)).length < 32) (hkey : key < ⊤) (hv : value ≠ -1)
    (n : ℕ) :
    ∃ b', b.insertLoop key value (n + 1) = some (b', true) ∧
      b'.Grown (fun k => k = key ∨ P k) := by
  refine ⟨_, insertLoop_internal hroot h hlt hkey hv n, node, _, hroot, h.insert_ok hkey hv hlt, ?_⟩
  intro i hi p hp
  by_cases hidx : i = lowerBound node.key key node.count
  · subst hidx
    rw [Function.update_self] at hp
    rcases mem_insertPair.mp hp with hp | ⟨rfl, -⟩
    · exact .inr (hP _ hi p hp)
    · exact .inl rfl
  · rw [Function.update_of_ne hidx] at hp
    exact .inr (hP i hi p hp)

omit [BoundedOrder K] in
/-- The halves hold nothing new. -/
private theorem splice_halves_mem (hs : Sorted l) (hfull : l.length = 32) {i j : ℕ} {p : K × Val}
    (hp : p ∈ splice c i (leftHalf l) (rightHalf l) j) :
    p ∈ l ∨ j < i ∧ p ∈ c j ∨ i + 1 < j ∧ p ∈ c (j - 1) := by
  have hhalves := halves_of_full hs hfull
  rw [← hhalves.append, List.mem_append]
  rcases splice_cases c (leftHalf l) (rightHalf l) i j with ⟨hj, e⟩ | ⟨-, e⟩ | ⟨-, e⟩ | ⟨hj, e⟩ <;>
    rw [e] at hp
  · exact .inr (.inl ⟨hj, hp⟩)
  · exact .inl (.inl hp)
  · exact .inl (.inr hp)
  · exact .inr (.inr ⟨hj, hp⟩)

/-- An insertion that finds the leaf root full splits it. -/
theorem insert_full (hroot : b.root = ⟨.leaf id, false⟩) (h : b.LeafHolds id l)
    (hfull : l.length = 32) (hP : ∀ p ∈ l, P p.1) (hkey : key < ⊤) (hv : value ≠ -1) :
    ∃ b', b.insert key value = some (b', true) ∧ b'.Grown (fun k => k = key ∨ P k) := by
  obtain ⟨b₁, node, hloop, hroot₁, hcount, -, hlay⟩ :=
    insertLoop_leaf_full key value hroot h hfull 2
  have hle := lowerBound_le node.key key node.count
  rw [insert, hloop]
  refine insertLoop_grown hroot₁ hlay (fun i hi p hp => ?_) ?_ hkey hv 1
  · rcases splice_halves_mem h.sorted hfull hp with hl | ⟨-, hl⟩ | ⟨-, hl⟩ <;> exact hP p hl
  · have hhalf := splice_half_lt (c := fun _ => l) key h.sorted hfull (node.key 0) 0
    rwa [hcount, lowerBound_one]

/-- An insertion below an internal root stays below an internal root, or seals the bin. -/
theorem Grown.insert_ok (h : b.Grown P) (hkey : key < ⊤) (hv : value ≠ -1) :
    ∃ b' r, b.insert key value = some (b', r) ∧
      (r = true → b'.Grown (fun k => k = key ∨ P k)) := by
  obtain ⟨node, c, hroot, hlay, hP⟩ := h
  have hle := lowerBound_le node.key key node.count
  have hchild := hlay.child _ hle
  rcases Nat.lt_or_eq_of_le hchild.length_le with hlt | hfull
  · obtain ⟨b', hloop, hgrown⟩ := insertLoop_grown hroot hlay hP hlt hkey hv 2
    exact ⟨b', true, hloop, fun _ => hgrown⟩
  · rcases Nat.lt_or_eq_of_le hlay.count_le with hroom | hseal
    · obtain ⟨b₁, hloop, hroot₁, hlay₁⟩ :=
        insertLoop_internal_full value hroot hlay hroom rfl hfull 2
      have hidx := lowerBound_insertSplit node key
        (halfSep (c (lowerBound node.key key node.count))) b.fresh (b.fresh + 1) rfl
      have hhalf := splice_half_lt (c := c) key hchild.sorted hfull
        (halfSep (c (lowerBound node.key key node.count))) (lowerBound node.key key node.count)
      rw [← hidx] at hhalf
      obtain ⟨b', hloop', hgrown⟩ := insertLoop_grown (P := P) hroot₁ hlay₁ (fun i hi p hp => by
        have hi : i ≤ node.count + 1 := hi
        rcases splice_halves_mem hchild.sorted hfull hp with hl | ⟨hij, hl⟩ | ⟨hij, hl⟩
        · exact hP _ hle p hl
        · exact hP i (by omega) p hl
        · exact hP (i - 1) (by omega) p hl) hhalf hkey hv 1
      exact ⟨b', true, by rw [insert, hloop, hloop'], fun _ => hgrown⟩
    · exact ⟨_, false, insertLoop_seal hroot hlay hseal hfull 1, fun hr => by simp at hr⟩

/-! ### One leaf -/

/-- The bin is one leaf, with the first pair of every key. -/
def Single (calls : List (K × Val)) (b : SeqBin K) : Prop :=
  ∃ id l, b.root = ⟨.leaf id, false⟩ ∧ b.LeafHolds id l ∧
    (∀ k v, (k, v) ∈ l ↔ calls.lookup k = some v) ∧
    l.length = (calls.map Prod.fst).toFinset.card

omit [BoundedOrder K] [Zero K] in
theorem single_new : (new : SeqBin K).Single [] :=
  ⟨1, [], rfl, ⟨show 1 < 2 by decide, rfl, Sorted.nil, Nat.zero_le _⟩, by simp, rfl⟩

/-- One insertion into a single leaf. -/
theorem Single.insert_ok (h : b.Single calls) (hkey : key < ⊤) (hv : value ≠ -1) :
    ∃ b', b.insert key value = some (b', true) ∧
      if (calls.map Prod.fst).toFinset.card < 32 then b'.Single (calls ++ [(key, value)])
      else b'.Grown (fun k => HasKey k (calls ++ [(key, value)])) := by
  obtain ⟨id, l, hroot, hleaf, hmem, hlen⟩ := h
  have hhas : ∀ k, HasKey k l ↔ HasKey k calls := fun k => by
    rw [hasKey_iff_lookup calls]
    exact exists_congr fun v => hmem k v
  rw [← hlen]
  -- the leaf has room while fewer than 32 keys have been inserted
  split
  · next hlt =>
    obtain ⟨-, -, hs, hle⟩ := hleaf.insert_ok hlt hkey hv
    refine ⟨_, insertLoop_leaf hroot hleaf hlt hkey hv 2, id, _, hroot, hleaf.setLeaf_self hs hle,
      fun k v => ?_, ?_⟩
    · rw [mem_insertPair, hmem, lookup_concat, hhas, hasKey_iff_lookup calls]
      by_cases hk : k = key
      · subst hk
        cases calls.lookup k <;> simp [eq_comm]
      · simp [hk]
    · rw [length_insertPair, hlen, List.map_append, List.toFinset_append]
      simp only [List.map_cons, List.map_nil, List.toFinset_cons, List.toFinset_nil,
        insert_empty_eq]
      have hiff : HasKey key l ↔ key ∈ (calls.map Prod.fst).toFinset := by
        rw [hhas, hasKey_iff_mem_map, List.mem_toFinset]
      rw [Finset.union_comm, ← Finset.insert_eq]
      split
      · next hk => rw [Finset.card_insert_of_mem (hiff.mp hk)]
      · next hk => rw [Finset.card_insert_of_notMem (fun hin => hk (hiff.mpr hin))]
  · next hfull =>
    -- the leaf is split, and what its halves hold still are keys of the calls
    have hfull : l.length = 32 := le_antisymm hleaf.length_le (by omega)
    obtain ⟨b', hins, node, c, hroot', hlay, hP⟩ := insert_full (P := fun k => HasKey k calls)
      hroot hleaf hfull (fun p hp => (hhas p.1).mp ⟨p.2, hp⟩) hkey hv
    refine ⟨b', hins, node, c, hroot', hlay, fun i hi p hp => ?_⟩
    rcases hP i hi p hp with heq | ⟨v, hv⟩
    · exact ⟨value, by simp [heq]⟩
    · exact ⟨v, List.mem_append_left _ hv⟩

omit [Zero K] in
/-- A single leaf is the finite map. -/
theorem Single.refinesMap (h : b.Single calls) : b.RefinesMap calls := by
  obtain ⟨id, l, hroot, hleaf, hmem, -⟩ := h
  have hcollect : b.collect.2 = l := by
    rw [collect, hroot]
    show (b.leaf id).list.collect.2 = l
    rw [hleaf.leaf]
    exact SeqList.collect_ofPairs l
  refine ⟨fun k hbot hk => ?_, hcollect ▸ hleaf.sorted, fun k v => hcollect ▸ hmem k v⟩
  have hsearch := SeqList.search_ofPairs hleaf.sorted hbot hk
  rw [search, hroot]
  simp only [hleaf.leaf]
  have hhas : HasKey k l ↔ HasKey k calls := by
    rw [hasKey_iff_lookup calls]
    exact exists_congr fun v => hmem k v
  rw [← hhas, ← hsearch]
  by_cases hs : (SeqList.ofPairs l).search k = true <;> simp [hs]

/-! ### After a split -/

omit [Zero K] in
/-- Collecting a leaf does not change what another collect of it returns. -/
private theorem collect_collectLeaf (b : SeqBin K) (id id' : ℕ) :
    ((b.collectLeaf id).1.leaf id').list.collect.2 = (b.leaf id').list.collect.2 := by
  simp only [collectLeaf, setLeaf]
  by_cases h : id' = id
  · subst h
    rw [Function.update_self]
    have hfrom : ∀ (m : Bool) (cs : List (ListCell K)),
        SeqList.collectFrom m (cs.map fun c => { c with freeze := true }) =
          SeqList.collectFrom m cs := by
      intro m cs
      induction cs generalizing m with
      | nil => rfl
      | cons c cs ih => simp [SeqList.collectFrom, ih]
    simp [SeqList.collect, hfrom]
  · rw [Function.update_of_ne h]

omit [Zero K] in
/-- `collect` appends the contents of the leaves. -/
theorem Layout.collect_eq (hroot : b.root.node = .internal node) (h : b.Layout node c) :
    b.collect.2 = (List.range (node.count + 1)).flatMap c := by
  have hloop : ∀ (is : List ℕ) (r : SeqBin K × List (K × Val)),
      (∀ id, (r.1.leaf id).list.collect.2 = (b.leaf id).list.collect.2) →
      (is.foldl (fun r i => ((r.1.collectLeaf (node.ptr i)).1,
          r.2 ++ (r.1.collectLeaf (node.ptr i)).2)) r).2 =
        r.2 ++ is.flatMap fun i => (b.leaf (node.ptr i)).list.collect.2 := by
    intro is
    induction is with
    | nil => simp
    | cons i is ih =>
      intro r hr
      have hrest := ih ((r.1.collectLeaf (node.ptr i)).1, r.2 ++ (r.1.collectLeaf (node.ptr i)).2)
        fun id => (collect_collectLeaf r.1 _ id).trans (hr id)
      rw [List.foldl_cons, hrest, List.flatMap_cons, ← List.append_assoc, ← hr (node.ptr i)]
      rfl
  rw [collect, hroot]
  simp only
  rw [hloop _ (b, []) fun _ => rfl, List.nil_append]
  refine List.flatMap_congr fun i hi => ?_
  rw [(h.child i (Nat.le_of_lt_succ (List.mem_range.mp hi))).leaf]
  exact SeqList.collect_ofPairs (c i)

omit [Zero K] in
/-- The first separator is missed by `search` or collected twice. -/
theorem Grown.not_refinesMap (hcalls : ∀ p ∈ calls, InsertArgs p)
    (h : b.Grown fun k => HasKey k calls) : ¬ b.RefinesMap calls := by
  rintro ⟨hsearch, hsorted, -⟩
  obtain ⟨node, c, hroot, hlay, hP⟩ := h
  obtain ⟨w, hw⟩ := hlay.sep_mem 0 hlay.count_pos
  have hkey : HasKey (node.key 0) calls := hP 1 hlay.count_pos _ hw
  obtain ⟨v, hv⟩ := hkey
  obtain ⟨hbot, htop, -⟩ := hcalls _ hv
  -- a key equal to the first separator is routed to the first child
  have hidx : lowerBound node.key (node.key 0) node.count = 0 :=
    lowerBound_eq (Nat.zero_le _) (fun j hj => by omega) fun _ => le_rfl
  have hfirst := hlay.child 0 (Nat.zero_le _)
  have hfound : (SeqList.ofPairs (c 0)).search (node.key 0) = true := by
    have hne := (hsearch _ hbot htop).mpr ⟨v, hv⟩
    rw [search, hroot] at hne
    simp only [hidx, hfirst.leaf] at hne
    simpa using hne
  obtain ⟨u, hu⟩ := (SeqList.search_ofPairs hfirst.sorted hbot htop).mp hfound
  -- so it is in the first child and in the second
  rw [hlay.collect_eq (by rw [hroot]), List.range_succ_eq_map, List.flatMap_cons,
    Sorted.append_iff] at hsorted
  refine absurd (hsorted.2.2 _ hu (node.key 0, w) ?_) (lt_irrefl _)
  have hone : 1 ∈ (List.range node.count).map Nat.succ :=
    List.mem_map.mpr ⟨0, List.mem_range.mpr hlay.count_pos, rfl⟩
  exact List.mem_flatMap.mpr ⟨1, hone, hw⟩

/-! ### Runs -/

omit [LinearOrder K] [BoundedOrder K] [Zero K] in
/-- More calls have more keys. -/
private theorem card_dropLast_le [DecidableEq K] (calls : List (K × Val)) :
    (calls.dropLast.map Prod.fst).toFinset.card ≤ (calls.map Prod.fst).toFinset.card :=
  Finset.card_le_card fun k hk => by
    rw [List.mem_toFinset] at hk ⊢
    exact ((List.dropLast_sublist calls).map Prod.fst).subset hk

/-- The bin is one leaf until a call finds 32 keys. -/
theorem runInserts_shape (hcalls : ∀ p ∈ calls, InsertArgs p)
    (hrun : new.runInserts calls = some b) :
    if (calls.dropLast.map Prod.fst).toFinset.card < 32 then b.Single calls
    else b.Grown fun k => HasKey k calls := by
  induction calls using List.reverseRecOn generalizing b with
  | nil =>
    obtain rfl : new = b := by simpa [runInserts] using hrun
    exact single_new
  | append_singleton calls p ih =>
    obtain ⟨b₁, hrun₁, hins⟩ := runInserts_concat.mp hrun
    have h := ih (fun q hq => hcalls q (List.mem_append_left _ hq)) hrun₁
    obtain ⟨-, htop, hv⟩ := hcalls p (by simp)
    rw [List.dropLast_concat]
    split at h
    · obtain ⟨b₂, hins₂, hshape⟩ := h.insert_ok htop hv
      obtain rfl : b₂ = b := by simpa [hins₂] using hins
      exact hshape
    · next hmany =>
      obtain ⟨b₂, r, hins₂, hgrown⟩ := h.insert_ok htop hv
      obtain ⟨rfl, rfl⟩ : b₂ = b ∧ r = true := by simpa [hins₂] using hins
      rw [if_neg fun hlt => hmany ((card_dropLast_le calls).trans_lt hlt)]
      obtain ⟨node, c, hroot, hlay, hP⟩ := hgrown rfl
      refine ⟨node, c, hroot, hlay, fun i hi q hq => ?_⟩
      rcases hP i hi q hq with heq | ⟨v, hmem⟩
      · exact ⟨p.2, by simp [heq]⟩
      · exact ⟨v, List.mem_append_left _ hmem⟩

/-- An insertion into a bin that insertions have built returns: the rounds of `insert` are
enough. -/
theorem insert_returns (hcalls : ∀ p ∈ calls, InsertArgs p) (hrun : new.runInserts calls = some b)
    (hkey : key < ⊤) (hv : value ≠ -1) : ∃ r, b.insert key value = some r := by
  have h := runInserts_shape hcalls hrun
  split at h
  · obtain ⟨b', hins, -⟩ := h.insert_ok hkey hv
    exact ⟨_, hins⟩
  · obtain ⟨b', r, hins, -⟩ := h.insert_ok hkey hv
    exact ⟨_, hins⟩

/-- After calls of `insert` that all return true, a bin is the finite map of the first values
exactly when the calls before the last one have at most 31 different keys. -/
theorem refinesMap_iff {calls : List (K × Val)} {b : SeqBin K}
    (hcalls : ∀ p ∈ calls, InsertArgs p) (hrun : new.runInserts calls = some b) :
    b.RefinesMap calls ↔ (calls.dropLast.map Prod.fst).toFinset.card < 32 := by
  have h := runInserts_shape hcalls hrun
  split at h
  · next hlt => exact ⟨fun _ => hlt, fun _ => h.refinesMap⟩
  · next hge => exact ⟨fun href => absurd href (h.not_refinesMap hcalls), fun hlt => absurd hlt hge⟩

/-- The calls `insert(1, 1)`, …, `insert(n, n)`. -/
def upTo (n : ℕ) : List (Fin 64 × Val) :=
  (List.range n).map fun i => (Fin.ofNat 64 (i + 1), (i + 1 : ℕ))

theorem refinesMap_iff_three : ∃ b, new.runInserts (upTo 3) = some b ∧
    (b.RefinesMap (upTo 3) ↔ ((upTo 3).dropLast.map Prod.fst).toFinset.card < 32) := by
  obtain ⟨b, hb⟩ : ∃ b, new.runInserts (upTo 3) = some b :=
    Option.isSome_iff_exists.mp (by decide +kernel)
  exact ⟨b, hb, refinesMap_iff (by decide) hb⟩

/-- The 33rd key splits the leaf with separator 17, and `search(17)` goes to the left of it. -/
theorem not_refinesMap_full : ∃ b, (∀ p ∈ upTo 33, InsertArgs p) ∧
    new.runInserts (upTo 33) = some b ∧ ¬ b.RefinesMap (upTo 33) := by
  have hsearch : (new.runInserts (upTo 33)).map (fun b => b.search 17) = some 0 := by
    decide +kernel
  obtain ⟨b, hb, hzero⟩ := Option.map_eq_some_iff.mp hsearch
  refine ⟨b, by decide, hb, fun h => ?_⟩
  exact (h.search_iff 17 (by decide) (by decide)).mpr (by decide) hzero

end SeqBin

end KanvaImpl
