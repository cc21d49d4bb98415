import Kanva.Impl.Bin.Checked

/-!
# The status of a removal

The `remove` of the list returns the value of the node it has removed, as an `int`, or -1 in a
frozen list, or -2 when the key is missing. A 64-bit value whose lowest 32 bits are those of -1 or
-2 is taken for a status: `remove_internal` then splits a leaf that is not frozen and from which it
has just removed the key.

## Main results

* `SeqList.BinList.wf`: the lists of a bin are sorted, and either without tag bits or wholly frozen.
* `SeqList.unambiguous_iff`: when the status of a removal is unambiguous.
-/

namespace KanvaImpl

open Kanva SortedArray SortedAssoc

variable {K : Type} [LinearOrder K] [BoundedOrder K] [Zero K]

namespace SeqList

/-- The lists of a bin: those its calls make of an empty list, and of the halves of the pairs that
`split_root` has got from `collect`. -/
inductive BinList : SeqList K → Prop
  | new : BinList new
  | insert {s : SeqList K} {key : K} (value : Val) : BinList s → ⊥ < key → key < ⊤ →
      BinList (s.insert key value).1
  | remove {s : SeqList K} {key : K} : BinList s → ⊥ < key → key < ⊤ → BinList (s.remove key).1
  | collect {s : SeqList K} : BinList s → BinList s.collect.1
  | left {s : SeqList K} : BinList s → BinList (ofPairs (SeqBin.leftHalf s.collect.2))
  | right {s : SeqList K} : BinList s → BinList (ofPairs (SeqBin.rightHalf s.collect.2))

/-- The status tells a frozen list, a list without the key and a removal apart, and
`remove_internal` replaces the root only for a frozen leaf, from which it has removed nothing. -/
structure Unambiguous (s : SeqList K) (key : K) : Prop where
  frozen : (s.remove key).2 = -1 ↔ s.headFreeze = true
  absent : (s.remove key).2 = -2 ↔ s.headFreeze = false ∧ ¬ HasKey key s.pairs
  removed : (s.remove key).2 ≠ -1 → (s.remove key).2 ≠ -2 →
    HasKey key s.pairs ∧ (s.remove key).1.pairs = erasePair key s.pairs
  split : ∀ (b : SeqBin K) (node : InternalNode K),
    (b.leaf (node.ptr (lowerBound node.key key node.count))).list = s →
    b.removeInternal none node key ≠ none → s.headFreeze = true ∧ (s.remove key).1 = s

/-- The list is sorted, and either has no tag bit or is wholly frozen. -/
def Wf (s : SeqList K) : Prop := ∃ l, Sorted l ∧ (s = ofPairs l ∨ s = (ofPairs l).collect.1)

variable {s : SeqList K} {key : K} {l : List (K × Val)}

omit [Zero K] in
theorem rejects_collect (s : SeqList K) (key : K) : s.collect.1.Rejects key :=
  rejects_of_headFreeze rfl key

omit [Zero K] in
theorem clean_collect (h : s.Clean) : s.collect.1.Clean := by
  intro c hc
  obtain ⟨d, hd, rfl⟩ := List.mem_map.mp hc
  exact h d hd

omit [Zero K] in
theorem collect_collect (s : SeqList K) : s.collect.1.collect.1 = s.collect.1 := by
  simp [collect, Function.comp_def]

omit [Zero K] in
/-- Every list of a bin is well formed. -/
theorem BinList.wf (h : s.BinList) : s.Wf := by
  -- the pairs that are split are those of a sorted list, frozen or not
  have hsplit : ∀ {s : SeqList K}, s.Wf → Sorted s.collect.2 := by
    rintro s ⟨l, hs, rfl | rfl⟩
    · rwa [collect_ofPairs]
    · rwa [collect_eq_pairs (clean_collect (clean_ofPairs l)), pairs_collect, pairs_ofPairs]
  induction h with
  | new => exact ⟨[], Sorted.nil, .inl rfl⟩
  | @insert s key value _ _ hkey ih =>
    -- an open list takes the pair, a frozen one rejects the call
    obtain ⟨l, hs, rfl | rfl⟩ := ih
    · by_cases hv : value = -1
      · rw [insert_of_not_args (fun h => h.2 hv)]
        exact ⟨l, hs, .inl rfl⟩
      · rw [insert_ofPairs hs hkey hv]
        exact ⟨_, hs.insertPair, .inl rfl⟩
    · rw [(rejects_collect (ofPairs l) key).insert]
      exact ⟨l, hs, .inr rfl⟩
  | @remove s key _ _ hkey ih =>
    obtain ⟨l, hs, rfl | rfl⟩ := ih
    · obtain ⟨r, hr⟩ := remove_ofPairs hs hkey
      rw [hr]
      exact ⟨_, hs.erasePair, .inl rfl⟩
    · rw [(rejects_collect (ofPairs l) key).remove]
      exact ⟨l, hs, .inr rfl⟩
  | @collect s _ ih =>
    obtain ⟨l, hs, rfl | rfl⟩ := ih
    · exact ⟨l, hs, .inr rfl⟩
    · exact ⟨l, hs, .inr (collect_collect _)⟩
  | left _ ih => exact ⟨_, (hsplit ih).sublist (List.take_sublist _ _), .inl rfl⟩
  | right _ ih => exact ⟨_, (hsplit ih).sublist (List.drop_sublist _ _), .inl rfl⟩

/-- `remove_internal` replaces the root only when the list returns -1. -/
theorem removeInternal_eq_none (b : SeqBin K) (node : InternalNode K)
    (hlist : (b.leaf (node.ptr (lowerBound node.key key node.count))).list = s)
    (hres : (s.remove key).2 ≠ -1) : b.removeInternal none node key = none := by
  rw [SeqBin.removeInternal]
  simp only [hlist, if_neg hres]
  rfl

/-- In a frozen list the status is unambiguous. -/
theorem unambiguous_of_frozen (h : s.headFreeze = true) (key : K) : s.Unambiguous key := by
  have hremove := (rejects_of_headFreeze h key).remove
  refine ⟨?_, ?_, ?_, ?_⟩
  · simp [hremove, h]
  · simp [hremove, h]
  · intro hne
    exact absurd (by rw [hremove]) hne
  · intro b node _ _
    exact ⟨h, by rw [hremove]⟩

/-- In a list that is not frozen it is, unless the value of the key reads as a status. -/
theorem unambiguous_ofPairs_iff (hs : Sorted l) (hkey : key < ⊤) :
    (ofPairs l).Unambiguous key ↔
      ∀ v, (key, v) ∈ l → LinkedList.toInt v ≠ -1 ∧ LinkedList.toInt v ≠ -2 := by
  have hopen : (ofPairs l).headFreeze = false := rfl
  -- a removal returns the value of the key, and only -2 when the key is absent
  by_cases hk : HasKey key l
  · obtain ⟨v, hv⟩ := hk
    have herase : below key l ++ (above key l).tail = erasePair key l := (if_pos ⟨v, hv⟩).symm
    have hremove := remove_of_mem hs hkey hv
    rw [herase] at hremove
    constructor
    · intro h w hw
      obtain rfl := hs.eq_of_mem hw hv
      have hfrozen := h.frozen
      have habsent := h.absent
      rw [hremove] at hfrozen habsent
      refine ⟨fun heq => ?_, fun heq => ?_⟩
      · exact absurd (hfrozen.mp heq) (by simp [hopen])
      · exact (habsent.mp heq).2 ⟨w, by rwa [pairs_ofPairs]⟩
    · intro h
      obtain ⟨hone, htwo⟩ := h v hv
      refine ⟨?_, ?_, ?_, ?_⟩
      · simp [hremove, hone, hopen]
      · simp only [hremove, htwo, pairs_ofPairs, false_iff, not_and, not_not]
        exact fun _ => ⟨v, hv⟩
      · intro _ _
        rw [hremove, pairs_ofPairs, pairs_ofPairs]
        exact ⟨⟨v, hv⟩, rfl⟩
      · intro b node hlist hroot
        exact absurd (removeInternal_eq_none b node hlist (by rwa [hremove])) hroot
  · have hremove := remove_of_not_hasKey hs hkey hk
    refine iff_of_true ⟨?_, ?_, ?_, ?_⟩ fun v hv => absurd ⟨v, hv⟩ hk
    · simp [hremove, hopen]
    · simp [hremove, hopen, hk]
    · intro _ htwo
      exact absurd (by rw [hremove]) htwo
    · intro b node hlist hroot
      exact absurd (removeInternal_eq_none b node hlist (by simp [hremove])) hroot

/-- When the status of a removal from a list of a bin is unambiguous. -/
theorem unambiguous_iff (h : s.BinList) (hkey : key < ⊤) :
    s.Unambiguous key ↔ s.headFreeze = true ∨
      ∀ v, (key, v) ∈ s.pairs → LinkedList.toInt v ≠ -1 ∧ LinkedList.toInt v ≠ -2 := by
  obtain ⟨l, hs, rfl | rfl⟩ := h.wf
  · rw [unambiguous_ofPairs_iff hs hkey, pairs_ofPairs]
    exact ⟨.inr, fun h => h.resolve_left (by simp [ofPairs])⟩
  · exact iff_of_true (unambiguous_of_frozen rfl key) (.inl rfl)

/-- The list after `insert(5, v)`. -/
def withFive (v : Val) : SeqList (Fin 64) := (new.insert 5 v).1

theorem binList_withFive (v : Val) : (withFive v).BinList :=
  .insert v .new (by decide) (by decide)

theorem unambiguous_iff_withFive : (withFive 50).Unambiguous 5 ↔ (withFive 50).headFreeze = true ∨
    ∀ v, (5, v) ∈ (withFive 50).pairs → LinkedList.toInt v ≠ -1 ∧ LinkedList.toInt v ≠ -2 :=
  unambiguous_iff (binList_withFive 50) (by decide)

/-- The insertions of 4294967295 and of -2 return 1. The removals take the key out and return -1 and
-2, and `remove_internal` splits the leaf that has just become empty. -/
theorem not_unambiguous_withFive :
    (new.insert (5 : Fin 64) 4294967295).2 = 1 ∧ (new.insert (5 : Fin 64) (-2)).2 = 1 ∧
    (withFive 4294967295).BinList ∧ (withFive (-2)).BinList ∧
    (withFive 4294967295).remove 5 = (new, -1) ∧ (withFive (-2)).remove 5 = (new, -2) ∧
    ((⟨⟨.internal (.ofSplit 10 1 2), false⟩, 3, fun _ => ⟨1, withFive 4294967295⟩⟩ :
      SeqBin (Fin 64)).removeInternal none (.ofSplit 10 1 2) 5).isSome ∧
    ¬ (withFive 4294967295).Unambiguous 5 ∧ ¬ (withFive (-2)).Unambiguous 5 := by
  refine ⟨by decide, by decide, binList_withFive _, binList_withFive _, by decide, by decide,
    by decide, fun h => ?_, fun h => ?_⟩
  · exact absurd (h.frozen.mp (by decide)) (by decide)
  · exact absurd (h.absent.mp (by decide)).2 (by decide)

end SeqList

end KanvaImpl
