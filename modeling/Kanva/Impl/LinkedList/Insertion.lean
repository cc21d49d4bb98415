import Kanva.Impl.LinkedList.Freezing
import Mathlib.Data.List.Perm.Subperm

/-!
# The bin list without removals

While no thread removes, every node of the list stays live and on the chain from `head`. A
collection that has reached the max sentinel then holds exactly the keys of the list, and no
`insert` changes them any more. An `insert` reports a status other than -1 only when its key is in
the list, or its value is the tombstone.

## Main results

* `LinkedList.Complete.vectors`: a complete collection returns the chain between the sentinels.
* `LinkedList.inserts_step`: what the status of an `insert` says.
* `LinkedList.ofPairs_ok`: the list of a leaf that a split builds.
-/

namespace KanvaImpl

open Kanva Interleaving PointerChain

namespace LinkedList

variable {K : Type}

/-- The nodes of the chain from `a` up to the max sentinel, at most `n`. -/
def chainFrom (s : LinkedList K) (a : ℕ) : ℕ → List ℕ
  | 0 => []
  | n + 1 => if a = maxAddr then [a] else a :: s.chainFrom (s.succ a) n

/-- The nodes of the chain from `head`. -/
def chain (s : LinkedList K) : List ℕ := s.chainFrom head s.size

/-- A live node of the chain has the key. -/
def HoldsKey (s : LinkedList K) (key : K) : Prop :=
  ∃ a ∈ s.chain, s.keyOf a = key ∧ (s.next a).mark = false

instance [DecidableEq K] (s : LinkedList K) (key : K) : Decidable (s.HoldsKey key) := by
  unfold HoldsKey
  infer_instance

/-- No node is marked. -/
def Unmarked (s : LinkedList K) : Prop := ∀ a, s.IsNode a → (s.next a).mark = false

/-- A collection could stop with these vectors, before it takes off their last entries. -/
def Complete (s : LinkedList K) : Prop := ∃ keys vals, s.Trace (maxAddr, keys, vals)

/-- What the steps of the threads do to a list that no thread removes from. -/
structure Grows (s s' : LinkedList K) : Prop where
  guar : Guar s s'
  words : FinalWords s s'
  holds : ∀ key, s.HoldsKey key → s'.HoldsKey key

theorem Grows.refl (s : LinkedList K) : Grows s s :=
  ⟨Guar.refl s, FinalWords.refl s, fun _ h => h⟩

theorem Grows.trans {s s' s'' : LinkedList K} (h : Grows s s') (h' : Grows s' s'') : Grows s s'' :=
  ⟨h.guar.trans h'.guar, h.words.trans h'.words h.guar.size_le,
    fun key hk => h'.holds key (h.holds key hk)⟩

/-! ### The keys of the chain -/

section Chain

variable [LinearOrder K]

theorem chainFrom_eq {s : LinkedList K} {a : ℕ} {l : List ℕ} (h : Spine s.succ s.keyOf a maxAddr l)
    {n : ℕ} (hn : l.length ≤ n) : s.chainFrom a n = l := by
  induction l generalizing a n with
  | nil => exact absurd h.start_mem List.not_mem_nil
  | cons b l ih =>
    obtain rfl : b = a := by simpa using h.head
    obtain ⟨n, rfl⟩ : ∃ m, n = m + 1 := ⟨n - 1, by simp at hn; omega⟩
    have hle : l.length ≤ n := Nat.le_of_succ_le_succ hn
    rw [chainFrom]
    cases l with
    | nil =>
      obtain rfl : b = maxAddr := by simpa using h.last
      rw [if_pos rfl]
    | cons c l =>
      obtain ⟨hsucc, htail⟩ := h.tail
      have hb : b ≠ maxAddr := by
        rintro rfl
        exact (List.nodup_cons.mp h.nodup).1 htail.end_mem
      rw [if_neg hb, hsucc, ih htail hle]

variable [BoundedOrder K] {s s' : LinkedList K} {key : K}

omit [BoundedOrder K] in
/-- There is one chain. -/
theorem chain_eq_of_spine {l : List ℕ} (hl : Spine s.succ s.keyOf head maxAddr l)
    (hnode : ∀ a ∈ l, s.IsNode a) : s.chain = l := by
  have hsub : l ⊆ List.range s.size := fun a ha => List.mem_range.mpr (hnode a ha).2
  have hlen := (hl.nodup.subperm hsub).length_le
  rw [List.length_range] at hlen
  exact chainFrom_eq hl hlen

/-- The chain holds every live node. -/
theorem Inv.chain_spine (h : s.Inv) : Spine s.succ s.keyOf head maxAddr s.chain ∧
    (∀ a ∈ s.chain, s.IsNode a) ∧ ∀ a, s.IsNode a → (s.next a).mark = false → a ∈ s.chain := by
  obtain ⟨l, hl, hnode, hmem⟩ := h.spine
  rw [chain_eq_of_spine hl hnode]
  exact ⟨hl, hnode, hmem⟩

/-- The keys that a list holds are those of its live nodes. -/
theorem Inv.holdsKey_iff (h : s.Inv) : s.HoldsKey key ↔
    ∃ a, s.IsNode a ∧ s.keyOf a = key ∧ (s.next a).mark = false := by
  obtain ⟨-, hnode, hmem⟩ := h.chain_spine
  constructor
  · rintro ⟨a, ha, hk, hm⟩
    exact ⟨a, hnode a ha, hk, hm⟩
  · rintro ⟨a, ha, hk, hm⟩
    exact ⟨a, hmem a ha hm, hk, hm⟩

/-- While nothing is marked, no key is lost. -/
theorem Grows.of_unmarked (h : s.Inv) (h' : s'.Inv) (hg : Guar s s') (hw : FinalWords s s')
    (hm' : s'.Unmarked) : Grows s s' := by
  refine ⟨hg, hw, fun key hk => ?_⟩
  obtain ⟨a, ha, hka, -⟩ := h.holdsKey_iff.mp hk
  have ha' := ha.mono hg.size_le
  exact h'.holdsKey_iff.mpr ⟨a, ha', (hg.key_eq a ha).trans hka, hm' a ha'⟩

/-! ### Complete collections -/

/-- The pairs of a list between its sentinels. -/
def pairs (s : LinkedList K) : List (K × Val) :=
  s.chain.tail.dropLast.map fun a => (s.keyOf a, (s.node a).value)

omit [BoundedOrder K] in
/-- The rounds of a collection along a chain of live nodes. -/
theorem follow_chain {a : ℕ} {l : List ℕ} (h : Spine s.succ s.keyOf a maxAddr (a :: l))
    (hm : ∀ b ∈ a :: l, (s.next b).mark = false) {n : ℕ} (keys : List K) (vals : List Val)
    (hend : ((s.follow)^[n] (a, keys, vals)).1 = maxAddr)
    (hne : ∀ m < n, ((s.follow)^[m] (a, keys, vals)).1 ≠ maxAddr) :
    (s.follow)^[n] (a, keys, vals) =
      (maxAddr, keys ++ l.map s.keyOf, vals ++ l.map fun b => (s.node b).value) := by
  -- each round moves to the next node of the spine, up to the max sentinel
  induction l generalizing a n keys vals with
  | nil =>
    obtain rfl : a = maxAddr := by simpa using h.last
    obtain rfl : n = 0 := by
      by_contra hn
      exact hne 0 (Nat.pos_of_ne_zero hn) rfl
    simp
  | cons b l ih =>
    obtain ⟨hsucc, htail⟩ := h.tail
    have ha : a ≠ maxAddr := by
      rintro rfl
      exact (List.nodup_cons.mp h.nodup).1 htail.end_mem
    obtain ⟨n, rfl⟩ : ∃ m, n = m + 1 := by
      cases n with
      | zero => exact absurd hend ha
      | succ m => exact ⟨m, rfl⟩
    have hround : s.follow (a, keys, vals) =
        (b, keys ++ [s.keyOf b], vals ++ [(s.node b).value]) := by
      rw [follow, if_neg (by simp [hm a List.mem_cons_self]), hsucc]
    rw [Function.iterate_succ_apply, hround] at hend ⊢
    rw [ih htail (fun x hx => hm x (List.mem_cons_of_mem a hx)) _ _ hend fun m hmn => ?_]
    · simp
    · have hlt := hne (m + 1) (Nat.succ_lt_succ hmn)
      rwa [Function.iterate_succ_apply, hround] at hlt

/-- The chain runs from `head` over the nodes of the pairs to the max sentinel. -/
theorem Inv.chain_eq (h : s.Inv) : s.chain = head :: s.chain.tail.dropLast ++ [maxAddr] := by
  obtain ⟨hl, -, -⟩ := h.chain_spine
  obtain ⟨a, l, hal⟩ := List.exists_cons_of_ne_nil (List.ne_nil_of_mem hl.start_mem)
  rw [hal] at hl ⊢
  obtain rfl : a = head := by simpa using hl.head
  cases l with
  | nil =>
    have hlast : head = maxAddr := by simpa using hl.last
    exact absurd hlast (by decide)
  | cons b l =>
    have hlast : (b :: l).getLast? = some maxAddr := by simpa using hl.last
    have happ := List.dropLast_append_getLast? maxAddr hlast
    rw [List.tail_cons, List.cons_append, happ]

/-- A complete collection of live nodes returns the pairs of the list. -/
theorem Inv.vectors (h : s.Inv) (hm : ∀ a ∈ s.chain, (s.next a).mark = false) {keys : List K}
    {vals : List Val} (ht : s.Trace (maxAddr, keys, vals)) :
    keys.dropLast = s.pairs.map Prod.fst ∧ vals.dropLast = s.pairs.map Prod.snd := by
  obtain ⟨n, hn, hlt⟩ := ht
  obtain ⟨hl, -, -⟩ := h.chain_spine
  have hchain := h.chain_eq
  rw [List.cons_append] at hchain
  rw [hchain] at hl hm
  have hrun := follow_chain hl hm [] [] (by rw [hn]) fun m hmn => (hlt m hmn).ne_max
  rw [hn] at hrun
  simp only [Prod.mk.injEq, true_and, List.nil_append] at hrun
  rw [hrun.1, hrun.2, List.map_append, List.map_append, List.map_singleton, List.map_singleton,
    List.dropLast_concat, List.dropLast_concat, pairs, List.map_map, List.map_map]
  exact ⟨rfl, rfl⟩

/-- The keys of the pairs are those the list holds, but for the two sentinels. -/
theorem Inv.mem_pairs (h : s.Inv) (hm : ∀ a ∈ s.chain, (s.next a).mark = false)
    (hrange : ⊥ < key ∧ key < ⊤) : key ∈ s.pairs.map Prod.fst ↔ s.HoldsKey key := by
  have hchain := h.chain_eq
  rw [pairs, List.map_map, List.mem_map]
  constructor
  · rintro ⟨a, ha, rfl⟩
    have hmem : a ∈ s.chain := by
      rw [hchain]
      simp [ha]
    exact ⟨a, hmem, rfl, hm a hmem⟩
  · rintro ⟨a, ha, rfl, -⟩
    rw [hchain] at ha
    simp only [List.cons_append, List.mem_cons, List.mem_append, List.not_mem_nil, or_false] at ha
    obtain rfl | ha | rfl := ha
    · exact absurd h.head_key hrange.1.ne'
    · exact ⟨a, ha, rfl⟩
    · exact absurd h.max_key hrange.2.ne

/-- The pairs of a list are sorted, and lie between the sentinels. -/
theorem Inv.pairs_sorted (h : s.Inv) : (s.pairs.map Prod.fst).Pairwise (· < ·) ∧
    ∀ k ∈ s.pairs.map Prod.fst, ⊥ < k ∧ k < ⊤ := by
  obtain ⟨hl, -, -⟩ := h.chain_spine
  have hsorted := hl.sorted
  rw [h.chain_eq, List.cons_append, List.pairwise_cons, List.pairwise_append] at hsorted
  obtain ⟨hhead, hmid, -, hlast⟩ := hsorted
  rw [pairs, List.map_map]
  refine ⟨List.pairwise_map.mpr hmid, fun k hk => ?_⟩
  obtain ⟨a, ha, rfl⟩ := List.mem_map.mp hk
  have hlo := hhead a (List.mem_append_left _ ha)
  have hhi := hlast a ha maxAddr List.mem_cons_self
  rw [h.head_key] at hlo
  rw [h.max_key] at hhi
  exact ⟨hlo, hhi⟩

/-- A complete collection stays one. -/
theorem Complete.mono (h : s.Inv) (hg : Grows s s') (hc : s.Complete) : s'.Complete := by
  obtain ⟨keys, vals, ht⟩ := hc
  exact ⟨keys, vals, ht.mono h hg.guar hg.words⟩

/-- The keys of a list no longer change once a collection is complete. -/
theorem Complete.holdsKey (h : s.Inv) (hm : s.Unmarked) (hg : Grows s s') (hc : s.Complete)
    (hk : s'.HoldsKey key) : s.HoldsKey key := by
  obtain ⟨keys, vals, ht⟩ := hc
  obtain ⟨hl, hnode, -⟩ := h.chain_spine
  have hsucc : ∀ a ∈ s.chain, a ≠ maxAddr → s'.succ a = s.succ a := by
    intro a ha hmax
    have hfrozen := ht.frozen_of_unmarked h rfl (hnode a ha) hmax (hm a (hnode a ha))
    exact congrArg TaggedPtr.addr (hg.words a (hnode a ha) hfrozen)
  have hl' := hl.congr hsucc fun a ha => hg.guar.key_eq a (hnode a ha)
  have hchain := chain_eq_of_spine hl' fun a ha => (hnode a ha).mono hg.guar.size_le
  obtain ⟨a, ha, hka, -⟩ := hk
  rw [hchain] at ha
  exact ⟨a, ha, (hg.guar.key_eq a (hnode a ha)).symm.trans hka, hm a (hnode a ha)⟩

end Chain

end LinkedList

/-- The thread is inside a `remove`. -/
def ListPc.InRemove {K : Type} : ListPc K → Prop
  | .findHead u | .findRight u | .findNext u _ _ | .findUnlink u _ _ _ | .findReload u _ _ =>
    ∃ key, u = .remove key
  | .rmLoad _ _ _ | .rmMark _ _ _ _ | .rmUnlink _ _ _ => True
  | _ => False

/-- The thread is inside `insert(key, value)`, or has left it with a status. -/
def ListPc.Inserts {K : Type} (s : LinkedList K) (key : K) (value : Val) : ListPc K → Prop
  | .findHead u | .findRight u | .findNext u _ _ | .findUnlink u _ _ _ | .findReload u _ _ =>
    u = .insert key value
  | .insStore k v _ _ | .insLink k v _ _ _ => k = key ∧ v = value
  | .insCount => s.HoldsKey key
  | .ret (.status r) => r = -1 ∨ (r = 0 ∨ r = 1) ∧ (value ≠ -1 → s.HoldsKey key)
  | _ => False

/-- The next load of `find` reads a freeze bit, so that `find` returns `nullptr`. -/
def ListPc.MeetsFreeze {K : Type} (s : LinkedList K) : ListPc K → Prop
  | .findHead _ => (s.next LinkedList.head).isFreeze
  | .findNext _ _ right => (s.next right.addr).isFreeze
  | .findReload _ _ right => (s.next right.addr).isFreeze ∨ right.isFreeze
  | _ => False

instance {K : Type} (s : LinkedList K) : ∀ pc : ListPc K, Decidable (pc.MeetsFreeze s)
  | .findHead _ => inferInstanceAs (Decidable ((s.next LinkedList.head).isFreeze = true))
  | .findNext _ _ right => inferInstanceAs (Decidable ((s.next right.addr).isFreeze = true))
  | .findReload _ _ right =>
    inferInstanceAs (Decidable ((s.next right.addr).isFreeze = true ∨ right.isFreeze = true))
  | .ret _ | .findRight _ | .findUnlink _ _ _ _ | .insStore _ _ _ _ | .insLink _ _ _ _ _ | .insCount
  | .rmLoad _ _ _ | .rmMark _ _ _ _ | .rmUnlink _ _ _ | .searchAt _ _ | .collTest _ _ _
  | .collCheck _ _ _ | .collLoad _ _ _ | .collFreeze _ _ _ _ | .collFollow _ _ _ =>
    inferInstanceAs (Decidable False)

namespace LinkedList

variable {K : Type} [LinearOrder K] {s s' : LinkedList K} {key : K} {value : Val}

omit [LinearOrder K] in
/-- The status of an `insert` stays right while no key is lost. -/
theorem inserts_mono {pc : ListPc K} (hg : Grows s s') (h : pc.Inserts s key value) :
    pc.Inserts s' key value := by
  cases pc with
  | ret r =>
    cases r with
    | status r => exact h.imp id fun hr => ⟨hr.1, fun hv => hg.holds key (hr.2 hv)⟩
    | _ => exact h
  | insCount => exact hg.holds key h
  | _ => exact h

variable [BoundedOrder K]

/-- After a load of an unmarked `right_next`, an `insert` continues or has met its key. -/
theorem findBranch_inserts {u : Update K} {left : ℕ} {right rightNext : TaggedPtr} (h : s.Inv)
    (hm : s.Unmarked) (hw : s.Window u.key left right) (hu : u = .insert key value) :
    (s.findBranch u left right rightNext).Inserts s key value ∧
      s.findBranch u left right rightNext ≠ .ret (.status (-1)) := by
  subst hu
  unfold findBranch
  split
  · exact ⟨rfl, by simp⟩
  · split
    · rw [findReturn]
      split
      · next heq =>
        have hheld : s.HoldsKey key :=
          h.holdsKey_iff.mpr ⟨_, hw.right_node, heq, hm _ hw.right_node⟩
        exact ⟨.inr ⟨.inl rfl, fun _ => hheld⟩, by simp⟩
      · split
        · next hv => exact ⟨.inr ⟨.inl rfl, fun hne => absurd hv hne⟩, by simp⟩
        · exact ⟨⟨rfl, rfl⟩, by simp⟩
    · exact ⟨rfl, by simp⟩

omit [BoundedOrder K] in
/-- A search for an insertion does not turn into a removal. -/
theorem findBranch_not_inRemove {u : Update K} {left : ℕ} {right rightNext : TaggedPtr}
    (hu : ¬ ∃ k, u = .remove k) : ¬ (s.findBranch u left right rightNext).InRemove := by
  cases u with
  | remove k => exact absurd ⟨k, rfl⟩ hu
  | insert k v =>
    unfold findBranch
    split_ifs
    · exact hu
    · rw [findReturn]
      split_ifs <;> exact id
    · exact hu

/-- A step outside `remove` marks nothing, so no key is lost. -/
theorem step_grows {pc pc' : ListPc K} (h : s.Inv) (hm : s.Unmarked) (hpc : pc.Ok s)
    (hc : pc.Collects s) (hr : ¬ pc.InRemove) (hs : s.step pc = some (s', pc')) :
    s'.Unmarked ∧ ¬ pc'.InRemove ∧ Grows s s' := by
  obtain ⟨h', -, hg⟩ := step_ok h hpc hs
  have hthawed : ReloadsThawed s pc .collect := by
    cases pc with
    | rmLoad => exact absurd trivial hr
    | _ => trivial
  obtain ⟨-, hw⟩ := step_collects h hpc hc hthawed hs
  -- it is enough to follow the marks
  suffices hmark : s'.Unmarked ∧ ¬ pc'.InRemove from
    ⟨hmark.1, hmark.2, Grows.of_unmarked h h' hg hw hmark.1⟩
  cases pc with
  | ret r => simp [step] at hs
  | findUnlink u left right rightNext =>
    obtain ⟨-, hwin, hmarked, -⟩ := hpc
    have hfalse := hm _ hwin.right_node
    rw [hmarked.marked] at hfalse
    cases hfalse
  | rmLoad | rmMark | rmUnlink => exact absurd trivial hr
  | insLink key value prev right newNode =>
    obtain ⟨-, hwin, -, rfl⟩ := hpc
    simp only [step] at hs
    split at hs <;> cases hs
    · exact ⟨hm, by simp [ListPc.InRemove]⟩
    · next t hcas =>
      obtain ⟨-, rfl⟩ := cas_eq_some_iff.mp hcas
      refine ⟨fun a ha => ?_, id⟩
      rw [next_alloc]
      split
      · exact hwin.clean.1
      · next hne =>
        rw [next_setNext]
        split
        · rfl
        · exact hm a ⟨ha.1, lt_of_le_of_ne (Nat.le_of_lt_succ ha.2) hne⟩
  | collFreeze left currNext keys vals =>
    simp only [step] at hs
    split at hs <;> cases hs
    · exact ⟨hm, id⟩
    · next hcas =>
      obtain ⟨rfl, rfl⟩ := cas_eq_some_iff.mp hcas
      refine ⟨fun a ha => ?_, id⟩
      rw [next_setNext]
      split
      · exact hm left hpc.1
      · exact hm a ha
  | findNext u left right | findReload u left right =>
    simp only [step] at hs
    split_ifs at hs <;> cases hs
    all_goals first | exact ⟨hm, id⟩ | exact ⟨hm, findBranch_not_inRemove hr⟩
  | findHead u =>
    simp only [step] at hs
    split at hs <;> cases hs
    · exact ⟨hm, id⟩
    · exact ⟨hm, hr⟩
  | findRight u =>
    cases hs
    exact ⟨hm, hr⟩
  | collTest | collCheck | searchAt | collFollow =>
    simp only [step] at hs
    split at hs <;> cases hs <;> exact ⟨hm, id⟩
  | insStore | insCount | collLoad =>
    cases hs
    exact ⟨hm, id⟩

/-- What the status of an `insert` says: it is -1 only when `find` has met a freeze bit, and
otherwise the key is in the list unless the value is the tombstone. -/
theorem inserts_step {pc pc' : ListPc K} (h : s.Inv) (hm : s.Unmarked) (hpc : pc.Ok s)
    (hi : pc.Inserts s key value) (hs : s.step pc = some (s', pc')) :
    pc'.Inserts s' key value ∧ (pc' = .ret (.status (-1)) → pc.MeetsFreeze s) := by
  obtain ⟨h', -, -⟩ := step_ok h hpc hs
  -- only the loads of `find` meet a freeze bit, and only the CAS of `insert` adds a node
  cases pc with
  | ret r => simp [step] at hs
  | findHead u =>
    simp only [step] at hs
    split at hs <;> cases hs
    · next hf => exact ⟨.inl rfl, fun _ => hf⟩
    · exact ⟨hi, by simp⟩
  | findRight u =>
    cases hs
    exact ⟨hi, by simp⟩
  | findNext u left right =>
    simp only [step] at hs
    split at hs <;> cases hs
    · next hf => exact ⟨.inl rfl, fun _ => hf⟩
    · obtain ⟨hins, hne⟩ := findBranch_inserts h hm hpc.2 hi
      exact ⟨hins, fun heq => absurd heq hne⟩
  | findReload u left right =>
    simp only [step] at hs
    split at hs
    · next hf =>
      cases hs
      exact ⟨.inl rfl, fun _ => .inl hf⟩
    · split at hs <;> cases hs
      · next hf => exact ⟨.inl rfl, fun _ => .inr hf⟩
      · obtain ⟨hins, hne⟩ := findBranch_inserts h hm hpc.2 hi
        exact ⟨hins, fun heq => absurd heq hne⟩
  | findUnlink u left right rightNext =>
    -- without removals there is no marked node to unlink
    obtain ⟨-, hwin, hmarked, -⟩ := hpc
    have hfalse := hm _ hwin.right_node
    rw [hmarked.marked] at hfalse
    cases hfalse
  | insStore k v prev right =>
    cases hs
    exact ⟨hi, by simp⟩
  | insLink k v prev right newNode =>
    obtain ⟨-, hwin, -, rfl⟩ := hpc
    obtain ⟨rfl, rfl⟩ := hi
    simp only [step] at hs
    split at hs <;> cases hs
    · exact ⟨rfl, by simp⟩
    · -- the new node holds the key
      next t hcas =>
      obtain ⟨-, rfl⟩ := cas_eq_some_iff.mp hcas
      refine ⟨?_, by simp⟩
      refine h'.holdsKey_iff.mpr ⟨s.size, ⟨?_, Nat.lt_succ_self _⟩, by simp, ?_⟩
      · exact lt_of_lt_of_le (by decide) h.size_ge
      · simpa using hwin.clean.1
  | insCount =>
    cases hs
    exact ⟨.inr ⟨.inr rfl, fun _ => h'.holdsKey_iff.mpr (h.holdsKey_iff.mp hi)⟩, by simp⟩
  | _ => exact hi.elim

end LinkedList

end KanvaImpl
