import Kanva.Impl.LinkedList.Removal

/-!
# Searches and collections beside removals

The chain from a node comes to the same unmarked nodes whatever the other threads do, so a search
does not miss an unmarked node that was there when it started. A collection copies the key of a node
that a frozen word points at, and no removal marks such a node while `KeyThawed` holds.

## Main results

* `LinkedList.step_seeks`: a search for an unmarked node finds it or meets a freeze bit.
* `LinkedList.step_copies`: a key that a collection has copied belongs to such a node.
* `LinkedList.step_live`: a live node stays live, or its key is removed at a word that is not
  frozen.
-/

namespace KanvaImpl

open Kanva PointerChain

/-! ### The program points -/

/-- The thread is inside the update, or has left it with a status. -/
def ListPc.For {K : Type} (u : Update K) : ListPc K → Prop
  | .findHead v | .findRight v | .findNext v _ _ | .findUnlink v _ _ _ | .findReload v _ _ => v = u
  | .insStore key value _ _ | .insLink key value _ _ _ => u = .insert key value
  | .insCount => ∃ key value, u = .insert key value
  | .rmLoad key _ _ | .rmMark key _ _ _ => u = .remove key
  | .rmUnlink _ _ _ => ∃ key, u = .remove key
  | .ret (.status _) | .ret (.misread _) => True
  | _ => False

/-- A `remove` that has not missed the unmarked node `a`: it can still find it, or has met a freeze
bit. -/
def ListPc.Seeks {K : Type} (s : LinkedList K) (a : ℕ) : ListPc K → Prop
  | .findHead _ | .findRight _ => True
  | .findNext _ _ right | .findUnlink _ _ right _ | .findReload _ _ right => s.Reaches right.addr a
  | .rmLoad _ _ right | .rmMark _ _ right _ => right.addr = a
  | .ret (.status r) => r = -1
  | _ => False

/-- The keys that a collection has copied up to `left`. -/
structure LinkedList.Copied {K : Type} [LinearOrder K] [BoundedOrder K] (key : K)
    (s : LinkedList K) (left : ℕ) (keys : List K) (vals : List Val) : Prop where
  length : keys.length = vals.length
  sorted : keys.Pairwise (· < ·)
  mem : ∀ k ∈ keys, ⊥ < k ∧ k ≤ s.keyOf left ∧ ∃ a, s.IsNode a ∧ s.keyOf a = k
  taken : key ∈ keys → s.Taken key

/-- The vectors that `collect` has filled. -/
structure LinkedList.Vectors {K : Type} [LinearOrder K] [BoundedOrder K] (key : K)
    (s : LinkedList K) (keys : List K) (vals : List Val) : Prop where
  done : s.Done
  length : keys.length = vals.length
  sorted : keys.Pairwise (· < ·)
  mem : ∀ k ∈ keys, ⊥ < k ∧ k < ⊤ ∧ ∃ a, s.IsNode a ∧ s.keyOf a = k
  taken : key ∈ keys → s.Taken key

/-- The thread is inside `collect`, or has left it with its vectors. -/
def ListPc.Copies {K : Type} [LinearOrder K] [BoundedOrder K] (key : K) (s : LinkedList K) :
    ListPc K → Prop
  | .collTest left keys vals | .collCheck left keys vals | .collLoad left keys vals
  | .collFreeze left _ keys vals | .collFollow left keys vals => s.Copied key left keys vals
  | .ret (.vectors keys vals) => s.Vectors key keys vals
  | _ => False

namespace LinkedList

variable {K : Type} [LinearOrder K] [BoundedOrder K] {s s' : LinkedList K} {key : K} {a b : ℕ}
  {u : Update K} {pc pc' : ListPc K}

omit [BoundedOrder K] in
/-- A search turns into the call it was made for. -/
theorem findBranch_for (s : LinkedList K) (u : Update K) (left : ℕ) (right rightNext : TaggedPtr) :
    (s.findBranch u left right rightNext).For u := by
  unfold findBranch
  split_ifs
  · rfl
  · cases u with
    | insert k v =>
      rw [findReturn]
      split_ifs
      · trivial
      · trivial
      · rfl
    | remove k =>
      rw [findReturn]
      split_ifs
      · trivial
      · rfl
  · rfl

omit [BoundedOrder K] in
/-- A call stays the same call. -/
theorem step_for (hu : pc.For u) (hs : s.step pc = some (s', pc')) : pc'.For u := by
  cases pc with
  | ret r => simp [step] at hs
  | findNext v left right | findReload v left right =>
    obtain rfl : v = u := hu
    simp only [step] at hs
    split_ifs at hs <;> cases hs <;> first | trivial | exact findBranch_for _ _ _ _ _
  | findHead v =>
    simp only [step] at hs
    split at hs <;> cases hs
    · trivial
    · exact hu
  | findUnlink v left right rightNext =>
    simp only [step] at hs
    split at hs <;> cases hs <;> exact hu
  | insLink k v prev right n =>
    obtain rfl : u = .insert k v := hu
    simp only [step] at hs
    split at hs <;> cases hs
    · rfl
    · exact ⟨k, v, rfl⟩
  | rmLoad k prev right =>
    simp only [step] at hs
    split at hs <;> cases hs
    · exact hu
    · exact ⟨k, hu⟩
  | rmMark k prev right rightNext =>
    simp only [step] at hs
    split at hs <;> cases hs
    · exact hu.symm
    · exact ⟨k, hu⟩
  | rmUnlink prev right rightNext =>
    simp only [step] at hs
    split at hs <;> cases hs
    all_goals
      unfold valueResult
      split <;> trivial
  | insStore | findRight =>
    cases hs
    exact hu
  | insCount =>
    cases hs
    trivial
  | _ => exact hu.elim

/-- The frozen words stay frozen. -/
theorem frozenOk_mono (hpc : pc.Ok s) (hg : Guar s s') (hfr : pc.FrozenOk s) : pc.FrozenOk s' := by
  cases pc with
  | rmMark k prev right rightNext =>
    exact fun hf => (hg.frozen _ hpc.2.1.right_node (hfr hf)).1
  | rmUnlink prev right rightNext =>
    obtain ⟨⟨k, -, hw⟩, -⟩ := hpc
    exact fun hf => (hg.frozen _ hw.right_node (hfr hf)).1
  | collTest | collCheck | collLoad | collFreeze => exact Passed.mono hg hfr
  | collFollow left keys vals => exact ⟨hfr.1.mono hg, (hg.frozen _ hpc.1 hfr.2).1⟩
  | _ => trivial

omit [BoundedOrder K] in
/-- A search has loaded no word for a CAS of `remove`. -/
theorem findBranch_frozenOk (s : LinkedList K) (u : Update K) (left : ℕ)
    (right rightNext : TaggedPtr) : (s.findBranch u left right rightNext).FrozenOk s := by
  unfold findBranch
  split_ifs
  · trivial
  · cases u with
    | insert | remove =>
      rw [findReturn]
      split_ifs <;> trivial
  · trivial

/-- A collection moves on over frozen words only. -/
theorem step_frozenOk (h : s.Inv) (hpc : pc.Ok s) (hfr : pc.FrozenOk s)
    (hs : s.step pc = some (s', pc')) : pc'.FrozenOk s' := by
  obtain ⟨-, -, hguar⟩ := step_ok h hpc hs
  cases pc with
  | ret r => simp [step] at hs
  | findNext u left right | findReload u left right =>
    simp only [step] at hs
    split_ifs at hs <;> cases hs <;> first | trivial | exact findBranch_frozenOk _ _ _ _ _
  | rmLoad k prev right =>
    simp only [step] at hs
    split at hs <;> cases hs <;> exact id
  | rmMark k prev right rightNext =>
    simp only [step] at hs
    split at hs <;> cases hs
    · trivial
    · next hcas =>
      obtain ⟨hnext, rfl⟩ := cas_eq_some_iff.mp hcas
      intro hf
      simpa using hf
  | collTest =>
    simp only [step] at hs
    split at hs <;> cases hs
    · trivial
    · exact hfr
  | collCheck =>
    simp only [step] at hs
    split at hs <;> cases hs
    · exact hfr
    · next hf => exact ⟨hfr, by simpa [TaggedPtr.isFreeze] using hf⟩
  | collLoad =>
    cases hs
    exact hfr
  | collFreeze left currNext keys vals =>
    simp only [step] at hs
    split at hs <;> cases hs
    · exact hfr
    · next hcas =>
      obtain ⟨hnext, rfl⟩ := cas_eq_some_iff.mp hcas
      exact ⟨Passed.mono hguar hfr, by simp⟩
  | collFollow left keys vals =>
    have hstep : s.Passed (s.succ left) := hfr.1.tail ⟨⟨hpc.1, hpc.2, hfr.2⟩, rfl⟩
    simp only [step] at hs
    split at hs <;> cases hs <;> exact hstep
  | findHead | findUnlink | insLink | searchAt =>
    simp only [step] at hs
    split at hs <;> cases hs <;> trivial
  | rmUnlink prev right rightNext =>
    simp only [step] at hs
    split at hs <;> cases hs <;> trivial
  | findRight | insStore | insCount =>
    cases hs
    trivial

/-! ### A search -/

omit [LinearOrder K] [BoundedOrder K] in
/-- A search stays on the way to a node that is still unmarked. -/
theorem seeks_mono (hg : KeyGuar s s') (ha : s.IsNode a) (hm : (s'.next a).mark = false)
    (hsk : pc.Seeks s a) : pc.Seeks s' a := by
  cases pc with
  | findNext | findUnlink | findReload => exact hg.reaches _ a ha hm hsk
  | ret r => cases r <;> exact hsk
  | _ => exact hsk

/-- After a load of `right_next`, a search for an unmarked node is still on its way. -/
theorem findBranch_seeks (left : ℕ) {right : TaggedPtr} (h : s.Inv) (ha : s.LiveAt key a)
    (hr : s.Reaches right.addr a) :
    (s.findBranch (.remove key) left right (s.next right.addr)).Seeks s a ∧
      s.findBranch (.remove key) left right (s.next right.addr) ≠ .ret (.status (-1)) := by
  unfold findBranch
  split
  · exact ⟨hr, by simp⟩
  · next hmark =>
    split
    · next hle =>
      -- the first key that is not less is the one of the node
      have heq : right.addr = a := by
        rcases hr.key_lt h with heq | hlt
        · exact heq
        · exact absurd (ha.key_eq ▸ hlt) (not_lt.mpr hle)
      have hkey : (s.node right.addr).key = key := heq ▸ ha.key_eq
      rw [findReturn, if_neg (not_not.mpr hkey)]
      exact ⟨heq, by simp⟩
    · next hle =>
      refine ⟨hr.next ?_, by simp⟩
      rintro rfl
      exact hle ha.key_eq.ge

/-- A `remove` does not miss an unmarked node: it goes on searching, meets a freeze bit, or marks
it. -/
theorem step_seeks (h : s.Inv) (hpc : pc.Ok s) (hfr : pc.FrozenOk s) (hu : pc.For (.remove key))
    (ha : s.LiveAt key a) (hsk : pc.Seeks s a) (hs : s.step pc = some (s', pc'))
    (hm : (s'.next a).mark = false) :
    pc'.Seeks s' a ∧ (pc' = .ret (.status (-1)) → pc.MeetsFreeze s) := by
  have hw := step_write h hpc hfr hs
  cases pc with
  | ret r => simp [step] at hs
  | findHead v =>
    simp only [step] at hs
    split at hs <;> cases hs
    · next hf => exact ⟨rfl, fun _ => hf⟩
    · exact ⟨trivial, by simp⟩
  | findRight v =>
    obtain rfl : v = .remove key := hu
    cases hs
    refine ⟨Reaches.next (h.reaches_head ha.isNode ha.unmarked) ?_, by simp⟩
    rintro rfl
    exact absurd (h.head_key.symm.trans ha.key_eq) hpc.1.ne
  | findNext v left right =>
    obtain rfl : v = .remove key := hu
    simp only [step] at hs
    split at hs <;> cases hs
    · next hf => exact ⟨rfl, fun _ => hf⟩
    · obtain ⟨hsk', hne⟩ := findBranch_seeks left h ha hsk
      exact ⟨hsk', fun heq => absurd heq hne⟩
  | findReload v left right =>
    obtain rfl : v = .remove key := hu
    simp only [step] at hs
    split at hs
    · next hf =>
      cases hs
      exact ⟨rfl, fun _ => .inl hf⟩
    · split at hs <;> cases hs
      · next hf => exact ⟨rfl, fun _ => .inr hf⟩
      · obtain ⟨hsk', hne⟩ := findBranch_seeks left h ha hsk
        exact ⟨hsk', fun heq => absurd heq hne⟩
  | findUnlink v left right rightNext =>
    obtain ⟨-, hwin, hmarked, -⟩ := hpc
    simp only [step] at hs
    split at hs <;> cases hs
    · exact ⟨trivial, by simp⟩
    · next hcas =>
      obtain ⟨hnext, rfl⟩ := cas_eq_some_iff.mp hcas
      -- the node that is unlinked is marked, so it is another one
      have hne : right.addr ≠ a := by
        rintro rfl
        have hlive := ha.unmarked
        rw [hmarked.marked] at hlive
        cases hlive
      have hrest := Reaches.next hsk hne
      rw [hmarked.addr] at hrest
      exact ⟨hw.reaches h hm hrest, by simp⟩
  | rmLoad k prev right =>
    obtain rfl : right.addr = a := hsk
    simp only [step] at hs
    split at hs <;> cases hs
    · exact ⟨rfl, by simp⟩
    · next hmark => exact absurd ha.unmarked (by simpa [TaggedPtr.isMarked] using hmark)
  | rmMark k prev right rightNext =>
    obtain rfl : right.addr = a := hsk
    simp only [step] at hs
    split at hs <;> cases hs
    · exact ⟨trivial, by simp⟩
    · next hcas =>
      obtain ⟨hnext, rfl⟩ := cas_eq_some_iff.mp hcas
      simp at hm
  | insStore | insLink => cases hu
  | insCount =>
    obtain ⟨k, v, heq⟩ := hu
    cases heq
  | rmUnlink => exact hsk.elim
  | _ => exact hu.elim

/-! ### A collection -/

/-- The keys that a collection has copied stay copied. -/
theorem copies_mono (h : s.Inv) (hpc : pc.Ok s) (hg : KeyGuar s s') (hc : pc.Copies key s) :
    pc.Copies key s' := by
  have hnode : ∀ {k : K}, (∃ a, s.IsNode a ∧ s.keyOf a = k) →
      ∃ a, s'.IsNode a ∧ s'.keyOf a = k := by
    rintro k ⟨a, ha, rfl⟩
    exact ⟨a, ha.mono hg.guar.size_le, hg.guar.key_eq a ha⟩
  have hcopied : ∀ {left : ℕ} {keys : List K} {vals : List Val}, s.IsNode left →
      s.Copied key left keys vals → s'.Copied key left keys vals := by
    intro left keys vals hleft hc
    refine ⟨hc.length, hc.sorted, fun k hk => ?_, fun hk => (hc.taken hk).mono h hg.guar⟩
    obtain ⟨hbot, hle, hex⟩ := hc.mem k hk
    exact ⟨hbot, by rwa [hg.guar.key_eq left hleft], hnode hex⟩
  cases pc with
  | collTest => exact hcopied hpc hc
  | collCheck | collLoad | collFreeze | collFollow => exact hcopied hpc.1 hc
  | ret r =>
    cases r with
    | vectors keys vals =>
      refine ⟨hg.done hc.done, hc.length, hc.sorted, fun k hk => ?_, fun hk =>
        (hc.taken hk).mono h hg.guar⟩
      obtain ⟨hbot, htop, hex⟩ := hc.mem k hk
      exact ⟨hbot, htop, hnode hex⟩
    | _ => exact hc.elim
  | _ => exact hc.elim

/-- What `collect` does at the max sentinel. -/
theorem Copied.vectors (h : s.Inv) (hp : s.Passed maxAddr) {keys : List K} {vals : List Val}
    (hc : s.Copied key maxAddr keys vals) : s.Vectors key keys.dropLast vals.dropLast where
  done := h.done_of_passed hp
  length := by rw [List.length_dropLast, List.length_dropLast, hc.length]
  sorted := hc.sorted.sublist (List.dropLast_sublist _)
  mem k hk := by
    obtain ⟨hbot, -, hex⟩ := hc.mem k (List.mem_of_mem_dropLast hk)
    have hne : keys ≠ [] := by
      rintro rfl
      cases hk
    have happ := List.dropLast_append_getLast hne
    have hsorted := hc.sorted
    rw [← happ, List.pairwise_append] at hsorted
    have hlt := hsorted.2.2 k hk _ (List.mem_singleton_self _)
    exact ⟨hbot, hlt.trans_le le_top, hex⟩
  taken hk := hc.taken (List.mem_of_mem_dropLast hk)

/-- A collection copies the key of a node that a frozen word points at. -/
theorem step_copies (h : s.Inv) (hpc : pc.Ok s) (hfr : pc.FrozenOk s) (hc : pc.Copies key s)
    (hg : KeyGuar s s') (hs : s.step pc = some (s', pc')) : pc'.Copies key s' := by
  cases pc with
  | ret r => simp [step] at hs
  | collTest left keys vals =>
    simp only [step] at hs
    split at hs <;> cases hs
    · next hnull =>
      -- only the max sentinel has a null word
      have hleft : left = maxAddr := by
        by_contra hmax
        have hpos := (h.succ_node left hpc hmax).1
        simp [succ, hnull, TaggedPtr.null] at hpos
      subst hleft
      exact Copied.vectors h hfr hc
    · exact hc
  | collCheck left keys vals =>
    simp only [step] at hs
    split at hs <;> cases hs <;> exact hc
  | collLoad left keys vals =>
    cases hs
    exact hc
  | collFreeze left currNext keys vals =>
    have hmono := copies_mono h hpc hg hc
    simp only [step] at hs
    split at hs <;> cases hs
    · exact hc
    · exact hmono
  | collFollow left keys vals =>
    obtain ⟨hleft, hmax⟩ := hpc
    have hlt := h.succ_key left hleft hmax
    have hinto : s.FrozenInto (s.succ left) := frozenInto_iff.mpr ⟨left, ⟨hleft, hmax, hfr.2⟩, rfl⟩
    have hmem : ∀ k ∈ keys, ⊥ < k ∧ k ≤ s.keyOf (s.succ left) ∧
        ∃ a, s.IsNode a ∧ s.keyOf a = k := by
      intro k hk
      obtain ⟨hbot, hle, hex⟩ := hc.mem k hk
      exact ⟨hbot, hle.trans hlt.le, hex⟩
    simp only [step] at hs
    split at hs <;> cases hs
    · -- the key behind an unmarked word is copied
      refine ⟨by simp [hc.length], ?_, fun k hk => ?_, fun hk => ?_⟩
      · rw [List.pairwise_append]
        refine ⟨hc.sorted, List.pairwise_singleton _ _, fun k hk k' hk' => ?_⟩
        obtain rfl := List.mem_singleton.mp hk'
        exact (hc.mem k hk).2.1.trans_lt hlt
      · rcases List.mem_append.mp hk with hk | hk
        · exact hmem k hk
        · obtain rfl := List.mem_singleton.mp hk
          exact ⟨bot_le.trans_lt hlt, le_rfl, _, h.succ_node left hleft hmax, rfl⟩
      · rcases List.mem_append.mp hk with hk | hk
        · exact hc.taken hk
        · obtain rfl := List.mem_singleton.mp hk
          exact ⟨_, hinto, rfl⟩
    · exact ⟨hc.length, hc.sorted, hmem, hc.taken⟩
  | _ => exact hc.elim

/-! ### Nodes and marks -/

/-- A list with no frozen word satisfies the invariant for every key. -/
theorem KeyInv.of_thawed (h : s.Inv) (hf : ∀ a, (s.next a).freeze = false) : s.KeyInv key where
  inv := h
  passed a ha := absurd ha.frozen (by simp [hf a])
  clear a _ ha := by
    obtain ⟨x, hx, -⟩ := frozenInto_iff.mp ha
    exact absurd hx.frozen (by simp [hf x])

/-- A list holds at most one live node with a key. -/
theorem Inv.live_unique (h : s.Inv) (ha : s.LiveAt key a) (hb : s.LiveAt key b) : a = b := by
  obtain ⟨l, hl, -, hmem⟩ := h.spine
  exact hl.key_inj (hmem a ha.isNode ha.unmarked) (hmem b hb.isNode hb.unmarked)
    (ha.key_eq.trans hb.key_eq.symm)

/-- A list holds the keys of its live nodes. -/
theorem Inv.holdsKey_iff_live (h : s.Inv) : s.HoldsKey key ↔ ∃ a, s.LiveAt key a := by
  rw [h.holdsKey_iff]
  exact exists_congr fun a => ⟨fun ha => ⟨ha.1, ha.2.1, ha.2.2⟩,
    fun ha => ⟨ha.isNode, ha.key_eq, ha.unmarked⟩⟩

/-- The list still holds a key that has been taken. -/
theorem KeyInv.live_of_taken (h : s.KeyInv key) (ht : s.Taken key) : ∃ a, s.LiveAt key a := by
  obtain ⟨a, ha, hk⟩ := ht
  exact ⟨a, ha.isNode h.inv, hk, h.clear a hk ha⟩

/-- A live node stays live, or its key is removed at a word that is not frozen. -/
theorem step_live (hpc : pc.Ok s) (hok : KeyThawed key s pc) (hw : StepWrite s pc s')
    (hg : Guar s s') (ha : s.LiveAt key a) : s'.LiveAt key a ∨ (s.next a).freeze = false := by
  rcases hw.unmarked ha.isNode ha.unmarked with hm | ⟨k, prev, right, w, rfl, rfl, hnext⟩
  · exact .inl (ha.mono hg hm)
  · obtain ⟨-, -, hkey, -⟩ := hpc
    exact .inr (hnext ▸ (hok (hkey.symm.trans ha.key_eq) hnext).1)

omit [LinearOrder K] [BoundedOrder K] in
/-- A new node has the key of the insertion. -/
theorem step_node_for (hu : pc.For u) (hw : StepWrite s pc s') (ha : s'.IsNode a) :
    s.IsNode a ∨ ∃ value, u = .insert (s'.keyOf a) value := by
  rcases hw.isNode ha with hold | ⟨k, value, prev, right, n, rfl, rfl, -⟩
  · exact .inl hold
  · exact .inr ⟨value, hu⟩

/-- A collection adds no node. -/
theorem step_node_copies (hc : pc.Copies key s) (hw : StepWrite s pc s') (ha : s'.IsNode a) :
    s.IsNode a := by
  rcases hw.isNode ha with hold | ⟨k, value, prev, right, n, rfl, -⟩
  · exact hold
  · exact hc.elim

end LinkedList

end KanvaImpl
