import Kanva.Impl.Bin.Gathering

/-!
# Searches in a bin

The `search` of a bin loads the root once and then walks through one list. The leaf it is in may be
split and the bin sealed and retrained meanwhile, but a leaf that has been replaced stays as it was.

## Main results

* `BinMem.step_searching`: a search writes nothing.
* `BinMem.step_misses`: a search that starts when the key is gone does not find it.
* `BinMem.step_hits`: in a bin without removals, a search that starts when the key is there finds
  it.
-/

namespace KanvaImpl

open Kanva Interleaving

/-- The thread is inside the bin's `search`, or has left it with its `bool`. -/
def BinPc.Searching {K : Type} (key : K) : BinPc K → Prop
  | .loadRoot (.search k) => k = key
  | .search k _ (.searchAt k' _) => k = key ∧ k' = key
  | .ret (.found k _) => k = key
  | _ => False

/-- A search that will not find the key. -/
def BinPc.Misses {K : Type} (key : K) (b : BinMem K) : BinPc K → Prop
  | .loadRoot _ => ¬ b.Held key
  | .search _ child (.searchAt _ curr) => b.IsLeaf child ∧ (b.leaf child).list.IsNode curr ∧
      ∀ a, ¬ (b.leaf child).list.LiveAt key a
  | .ret (.found _ r) => r = false
  | _ => True

/-- A search that will find the key. -/
def BinPc.Hits {K : Type} (key : K) (b : BinMem K) : BinPc K → Prop
  | .loadRoot _ => b.Held key
  | .search _ child (.searchAt _ curr) => b.IsLeaf child ∧
      ∃ a, (b.leaf child).list.LiveAt key a ∧ (b.leaf child).list.Reaches curr a
  | .ret (.found _ r) => r = true
  | _ => True

namespace BinMem

variable {K : Type} [LinearOrder K] [BoundedOrder K] {key : K} {b b' : BinMem K} {pc pc' : BinPc K}

/-- A search writes nothing. -/
theorem step_searching [Zero K] (hpc : pc.Searching key) (hs : b.step pc = some (b', pc')) :
    b' = b ∧ pc'.Searching key := by
  cases pc with
  | ret r => simp [step] at hs
  | loadRoot op =>
    cases op with
    | search k =>
      cases hs
      -- the mark of the root is ignored
      exact ⟨rfl, hpc, hpc⟩
    | _ => exact hpc.elim
  | search k child p =>
    cases p with
    | searchAt k' curr =>
      obtain ⟨rfl, rfl⟩ := hpc
      rw [step, LinkedList.step] at hs
      split at hs <;> cases hs
      · exact ⟨b.setList_self child, rfl, rfl⟩
      · exact ⟨b.setList_self child, rfl⟩
    | _ => exact hpc.elim
  | _ => exact hpc.elim

/-! ### A key that is gone -/

omit [LinearOrder K] [BoundedOrder K] in
/-- While the key is quiet, a search goes on missing it under the steps of the others. -/
theorem misses_mono (hg : KeyGuar key True b b') (hpc : pc.Misses key b) : pc.Misses key b' := by
  cases pc with
  | loadRoot op => exact hg.absent trivial hpc
  | search k child p =>
    cases p with
    | searchAt k' curr =>
      obtain ⟨hleaf, hcurr, hnot⟩ := hpc
      -- a node that is live now was live before, as no one inserts the key
      exact ⟨hg.isLeaf hleaf, hcurr.mono (hg.list child hleaf).guar.size_le,
        fun a ha => hnot a (hg.old trivial child a hleaf ha)⟩
    | _ => trivial
  | ret r => cases r <;> exact hpc
  | _ => trivial

/-- A search that starts when the key is gone does not find it. -/
theorem step_misses [Zero K] (h : b.KeyInv key) (htop : key < ⊤) (hsearch : pc.Searching key)
    (hpc : pc.Misses key b) (hs : b.step pc = some (b', pc')) : pc'.Misses key b' := by
  cases pc with
  | ret r => simp [step] at hs
  | loadRoot op =>
    cases op with
    | search k =>
      obtain rfl : k = key := hsearch
      cases hs
      -- the leaf that is chosen is one of those that do not hold the key
      obtain ⟨hok, -, hroot⟩ := h.place_ok k
      have hleaf := h.isLeaf hok
      have hchild : (b.place k).child ∈ b.children := by
        rw [children, ← hroot]
        exact hok.mem_children
      exact ⟨hleaf, (h.list _ hleaf).inv.head_node,
        fun a ha => hpc (h.held_iff.mpr ⟨_, hchild, a, ha⟩)⟩
    | _ => exact hsearch.elim
  | search k child p =>
    cases p with
    | searchAt k' curr =>
      obtain ⟨rfl, rfl⟩ := hsearch
      obtain ⟨hleaf, hcurr, hnot⟩ := hpc
      have hinv := (h.list child hleaf).inv
      rw [step, LinkedList.step] at hs
      -- the search goes on while the keys are smaller, and then tests the node it is at
      split at hs <;> cases hs
      · next hlt =>
        rw [setList_self]
        exact ⟨hleaf, hinv.succ_node curr hcurr (hinv.ne_max (hlt.trans htop)), hnot⟩
      · -- the node with the key is marked
        by_cases hkey : ((b.leaf child).list.node curr).key = k'
        · have hm : ((b.leaf child).list.next curr).isMarked = true := by
            by_contra hm
            exact hnot curr ⟨hcurr, hkey, Bool.eq_false_iff.mpr hm⟩
          show (_ && _) = false
          rw [hm]
          exact Bool.and_false _
        · show (_ && _) = false
          rw [decide_eq_false hkey]
          rfl
    | _ => exact hsearch.elim
  | _ => exact hsearch.elim

/-- A search in a bin without any node with the key does not find it. -/
theorem step_absent [Zero K] (h : ∀ c a, (b.leaf c).list.keyOf a ≠ key)
    (hsearch : pc.Searching key) (hs : b.step pc = some (b', pc')) {k : K} {r : Bool}
    (hret : pc' = .ret (.found k r)) : r = false := by
  subst hret
  cases pc with
  | ret r => simp [step] at hs
  | loadRoot op =>
    cases op with
    | search k => cases hs
    | _ => exact hsearch.elim
  | search k child p =>
    cases p with
    | searchAt k' curr =>
      obtain ⟨rfl, rfl⟩ := hsearch
      have hkey : ((b.leaf child).list.node curr).key ≠ k' := h child curr
      rw [step, LinkedList.step] at hs
      split at hs <;> cases hs
      rw [decide_eq_false hkey]
      rfl
    | _ => exact hsearch.elim
  | _ => exact hsearch.elim

/-! ### A key that stays -/

/-- In a bin without removals, a search goes on to the key under the steps of the others. -/
theorem hits_mono (h : b.Keeps key) (h' : b'.Keeps key) (hrange : ⊥ < key ∧ key < ⊤)
    (hg : KeepsGuar key b b') (hpc : pc.Hits key b) : pc.Hits key b' := by
  cases pc with
  | loadRoot op => exact held_mono h h' hrange hg hpc
  | search k child p =>
    cases p with
    | searchAt k' curr =>
      obtain ⟨hleaf, a, ha, hr⟩ := hpc
      have hlist := hg.keyGuar.list child hleaf
      have hleaf' := hg.keyGuar.isLeaf hleaf
      have hnode := ha.isNode.mono hlist.guar.size_le
      have hm := h'.inv.unmarked child hleaf' a hnode
      -- no node is ever marked, so the way to the node of the key stays
      exact ⟨hleaf', a, ⟨hnode, (hlist.guar.key_eq a ha.isNode).trans ha.key_eq, hm⟩,
        hlist.reaches curr a ha.isNode hm hr⟩
    | _ => trivial
  | ret r => cases r <;> exact hpc
  | _ => trivial

/-- In a bin without removals, a search that starts when the key is there finds it. -/
theorem step_hits [Zero K] (h : b.Keeps key) (hrange : ⊥ < key ∧ key < ⊤)
    (hsearch : pc.Searching key) (hpc : pc.Hits key b) (hs : b.step pc = some (b', pc')) :
    pc'.Hits key b' := by
  cases pc with
  | ret r => simp [step] at hs
  | loadRoot op =>
    cases op with
    | search k =>
      obtain rfl : k = key := hsearch
      cases hs
      obtain ⟨hok, -⟩ := h.keyInv.place_ok k
      -- the root routes the key to the leaf that holds it
      obtain ⟨a, ha⟩ := h.keyInv.live_at_place hrange hpc
      have hleaf := h.keyInv.isLeaf hok
      exact ⟨hleaf, a, ha, (h.inv.list _ hleaf).reaches_head ha.isNode ha.unmarked⟩
    | _ => exact hsearch.elim
  | search k child p =>
    cases p with
    | searchAt k' curr =>
      obtain ⟨rfl, rfl⟩ := hsearch
      obtain ⟨hleaf, a, ha, hr⟩ := hpc
      rw [step, LinkedList.step] at hs
      split at hs <;> cases hs
      · next hlt =>
        rw [setList_self]
        -- the node of the key is still ahead
        refine ⟨hleaf, a, ha, hr.next ?_⟩
        rintro rfl
        exact absurd ha.key_eq hlt.ne
      · next hge =>
        -- the node in front of which the search would go on is the one with the key
        obtain rfl : curr = a := by
          rcases hr.key_lt (h.inv.list child hleaf) with heq | hlt
          · exact heq
          · exact absurd (ha.key_eq ▸ hlt) hge
        have hkey : ((b.leaf child).list.node curr).key = k' := ha.key_eq
        have hm : ((b.leaf child).list.next curr).isMarked = false := ha.unmarked
        show (_ && _) = true
        rw [hm, decide_eq_true hkey]
        rfl
    | _ => exact hsearch.elim
  | _ => exact hsearch.elim

end BinMem

end KanvaImpl
