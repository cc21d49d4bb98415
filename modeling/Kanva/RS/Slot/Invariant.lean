import Kanva.PointerChain
import Kanva.RS.Slot.Machine
import Mathlib.Logic.Relation
import Mathlib.Order.WithBot

/-!
# The invariant of a slot

The nodes of the list are a chain from `head` to the max sentinel, in the order of their keys, and
no word is ever marked. A frozen word is final. So what a `collect` has passed stays as it is: its
nodes are the first ones of the chain, and a new node comes behind them.

When a `collect` has reached the max sentinel, every word of the chain is frozen, and its keys are
those of all nodes. The model in the slot has these keys.

## Main results

* `SlotMemory.Complete.walk_spine`: a complete collection has passed the whole chain.
* `SlotMemory.Complete.mem`: its vector has the keys of all nodes.
-/

namespace KanvaRS

open Interleaving Kanva PointerChain

/-- The slot gets a bin, and the bin gives way to a model. -/
inductive MobPtr.Next : MobPtr → MobPtr → Prop
  | bin (a : ℕ) : Next .null (.bin a)
  | ai (a b : ℕ) : Next (.bin a) (.ai b)

/-- A model stays in the slot. -/
theorem MobPtr.Next.of_ai {a : ℕ} {p : MobPtr} (h : Relation.ReflTransGen MobPtr.Next (.ai a) p) :
    p = .ai a := by
  induction h with
  | refl => rfl
  | tail _ hnext ih =>
    subst ih
    cases hnext

namespace SlotMemory

variable {K : Type}

/-- `a` is the address of a node. -/
def IsNode (s : SlotMemory K) (a : ℕ) : Prop := 0 < a ∧ a < s.nodeSize

/-- The address in the `next` word of `a`. -/
def succ (s : SlotMemory K) (a : ℕ) : ℕ := (s.next a).addr

/-- The key of the node at `a`. -/
def keyOf (s : SlotMemory K) (a : ℕ) : K := (s.node a).key

/-- The position of a node in the order of the chain: its key, but `head` is before all keys. -/
def rank (s : SlotMemory K) (a : ℕ) : WithBot K := if a = head then ⊥ else s.keyOf a

/-- The `n`-th node behind `head`. -/
def walk (s : SlotMemory K) (n : ℕ) : ℕ := s.succ^[n] head

/-- A node before the max sentinel whose word is frozen. -/
structure FrozenNode (s : SlotMemory K) (a : ℕ) : Prop where
  isNode : s.IsNode a
  ne_max : a ≠ maxAddr
  frozen : (s.next a).freeze = true

/-- The first `n` nodes of the chain are frozen. -/
def Passed (s : SlotMemory K) (n : ℕ) : Prop := ∀ m < n, s.FrozenNode (s.walk m)

/-- The keys of the first `n` nodes behind `head`. -/
def keysTo (s : SlotMemory K) (n : ℕ) : List K :=
  (List.range' 1 n).map fun m => s.keyOf (s.walk m)

/-- A collection with these keys has reached the max sentinel. -/
def Complete (s : SlotMemory K) (keys : List K) : Prop :=
  ∃ n, s.walk n = maxAddr ∧ s.Passed n ∧ keys = s.keysTo (n - 1)

/-- A collection with these keys stands at `left`. -/
def Collecting (s : SlotMemory K) (left : ℕ) (keys : List K) : Prop :=
  ∃ n, s.walk n = left ∧ s.IsNode left ∧ s.Passed n ∧ keys = s.keysTo (n - 1)

/-- A collection with these keys is about to leave `left`. -/
def Leaving (s : SlotMemory K) (left : ℕ) (keys : List K) : Prop :=
  ∃ n, s.walk n = left ∧ s.Passed (n + 1) ∧ keys = s.keysTo n

/-- The key of a node between the sentinels. -/
def HasKey (s : SlotMemory K) (key : K) : Prop :=
  ∃ a, s.IsNode a ∧ a ≠ head ∧ a ≠ maxAddr ∧ s.keyOf a = key

/-- The key of a node that a walk from `head` gets to. -/
def InList (s : SlotMemory K) (key : K) : Prop :=
  ∃ n, s.walk n ≠ head ∧ s.walk n ≠ maxAddr ∧ s.keyOf (s.walk n) = key

/-- The list of a slot. -/
structure ListInv [LinearOrder K] [BoundedOrder K] (s : SlotMemory K) : Prop where
  nodeSize_ge : 3 ≤ s.nodeSize
  max_key : s.keyOf maxAddr = ⊤
  max_next : s.next maxAddr = .null
  mark : ∀ a, s.IsNode a → (s.next a).mark = false
  spine : ∃ l, Spine s.succ s.rank head maxAddr l ∧ ∀ a, a ∈ l ↔ s.IsNode a

/-- The invariant of a slot. -/
structure Inv [LinearOrder K] [BoundedOrder K] (s : SlotMemory K) : Prop where
  list : s.ListInv
  published : ∀ a, s.mob = .ai a → s.Complete (s.array.map Prod.fst)
  reclaimed : s.isReclaimed = true → ∃ a, s.mob = .ai a

/-- What a step of any thread leaves alone. -/
structure Guar (s s' : SlotMemory K) : Prop where
  mob : Relation.ReflTransGen MobPtr.Next s.mob s'.mob
  nodeSize_le : s.nodeSize ≤ s'.nodeSize
  key_eq : ∀ a, s.IsNode a → s'.keyOf a = s.keyOf a
  frozen : ∀ a, s.IsNode a → (s.next a).freeze = true → s'.next a = s.next a
  keys : ∀ a, s.mob = .ai a → s'.array.map Prod.fst = s.array.map Prod.fst

section Writes

variable (s : SlotMemory K) (a b : ℕ) (w : TaggedPtr) (loc : VheadLoc) (v : Vnode) (ts : ℤ)
    (key : K)
  (value : Val)

@[simp] theorem next_setNext : (s.setNext a w).next b = if b = a then w else s.next b := by
  by_cases h : b = a <;> simp [setNext, next, h]

@[simp] theorem keyOf_setNext : (s.setNext a w).keyOf b = s.keyOf b := by
  by_cases h : b = a <;> simp [setNext, keyOf, h]

@[simp] theorem nodeSize_setNext : (s.setNext a w).nodeSize = s.nodeSize := rfl

@[simp] theorem next_setVhead : (s.setVhead loc w).next b = s.next b := by
  cases loc with
  | node a => by_cases h : b = a <;> simp [setVhead, next, h]
  | entry i => rfl

@[simp] theorem keyOf_setVhead : (s.setVhead loc w).keyOf b = s.keyOf b := by
  cases loc with
  | node a => by_cases h : b = a <;> simp [setVhead, keyOf, h]
  | entry i => rfl

@[simp] theorem next_allocNode :
    (s.allocNode key value w).next b = if b = s.nodeSize then w else s.next b := by
  by_cases h : b = s.nodeSize <;> simp [allocNode, next, h]

@[simp] theorem keyOf_allocNode :
    (s.allocNode key value w).keyOf b = if b = s.nodeSize then key else s.keyOf b := by
  by_cases h : b = s.nodeSize <;> simp [allocNode, keyOf, h]

@[simp] theorem node_stamp : (s.stamp a ts).node = s.node := by
  unfold stamp
  split <;> rfl

@[simp] theorem nodeSize_stamp : (s.stamp a ts).nodeSize = s.nodeSize := by
  unfold stamp
  split <;> rfl

@[simp] theorem mob_stamp : (s.stamp a ts).mob = s.mob := by
  unfold stamp
  split <;> rfl

@[simp] theorem array_stamp : (s.stamp a ts).array = s.array := by
  unfold stamp
  split <;> rfl

@[simp] theorem isReclaimed_stamp : (s.stamp a ts).isReclaimed = s.isReclaimed := by
  unfold stamp
  split <;> rfl

@[simp] theorem mob_setVhead : (s.setVhead loc w).mob = s.mob := by cases loc <;> rfl

@[simp] theorem nodeSize_setVhead : (s.setVhead loc w).nodeSize = s.nodeSize := by cases loc <;> rfl

@[simp] theorem isReclaimed_setVhead : (s.setVhead loc w).isReclaimed = s.isReclaimed := by
  cases loc <;> rfl

/-- A store to a `vhead` keeps the keys of the model. -/
@[simp] theorem keys_setVhead : (s.setVhead loc w).array.map Prod.fst = s.array.map Prod.fst := by
  cases loc with
  | node a => rfl
  | entry i =>
    refine List.ext_getElem? fun j => ?_
    show ((s.array.modify i fun e => (e.1, w)).map Prod.fst)[j]? = _
    rw [List.getElem?_map, List.getElem?_map, List.getElem?_modify]
    cases s.array[j]? <;> simp
    split <;> rfl

end Writes

/-- Nodes are never given back. -/
theorem IsNode.mono {s s' : SlotMemory K} {a : ℕ} (h : s.IsNode a)
    (hle : s.nodeSize ≤ s'.nodeSize) :
    s'.IsNode a := ⟨h.1, lt_of_lt_of_le h.2 hle⟩

theorem IsNode.ne_nodeSize {s : SlotMemory K} {a : ℕ} (h : s.IsNode a) : a ≠ s.nodeSize :=
  Nat.ne_of_lt h.2

namespace Guar

variable {s s' s'' : SlotMemory K}

theorem refl (s : SlotMemory K) : Guar s s :=
  ⟨.refl, le_rfl, fun _ _ => rfl, fun _ _ _ => rfl, fun _ _ => rfl⟩

theorem trans (h : Guar s s') (h' : Guar s' s'') : Guar s s'' where
  mob := h.mob.trans h'.mob
  nodeSize_le := h.nodeSize_le.trans h'.nodeSize_le
  key_eq a ha := (h'.key_eq a (ha.mono h.nodeSize_le)).trans (h.key_eq a ha)
  frozen a ha hf := by
    have hnext := h.frozen a ha hf
    rw [h'.frozen a (ha.mono h.nodeSize_le) (by rwa [hnext]), hnext]
  keys a ha := by
    have hmob := h.mob
    rw [ha] at hmob
    rw [h'.keys a (MobPtr.Next.of_ai hmob), h.keys a ha]

/-- A write that touches neither the chain nor the slot. -/
theorem of_nodes (hmob : s'.mob = s.mob) (hsize : s'.nodeSize = s.nodeSize)
    (hnext : ∀ a, s'.next a = s.next a) (hkey : ∀ a, s'.keyOf a = s.keyOf a)
    (harr : s'.array.map Prod.fst = s.array.map Prod.fst) : Guar s s' where
  mob := by rw [hmob]
  nodeSize_le := hsize.ge
  key_eq a _ := hkey a
  frozen a _ _ := hnext a
  keys _ _ := harr

/-- A thawed word may be written. -/
theorem setNext {a : ℕ} {w : TaggedPtr} (h : (s.next a).freeze = true → w = s.next a) :
    Guar s (s.setNext a w) where
  mob := .refl
  nodeSize_le := le_rfl
  key_eq b _ := by simp
  frozen b _ hf := by
    by_cases hb : b = a
    · subst hb
      rw [next_setNext, if_pos rfl, h hf]
    · rw [next_setNext, if_neg hb]
  keys _ _ := rfl

/-- A new node touches no old one. -/
theorem allocNode (s : SlotMemory K) (key : K) (value : Val) (w : TaggedPtr) :
    Guar s (s.allocNode key value w) where
  mob := .refl
  nodeSize_le := Nat.le_succ _
  key_eq b hb := by rw [keyOf_allocNode, if_neg hb.ne_nodeSize]
  frozen b hb _ := by rw [next_allocNode, if_neg hb.ne_nodeSize]
  keys _ _ := rfl

end Guar

variable [LinearOrder K] [BoundedOrder K] {s s' : SlotMemory K}

namespace ListInv

omit [LinearOrder K] [BoundedOrder K] in
theorem rank_of_ne {a : ℕ} (ha : a ≠ head) : s.rank a = s.keyOf a := if_neg ha

/-- The list of an empty slot. -/
theorem new : (SlotMemory.new : SlotMemory K).ListInv where
  nodeSize_ge := le_rfl
  max_key := rfl
  max_next := rfl
  mark a _ := by
    show (if a = maxAddr then (⟨⊤, .clean 1, .null⟩ : LLNode K) else _).next.mark = false
    split <;> rfl
  spine := by
    refine ⟨[head, maxAddr], ⟨rfl, rfl, ?_, ?_⟩, fun a => ?_⟩
    · simp [succ, next, SlotMemory.new, head, maxAddr]
    · simp [rank, head, maxAddr]
    · simp only [IsNode, SlotMemory.new, head, maxAddr, List.mem_cons, List.not_mem_nil, or_false]
      omega

variable (h : s.ListInv)

include h

theorem head_node : s.IsNode head := ⟨by decide, lt_of_lt_of_le (by decide) h.nodeSize_ge⟩

theorem max_node : s.IsNode maxAddr := ⟨by decide, lt_of_lt_of_le (by decide) h.nodeSize_ge⟩

/-- A node other than the max sentinel is followed by a node of higher rank. -/
theorem succ_node {a : ℕ} (ha : s.IsNode a) (hmax : a ≠ maxAddr) :
    s.IsNode (s.succ a) ∧ s.rank a < s.rank (s.succ a) := by
  obtain ⟨l, hl, hmem⟩ := h.spine
  obtain ⟨l₁, l₂, rfl⟩ := hl.split_at ((hmem a).mpr ha) hmax
  refine ⟨(hmem _).mp (by simp), ?_⟩
  have hsorted := (List.pairwise_append.mp hl.sorted).2.1
  exact (List.pairwise_cons.mp hsorted).1 _ List.mem_cons_self

/-- Every node is in the list. -/
theorem inList {key : K} (hkey : s.HasKey key) : s.InList key := by
  obtain ⟨a, ha, hhead, hmax, rfl⟩ := hkey
  obtain ⟨l, hl, hmem⟩ := h.spine
  obtain ⟨n, hn, rfl⟩ := List.mem_iff_getElem.mp ((hmem a).mpr ha)
  have hwalk : l[n]? = some (s.walk n) := hl.getElem?_eq_iterate hn
  rw [List.getElem?_eq_getElem hn] at hwalk
  rw [Option.some.inj hwalk] at hhead hmax ⊢
  exact ⟨n, hhead, hmax, rfl⟩

/-- `head` follows no node. -/
theorem succ_ne_head {a : ℕ} (ha : s.IsNode a) (hmax : a ≠ maxAddr) : s.succ a ≠ head := by
  intro heq
  have hlt := (h.succ_node ha hmax).2
  have hbot : s.rank head = ⊥ := if_pos rfl
  rw [heq, hbot] at hlt
  exact not_lt_bot hlt

/-- A node with a key below another one is not the max sentinel. -/
theorem ne_max {a : ℕ} {key : K} (hlt : s.keyOf a < key) : a ≠ maxAddr := by
  rintro rfl
  exact not_top_lt (h.max_key ▸ hlt)

/-- A node whose word is not null is not the max sentinel. -/
theorem ne_max_of_ne_null {a : ℕ} (hn : s.next a ≠ .null) : a ≠ maxAddr := by
  rintro rfl
  exact hn h.max_next

/-- The invariant of the list is about its `next` words and its keys. -/
theorem congr (hsize : s'.nodeSize = s.nodeSize) (hnext : ∀ a, s'.next a = s.next a)
    (hkey : ∀ a, s'.keyOf a = s.keyOf a) : s'.ListInv := by
  have hsucc : s'.succ = s.succ := funext fun a => congrArg TaggedPtr.addr (hnext a)
  have hrank : s'.rank = s.rank := funext fun a => by rw [rank, rank, hkey]
  refine ⟨by rw [hsize]; exact h.nodeSize_ge, by rw [hkey, h.max_key], by rw [hnext, h.max_next],
    ?_, ?_⟩
  · intro a ha
    rw [IsNode, hsize] at ha
    rw [hnext]
    exact h.mark a ha
  · rw [hsucc, hrank]
    obtain ⟨l, hl, hmem⟩ := h.spine
    refine ⟨l, hl, fun a => ?_⟩
    rw [hmem, IsNode, IsNode, hsize]

/-- Freezing a word keeps the invariant. -/
theorem setFreeze {a : ℕ} (ha : s.IsNode a) (hmax : a ≠ maxAddr) :
    (s.setNext a (s.next a).setFreeze).ListInv := by
  have hsucc : (s.setNext a (s.next a).setFreeze).succ = s.succ := by
    funext b
    by_cases hb : b = a <;> simp [succ, hb]
  have hrank : (s.setNext a (s.next a).setFreeze).rank = s.rank :=
    funext fun b => by rw [rank, rank, keyOf_setNext]
  refine ⟨h.nodeSize_ge, by rw [keyOf_setNext, h.max_key], ?_, ?_,
    by rw [hsucc, hrank]; exact h.spine⟩
  · rw [next_setNext, if_neg hmax.symm, h.max_next]
  · intro b hb
    by_cases hba : b = a
    · rw [hba, next_setNext, if_pos rfl, TaggedPtr.setFreeze_mark]
      exact h.mark a ha
    · rw [next_setNext, if_neg hba]
      exact h.mark b hb

/-- Linking a new node keeps the invariant. -/
theorem link {p r : ℕ} {key : K} (value : Val) (hp : s.IsNode p) (hnext : s.next p = .clean r)
    (hpn : p = head ∨ s.keyOf p < key) (hnr : key < s.keyOf r) :
    ((s.setNext p (.clean s.nodeSize)).allocNode key value (.clean r)).ListInv := by
  set s' := (s.setNext p (.clean s.nodeSize)).allocNode key value (.clean r) with hs'
  have hsize : s'.nodeSize = s.nodeSize + 1 := rfl
  have hmax : p ≠ maxAddr := by
    rcases hpn with rfl | hlt
    · decide
    · exact h.ne_max hlt
  have hsp : s.succ p = r := by simp [succ, hnext]
  have hr : s.IsNode r := hsp ▸ (h.succ_node hp hmax).1
  have hrhead : r ≠ head := hsp ▸ h.succ_ne_head hp hmax
  have hnew : s.nodeSize ≠ head := h.head_node.ne_nodeSize.symm
  -- the old nodes keep their keys, and all but `p` their words
  have hnext' : ∀ b, s.IsNode b → s'.next b = if b = p then .clean s.nodeSize else s.next b := by
    intro b hb
    rw [hs', next_allocNode, nodeSize_setNext, if_neg hb.ne_nodeSize, next_setNext]
  have hnextNew : s'.next s.nodeSize = .clean r := by
    rw [hs', next_allocNode]
    exact if_pos rfl
  have hkey' : ∀ b, s.IsNode b → s'.keyOf b = s.keyOf b := by
    intro b hb
    rw [hs', keyOf_allocNode, nodeSize_setNext, if_neg hb.ne_nodeSize, keyOf_setNext]
  have hkeyNew : s'.keyOf s.nodeSize = key := by
    rw [hs', keyOf_allocNode]
    exact if_pos rfl
  have hrank' : ∀ b, s.IsNode b → s'.rank b = s.rank b := by
    intro b hb
    rw [rank, rank, hkey' b hb]
  have hrankNew : s'.rank s.nodeSize = key := by
    rw [rank_of_ne hnew, hkeyNew]
  -- there is one node more
  have hcases : ∀ b, s'.IsNode b ↔ b = s.nodeSize ∨ s.IsNode b := by
    intro b
    have hge := h.nodeSize_ge
    rw [IsNode, IsNode, hsize]
    omega
  refine ⟨Nat.le_succ_of_le h.nodeSize_ge, ?_, ?_, ?_, ?_⟩
  · rw [hkey' _ h.max_node, h.max_key]
  · rw [hnext' _ h.max_node, if_neg hmax.symm, h.max_next]
  · intro b hb
    rcases (hcases b).mp hb with rfl | hold
    · rw [hnextNew]
      rfl
    · rw [hnext' b hold]
      split
      · rfl
      · exact h.mark b hold
  · obtain ⟨l, hl, hmem⟩ := h.spine
    obtain ⟨l₁, l₂, rfl⟩ := hl.split_at ((hmem p).mpr hp) hmax
    rw [hsp] at hl hmem
    refine ⟨l₁ ++ p :: s.nodeSize :: r :: l₂, ?_, fun b => ?_⟩
    · -- the new node goes between `p` and `r`; the head ranks below all keys
      refine hl.insert ?_ ?_ ?_ ?_ (fun x hx hxp _ => ?_) fun x hx => hrank' x ((hmem x).mp hx)
      · rw [hrankNew]
        rcases hpn with rfl | hlt
        · exact WithBot.bot_lt_coe key
        · by_cases hph : p = head
          · rw [rank, if_pos hph]
            exact WithBot.bot_lt_coe key
          · rw [rank_of_ne hph]
            exact WithBot.coe_lt_coe.mpr hlt
      · rw [hrankNew, rank_of_ne hrhead]
        exact WithBot.coe_lt_coe.mpr hnr
      · rw [succ, hnext' p hp, if_pos rfl]
        rfl
      · rw [succ, hnextNew]
        rfl
      · rw [succ, hnext' x ((hmem x).mp hx), if_neg hxp]
        rfl
    · rw [hcases, ← hmem]
      simp only [List.mem_append, List.mem_cons]
      tauto

end ListInv

/-! ### The nodes a collection has passed -/

omit [LinearOrder K] [BoundedOrder K] in
theorem walk_succ (s : SlotMemory K) (n : ℕ) : s.walk (n + 1) = s.succ (s.walk n) :=
  Function.iterate_succ_apply' _ _ _

omit [LinearOrder K] [BoundedOrder K] in
theorem keysTo_succ (s : SlotMemory K) (n : ℕ) :
    s.keysTo (n + 1) = s.keysTo n ++ [s.keyOf (s.walk (n + 1))] := by
  rw [keysTo, keysTo, List.range'_concat, List.map_append, Nat.one_mul, Nat.add_comm 1 n]
  rfl

namespace Passed

variable {n : ℕ}

omit [LinearOrder K] [BoundedOrder K]

theorem succ (h : s.Passed n) (hn : s.FrozenNode (s.walk n)) : s.Passed (n + 1) := by
  intro m hm
  rcases Nat.lt_succ_iff_lt_or_eq.mp hm with hm | rfl
  · exact h m hm
  · exact hn

theorem walk_eq (h : s.Passed n) (hg : Guar s s') : ∀ m ≤ n, s'.walk m = s.walk m := by
  intro m hm
  induction m with
  | zero => rfl
  | succ m ih =>
    have hm' := h m (by omega)
    rw [walk_succ, walk_succ, ih (by omega), SlotMemory.succ, SlotMemory.succ,
      hg.frozen _ hm'.isNode hm'.frozen]

/-- What has been passed stays as it is. -/
theorem mono (h : s.Passed n) (hg : Guar s s') : s'.Passed n := by
  intro m hm
  rw [h.walk_eq hg m hm.le]
  obtain ⟨hnode, hmax, hf⟩ := h m hm
  exact ⟨hnode.mono hg.nodeSize_le, hmax, by rw [hg.frozen _ hnode hf]; exact hf⟩

theorem keysTo_eq (h : s.Passed n) (hg : Guar s s') : s'.keysTo (n - 1) = s.keysTo (n - 1) := by
  refine List.map_congr_left fun m hm => ?_
  have hlt : m < n := by
    have hrange := List.mem_range'_1.mp hm
    omega
  rw [h.walk_eq hg m hlt.le, hg.key_eq _ (h m hlt).isNode]

end Passed

section Mono

variable {left : ℕ} {keys : List K}

omit [LinearOrder K] [BoundedOrder K]

theorem Complete.mono (h : s.Complete keys) (hg : Guar s s') : s'.Complete keys := by
  obtain ⟨n, hmax, hpassed, rfl⟩ := h
  exact ⟨n, by rw [hpassed.walk_eq hg n le_rfl, hmax], hpassed.mono hg, (hpassed.keysTo_eq hg).symm⟩

theorem Collecting.mono (h : s.Collecting left keys) (hg : Guar s s') :
    s'.Collecting left keys := by
  obtain ⟨n, hleft, hnode, hpassed, rfl⟩ := h
  exact ⟨n, by rw [hpassed.walk_eq hg n le_rfl, hleft], hnode.mono hg.nodeSize_le, hpassed.mono hg,
    (hpassed.keysTo_eq hg).symm⟩

theorem Leaving.mono (h : s.Leaving left keys) (hg : Guar s s') : s'.Leaving left keys := by
  obtain ⟨n, hleft, hpassed, rfl⟩ := h
  exact ⟨n, by rw [hpassed.walk_eq hg n n.le_succ, hleft], hpassed.mono hg,
    (hpassed.keysTo_eq hg).symm⟩

theorem HasKey.mono {key : K} (h : s.HasKey key) (hg : Guar s s') : s'.HasKey key := by
  obtain ⟨a, hnode, hhead, hmax, rfl⟩ := h
  exact ⟨a, hnode.mono hg.nodeSize_le, hhead, hmax, hg.key_eq a hnode⟩

/-- Two collections that have reached the max sentinel have the same keys. -/
theorem Complete.unique {keys' : List K} (h : s.Complete keys) (h' : s.Complete keys') :
    keys = keys' := by
  obtain ⟨n, hmax, hpassed, rfl⟩ := h
  obtain ⟨n', hmax', hpassed', rfl⟩ := h'
  -- neither passes the sentinel
  rcases lt_trichotomy n n' with hlt | rfl | hlt
  · exact absurd hmax (hpassed' n hlt).ne_max
  · rfl
  · exact absurd hmax' (hpassed n' hlt).ne_max

end Mono

section Chain

variable {left : ℕ} {keys : List K}

/-- A complete collection has gone over the whole chain. -/
theorem Complete.walk_spine (h : s.ListInv) (hc : s.Complete keys) :
    ∃ n, keys = s.keysTo (n - 1) ∧ s.walk n = maxAddr ∧
      (∀ i j, i < j → j ≤ n → s.rank (s.walk i) < s.rank (s.walk j)) ∧
      ∀ a, s.IsNode a → ∃ i ≤ n, s.walk i = a := by
  obtain ⟨n, hmax, hpassed, rfl⟩ := hc
  obtain ⟨l, hl, hmem⟩ := h.spine
  -- the walk follows the spine, and both end at the sentinel
  have hget : ∀ i, i < l.length → l[i]? = some (s.walk i) := fun i hi => hl.getElem?_eq_iterate hi
  have hlen : l.length = n + 1 := by
    have hpos : 0 < l.length := List.length_pos_of_mem hl.start_mem
    have hlast : s.walk (l.length - 1) = maxAddr := by
      have hend := hl.last
      rw [List.getLast?_eq_getElem?, hget _ (by omega)] at hend
      exact Option.some.inj hend
    rcases Nat.lt_or_ge (l.length - 1) n with hlt | hge
    · exact absurd hlast (hpassed _ hlt).ne_max
    · -- the sentinel is not repeated
      have hn := hget n (by omega)
      have hm := hget (l.length - 1) (by omega)
      rw [hmax] at hn
      rw [hlast] at hm
      have heq := (List.getElem?_inj (by omega) hl.nodup).mp (hn.trans hm.symm)
      omega
  refine ⟨n, rfl, hmax, fun i j hij hj => ?_, fun a ha => ?_⟩
  · obtain ⟨hi', hi⟩ := List.getElem?_eq_some_iff.mp (hget i (by omega))
    obtain ⟨hj', hj⟩ := List.getElem?_eq_some_iff.mp (hget j (by omega))
    have hlt := List.pairwise_iff_getElem.mp hl.sorted i j hi' hj' hij
    rwa [hi, hj] at hlt
  · obtain ⟨i, hi, rfl⟩ := List.mem_iff_getElem.mp ((hmem a).mpr ha)
    refine ⟨i, by omega, ?_⟩
    have hi' := hget i hi
    rw [List.getElem?_eq_getElem hi] at hi'
    exact (Option.some.inj hi').symm

/-- A complete collection is sorted. -/
theorem Complete.sorted (h : s.ListInv) (hc : s.Complete keys) : keys.Pairwise (· < ·) := by
  obtain ⟨n, rfl, -, hlt, -⟩ := hc.walk_spine h
  have hhead : ∀ i, 0 < i → i ≤ n → s.walk i ≠ head := by
    intro i hi hin heq
    have hpos := hlt 0 i hi hin
    have hbot : s.rank head = ⊥ := if_pos rfl
    rw [heq, hbot] at hpos
    exact not_lt_bot hpos
  have hrange : (List.range' 1 (n - 1)).Pairwise (· < ·) := List.pairwise_lt_range'
  refine List.pairwise_map.mpr (hrange.imp_of_mem fun {i j} hi hj hij => ?_)
  have hi := List.mem_range'_1.mp hi
  have hj := List.mem_range'_1.mp hj
  have hrank := hlt i j hij (by omega)
  rw [ListInv.rank_of_ne (hhead i (by omega) (by omega)),
    ListInv.rank_of_ne (hhead j (by omega) (by omega))] at hrank
  exact WithBot.coe_lt_coe.mp hrank

/-- A complete collection has the keys of all nodes between the sentinels. -/
theorem Complete.mem (h : s.ListInv) (hc : s.Complete keys) {key : K} (hkey : s.HasKey key) :
    key ∈ keys := by
  obtain ⟨n, rfl, hmax, -, hall⟩ := hc.walk_spine h
  obtain ⟨a, ha, hnhead, hnmax, rfl⟩ := hkey
  obtain ⟨i, hi, rfl⟩ := hall a ha
  refine List.mem_map_of_mem (f := fun m => s.keyOf (s.walk m)) (List.mem_range'_1.mpr ?_)
  have hzero : i ≠ 0 := fun heq => hnhead (by rw [heq]; rfl)
  have hn : i ≠ n := fun heq => hnmax (by rw [heq, hmax])
  omega

end Chain

end SlotMemory

end KanvaRS
