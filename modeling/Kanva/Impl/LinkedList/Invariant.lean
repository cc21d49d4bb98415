import Kanva.PointerChain
import Kanva.Impl.LinkedList.Machine

/-!
# The invariant of the bin list

Three kinds of write change a list: a word gets a tag bit (`remove` marks, `collect` freezes), a
clean word is redirected past a marked node (the two unlinking CASes), and a clean word is
redirected to a fresh node (the linking CAS). `LinkedList.Inv` is kept by each of them, and
`LinkedList.Guar` says what they leave alone: keys and values, the address in a marked word, and
the address and the freeze bit of a frozen one.

`ListPc.Ok` is the assertion that carries the argument at each program point: the local pointers are
nodes, `right_node` carries no tag, and the `right_next` of a marked node still holds its address.

## Main results

* `LinkedList.inv_setNext_bits`, `LinkedList.inv_unlink` and `LinkedList.inv_link`: the three
  writes.
* `LinkedList.step_ok`: every step of a thread keeps the invariant and its assertion.
-/

namespace KanvaImpl

open Kanva Interleaving PointerChain

namespace LinkedList

variable {K : Type}

/-- `a` is the address of an allocated node. -/
def IsNode (s : LinkedList K) (a : ℕ) : Prop := 0 < a ∧ a < s.size

/-- The address in the `next` word of `a`, both tag bits stripped. -/
def succ (s : LinkedList K) (a : ℕ) : ℕ := (s.next a).addr

/-- The key of the node at `a`. -/
def keyOf (s : LinkedList K) (a : ℕ) : K := (s.node a).key

/-- The invariant of the list memory. -/
structure Inv [LinearOrder K] [BoundedOrder K] (s : LinkedList K) : Prop where
  size_ge : 3 ≤ s.size
  max_key : s.keyOf maxAddr = ⊤
  max_next : s.next maxAddr = .null
  head_key : s.keyOf head = ⊥
  succ_node : ∀ a, s.IsNode a → a ≠ maxAddr → s.IsNode (s.succ a)
  succ_key : ∀ a, s.IsNode a → a ≠ maxAddr → s.keyOf a < s.keyOf (s.succ a)
  spine : ∃ l, Spine s.succ s.keyOf head maxAddr l ∧ (∀ a ∈ l, s.IsNode a) ∧
    ∀ a, s.IsNode a → (s.next a).mark = false → a ∈ l

/-- What a step of any thread leaves alone. -/
structure Guar (s s' : LinkedList K) : Prop where
  size_le : s.size ≤ s'.size
  key_eq : ∀ a, s.IsNode a → s'.keyOf a = s.keyOf a
  value_eq : ∀ a, s.IsNode a → (s'.node a).value = (s.node a).value
  marked : ∀ a, s.IsNode a → (s.next a).mark = true →
    (s'.next a).mark = true ∧ s'.succ a = s.succ a
  frozen : ∀ a, s.IsNode a → (s.next a).freeze = true →
    (s'.next a).freeze = true ∧ s'.succ a = s.succ a

section Writes

variable (s : LinkedList K) (a b : ℕ) (w : TaggedPtr) (n : LLNode K)

@[simp] theorem size_setNext : (s.setNext a w).size = s.size := rfl
@[simp] theorem size_alloc : (s.alloc n).size = s.size + 1 := rfl

@[simp] theorem next_setNext : (s.setNext a w).next b = if b = a then w else s.next b := by
  by_cases h : b = a <;> simp [setNext, next, h]

@[simp] theorem keyOf_setNext : (s.setNext a w).keyOf b = s.keyOf b := by
  by_cases h : b = a <;> simp [setNext, keyOf, h]

@[simp] theorem value_setNext : ((s.setNext a w).node b).value = (s.node b).value := by
  by_cases h : b = a <;> simp [setNext, h]

@[simp] theorem succ_setNext : (s.setNext a w).succ b = if b = a then w.addr else s.succ b := by
  by_cases h : b = a <;> simp [succ, h]

@[simp] theorem isNode_setNext : (s.setNext a w).IsNode b ↔ s.IsNode b := Iff.rfl

@[simp] theorem next_alloc : (s.alloc n).next b = if b = s.size then n.next else s.next b := by
  by_cases h : b = s.size <;> simp [alloc, next, h]

@[simp] theorem keyOf_alloc : (s.alloc n).keyOf b = if b = s.size then n.key else s.keyOf b := by
  by_cases h : b = s.size <;> simp [alloc, keyOf, h]

@[simp] theorem value_alloc :
    ((s.alloc n).node b).value = if b = s.size then n.value else (s.node b).value := by
  by_cases h : b = s.size <;> simp [alloc, h]

@[simp] theorem succ_alloc :
    (s.alloc n).succ b = if b = s.size then n.next.addr else s.succ b := by
  by_cases h : b = s.size <;> simp [succ, h]

end Writes

theorem cas_eq_some_iff {s s' : LinkedList K} {a : ℕ} {e d : TaggedPtr} :
    s.cas a e d = some s' ↔ s.next a = e ∧ s' = s.setNext a d := by
  unfold cas
  split <;> simp_all [eq_comm]

/-- Allocation keeps the old nodes. -/
theorem IsNode.mono {s s' : LinkedList K} {a : ℕ} (h : s.IsNode a) (hle : s.size ≤ s'.size) :
    s'.IsNode a := ⟨h.1, lt_of_lt_of_le h.2 hle⟩

theorem IsNode.ne_size {s : LinkedList K} {a : ℕ} (h : s.IsNode a) : a ≠ s.size :=
  Nat.ne_of_lt h.2

namespace Guar

variable {s s' s'' : LinkedList K}

theorem refl (s : LinkedList K) : Guar s s :=
  ⟨le_rfl, fun _ _ => rfl, fun _ _ => rfl, fun _ _ h => ⟨h, rfl⟩, fun _ _ h => ⟨h, rfl⟩⟩

theorem trans (h : Guar s s') (h' : Guar s' s'') : Guar s s'' where
  size_le := h.size_le.trans h'.size_le
  key_eq a ha := (h'.key_eq a (ha.mono h.size_le)).trans (h.key_eq a ha)
  value_eq a ha := (h'.value_eq a (ha.mono h.size_le)).trans (h.value_eq a ha)
  marked a ha hm := by
    obtain ⟨hm', hs⟩ := h.marked a ha hm
    obtain ⟨hm'', hs'⟩ := h'.marked a (ha.mono h.size_le) hm'
    exact ⟨hm'', hs'.trans hs⟩
  frozen a ha hf := by
    obtain ⟨hf', hs⟩ := h.frozen a ha hf
    obtain ⟨hf'', hs'⟩ := h'.frozen a (ha.mono h.size_le) hf'
    exact ⟨hf'', hs'.trans hs⟩

/-- A clean word may be redirected. -/
theorem setNext_of_clean {a : ℕ} {w : TaggedPtr} (hc : (s.next a).IsClean) :
    Guar s (s.setNext a w) where
  size_le := le_rfl
  key_eq b _ := by simp
  value_eq b _ := by simp
  marked b _ hm := by
    have hba : b ≠ a := fun h => by simp [h, hc.1] at hm
    simp [hba, hm]
  frozen b _ hf := by
    have hba : b ≠ a := fun h => by simp [h, hc.2] at hf
    simp [hba, hf]

/-- A word may gain tag bits. -/
theorem setNext_of_bits {a : ℕ} {w : TaggedPtr} (haddr : w.addr = s.succ a)
    (hmark : (s.next a).mark = true → w.mark = true)
    (hfreeze : (s.next a).freeze = true → w.freeze = true) : Guar s (s.setNext a w) where
  size_le := le_rfl
  key_eq b _ := by simp
  value_eq b _ := by simp
  marked b _ hm := by
    by_cases hba : b = a
    · subst hba
      simpa [haddr] using hmark hm
    · simp [hba, hm]
  frozen b _ hf := by
    by_cases hba : b = a
    · subst hba
      simpa [haddr] using hfreeze hf
    · simp [hba, hf]

/-- Allocation touches no old node. -/
theorem alloc (s : LinkedList K) (n : LLNode K) : Guar s (s.alloc n) where
  size_le := Nat.le_succ _
  key_eq b hb := by simp [hb.ne_size]
  value_eq b hb := by simp [hb.ne_size]
  marked b hb hm := by simp [hb.ne_size, hm]
  frozen b hb hf := by simp [hb.ne_size, hf]

end Guar

variable [LinearOrder K] [BoundedOrder K] {s : LinkedList K}

/-- A fresh list satisfies the invariant. -/
theorem inv_new [Nontrivial K] (count : ℤ) : Inv (LinkedList.new count : LinkedList K) where
  size_ge := le_rfl
  max_key := rfl
  max_next := rfl
  head_key := rfl
  succ_node a ha hmax := by
    simp [succ, next, new, IsNode, maxAddr] at *
    simp [hmax]
  succ_key a ha hmax := by
    simp [keyOf, succ, next, new, maxAddr] at *
    simp [hmax, bot_lt_top]
  spine := by
    refine ⟨[head, maxAddr], ⟨rfl, rfl, ?_, ?_⟩, ?_, ?_⟩
    · simp [succ, next, new, head, maxAddr]
    · simp [keyOf, new, head, maxAddr, bot_lt_top]
    · simp [IsNode, new, head, maxAddr]
    · intro a ha _
      simp only [IsNode, new] at ha
      simp only [head, maxAddr, List.mem_cons, List.not_mem_nil, or_false]
      omega

namespace Inv

variable (h : s.Inv)

include h

theorem head_node : s.IsNode head := ⟨by decide, lt_of_lt_of_le (by decide) h.size_ge⟩

theorem max_node : s.IsNode maxAddr := ⟨by decide, lt_of_lt_of_le (by decide) h.size_ge⟩

/-- A node with a key below the max sentinel's is not the max sentinel. -/
theorem ne_max {a : ℕ} {k : K} (hk : s.keyOf a < k) : a ≠ maxAddr := by
  rintro rfl
  exact not_top_lt (h.max_key ▸ hk)

/-- A marked node is not the max sentinel. -/
theorem ne_max_of_marked {a : ℕ} (hm : (s.next a).mark = true) : a ≠ maxAddr := by
  rintro rfl
  rw [h.max_next] at hm
  exact absurd hm (by decide)

/-- A node whose word is not null is not the max sentinel. -/
theorem ne_max_of_ne_null {a : ℕ} (hn : s.next a ≠ .null) : a ≠ maxAddr := by
  rintro rfl
  exact hn h.max_next

/-- An unmarked node that points past its own is linked. -/
theorem split_at_unmarked {p : ℕ} (hp : s.IsNode p) (hmax : p ≠ maxAddr)
    (hm : (s.next p).mark = false) :
    ∃ l₁ l₂, Spine s.succ s.keyOf head maxAddr (l₁ ++ p :: s.succ p :: l₂) ∧
      (∀ a ∈ l₁ ++ p :: s.succ p :: l₂, s.IsNode a) ∧
      ∀ a, s.IsNode a → (s.next a).mark = false → a ∈ l₁ ++ p :: s.succ p :: l₂ := by
  obtain ⟨l, hl, hnode, hmem⟩ := h.spine
  obtain ⟨l₁, l₂, rfl⟩ := hl.split_at (hmem p hp hm) hmax
  exact ⟨l₁, l₂, hl, hnode, hmem⟩

end Inv

/-- Setting tag bits keeps the invariant. -/
theorem inv_setNext_bits {a : ℕ} {w : TaggedPtr} (h : s.Inv) (hmax : a ≠ maxAddr)
    (haddr : w.addr = s.succ a) (hmark : (s.next a).mark = true → w.mark = true) :
    (s.setNext a w).Inv := by
  have hsucc : (s.setNext a w).succ = s.succ := by
    funext b
    by_cases hb : b = a <;> simp [hb, haddr]
  have hkey : (s.setNext a w).keyOf = s.keyOf := by
    funext b
    simp
  refine ⟨h.size_ge, by simpa using h.max_key, ?_, by simpa using h.head_key, ?_, ?_, ?_⟩
  · rw [next_setNext, if_neg hmax.symm, h.max_next]
  · rw [hsucc]
    exact h.succ_node
  · rw [hsucc, hkey]
    exact h.succ_key
  · obtain ⟨l, hl, hnode, hmem⟩ := h.spine
    refine ⟨l, by rwa [hsucc, hkey], hnode, fun b hb hm => hmem b hb ?_⟩
    by_cases hba : b = a
    · subst hba
      rw [next_setNext, if_pos rfl] at hm
      by_contra hmb
      simp [hmark (by simpa using hmb)] at hm
    · simpa [hba] using hm

/-- Redirecting a clean word past a marked node keeps the invariant. -/
theorem inv_unlink {p r : ℕ} {w : TaggedPtr} (h : s.Inv) (hp : s.IsNode p)
    (hmax : p ≠ maxAddr) (hnext : s.next p = .clean r) (hr : s.IsNode r)
    (hmark : (s.next r).mark = true) (haddr : w.addr = s.succ r) : (s.setNext p w).Inv := by
  have hrmax : r ≠ maxAddr := h.ne_max_of_marked hmark
  have hsp : s.succ p = r := by simp [succ, hnext]
  have hkey : (s.setNext p w).keyOf = s.keyOf := by
    funext b
    simp
  have hpr : s.keyOf p < s.keyOf r := hsp ▸ h.succ_key p hp hmax
  refine ⟨h.size_ge, by simpa using h.max_key, ?_, by simpa using h.head_key, ?_, ?_, ?_⟩
  · rw [next_setNext, if_neg hmax.symm, h.max_next]
  · intro a ha hamax
    by_cases hap : a = p
    · subst hap
      simpa [haddr] using h.succ_node r hr hrmax
    · simpa [hap] using h.succ_node a ha hamax
  · intro a ha hamax
    by_cases hap : a = p
    · subst hap
      simpa [haddr] using hpr.trans (h.succ_key r hr hrmax)
    · simpa [hap] using h.succ_key a ha hamax
  · obtain ⟨l₁, l₂, hl, hnode, hmem⟩ :=
      h.split_at_unmarked hp hmax (by simp [hnext])
    rw [hsp] at hl hnode hmem
    -- the marked node is followed by its own successor
    obtain ⟨n, l₃, rfl⟩ : ∃ n l₃, l₂ = n :: l₃ := by
      cases l₂ with
      | nil => exact absurd (by simpa using hl.last) hrmax
      | cons n l₃ => exact ⟨n, l₃, rfl⟩
    have hrn : s.succ r = n := by
      have hpath := (List.isChain_append_cons_cons.mp hl.path).2.2
      exact (List.isChain_cons_cons.mp hpath).1
    refine ⟨l₁ ++ p :: n :: l₃, ?_, ?_, ?_⟩
    · rw [hkey]
      refine hl.unlink (by simp [haddr, hrn]) (fun x _ hxp _ => by simp [hxp]) (fun _ _ => rfl)
    · intro a ha
      refine hnode a ?_
      simp only [List.mem_append, List.mem_cons] at ha ⊢
      tauto
    · intro a ha hm
      have hold : (s.next a).mark = false := by
        by_cases hap : a = p
        · subst hap
          simp [hnext]
        · simpa [hap] using hm
      have hne : a ≠ r := fun har => by simp [har, hmark] at hold
      have ha' := hmem a ha hold
      simp only [List.mem_append, List.mem_cons] at ha' ⊢
      tauto

/-- Redirecting a clean word to a fresh node keeps the invariant. -/
theorem inv_link {p r : ℕ} {n : LLNode K} (h : s.Inv) (hp : s.IsNode p)
    (hnext : s.next p = .clean r) (hn : n.next = .clean r) (hpn : s.keyOf p < n.key)
    (hnr : n.key < s.keyOf r) : ((s.setNext p (.clean s.size)).alloc n).Inv := by
  have hmax : p ≠ maxAddr := h.ne_max hpn
  have hsp : s.succ p = r := by simp [succ, hnext]
  have hr : s.IsNode r := hsp ▸ h.succ_node p hp hmax
  have hmaxsize : maxAddr ≠ s.size := h.max_node.ne_size
  -- the old nodes keep their keys, and all but `p` their successors
  have hkey : ∀ a, s.IsNode a → ((s.setNext p (.clean s.size)).alloc n).keyOf a = s.keyOf a :=
    fun a ha => by simp [ha.ne_size]
  have hpsucc : ((s.setNext p (.clean s.size)).alloc n).succ p = s.size := by simp [hp.ne_size]
  have hsucc : ∀ a, s.IsNode a → a ≠ p →
      ((s.setNext p (.clean s.size)).alloc n).succ a = s.succ a :=
    fun a ha hap => by simp [ha.ne_size, hap]
  have hcases : ∀ a, ((s.setNext p (.clean s.size)).alloc n).IsNode a →
      a = s.size ∨ s.IsNode a := by
    intro a ha
    have ha' : a < s.size + 1 := ha.2
    rcases Nat.lt_or_ge a s.size with hlt | hge
    · exact .inr ⟨ha.1, hlt⟩
    · exact .inl (by omega)
  have hsizeNode : ((s.setNext p (.clean s.size)).alloc n).IsNode s.size :=
    ⟨lt_of_lt_of_le (by decide) h.size_ge, Nat.lt_succ_self _⟩
  have hmono : ∀ a, s.IsNode a → ((s.setNext p (.clean s.size)).alloc n).IsNode a :=
    fun a ha => ha.mono (Nat.le_succ _)
  refine ⟨Nat.le_succ_of_le h.size_ge, ?_, ?_, ?_, ?_, ?_, ?_⟩
  · rw [hkey _ h.max_node, h.max_key]
  · rw [next_alloc, if_neg (by simpa using hmaxsize), next_setNext, if_neg hmax.symm, h.max_next]
  · rw [hkey _ h.head_node, h.head_key]
  · intro a ha hamax
    rcases hcases a ha with rfl | hold
    · simpa [hn] using hmono r hr
    · by_cases hap : a = p
      · rw [hap, hpsucc]
        exact hsizeNode
      · rw [hsucc a hold hap]
        exact hmono _ (h.succ_node a hold hamax)
  · -- the keys still increase: the new one is between those of `p` and `r`
    intro a ha hamax
    rcases hcases a ha with rfl | hold
    · simpa [hn, hr.ne_size] using hnr
    · by_cases hap : a = p
      · rw [hap, hpsucc, hkey p hp]
        simpa using hpn
      · rw [hsucc a hold hap, hkey a hold, hkey _ (h.succ_node a hold hamax)]
        exact h.succ_key a hold hamax
  · -- the new node goes between `p` and `r` on the spine
    obtain ⟨l₁, l₂, hl, hnode, hmem⟩ :=
      h.split_at_unmarked hp hmax (by simp [hnext])
    rw [hsp] at hl hnode hmem
    refine ⟨l₁ ++ p :: s.size :: r :: l₂, ?_, ?_, ?_⟩
    · refine hl.insert (by simpa using hpn) (by simpa using hnr) ?_ ?_ ?_ ?_
      · exact hpsucc
      · simp [hn]
      · exact fun x hx hxp _ => hsucc x (hnode x hx) hxp
      · exact fun x hx => hkey x (hnode x hx)
    · intro a ha
      by_cases hsa : a = s.size
      · exact hsa ▸ hsizeNode
      · refine hmono a (hnode a ?_)
        simp only [List.mem_append, List.mem_cons] at ha ⊢
        tauto
    · -- an unmarked node is the new one, or was on the spine before
      intro a ha hm
      rcases hcases a ha with rfl | hnode'
      · simp
      · have hold : (s.next a).mark = false := by
          by_cases hap : a = p
          · subst hap
            simp [hnext]
          · simpa [hnode'.ne_size, hap] using hm
        have ha' := hmem a hnode' hold
        simp only [List.mem_append, List.mem_cons] at ha' ⊢
        tauto

/-- The local pointers of a search for `k`: `left` is a node below `k`, and `right` an untagged
pointer to a node. -/
structure Window (s : LinkedList K) (k : K) (left : ℕ) (right : TaggedPtr) : Prop where
  left_node : s.IsNode left
  left_key : s.keyOf left < k
  clean : right.IsClean
  right_node : s.IsNode right.addr

/-- `w` was read from the `next` word of `r`, whose address has not changed since. -/
structure MarkedAt (s : LinkedList K) (r : ℕ) (w : TaggedPtr) : Prop where
  marked : (s.next r).mark = true
  addr : s.succ r = w.addr

end LinkedList

/-- The key of an update lies strictly between the sentinel keys. -/
def Update.InRange {K : Type} [LinearOrder K] [BoundedOrder K] (u : Update K) : Prop :=
  ⊥ < u.key ∧ u.key < ⊤

/-- What the local variables of a thread satisfy at each program point. -/
def ListPc.Ok {K : Type} [LinearOrder K] [BoundedOrder K] (s : LinkedList K) : ListPc K → Prop
  | .ret _ => True
  | .findHead u => u.InRange
  | .findRight u => u.InRange
  | .findNext u left right => u.InRange ∧ s.Window u.key left right
  | .findUnlink u left right rightNext =>
    u.InRange ∧ s.Window u.key left right ∧ s.MarkedAt right.addr rightNext ∧
      rightNext.freeze = false
  | .findReload u left right => u.InRange ∧ s.Window u.key left right
  | .insStore key value prev right =>
    (Update.insert key value).InRange ∧ s.Window key prev right ∧ key < s.keyOf right.addr
  | .insLink key value prev right newNode =>
    (Update.insert key value).InRange ∧ s.Window key prev right ∧ key < s.keyOf right.addr ∧
      newNode = ⟨key, value, right⟩
  | .insCount => True
  | .rmLoad key prev right =>
    (Update.remove key).InRange ∧ s.Window key prev right ∧ s.keyOf right.addr = key
  | .rmMark key prev right rightNext =>
    (Update.remove key).InRange ∧ s.Window key prev right ∧ s.keyOf right.addr = key ∧
      rightNext.mark = false
  | .rmUnlink prev right rightNext =>
    (∃ key < ⊤, s.Window key prev right) ∧ s.MarkedAt right.addr rightNext
  | .searchAt key curr => key < ⊤ ∧ s.IsNode curr
  | .collTest left _ _ => s.IsNode left
  | .collCheck left _ _ => s.IsNode left ∧ left ≠ LinkedList.maxAddr
  | .collLoad left _ _ => s.IsNode left ∧ left ≠ LinkedList.maxAddr
  | .collFreeze left _ _ _ => s.IsNode left ∧ left ≠ LinkedList.maxAddr
  | .collFollow left _ _ => s.IsNode left ∧ left ≠ LinkedList.maxAddr

namespace LinkedList

variable {K : Type} [LinearOrder K] [BoundedOrder K] {s s' : LinkedList K}

omit [BoundedOrder K] in
theorem Window.mono {k : K} {left : ℕ} {right : TaggedPtr} (hg : Guar s s')
    (h : s.Window k left right) : s'.Window k left right where
  left_node := h.left_node.mono hg.size_le
  left_key := by rw [hg.key_eq _ h.left_node]; exact h.left_key
  clean := h.clean
  right_node := h.right_node.mono hg.size_le

omit [LinearOrder K] [BoundedOrder K] in
theorem MarkedAt.mono {r : ℕ} {w : TaggedPtr} (hg : Guar s s') (hr : s.IsNode r)
    (h : s.MarkedAt r w) : s'.MarkedAt r w := by
  obtain ⟨hm, hs⟩ := hg.marked r hr h.marked
  exact ⟨hm, hs.trans h.addr⟩

/-- The assertion of a thread survives the writes of the others. -/
theorem ok_mono {pc : ListPc K} (hg : Guar s s') (h : pc.Ok s) : pc.Ok s' := by
  cases pc with
  | ret | findHead | findRight | insCount => exact h
  | findNext u left right | findReload u left right => exact ⟨h.1, h.2.mono hg⟩
  | findUnlink u left right rightNext =>
    obtain ⟨hu, hw, hm, hf⟩ := h
    exact ⟨hu, hw.mono hg, hm.mono hg hw.right_node, hf⟩
  | insStore key value prev right =>
    obtain ⟨hu, hw, hlt⟩ := h
    exact ⟨hu, hw.mono hg, by rwa [hg.key_eq _ hw.right_node]⟩
  | insLink key value prev right newNode =>
    obtain ⟨hu, hw, hlt, hn⟩ := h
    exact ⟨hu, hw.mono hg, by rwa [hg.key_eq _ hw.right_node], hn⟩
  | rmLoad key prev right =>
    obtain ⟨hu, hw, hk⟩ := h
    exact ⟨hu, hw.mono hg, by rwa [hg.key_eq _ hw.right_node]⟩
  | rmMark key prev right rightNext =>
    obtain ⟨hu, hw, hk, hm⟩ := h
    exact ⟨hu, hw.mono hg, by rwa [hg.key_eq _ hw.right_node], hm⟩
  | rmUnlink prev right rightNext =>
    obtain ⟨⟨key, hk, hw⟩, hm⟩ := h
    exact ⟨⟨key, hk, hw.mono hg⟩, hm.mono hg hw.right_node⟩
  | searchAt key curr => exact ⟨h.1, h.2.mono hg.size_le⟩
  | collTest => exact IsNode.mono h hg.size_le
  | collCheck | collLoad | collFreeze | collFollow => exact ⟨h.1.mono hg.size_le, h.2⟩

/-- After a load of an unfrozen `right_next`, the caller of `find` continues soundly. -/
theorem findBranch_ok {u : Update K} {left : ℕ} {right : TaggedPtr} (h : s.Inv)
    (hu : u.InRange) (hw : s.Window u.key left right)
    (hfreeze : (s.next right.addr).freeze = false) :
    (s.findBranch u left right (s.next right.addr)).Ok s := by
  unfold findBranch
  by_cases hmark : (s.next right.addr).mark = true
  · rw [if_pos (show (s.next right.addr).isMarked = true from hmark)]
    exact ⟨hu, hw, ⟨hmark, rfl⟩, hfreeze⟩
  · rw [if_neg (show ¬ (s.next right.addr).isMarked = true from hmark)]
    -- `find` returns at the first key that is not less
    by_cases hkey : u.key ≤ s.keyOf right.addr
    · rw [if_pos (show u.key ≤ (s.node right.addr).key from hkey)]
      cases u with
      | insert key value =>
        unfold findReturn
        by_cases heq : s.keyOf right.addr = key
        · simp [show (s.node right.addr).key = key from heq, ListPc.Ok]
        · simp only [show ¬ (s.node right.addr).key = key from heq, if_false]
          split
          · trivial
          · exact ⟨hu, hw, lt_of_le_of_ne hkey (Ne.symm heq)⟩
      | remove key =>
        unfold findReturn
        by_cases heq : s.keyOf right.addr = key
        · simp only [show (s.node right.addr).key = key from heq, ne_eq, not_true, if_false]
          exact ⟨hu, hw, heq⟩
        · simp [show ¬ (s.node right.addr).key = key from heq, ListPc.Ok]
    · rw [if_neg (show ¬ u.key ≤ (s.node right.addr).key from hkey)]
      -- the search moves on, and `right` becomes its `left`
      have hlt : s.keyOf right.addr < u.key := lt_of_not_ge hkey
      refine ⟨hu, hw.right_node, hlt, TaggedPtr.isClean_getUnmarkedRef hfreeze, ?_⟩
      exact h.succ_node _ hw.right_node (h.ne_max hlt)

/-- Every step of a thread keeps the invariant and its assertion, and stays within `Guar`. -/
theorem step_ok {pc pc' : ListPc K} (h : s.Inv) (hpc : pc.Ok s)
    (hs : s.step pc = some (s', pc')) : s'.Inv ∧ pc'.Ok s' ∧ Guar s s' := by
  -- a step that only reads
  have hread : ∀ {p : ListPc K}, s' = s → pc' = p → p.Ok s →
      s'.Inv ∧ pc'.Ok s' ∧ Guar s s' := by
    rintro p rfl rfl hp
    exact ⟨h, hp, Guar.refl _⟩
  cases pc with
  | ret r => simp [step] at hs
  | findHead u =>
    simp only [step] at hs
    split at hs <;> cases hs
    · exact hread rfl rfl trivial
    · exact hread rfl rfl hpc
  | findRight u =>
    simp only [step, Option.some.injEq, Prod.mk.injEq] at hs
    refine hread hs.1.symm hs.2.symm ⟨hpc, h.head_node, ?_, by simp, ?_⟩
    · rw [h.head_key]
      exact hpc.1
    · exact h.succ_node _ h.head_node (by decide)
  | findNext u left right =>
    obtain ⟨hu, hw⟩ := hpc
    simp only [step] at hs
    split at hs <;> cases hs
    · exact hread rfl rfl trivial
    · next hf =>
      exact hread rfl rfl (findBranch_ok h hu hw (by simpa [TaggedPtr.isFreeze] using hf))
  | findReload u left right =>
    obtain ⟨hu, hw⟩ := hpc
    simp only [step] at hs
    split at hs
    · cases hs
      exact hread rfl rfl trivial
    · next hf =>
      split at hs <;> cases hs
      · exact hread rfl rfl trivial
      · exact hread rfl rfl (findBranch_ok h hu hw (by simpa [TaggedPtr.isFreeze] using hf))
  | findUnlink u left right rightNext =>
    obtain ⟨hu, hw, hm, hf⟩ := hpc
    simp only [step] at hs
    split at hs <;> cases hs
    · exact hread rfl rfl hu
    · -- the CAS that takes a marked node out on the way
      next s₁ hcas =>
      obtain ⟨hnext, rfl⟩ := cas_eq_some_iff.mp hcas
      rw [hw.clean.eq_clean] at hnext
      have hg : Guar s (s.setNext left rightNext.getUnmarkedRef) :=
        Guar.setNext_of_clean (by simp [hnext])
      refine ⟨?_, ⟨hu, ?_⟩, hg⟩
      · exact inv_unlink h hw.left_node (h.ne_max hw.left_key) hnext hw.right_node hm.marked
          hm.addr.symm
      · refine ⟨hw.left_node, by simpa using hw.left_key, by simp, ?_⟩
        have hnode := h.succ_node _ hw.right_node (h.ne_max_of_marked hm.marked)
        simpa [hm.addr] using hnode
  | insStore key value prev right =>
    obtain ⟨hu, hw, hlt⟩ := hpc
    simp only [step, Option.some.injEq, Prod.mk.injEq] at hs
    exact hread hs.1.symm hs.2.symm ⟨hu, hw, hlt, rfl⟩
  | insLink key value prev right newNode =>
    obtain ⟨hu, hw, hlt, rfl⟩ := hpc
    simp only [step] at hs
    split at hs <;> cases hs
    · exact hread rfl rfl hu
    · -- the CAS that makes the new node reachable
      next s₁ hcas =>
      obtain ⟨hnext, rfl⟩ := cas_eq_some_iff.mp hcas
      rw [hw.clean.eq_clean] at hnext
      refine ⟨inv_link h hw.left_node hnext hw.clean.eq_clean hw.left_key hlt, trivial, ?_⟩
      exact (Guar.setNext_of_clean (by simp [hnext])).trans (Guar.alloc _ _)
  | insCount =>
    simp only [step, Option.some.injEq, Prod.mk.injEq] at hs
    obtain ⟨rfl, rfl⟩ := hs
    exact ⟨⟨h.size_ge, h.max_key, h.max_next, h.head_key, h.succ_node, h.succ_key, h.spine⟩,
      trivial, ⟨le_rfl, fun _ _ => rfl, fun _ _ => rfl, fun _ _ hm => ⟨hm, rfl⟩,
        fun _ _ hf => ⟨hf, rfl⟩⟩⟩
  | rmLoad key prev right =>
    obtain ⟨hu, hw, hk⟩ := hpc
    simp only [step] at hs
    split at hs <;> cases hs
    · next hm => exact hread rfl rfl ⟨hu, hw, hk, by simpa [TaggedPtr.isMarked] using hm⟩
    · next hm =>
      refine hread rfl rfl ⟨⟨key, hu.2, hw⟩, ?_, rfl⟩
      simpa [TaggedPtr.isMarked] using hm
  | rmMark key prev right rightNext =>
    obtain ⟨hu, hw, hk, hm⟩ := hpc
    simp only [step] at hs
    split at hs <;> cases hs
    · exact hread rfl rfl hu
    · -- the CAS that removes the key: only the mark of the word changes
      next s₁ hcas =>
      obtain ⟨hnext, rfl⟩ := cas_eq_some_iff.mp hcas
      have haddr : rightNext.setMark.addr = s.succ right.addr := by simp [succ, hnext]
      have hmax : right.addr ≠ maxAddr := h.ne_max (hk.trans_lt hu.2)
      have hg : Guar s (s.setNext right.addr rightNext.setMark) :=
        Guar.setNext_of_bits haddr (fun _ => rfl) (fun hf => by simpa [hnext] using hf)
      refine ⟨inv_setNext_bits h hmax haddr fun _ => rfl, ⟨⟨key, hu.2, hw.mono hg⟩, ?_⟩, hg⟩
      exact ⟨by simp, by simp⟩
  | rmUnlink prev right rightNext =>
    obtain ⟨⟨key, hk, hw⟩, hm⟩ := hpc
    simp only [step] at hs
    split at hs <;> cases hs
    · exact hread rfl rfl trivial
    · -- the CAS that takes the removed node out
      next s₁ hcas =>
      obtain ⟨hnext, rfl⟩ := cas_eq_some_iff.mp hcas
      rw [hw.clean.eq_clean] at hnext
      refine ⟨?_, trivial, Guar.setNext_of_clean (by simp [hnext])⟩
      exact inv_unlink h hw.left_node (h.ne_max hw.left_key) hnext hw.right_node hm.marked
        hm.addr.symm
  | searchAt key curr =>
    obtain ⟨hk, hc⟩ := hpc
    simp only [step] at hs
    split at hs <;> cases hs
    · next hlt => exact hread rfl rfl ⟨hk, h.succ_node _ hc (h.ne_max hlt)⟩
    · exact hread rfl rfl trivial
  | collTest left keys vals =>
    simp only [step] at hs
    split at hs <;> cases hs
    · exact hread rfl rfl trivial
    · next hn => exact hread rfl rfl ⟨hpc, h.ne_max_of_ne_null hn⟩
  | collCheck left keys vals =>
    simp only [step] at hs
    split at hs <;> cases hs <;> exact hread rfl rfl hpc
  | collLoad left keys vals =>
    simp only [step, Option.some.injEq, Prod.mk.injEq] at hs
    exact hread hs.1.symm hs.2.symm hpc
  | collFreeze left currNext keys vals =>
    simp only [step] at hs
    split at hs <;> cases hs
    · exact hread rfl rfl hpc
    · -- the CAS that freezes a word of the collected list
      next s₁ hcas =>
      obtain ⟨hnext, rfl⟩ := cas_eq_some_iff.mp hcas
      have haddr : currNext.setFreeze.addr = s.succ left := by simp [succ, hnext]
      refine ⟨inv_setNext_bits h hpc.2 haddr fun hm => by simpa [hnext] using hm, hpc, ?_⟩
      exact Guar.setNext_of_bits haddr (fun hm => by simpa [hnext] using hm) (fun _ => rfl)
  | collFollow left keys vals =>
    have hnode := h.succ_node _ hpc.1 hpc.2
    simp only [step] at hs
    split at hs <;> cases hs <;> exact hread rfl rfl hnode

/-- The invariant and the assertions, as a rely-guarantee proof for the unrestricted list. -/
def relyGuarantee (K : Type) [LinearOrder K] [BoundedOrder K] :
    RelyGuarantee (listMachine K) anyStep where
  inv := Inv
  loc s pc := pc.Ok s
  guar := Guar
  guar_refl := Guar.refl
  guar_trans := Guar.trans
  step {s pc op s' pc'} h hpc _ hs := by
    cases pc with
    | ret r =>
      simp only [listMachine] at hs
      split at hs <;> cases hs
      next hop =>
      refine ⟨h, ?_, Guar.refl _⟩
      cases op with
      | update u => exact hop
      | search key => exact ⟨hop.2, h.head_node⟩
      | collect => exact h.head_node
    | _ => exact step_ok h hpc hs
  stable _ hpc hg := ok_mono hg hpc

/-- Initially the invariant holds, and every thread is between two calls. -/
theorem holds_init {ι : Type} [Nontrivial K] (count : ℤ) :
    (relyGuarantee K).Holds (listInit count : Config ι (LinkedList K) (ListPc K)) :=
  ⟨inv_new count, fun _ => trivial⟩

end LinkedList

end KanvaImpl
