import Kanva.Impl.LinkedList.Insertion
import Mathlib.Logic.Relation

/-!
# A removal beside collections

A `remove(key)` looks for a node with the key and marks it, while collections freeze the list and
copy the keys they pass. A node that a collection has copied must not be marked any more, and a
marked one must not be copied: `KeyThawed` says that a step breaks neither rule.

## Main results

* `LinkedList.step_write`: what a step writes.
* `LinkedList.StepWrite.reaches`: the chain from a node still comes to the unmarked nodes behind it.
* `LinkedList.step_keyInv`: while no step breaks the two rules, a node that a frozen word points at
  is not marked.
-/

namespace KanvaImpl

open Kanva PointerChain

namespace LinkedList

variable {K : Type}

/-- A node below the max sentinel, and the node its word points at. -/
def Follows (s : LinkedList K) (a b : ℕ) : Prop := s.IsNode a ∧ a ≠ maxAddr ∧ s.succ a = b

/-- The chain from `a` comes to `b`. -/
def Reaches (s : LinkedList K) (a b : ℕ) : Prop := Relation.ReflTransGen s.Follows a b

/-- The chain from `head` comes to `a` over frozen words. -/
def Passed (s : LinkedList K) (a : ℕ) : Prop :=
  Relation.ReflTransGen (fun x y => s.FrozenNode x ∧ s.succ x = y) head a

/-- A frozen word points at `a`. -/
def FrozenInto (s : LinkedList K) (a : ℕ) : Prop :=
  ∃ x < s.size, (0 < x ∧ x ≠ maxAddr ∧ (s.next x).freeze = true) ∧ s.succ x = a

instance (s : LinkedList K) (a : ℕ) : Decidable (s.FrozenInto a) := by
  unfold FrozenInto
  infer_instance

/-- Every unmarked node below the max sentinel is frozen. -/
def Done (s : LinkedList K) : Prop :=
  ∀ a, s.IsNode a → a ≠ maxAddr → (s.next a).mark = false → (s.next a).freeze = true

/-- `a` is an unmarked node with the key. -/
structure LiveAt (s : LinkedList K) (key : K) (a : ℕ) : Prop where
  isNode : s.IsNode a
  key_eq : s.keyOf a = key
  unmarked : (s.next a).mark = false

/-- A frozen word points at a node with the key. -/
def Taken (s : LinkedList K) (key : K) : Prop := ∃ a, s.FrozenInto a ∧ s.keyOf a = key

/-- The invariant of a list whose steps follow the two rules for a key. -/
structure KeyInv [LinearOrder K] [BoundedOrder K] (key : K) (s : LinkedList K) : Prop where
  inv : s.Inv
  passed : ∀ a, s.FrozenNode a → s.Passed a
  clear : ∀ a, s.keyOf a = key → s.FrozenInto a → (s.next a).mark = false

/-- What a step of any thread leaves alone. -/
structure KeyGuar (s s' : LinkedList K) : Prop where
  guar : Guar s s'
  reaches : ∀ a b, s.IsNode b → (s'.next b).mark = false → s.Reaches a b → s'.Reaches a b
  done : s.Done → s'.Done

/-- What a step at a program point writes. -/
inductive StepWrite (s : LinkedList K) : ListPc K → LinkedList K → Prop
  | none {pc : ListPc K} {s' : LinkedList K} (size : s'.size = s.size) (node : s'.node = s.node) :
      StepWrite s pc s'
  | mark {key : K} {prev : ℕ} {right rightNext : TaggedPtr} (next : s.next right.addr = rightNext) :
      StepWrite s (.rmMark key prev right rightNext) (s.setNext right.addr rightNext.setMark)
  | freeze {left : ℕ} {currNext : TaggedPtr} {keys : List K} {vals : List Val}
      (next : s.next left = currNext) :
      StepWrite s (.collFreeze left currNext keys vals) (s.setNext left currNext.setFreeze)
  /-- The unlinking of a marked node. -/
  | unlink {pc : ListPc K} {left right : ℕ} {w : TaggedPtr} (node : s.IsNode left)
      (ne_max : left ≠ maxAddr) (next : s.next left = .clean right) (right_node : s.IsNode right)
      (marked : (s.next right).mark = true) (addr : w.addr = s.succ right)
      (unmarked : w.mark = false) (frozen : w.freeze = true → (s.next right).freeze = true) :
      StepWrite s pc (s.setNext left w)
  | link {key : K} {value : Val} {prev : ℕ} {right : ℕ} (node : s.IsNode prev)
      (ne_max : prev ≠ maxAddr) (next : s.next prev = .clean right) (right_node : s.IsNode right) :
      StepWrite s (.insLink key value prev (.clean right) ⟨key, value, .clean right⟩)
        ((s.setNext prev (.clean s.size)).alloc ⟨key, value, .clean right⟩)

end LinkedList

/-- A word that `remove` has loaded frozen is still frozen, and so are all words behind a
collection. -/
def ListPc.FrozenOk {K : Type} (s : LinkedList K) : ListPc K → Prop
  | .rmMark _ _ right rightNext | .rmUnlink _ right rightNext =>
    rightNext.freeze = true → (s.next right.addr).freeze = true
  | .collTest left _ _ | .collCheck left _ _ | .collLoad left _ _ | .collFreeze left _ _ _ =>
    s.Passed left
  | .collFollow left _ _ => s.Passed left ∧ (s.next left).freeze = true
  | _ => True

/-- The step follows the two rules for a key: `remove` does not mark a node with the key whose word
is frozen or that a frozen word points at, and `collect` does not freeze a word that points at a
marked node with the key. -/
def KeyThawed {K : Type} (key : K) (s : LinkedList K) : ListPc K → Prop
  | .rmMark k _ right rightNext => k = key → s.next right.addr = rightNext →
      rightNext.freeze = false ∧ ¬ s.FrozenInto right.addr
  | .collFreeze left currNext _ _ => s.next left = currNext → s.keyOf (s.succ left) = key →
      (s.next (s.succ left)).mark = false
  | _ => True

instance {K : Type} [DecidableEq K] (key : K) (s : LinkedList K) (pc : ListPc K) :
    Decidable (KeyThawed key s pc) := by
  delta KeyThawed
  induction pc using ListPc.casesOn <;> infer_instance

namespace LinkedList

variable {K : Type} {s s' : LinkedList K} {key : K} {a b : ℕ}

/-! ### The writes -/

theorem frozenInto_iff : s.FrozenInto a ↔ ∃ x, s.FrozenNode x ∧ s.succ x = a := by
  constructor
  · rintro ⟨x, hlt, ⟨hpos, hmax, hf⟩, hs⟩
    exact ⟨x, ⟨⟨hpos, hlt⟩, hmax, hf⟩, hs⟩
  · rintro ⟨x, ⟨hnode, hmax, hf⟩, hs⟩
    exact ⟨x, hnode.2, ⟨hnode.1, hmax, hf⟩, hs⟩

variable [LinearOrder K] [BoundedOrder K]

/-- Every step is one of the writes. -/
theorem step_write {pc pc' : ListPc K} (h : s.Inv) (hpc : pc.Ok s) (hfr : pc.FrozenOk s)
    (hs : s.step pc = some (s', pc')) : StepWrite s pc s' := by
  -- a step that only reads
  have hread : s' = s → StepWrite s pc s' := by
    rintro rfl
    exact .none rfl rfl
  cases pc with
  | ret r => simp [step] at hs
  | findUnlink u left right rightNext =>
    obtain ⟨-, hw, hm, hf⟩ := hpc
    simp only [step] at hs
    split at hs <;> cases hs
    · exact hread rfl
    · next hcas =>
      obtain ⟨hnext, rfl⟩ := cas_eq_some_iff.mp hcas
      rw [hw.clean.eq_clean] at hnext
      refine .unlink hw.left_node (h.ne_max hw.left_key) hnext hw.right_node hm.marked hm.addr.symm
        rfl fun hf' => ?_
      rw [TaggedPtr.getUnmarkedRef_freeze, hf] at hf'
      cases hf'
  | rmUnlink prev right rightNext =>
    obtain ⟨⟨k, hk, hw⟩, hm⟩ := hpc
    simp only [step] at hs
    split at hs <;> cases hs
    · exact hread rfl
    · next hcas =>
      obtain ⟨hnext, rfl⟩ := cas_eq_some_iff.mp hcas
      rw [hw.clean.eq_clean] at hnext
      exact .unlink hw.left_node (h.ne_max hw.left_key) hnext hw.right_node hm.marked hm.addr.symm
        rfl hfr
  | insLink k value prev right newNode =>
    obtain ⟨-, hw, -, rfl⟩ := hpc
    simp only [step] at hs
    split at hs <;> cases hs
    · exact hread rfl
    · next hcas =>
      obtain ⟨hnext, rfl⟩ := cas_eq_some_iff.mp hcas
      rw [hw.clean.eq_clean] at hnext ⊢
      exact .link hw.left_node (h.ne_max hw.left_key) hnext hw.right_node
  | rmMark k prev right rightNext =>
    simp only [step] at hs
    split at hs <;> cases hs
    · exact hread rfl
    · next hcas =>
      obtain ⟨hnext, rfl⟩ := cas_eq_some_iff.mp hcas
      exact .mark hnext
  | collFreeze left currNext keys vals =>
    simp only [step] at hs
    split at hs <;> cases hs
    · exact hread rfl
    · next hcas =>
      obtain ⟨hnext, rfl⟩ := cas_eq_some_iff.mp hcas
      exact .freeze hnext
  | insCount =>
    cases hs
    exact .none rfl rfl
  | findReload u left right =>
    simp only [step] at hs
    split_ifs at hs <;> cases hs <;> exact hread rfl
  | findRight | insStore | collLoad =>
    cases hs
    exact hread rfl
  | findHead | findNext | rmLoad | searchAt | collTest | collCheck | collFollow =>
    simp only [step] at hs
    split at hs <;> cases hs <;> exact hread rfl

/-! ### Reaching a node -/

/-- The keys increase along the chain. -/
theorem Reaches.key_lt (h : s.Inv) (hr : s.Reaches a b) : a = b ∨ s.keyOf a < s.keyOf b := by
  induction hr using Relation.ReflTransGen.head_induction_on with
  | refl => exact .inl rfl
  | head hxy _ ih =>
    obtain ⟨hx, hmax, rfl⟩ := hxy
    have hlt := h.succ_key _ hx hmax
    rcases ih with heq | hlt'
    · exact .inr (heq ▸ hlt)
    · exact .inr (hlt.trans hlt')

omit [LinearOrder K] [BoundedOrder K] in
/-- A node that comes to another one comes to it through its successor. -/
theorem Reaches.next (hr : s.Reaches a b) (hne : a ≠ b) : s.Reaches (s.succ a) b := by
  rcases Relation.ReflTransGen.cases_head hr with heq | ⟨c, ⟨-, -, rfl⟩, hcb⟩
  · exact absurd heq hne
  · exact hcb

/-- The chain from `head` comes to every unmarked node. -/
theorem Inv.reaches_head (h : s.Inv) (ha : s.IsNode a) (hm : (s.next a).mark = false) :
    s.Reaches head a := by
  obtain ⟨l, hl, hnode, hmem⟩ := h.spine
  have hpath : ∀ (l : List ℕ) (x : ℕ), (x :: l).IsChain (fun y z => s.succ y = z) →
      (∀ y ∈ x :: l, s.IsNode y) → (∀ y ∈ (x :: l).dropLast, y ≠ maxAddr) →
      ∀ y ∈ x :: l, s.Reaches x y := by
    intro l
    induction l with
    | nil =>
      rintro x - - - y hy
      obtain rfl : y = x := by simpa using hy
      exact .refl
    | cons z l ih =>
      intro x hchain hnode hmax y hy
      obtain ⟨hxz, hrest⟩ := List.isChain_cons_cons.mp hchain
      rcases List.mem_cons.mp hy with rfl | hy
      · exact .refl
      · refine .head ⟨hnode x List.mem_cons_self, hmax x (by simp), hxz⟩ ?_
        refine ih z hrest (fun w hw => hnode w (List.mem_cons_of_mem _ hw)) (fun w hw => ?_) y hy
        refine hmax w ?_
        rw [List.dropLast_cons_of_ne_nil (List.cons_ne_nil _ _)]
        exact List.mem_cons_of_mem _ hw
  obtain ⟨x, l, rfl⟩ := List.exists_cons_of_ne_nil (List.ne_nil_of_mem hl.start_mem)
  obtain rfl : x = head := by simpa using hl.head
  refine hpath l head hl.path hnode (fun y hy hmax => ?_) a (hmem a ha hm)
  -- the max sentinel ends the spine
  have happ := List.dropLast_append_getLast? _ hl.last
  have hnodup := hl.nodup
  rw [← happ] at hnodup
  exact List.disjoint_of_nodup_append hnodup hy (hmax ▸ List.mem_singleton_self _)

/-- A write leaves the chain to an unmarked node in place. -/
theorem StepWrite.reaches {pc : ListPc K} (h : s.Inv) (hw : StepWrite s pc s')
    (hm : (s'.next b).mark = false) (hr : s.Reaches a b) : s'.Reaches a b := by
  induction hr using Relation.ReflTransGen.head_induction_on with
  | refl => exact .refl
  | @head x y hxy hyb ih =>
    obtain ⟨hx, hmax, rfl⟩ := hxy
    cases hw with
    | none hsize hnode =>
      refine .head ⟨⟨hx.1, hsize ▸ hx.2⟩, hmax, ?_⟩ ih
      rw [succ, next, hnode]
      rfl
    | mark hnext | freeze hnext =>
      refine .head ⟨hx, hmax, ?_⟩ ih
      rw [succ_setNext]
      split
      · next heq => simp [heq, succ, hnext]
      · rfl
    | @unlink _ left right w hnode hlmax hnext hright hmarked haddr =>
      by_cases hxl : x = left
      · subst hxl
        have hsucc : s.succ x = right := by simp [succ, hnext]
        rw [hsucc] at ih hyb
        have hne : right ≠ x := by
          rintro rfl
          exact lt_irrefl _ (hsucc ▸ h.succ_key _ hx hmax)
        -- the marked node is not the one looked for
        have hrb : right ≠ b := by
          rintro rfl
          rw [next_setNext, if_neg hne, hmarked] at hm
          cases hm
        have hrest := Reaches.next ih hrb
        rw [succ_setNext, if_neg hne, ← haddr] at hrest
        exact .head ⟨hx, hmax, by simp⟩ hrest
      · exact .head ⟨hx, hmax, by simp [hxl]⟩ ih
    | @link k value prev right hnode hpmax hnext hright =>
      have hx' : ((s.setNext prev (.clean s.size)).alloc ⟨k, value, .clean right⟩).IsNode x :=
        hx.mono (Nat.le_succ _)
      by_cases hxp : x = prev
      · subst hxp
        have hsucc : s.succ x = right := by simp [succ, hnext]
        rw [hsucc] at ih
        -- the new node is between the two
        have hsize : maxAddr ≠ s.size := h.max_node.ne_size
        refine .head ⟨hx', hmax, ?_⟩ (.head ⟨?_, hsize.symm, ?_⟩ ih)
        · simp [hx.ne_size]
        · exact ⟨lt_of_lt_of_le (by decide) h.size_ge, Nat.lt_succ_self _⟩
        · simp
      · exact .head ⟨hx', hmax, by simp [hx.ne_size, hxp]⟩ ih

/-! ### Frozen words -/

omit [LinearOrder K] [BoundedOrder K] in
theorem FrozenNode.mono (hg : Guar s s') (h : s.FrozenNode a) :
    s'.FrozenNode a ∧ s'.succ a = s.succ a := by
  obtain ⟨hf, hs⟩ := hg.frozen a h.isNode h.frozen
  exact ⟨⟨h.isNode.mono hg.size_le, h.ne_max, hf⟩, hs⟩

omit [LinearOrder K] [BoundedOrder K] in
theorem Passed.mono (hg : Guar s s') (h : s.Passed a) : s'.Passed a := by
  refine Relation.ReflTransGen.mono (fun x y hxy => ?_) _ _ h
  obtain ⟨hf, hs⟩ := hxy.1.mono hg
  exact ⟨hf, hs.trans hxy.2⟩

omit [LinearOrder K] [BoundedOrder K] in
theorem FrozenInto.mono (hg : Guar s s') (h : s.FrozenInto a) : s'.FrozenInto a := by
  obtain ⟨x, hx, rfl⟩ := frozenInto_iff.mp h
  obtain ⟨hf, hs⟩ := hx.mono hg
  exact frozenInto_iff.mpr ⟨x, hf, hs⟩

omit [BoundedOrder K] [LinearOrder K] in
theorem Passed.reaches (h : s.Passed a) : s.Reaches head a :=
  Relation.ReflTransGen.mono (fun _ _ hxy => ⟨hxy.1.isNode, hxy.1.ne_max, hxy.2⟩) _ _ h

/-- A node that a frozen word points at is a node. -/
theorem FrozenInto.isNode (h : s.Inv) (ha : s.FrozenInto a) : s.IsNode a := by
  obtain ⟨x, hx, rfl⟩ := frozenInto_iff.mp ha
  exact h.succ_node x hx.isNode hx.ne_max

theorem Taken.mono (h : s.Inv) (hg : Guar s s') (ht : s.Taken key) : s'.Taken key := by
  obtain ⟨a, ha, rfl⟩ := ht
  exact ⟨a, ha.mono hg, hg.key_eq a (ha.isNode h)⟩

/-- Two nodes on the chain from `head` with the same successor are the same. -/
theorem Inv.eq_of_succ_eq (h : s.Inv) (ha : s.Reaches head a) (hb : s.Reaches head b)
    (han : s.IsNode a) (hbn : s.IsNode b) (ham : a ≠ maxAddr) (hbm : b ≠ maxAddr)
    (heq : s.succ a = s.succ b) : a = b := by
  by_contra hne
  -- the one that comes first comes to the other through the common successor
  have hbefore : ∀ {x y : ℕ}, s.IsNode y → y ≠ maxAddr → x ≠ y → s.succ x = s.succ y →
      ¬ s.Reaches x y := by
    intro x y hy hym hxy heq hr
    have hlt := h.succ_key y hy hym
    rcases (heq ▸ hr.next hxy).key_lt h with hback | hback
    · exact absurd (hback ▸ hlt) (lt_irrefl _)
    · exact lt_asymm hlt hback
  have huniq : Relator.RightUnique s.Follows := fun x y z hxy hxz => hxy.2.2.symm.trans hxz.2.2
  rcases Relation.ReflTransGen.total_of_right_unique huniq ha hb with hab | hba
  · exact hbefore hbn hbm hne heq hab
  · exact hbefore han ham (Ne.symm hne) heq.symm hba

/-- The chain up to a frozen node is frozen, so a clean word does not point at one. -/
theorem KeyInv.not_frozen_of_clean (h : s.KeyInv key) {left right : ℕ} (hl : s.IsNode left)
    (hmax : left ≠ maxAddr) (hnext : s.next left = .clean right)
    (hmarked : (s.next right).mark = true) : (s.next right).freeze = false := by
  rw [Bool.eq_false_iff]
  intro hf
  have hsucc : s.succ left = right := by simp [succ, hnext]
  have hright : s.IsNode right := hsucc ▸ h.inv.succ_node left hl hmax
  have hpassed := h.passed right ⟨hright, h.inv.ne_max_of_marked hmarked, hf⟩
  rcases Relation.ReflTransGen.cases_tail hpassed with heq | ⟨q, hq, hqf, hqs⟩
  · have hlt := h.inv.succ_key left hl hmax
    rw [hsucc, heq, h.inv.head_key] at hlt
    exact not_lt_bot hlt
  · have hleft := h.inv.reaches_head hl (by simp [hnext])
    have heq := h.inv.eq_of_succ_eq hleft (Passed.reaches hq) hl hqf.isNode hmax hqf.ne_max
      (hsucc.trans hqs.symm)
    have hfrozen := hqf.frozen
    rw [← heq, hnext] at hfrozen
    cases hfrozen

/-- When the frozen words lead to the max sentinel, every unmarked node below it is frozen. -/
theorem Inv.done_of_passed (h : s.Inv) (hp : s.Passed maxAddr) : s.Done := by
  intro a ha hmax hm
  have hpath : ∀ {c : ℕ}, Relation.ReflTransGen (fun x y => s.FrozenNode x ∧ s.succ x = y) c
      maxAddr → s.Reaches c a → (s.next a).freeze = true := by
    intro c hc hr
    induction hc using Relation.ReflTransGen.head_induction_on with
    | refl =>
      rcases Relation.ReflTransGen.cases_head hr with heq | ⟨d, hd, -⟩
      · exact absurd heq.symm hmax
      · exact absurd rfl hd.2.1
    | @head x y hxy _ ih =>
      obtain ⟨hx, rfl⟩ := hxy
      by_cases hxa : x = a
      · exact hxa ▸ hx.frozen
      · exact ih (hr.next hxa)
  exact hpath hp (h.reaches_head ha hm)

/-! ### What a write changes -/

namespace StepWrite

variable {pc : ListPc K}

/-- Only `collect` freezes a word, and no write redirects one that is frozen. -/
theorem frozen (h : s.KeyInv key) (hw : StepWrite s pc s') (ha : s'.FrozenNode a) :
    s'.succ a = s.succ a ∧
      (s.FrozenNode a ∨ ∃ w keys vals, pc = .collFreeze a w keys vals ∧ s.next a = w) := by
  obtain ⟨hnode, hmax, hf⟩ := ha
  cases hw with
  | none hsize hmem =>
    have hnext : s'.next a = s.next a := by rw [next, next, hmem]
    refine ⟨by rw [succ, succ, hnext], .inl ⟨⟨hnode.1, hsize ▸ hnode.2⟩, hmax, ?_⟩⟩
    rwa [← hnext]
  | @mark k prev right rightNext hnext =>
    rw [next_setNext] at hf
    by_cases har : a = right.addr
    · rw [if_pos har] at hf
      exact ⟨by simp [har, succ, hnext], .inl ⟨hnode, hmax, by rwa [har, hnext]⟩⟩
    · rw [if_neg har] at hf
      exact ⟨by simp [har], .inl ⟨hnode, hmax, hf⟩⟩
  | @freeze left w keys vals hnext =>
    rw [next_setNext] at hf
    by_cases hal : a = left
    · subst hal
      exact ⟨by simp [succ, hnext], .inr ⟨w, keys, vals, rfl, hnext⟩⟩
    · rw [if_neg hal] at hf
      exact ⟨by simp [hal], .inl ⟨hnode, hmax, hf⟩⟩
  | @unlink _ left right w hlnode hlmax hnext hright hmarked haddr hunmarked hfrozen =>
    rw [next_setNext] at hf
    by_cases hal : a = left
    · -- the word of a marked node behind a clean word is not frozen
      rw [if_pos hal] at hf
      have hthawed := h.not_frozen_of_clean hlnode hlmax hnext hmarked
      rw [hfrozen hf] at hthawed
      cases hthawed
    · rw [if_neg hal] at hf
      exact ⟨by simp [hal], .inl ⟨hnode, hmax, hf⟩⟩
  | @link k value prev right hprev hpmax hnext hright =>
    rw [next_alloc, next_setNext] at hf
    split_ifs at hf with has hap
    · cases hf
    · cases hf
    · have has' : a ≠ s.size := has
      have hlt : a < s.size + 1 := hnode.2
      exact ⟨by simp [has', hap], .inl ⟨⟨hnode.1, by omega⟩, hmax, hf⟩⟩

omit [LinearOrder K] [BoundedOrder K] in
/-- Only `remove` marks a node. -/
theorem unmarked (hw : StepWrite s pc s') (ha : s.IsNode a) (hm : (s.next a).mark = false) :
    (s'.next a).mark = false ∨
      ∃ k prev right w, pc = .rmMark k prev right w ∧ right.addr = a ∧ s.next a = w := by
  cases hw with
  | none _ hmem =>
    left
    rwa [next, hmem]
  | @mark k prev right rightNext hnext =>
    by_cases har : a = right.addr
    · exact .inr ⟨k, prev, right, rightNext, rfl, har.symm, har ▸ hnext⟩
    · left
      rwa [next_setNext, if_neg har]
  | @freeze left w keys vals hnext =>
    left
    rw [next_setNext]
    split
    · next hal => rwa [TaggedPtr.setFreeze_mark, ← hnext, ← hal]
    · exact hm
  | unlink _ _ _ _ _ _ hunmarked _ =>
    left
    rw [next_setNext]
    split
    · exact hunmarked
    · exact hm
  | link =>
    left
    rw [next_alloc, if_neg (by simpa using ha.ne_size), next_setNext]
    split
    · rfl
    · exact hm

omit [LinearOrder K] [BoundedOrder K] in
/-- Only `insert` adds a node, behind a node whose word is clean. -/
theorem isNode (hw : StepWrite s pc s') (ha : s'.IsNode a) :
    s.IsNode a ∨ ∃ k value prev right n, pc = .insLink k value prev right n ∧ s'.keyOf a = k ∧
      s.IsNode prev ∧ prev ≠ maxAddr ∧ (s.next prev).IsClean := by
  cases hw with
  | none hsize _ => exact .inl ⟨ha.1, hsize ▸ ha.2⟩
  | mark | freeze | unlink => exact .inl ha
  | @link k value prev right hprev hpmax hnext hright =>
    rcases Nat.lt_succ_iff_lt_or_eq.mp ha.2 with hlt | heq
    · exact .inl ⟨ha.1, hlt⟩
    · obtain rfl : a = s.size := heq
      exact .inr ⟨k, value, prev, .clean right, _, rfl, by simp, hprev, hpmax, by simp [hnext]⟩

end StepWrite

/-- A step that follows the two rules keeps the invariant. -/
theorem step_keyInv {pc pc' : ListPc K} (h : s.KeyInv key) (hpc : pc.Ok s) (hfr : pc.FrozenOk s)
    (hok : KeyThawed key s pc) (hs : s.step pc = some (s', pc')) :
    s'.KeyInv key ∧ KeyGuar s s' := by
  obtain ⟨hinv, -, hguar⟩ := step_ok h.inv hpc hs
  have hw := step_write h.inv hpc hfr hs
  refine ⟨⟨hinv, fun a ha => ?_, fun a hka ha => ?_⟩, hguar,
    fun a b _ hm hr => hw.reaches h.inv hm hr, fun hdone a ha hmax hm => ?_⟩
  · -- a word that `collect` freezes has frozen words before it
    obtain ⟨-, hold | ⟨w, keys, vals, rfl, -⟩⟩ := hw.frozen h ha
    · exact (h.passed a hold).mono hguar
    · exact Passed.mono hguar hfr
  · obtain ⟨x, hx, hxa⟩ := frozenInto_iff.mp ha
    obtain ⟨hsucc, hcases⟩ := hw.frozen h hx
    rw [hsucc] at hxa
    -- the node is an old one, and was not marked before
    have hxold : s.IsNode x ∧ x ≠ maxAddr := by
      rcases hcases with hold | ⟨w, keys, vals, rfl, -⟩
      · exact ⟨hold.isNode, hold.ne_max⟩
      · exact hpc
    have hnode : s.IsNode a := hxa ▸ h.inv.succ_node x hxold.1 hxold.2
    rw [hguar.key_eq a hnode] at hka
    have hm : (s.next a).mark = false := by
      rcases hcases with hold | ⟨w, keys, vals, rfl, hnext⟩
      · exact h.clear a hka (frozenInto_iff.mpr ⟨x, hold, hxa⟩)
      · exact hxa ▸ hok hnext (hxa ▸ hka)
    rcases hw.unmarked hnode hm with hm' | ⟨k, prev, right, w, rfl, rfl, hnext⟩
    · exact hm'
    · -- the step that marks it freezes nothing
      obtain ⟨-, -, hkey, -⟩ := hpc
      rcases hcases with hold | ⟨w', keys, vals, heq, -⟩
      · exact absurd (frozenInto_iff.mpr ⟨x, hold, hxa⟩) (hok (hkey.symm.trans hka) hnext).2
      · cases heq
  · rcases hw.isNode ha with hold | ⟨k, value, prev, right, n, -, -, hprev, hpmax, hclean⟩
    · by_cases hmark : (s.next a).mark = true
      · rw [(hguar.marked a hold hmark).1] at hm
        cases hm
      · exact (hguar.frozen a hold (hdone a hold hmax (by simpa using hmark))).1
    · have hfrozen := hdone prev hprev hpmax hclean.1
      rw [hclean.2] at hfrozen
      cases hfrozen

omit [LinearOrder K] [BoundedOrder K] in
theorem KeyGuar.refl (s : LinkedList K) : KeyGuar s s := ⟨Guar.refl s, fun _ _ _ _ hr => hr, id⟩

omit [LinearOrder K] [BoundedOrder K] in
theorem KeyGuar.trans {s'' : LinkedList K} (h : KeyGuar s s') (h' : KeyGuar s' s'') :
    KeyGuar s s'' where
  guar := h.guar.trans h'.guar
  reaches a b hb hm hr := by
    have hb' := hb.mono h.guar.size_le
    refine h'.reaches a b hb' hm (h.reaches a b hb ?_ hr)
    -- a mark would have stayed
    by_contra hmark
    rw [(h'.guar.marked b hb' (by simpa using hmark)).1] at hm
    cases hm
  done hd := h'.done (h.done hd)

omit [LinearOrder K] [BoundedOrder K] in
/-- A node that is still unmarked is still live. -/
theorem LiveAt.mono (hg : Guar s s') (h : s.LiveAt key a) (hm : (s'.next a).mark = false) :
    s'.LiveAt key a :=
  ⟨h.isNode.mono hg.size_le, (hg.key_eq a h.isNode).trans h.key_eq, hm⟩

end LinkedList

end KanvaImpl
