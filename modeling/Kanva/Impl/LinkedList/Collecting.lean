import Kanva.Impl.LinkedList.Freezing
import Kanva.InOrder
import Mathlib.Logic.Relation

/-!
# What a collection returns

A `collect` that runs alone, from any state that the calls of any number of threads lead to. The
walk tests the mark of the word it arrived by, which is the mark of the node before. So a node is
left out when the node before it is removed, and the last entry, which is taken off again, belongs
to the max sentinel only when the last node before it is live.

## Main results

* `LinkedList.returnsAlone_collect`: the vectors have the nodes that come after a live one, without
  the last.
* `collect_exact_iff`: these are the live nodes if and only if no live node comes after a removed
  one.
-/

namespace KanvaImpl

open Kanva Interleaving PointerChain Relation

/-! ### Followers -/

section Followers

variable {α : Type*} (dead : α → Bool)

/-- The elements that come right after a live one. -/
def followers : List α → List α
  | a :: b :: l => if dead a then followers (b :: l) else b :: followers (b :: l)
  | _ => []

variable {dead} {a z : α} {m : List α}

theorem followers_congr (dead dead' : α → Bool) :
    ∀ {l : List α}, (∀ a ∈ l, dead' a = dead a) → followers dead' l = followers dead l
  | [], _ => rfl
  | [_], _ => rfl
  | a :: b :: l, h => by
    rw [followers, followers, h a List.mem_cons_self,
      followers_congr dead dead' fun x hx => h x (List.mem_cons_of_mem a hx)]

theorem followers_cons (hne : m ≠ []) :
    followers dead (a :: m) = if dead a then followers dead m
      else m.head hne :: followers dead m := by
  cases m with
  | nil => exact absurd rfl hne
  | cons b l => rfl

/-- The followers are elements of the rest, in its order. -/
theorem followers_sublist (a : α) : ∀ l : List α, (followers dead (a :: l)).Sublist l
  | [] => List.Sublist.refl []
  | b :: l => by
    rw [followers]
    split
    · exact (followers_sublist b l).cons b
    · exact (followers_sublist b l).cons_cons b

/-- Nothing follows when all but the last are dead. -/
theorem followers_of_dead (h : ∀ a ∈ m, dead a = true) : followers dead (m ++ [z]) = [] := by
  induction m with
  | nil => rfl
  | cons a m ih =>
    rw [List.cons_append, followers_cons (by simp), if_pos (h a List.mem_cons_self)]
    exact ih fun b hb => h b (List.mem_cons_of_mem a hb)

theorem followers_ne_nil (ha : dead a = false) : followers dead (a :: m ++ [z]) ≠ [] := by
  rw [List.cons_append, followers_cons (by simp), if_neg (by simp [ha])]
  exact List.cons_ne_nil _ _

/-- Between a live start and the end, the followers without the last are the live elements if and
only if no live one comes after a dead one. -/
theorem dropLast_followers_iff (ha : dead a = false) (hnodup : m.Nodup) :
    (followers dead (a :: m ++ [z])).dropLast = m.filter (fun b => !dead b) ↔
      m.Pairwise fun b c => dead b = true → dead c = true := by
  induction m generalizing a with
  | nil => simp [followers, ha]
  | cons b t ih =>
    obtain ⟨hb, hnodup⟩ := List.nodup_cons.mp hnodup
    have hcons : followers dead (a :: (b :: t) ++ [z]) = b :: followers dead (b :: t ++ [z]) := by
      rw [List.cons_append, followers_cons (by simp), if_neg (by simp [ha])]
      rfl
    rw [hcons, List.pairwise_cons]
    cases hdead : dead b with
    | false =>
      rw [List.dropLast_cons_of_ne_nil (followers_ne_nil hdead),
        List.filter_cons_of_pos (by simp [hdead]),
        List.cons_eq_cons, and_iff_right rfl, ih hdead hnodup]
      simp
    | true =>
      rw [List.filter_cons_of_neg (by simp [hdead])]
      constructor
      · intro heq
        -- the dead element itself is among the followers, unless it is the last of them
        have hall : ∀ c ∈ t, dead c = true := by
          by_cases hnil : followers dead (b :: t ++ [z]) = []
          · rw [hnil, List.dropLast_singleton] at heq
            have hempty := List.filter_eq_nil_iff.mp heq.symm
            exact fun c hc => by simpa using hempty c hc
          · rw [List.dropLast_cons_of_ne_nil hnil] at heq
            have hmem : b ∈ t.filter fun b => !dead b := heq ▸ List.mem_cons_self
            exact absurd (List.mem_of_mem_filter hmem) hb
        exact ⟨fun c hc _ => hall c hc, List.pairwise_of_forall_mem_list fun c _ c' hc' _ =>
          hall c' hc'⟩
      · rintro ⟨hall, -⟩
        have hdeads : ∀ c ∈ b :: t, dead c = true := by
          intro c hc
          rcases List.mem_cons.mp hc with rfl | hc
          · exact hdead
          · exact hall c hc rfl
        rw [followers_of_dead hdeads, List.dropLast_singleton, eq_comm, List.filter_eq_nil_iff]
        intro c hc
        simp [hall c hc rfl]

end Followers

namespace LinkedList

variable {K : Type} [LinearOrder K] {s s' : LinkedList K} {keys : List K} {vals : List Val}

/-! ### A thread that runs alone -/

/-- A step of a thread that runs alone. -/
def StepAlone (p q : LinkedList K × ListPc K) : Prop := p.1.step p.2 = some q

/-- A call returns this result when it runs alone. -/
def ReturnsAlone (s : LinkedList K) (op : ListOp K) (r : ListResult K) : Prop :=
  ∃ s', ReflTransGen StepAlone (s, enter op) (s', .ret r)

/-- A call has one result. -/
theorem ReturnsAlone.unique {op : ListOp K} {r r' : ListResult K} (h : s.ReturnsAlone op r)
    (h' : s.ReturnsAlone op r') : r = r' := by
  obtain ⟨s₁, h₁⟩ := h
  obtain ⟨s₂, h₂⟩ := h'
  have hstuck : ∀ {s : LinkedList K} {r : ListResult K} {q}, ReflTransGen StepAlone (s, .ret r) q →
      q = (s, .ret r) := by
    intro s r q hq
    rcases hq.cases_head with heq | ⟨p, hp, -⟩
    · exact heq.symm
    · exact absurd hp (by simp [StepAlone, step])
  have hunique : Relator.RightUnique (StepAlone (K := K)) := fun p q q' hq hq' =>
    Option.some.inj (hq.symm.trans hq')
  rcases ReflTransGen.total_of_right_unique hunique h₁ h₂ with h | h
  · exact (ListPc.ret.inj (Prod.ext_iff.mp (hstuck h)).2).symm
  · exact ListPc.ret.inj (Prod.ext_iff.mp (hstuck h)).2

/-- The words of `s'` are those of `s`, but for the freeze bit of `a`. -/
structure FreezesAt (s s' : LinkedList K) (a : ℕ) : Prop where
  next_ne : ∀ b, b ≠ a → s'.next b = s.next b
  key_eq : ∀ b, s'.keyOf b = s.keyOf b
  value_eq : ∀ b, (s'.node b).value = (s.node b).value

/-- One round of the loop of `collect`. -/
theorem collect_round {a : ℕ} (ha : s.next a ≠ .null) (keys : List K) (vals : List Val) :
    ∃ s', s.FreezesAt s' a ∧ ReflTransGen StepAlone (s, .collTest a keys vals)
      (s', .collTest (s.follow (a, keys, vals)).1 (s.follow (a, keys, vals)).2.1
        (s.follow (a, keys, vals)).2.2) := by
  have htest : StepAlone (s, .collTest a keys vals) (s, .collCheck a keys vals) := by
    simp only [StepAlone, step]
    rw [if_neg ha]
  -- the word is followed once it is frozen
  have hfollow : ∀ t : LinkedList K, t.next a = (s.next a).setFreeze →
      (∀ b, t.keyOf b = s.keyOf b) → (∀ b, (t.node b).value = (s.node b).value) →
      StepAlone (t, .collFollow a keys vals) (t, .collTest (s.follow (a, keys, vals)).1
        (s.follow (a, keys, vals)).2.1 (s.follow (a, keys, vals)).2.2) := by
    intro t ht hkey hvalue
    have hkey' : (t.node (s.next a).addr).key = s.keyOf (s.succ a) := hkey _
    have hvalue' : (t.node (s.next a).addr).value = (s.node (s.succ a)).value := hvalue _
    simp only [StepAlone, step, ht, follow, TaggedPtr.isMarked, TaggedPtr.unsetFreeze_mark,
      TaggedPtr.setFreeze_mark, TaggedPtr.getUnmarkedRef_addr, TaggedPtr.unsetFreeze_addr,
      TaggedPtr.setFreeze_addr, hkey', hvalue']
    cases (s.next a).mark <;> rfl
  -- a word that is frozen already is not written again
  cases hf : (s.next a).freeze with
  | true =>
    have hcheck : StepAlone (s, .collCheck a keys vals) (s, .collFollow a keys vals) := by
      simp [StepAlone, step, TaggedPtr.isFreeze, hf]
    have hself : s.next a = (s.next a).setFreeze := (TaggedPtr.setFreeze_eq_self hf).symm
    refine ⟨s, ⟨fun _ _ => rfl, fun _ => rfl, fun _ => rfl⟩, ?_⟩
    exact .head htest (.head hcheck (.single (hfollow s hself (fun _ => rfl) fun _ => rfl)))
  | false =>
    have hcheck : StepAlone (s, .collCheck a keys vals) (s, .collLoad a keys vals) := by
      simp [StepAlone, step, TaggedPtr.isFreeze, hf]
    have hload : StepAlone (s, .collLoad a keys vals) (s, .collFreeze a (s.next a) keys vals) := rfl
    have hcas : StepAlone (s, .collFreeze a (s.next a) keys vals)
        (s.setNext a (s.next a).setFreeze, .collFollow a keys vals) := by
      simp [StepAlone, step, cas]
    refine ⟨s.setNext a (s.next a).setFreeze, ⟨fun b hb => by simp [hb], by simp, by simp⟩, ?_⟩
    exact .head htest (.head hcheck (.head hload (.head hcas
      (.single (hfollow _ (by simp) (by simp) (by simp))))))

/-- A collection that runs alone along a chain. Each round changes a word that is behind it. -/
theorem collect_chain {l : List ℕ} {a : ℕ} (hl : Spine s.succ s.keyOf a maxAddr (a :: l))
    (hnull : s.next maxAddr = .null) (hnext : ∀ b ∈ a :: l, b ≠ maxAddr → s.next b ≠ .null)
    (keys : List K) (vals : List Val) :
    ∃ s', ReflTransGen StepAlone (s, .collTest a keys vals) (s', .ret (.vectors
      (keys ++ (followers (fun b => (s.next b).mark) (a :: l)).map s.keyOf).dropLast
      (vals ++ (followers (fun b => (s.next b).mark) (a :: l)).map
        fun b => (s.node b).value).dropLast)) := by
  induction l generalizing s a keys vals with
  | nil =>
    obtain rfl : a = maxAddr := by simpa using hl.last
    refine ⟨s, .single ?_⟩
    simp [StepAlone, step, hnull, followers]
  | cons b l ih =>
    obtain ⟨hsucc, htail⟩ := hl.tail
    have hal : a ∉ b :: l := (List.nodup_cons.mp hl.nodup).1
    have hmax : a ≠ maxAddr := fun h => hal (h ▸ htail.end_mem)
    obtain ⟨s', hfreeze, hround⟩ := collect_round (hnext a List.mem_cons_self hmax) keys vals
    -- the words ahead are as before, so the rest of the chain can be followed in the new state
    have hrest : ∀ x ∈ b :: l, s'.next x = s.next x := fun x hx =>
      hfreeze.next_ne x fun h => hal (h ▸ hx)
    have htail' : Spine s'.succ s'.keyOf b maxAddr (b :: l) :=
      htail.congr (fun x hx _ => congrArg TaggedPtr.addr (hrest x hx)) fun x _ => hfreeze.key_eq x
    obtain ⟨s'', hs''⟩ := ih htail' ((hfreeze.next_ne maxAddr hmax.symm).trans hnull)
      (fun x hx hxm => (hrest x hx).symm ▸ hnext x (List.mem_cons_of_mem a hx) hxm)
      (s.follow (a, keys, vals)).2.1 (s.follow (a, keys, vals)).2.2
    rw [followers_congr (fun x => (s.next x).mark) _ fun x hx => by rw [hrest x hx],
      show s'.keyOf = s.keyOf from funext hfreeze.key_eq,
      show (fun x => (s'.node x).value) = fun x => (s.node x).value from funext hfreeze.value_eq]
      at hs''
    rw [follow_fst, hsucc] at hround
    -- the pair of the next node is pushed if the word that leads to it is unmarked
    have hvectors : (s.follow (a, keys, vals)).2.1 ++
          (followers (fun b => (s.next b).mark) (b :: l)).map s.keyOf =
          keys ++ (followers (fun b => (s.next b).mark) (a :: b :: l)).map s.keyOf ∧
        (s.follow (a, keys, vals)).2.2 ++
          (followers (fun b => (s.next b).mark) (b :: l)).map (fun b => (s.node b).value) =
          vals ++ (followers (fun b => (s.next b).mark) (a :: b :: l)).map
            fun b => (s.node b).value := by
      rw [follow, followers, hsucc]
      cases (s.next a).mark <;> simp
    rw [hvectors.1, hvectors.2] at hs''
    exact ⟨s'', hround.trans hs''⟩

/-- The vectors of a collection that runs alone have the nodes that come after a live one, without
the last. -/
theorem returnsAlone_collect [BoundedOrder K] (h : s.Inv) {l : List ℕ}
    (hl : Spine s.succ s.keyOf head maxAddr l) (hnode : ∀ a ∈ l, s.IsNode a) :
    s.ReturnsAlone .collect (.vectors
      ((followers (fun b => (s.next b).mark) l).dropLast.map s.keyOf)
      ((followers (fun b => (s.next b).mark) l).dropLast.map fun b => (s.node b).value)) := by
  obtain ⟨a, l, rfl⟩ := List.exists_cons_of_ne_nil (List.ne_nil_of_mem hl.start_mem)
  obtain rfl : a = head := by simpa using hl.head
  have hnext : ∀ b ∈ head :: l, b ≠ maxAddr → s.next b ≠ .null := by
    intro b hb hmax hnull
    have hpos := (h.succ_node b (hnode b hb) hmax).1
    rw [succ, hnull] at hpos
    exact absurd hpos (lt_irrefl 0)
  obtain ⟨s', hs'⟩ := collect_chain hl h.max_next hnext [] []
  rw [List.nil_append, List.nil_append, ← List.map_dropLast, ← List.map_dropLast] at hs'
  exact ⟨s', hs'⟩

/-! ### The min sentinel is never marked -/

variable [BoundedOrder K]

/-- No step marks the min sentinel: a removal marks a node with a key of the calls. -/
theorem head_unmarked_of_step {pc pc' : ListPc K} (h : s.Inv) (hpc : pc.Ok s)
    (hs : s.step pc = some (s', pc')) (hm : (s.next head).mark = false) :
    (s'.next head).mark = false := by
  -- a step that redirects or marks one word
  have hset : ∀ {a : ℕ} {e w : TaggedPtr} {t : LinkedList K}, s.cas a e w = some t →
      (a = head → e.mark = false → w.mark = false) → (t.next head).mark = false := by
    intro a e w t ht hw
    obtain ⟨rfl, rfl⟩ := cas_eq_some_iff.mp ht
    rw [next_setNext]
    split
    · next heq => exact hw heq.symm (heq ▸ hm)
    · exact hm
  -- first the accesses that write a word
  cases pc with
  | ret r => simp [step] at hs
  | findUnlink u left right rightNext =>
    simp only [step] at hs
    split at hs <;> cases hs
    · exact hm
    · next ht => exact hset ht fun _ _ => rfl
  | insLink key value prev right newNode =>
    simp only [step] at hs
    split at hs <;> cases hs
    · exact hm
    · next t ht =>
      have hne : head ≠ t.size := by
        obtain ⟨-, rfl⟩ := cas_eq_some_iff.mp ht
        exact h.head_node.ne_size
      rw [next_alloc, if_neg hne]
      exact hset ht fun _ _ => rfl
  | rmMark key prev right rightNext =>
    obtain ⟨hrange, -, hkey, -⟩ := hpc
    simp only [step] at hs
    split at hs <;> cases hs
    · exact hm
    · next ht =>
      refine hset ht fun heq _ => ?_
      rw [heq, h.head_key] at hkey
      exact absurd hrange.1 (hkey ▸ lt_irrefl _)
  | rmUnlink prev right rightNext =>
    simp only [step] at hs
    split at hs <;> cases hs
    · exact hm
    · next ht => exact hset ht fun _ _ => rfl
  | collFreeze left currNext keys vals =>
    simp only [step] at hs
    split at hs <;> cases hs
    · exact hm
    · next ht => exact hset ht fun _ he => he
  | findHead u | findNext u left right | findReload u left right | rmLoad key prev right
  | searchAt key curr | collTest left keys vals | collCheck left keys vals
  | collFollow left keys vals =>
    simp only [step] at hs
    split_ifs at hs <;> cases hs <;> exact hm
  | findRight u | insStore key value prev right | insCount | collLoad left keys vals =>
    cases hs
    exact hm

/-- In every reachable state the min sentinel is unmarked. -/
theorem head_unmarked_of_run {ι : Type} [DecidableEq ι] [Nontrivial K] (count : ℤ)
    {c : Config ι (LinkedList K) (ListPc K)}
    (hrun : Run (listMachine K) anyStep (listInit count) c) :
    (relyGuarantee K).Holds c ∧ (c.shared.next head).mark = false := by
  refine hrun.invariant (P := fun c => (relyGuarantee K).Holds c ∧
    (c.shared.next head).mark = false)
    (fun {c d} i op hc _ hf => ⟨((relyGuarantee K).fire_holds hc.1 trivial hf).1, ?_⟩)
    ⟨holds_init count, rfl⟩
  obtain ⟨s', pc', hs, rfl⟩ := Config.fire_eq_some_iff.mp hf
  have hloc := hc.1.loc i
  simp only [listMachine] at hs
  split at hs
  · split at hs <;> cases hs
    exact hc.2
  · exact head_unmarked_of_step hc.1.inv hloc hs hc.2

/-- The nodes between the two ends of a chain. -/
def inner (l : List ℕ) : List ℕ := l.tail.dropLast

/-- The live nodes between the sentinels. -/
def live (s : LinkedList K) (l : List ℕ) : List ℕ := (inner l).filter fun a => !(s.next a).mark

end LinkedList

variable {K : Type} [LinearOrder K] [BoundedOrder K] {ι : Type} [DecidableEq ι]

/-- In every reachable state, a collection that runs alone returns the keys and the values of the
live nodes between the sentinels if and only if no live node comes after a removed one. -/
theorem collect_exact_iff [Nontrivial K] (count : ℤ) {c : Config ι (LinkedList K) (ListPc K)}
    (hrun : Run (listMachine K) anyStep (listInit count) c) :
    ∃ l, Spine c.shared.succ c.shared.keyOf LinkedList.head LinkedList.maxAddr l ∧
      (c.shared.ReturnsAlone .collect (.vectors ((c.shared.live l).map c.shared.keyOf)
          ((c.shared.live l).map fun a => (c.shared.node a).value)) ↔
        (LinkedList.inner l).Pairwise fun a b =>
          (c.shared.next a).mark = true → (c.shared.next b).mark = true) := by
  obtain ⟨hholds, hhead⟩ := LinkedList.head_unmarked_of_run count hrun
  have hinv : c.shared.Inv := hholds.inv
  obtain ⟨l, hl, hnode, -⟩ := hinv.spine
  refine ⟨l, hl, ?_⟩
  have hreturns := LinkedList.returnsAlone_collect hinv hl hnode
  generalize c.shared = s at *
  -- the spine runs from one sentinel to the other
  obtain ⟨m, rfl⟩ : ∃ m, l = LinkedList.head :: m ++ [LinkedList.maxAddr] := by
    obtain ⟨init, rfl⟩ := List.getLast?_eq_some_iff.mp hl.last
    cases init with
    | nil => exact absurd hl.head (by decide)
    | cons a m =>
      have ha : a = LinkedList.head := by simpa using hl.head
      exact ⟨m, by rw [ha]⟩
  have hinner : LinkedList.inner (LinkedList.head :: m ++ [LinkedList.maxAddr]) = m := by
    rw [LinkedList.inner, List.cons_append, List.tail_cons, List.dropLast_concat]
  have hnodup : m.Nodup := hl.nodup.sublist (by simp)
  rw [LinkedList.live, hinner, ← dropLast_followers_iff (z := LinkedList.maxAddr) hhead hnodup]
  constructor
  · intro h
    -- the keys tell the nodes of the spine apart
    have hvectors := ListResult.vectors.inj (h.unique hreturns)
    refine ((InOrder.map_eq_map_iff (W := LinkedList.head :: m ++ [LinkedList.maxAddr])
      (fun a ha b hb => hl.key_inj ha hb) ?_ ?_).mp hvectors.1).symm
    · intro a ha
      exact List.mem_append_left _ (List.mem_cons_of_mem _ (List.mem_of_mem_filter ha))
    · intro a ha
      exact List.mem_cons_of_mem _ ((followers_sublist _ _).subset
        ((List.dropLast_sublist _).subset ha))
  · intro h
    rwa [h] at hreturns

/-- Thread 0 inserts 3 and 5, then thread 1 marks a node and stops before it unlinks it. -/
def markedBy (key : Fin 8) (steps : ℕ) : List (Fin 2 × ListOp (Fin 8)) :=
  List.replicate 7 (0, .update (.insert 3 7)) ++ List.replicate 8 (0, .update (.insert 5 9)) ++
    List.replicate steps (1, .update (.remove key))

/-- The last node is removed: the collection is exact. -/
theorem collect_exact_iff_last : ∃ c : Config (Fin 2) (LinkedList (Fin 8)) (ListPc (Fin 8)),
    (c.shared.next 4).mark = true ∧
    ∃ l, Spine c.shared.succ c.shared.keyOf LinkedList.head LinkedList.maxAddr l ∧
      (c.shared.ReturnsAlone .collect (.vectors ((c.shared.live l).map c.shared.keyOf)
          ((c.shared.live l).map fun a => (c.shared.node a).value)) ↔
        (LinkedList.inner l).Pairwise fun a b =>
          (c.shared.next a).mark = true → (c.shared.next b).mark = true) := by
  have hexec : ((listInit 0 : Config (Fin 2) _ _).exec (listMachine (Fin 8)) anyStep
      (markedBy 5 7)).any (fun c => (c.shared.next 4).mark) = true := by decide
  obtain ⟨c, hrun, hmark⟩ := Config.exec_any hexec
  exact ⟨c, hmark, collect_exact_iff 0 hrun⟩

/-- The first of two nodes is removed: the collection has its pair and not that of the live node. -/
theorem collect_returns_removed : ∃ c : Config (Fin 2) (LinkedList (Fin 8)) (ListPc (Fin 8)),
    Run (listMachine (Fin 8)) anyStep (listInit 0) c ∧
    Spine c.shared.succ c.shared.keyOf LinkedList.head LinkedList.maxAddr [2, 3, 4, 1] ∧
    c.shared.live [2, 3, 4, 1] = [4] ∧ c.shared.keyOf 4 = 5 ∧
    c.shared.ReturnsAlone .collect (.vectors [3] [7]) := by
  let facts (c : Config (Fin 2) (LinkedList (Fin 8)) (ListPc (Fin 8))) : Prop :=
    c.shared.size = 5 ∧ [2, 3, 4, 1].IsChain (fun x y => c.shared.succ x = y) ∧
      [2, 3, 4, 1].Pairwise (fun x y => c.shared.keyOf x < c.shared.keyOf y) ∧
      c.shared.live [2, 3, 4, 1] = [4] ∧ c.shared.keyOf 4 = 5 ∧
      (followers (fun a => (c.shared.next a).mark) [2, 3, 4, 1]).dropLast = [3] ∧
      c.shared.keyOf 3 = 3 ∧ (c.shared.node 3).value = 7
  have hexec : ((listInit 0 : Config (Fin 2) _ _).exec (listMachine (Fin 8)) anyStep
      (markedBy 3 6)).any (fun c => decide (facts c)) = true := by decide
  obtain ⟨c, hrun, hfacts⟩ := Config.exec_any hexec
  obtain ⟨hsize, hchain, hsorted, hlive, hkey, hfollowers, hkey', hvalue⟩ :=
    (of_decide_eq_true hfacts : facts c)
  have hspine :
      Spine c.shared.succ c.shared.keyOf LinkedList.head LinkedList.maxAddr [2, 3, 4, 1] :=
    ⟨rfl, rfl, hchain, hsorted⟩
  refine ⟨c, hrun, hspine, hlive, hkey, ?_⟩
  have hreturns := LinkedList.returnsAlone_collect (LinkedList.head_unmarked_of_run 0 hrun).1.inv
    hspine fun a ha => ?_
  · rw [hfollowers, List.map_singleton, List.map_singleton, hkey', hvalue] at hreturns
    exact hreturns
  · have hall : ∀ a ∈ [2, 3, 4, 1], 0 < a ∧ a < 5 := by decide
    rw [LinkedList.IsNode, hsize]
    exact hall a ha

end KanvaImpl
