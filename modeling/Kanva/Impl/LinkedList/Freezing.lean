import Kanva.Impl.LinkedList.Invariant
import Mathlib.Logic.Function.Iterate
import Mathlib.Order.Fin.Basic

/-!
# Freezing the bin list

`collect` freezes every word on the chain and copies the nodes it passes. A frozen word should be
final, so that all collections of a list agree and no update takes effect behind their back.

The loop of `find` tests the freeze bit of every `right_next` it loads. `remove` loads `right_next`
once more after `find` has returned, and does not test the bit again: if the word has been frozen in
between, its CAS adds the mark to a frozen word, and `remove` reports success. `ReloadsThawed` says
that a step is not such a reload.

## Main results

* `freezing_final`: in every run without such a reload, freezing is final.
* `freezing_not_final`: one such reload makes two collections disagree.
-/

namespace KanvaImpl

open Kanva Interleaving PointerChain

namespace LinkedList

variable {K : Type}

/-- A node below the max sentinel whose word is frozen. -/
structure FrozenNode (s : LinkedList K) (a : ℕ) : Prop where
  isNode : s.IsNode a
  ne_max : a ≠ maxAddr
  frozen : (s.next a).freeze = true

/-- One round of the loop of `collect`, on `left_node` and the two vectors. -/
def follow (s : LinkedList K) (p : ℕ × List K × List Val) : ℕ × List K × List Val :=
  if (s.next p.1).mark then (s.succ p.1, p.2)
  else (s.succ p.1, p.2.1 ++ [s.keyOf (s.succ p.1)], p.2.2 ++ [(s.node (s.succ p.1)).value])

/-- A collection of `s` can stand at `p`, all the words behind it frozen. -/
def Trace (s : LinkedList K) (p : ℕ × List K × List Val) : Prop :=
  ∃ n, (s.follow)^[n] (head, [], []) = p ∧
    ∀ m < n, s.FrozenNode ((s.follow)^[m] (head, [], [])).1

/-- The words that are frozen in `s` are the same in `s'`. -/
def FinalWords (s s' : LinkedList K) : Prop :=
  ∀ a, s.IsNode a → (s.next a).freeze = true → s'.next a = s.next a

theorem follow_fst (s : LinkedList K) (p : ℕ × List K × List Val) :
    (s.follow p).1 = s.succ p.1 := by
  unfold follow
  split <;> rfl

namespace FinalWords

variable {s s' s'' : LinkedList K}

theorem refl (s : LinkedList K) : FinalWords s s := fun _ _ _ => rfl

theorem trans (h : FinalWords s s') (h' : FinalWords s' s'') (hle : s.size ≤ s'.size) :
    FinalWords s s'' := by
  intro a ha hf
  have hnext := h a ha hf
  rw [h' a (ha.mono hle) (by rw [hnext]; exact hf), hnext]

/-- A write to a thawed word. -/
theorem setNext_of_thawed {a : ℕ} {w : TaggedPtr} (hf : (s.next a).freeze = false) :
    FinalWords s (s.setNext a w) := by
  intro b _ hb
  have hba : b ≠ a := by
    rintro rfl
    simp [hf] at hb
  simp [hba]

theorem alloc (s : LinkedList K) (n : LLNode K) : FinalWords s (s.alloc n) := by
  intro b hb _
  simp [hb.ne_size]

end FinalWords

namespace Trace

variable {s s' : LinkedList K} {p q : ℕ × List K × List Val}

/-- Every collection starts at `head` with empty vectors. -/
theorem start (s : LinkedList K) : s.Trace (head, [], []) :=
  ⟨0, rfl, fun _ hm => absurd hm (Nat.not_lt_zero _)⟩

/-- A collection moves on over a frozen word. -/
theorem follow (h : s.Trace p) (hp : s.FrozenNode p.1) : s.Trace (s.follow p) := by
  obtain ⟨n, rfl, hlt⟩ := h
  refine ⟨n + 1, Function.iterate_succ_apply' _ _ _, fun m hm => ?_⟩
  rcases Nat.lt_succ_iff_lt_or_eq.mp hm with hm | rfl
  · exact hlt m hm
  · exact hp

/-- Two collections that have reached the max sentinel agree. -/
theorem unique (hp : s.Trace p) (hq : s.Trace q) (hpm : p.1 = maxAddr) (hqm : q.1 = maxAddr) :
    p = q := by
  obtain ⟨n, rfl, hn⟩ := hp
  obtain ⟨m, rfl, hm⟩ := hq
  -- neither walk passes the sentinel, so they have the same length
  rcases lt_trichotomy n m with hlt | rfl | hlt
  · exact absurd hpm (hm n hlt).ne_max
  · rfl
  · exact absurd hqm (hn m hlt).ne_max

variable [LinearOrder K] [BoundedOrder K]

/-- The nodes behind a collection keep their words, and the nodes they point at their contents. -/
theorem mono (h : s.Inv) (hg : Guar s s') (hw : FinalWords s s') (hp : s.Trace p) :
    s'.Trace p := by
  obtain ⟨n, rfl, hlt⟩ := hp
  have hround : ∀ q : ℕ × List K × List Val, s.FrozenNode q.1 → s'.follow q = s.follow q := by
    intro q hq
    have hnext := hw q.1 hq.isNode hq.frozen
    have hsucc : s'.succ q.1 = s.succ q.1 := congrArg TaggedPtr.addr hnext
    have hnode := h.succ_node q.1 hq.isNode hq.ne_max
    unfold LinkedList.follow
    rw [hnext, hsucc, hg.key_eq _ hnode, hg.value_eq _ hnode]
  have hiter : ∀ m ≤ n, (s'.follow)^[m] (head, [], []) = (s.follow)^[m] (head, [], []) := by
    intro m hm
    induction m with
    | zero => rfl
    | succ m ih =>
      rw [Function.iterate_succ_apply', Function.iterate_succ_apply', ih (by omega)]
      exact hround _ (hlt m (by omega))
  refine ⟨n, hiter n le_rfl, fun m hm => ?_⟩
  rw [hiter m hm.le]
  obtain ⟨hnode, hmax, hf⟩ := hlt m hm
  exact ⟨hnode.mono hg.size_le, hmax, by rw [hw _ hnode hf]; exact hf⟩

omit [LinearOrder K] [BoundedOrder K] in
/-- A collection that has stopped at the max sentinel after `n` rounds has visited, from its round
`m` on, the members of a chain in order. -/
private theorem frozen_of_chain {n : ℕ}
    (hmax : ((s.follow)^[n] (head, [], [])).1 = maxAddr)
    (hlt : ∀ m < n, s.FrozenNode ((s.follow)^[m] (head, [], [])).1) :
    ∀ (l : List ℕ) (m : ℕ), l.head? = some ((s.follow)^[m] (head, [], [])).1 →
      l.IsChain (fun x y => s.succ x = y) → maxAddr ∉ l.dropLast → m ≤ n →
      ∀ x ∈ l, x ≠ maxAddr → s.FrozenNode x := by
  intro l
  induction l with
  | nil => simp
  | cons b l ih =>
    intro m hhead hpath hlast hmn x hx hxmax
    have hb : b = ((s.follow)^[m] (head, [], [])).1 := by simpa using hhead
    have hmlt : b ≠ maxAddr → m < n := by
      intro hbmax
      refine lt_of_le_of_ne hmn fun hmn => hbmax ?_
      rw [hb, hmn, hmax]
    rcases List.mem_cons.mp hx with rfl | hx
    · rw [hb]
      exact hlt m (hmlt hxmax)
    · obtain ⟨c, l, rfl⟩ := List.exists_cons_of_ne_nil (List.ne_nil_of_mem hx)
      rw [List.dropLast_cons_of_ne_nil (List.cons_ne_nil _ _), List.mem_cons, not_or] at hlast
      rw [List.isChain_cons_cons] at hpath
      refine ih (m + 1) ?_ hpath.2 hlast.2 (hmlt (Ne.symm hlast.1)) x hx hxmax
      rw [Function.iterate_succ_apply', follow_fst, ← hb, hpath.1]
      rfl

/-- When a collection has reached the max sentinel, every unmarked node below it is frozen. -/
theorem frozen_of_unmarked (h : s.Inv) (hp : s.Trace p) (hpm : p.1 = maxAddr) {a : ℕ}
    (ha : s.IsNode a) (hmax : a ≠ maxAddr) (hm : (s.next a).mark = false) :
    (s.next a).freeze = true := by
  obtain ⟨n, rfl, hlt⟩ := hp
  obtain ⟨l, hl, -, hmem⟩ := h.spine
  have hend : maxAddr ∉ l.dropLast := by
    intro hin
    have happ : l = l.dropLast ++ [maxAddr] := (List.dropLast_append_getLast? _ hl.last).symm
    have hnodup := hl.nodup
    rw [happ] at hnodup
    exact List.disjoint_of_nodup_append hnodup hin (List.mem_singleton_self _)
  exact (frozen_of_chain hpm hlt l 0 hl.head hl.path hend (Nat.zero_le n) a (hmem a ha hm)
    hmax).frozen

end Trace

end LinkedList

/-- What the vectors of a thread inside `collect` are, and that `remove` is about to mark a thawed
word. -/
def ListPc.Collects {K : Type} (s : LinkedList K) : ListPc K → Prop
  | .ret (.vectors keys vals) =>
    ∃ ks vs, s.Trace (LinkedList.maxAddr, ks, vs) ∧ keys = ks.dropLast ∧ vals = vs.dropLast
  | .rmMark _ _ _ rightNext => rightNext.freeze = false
  | .collTest left keys vals => s.Trace (left, keys, vals)
  | .collCheck left keys vals => s.Trace (left, keys, vals)
  | .collLoad left keys vals => s.Trace (left, keys, vals)
  | .collFreeze left _ keys vals => s.Trace (left, keys, vals)
  | .collFollow left keys vals => s.Trace (left, keys, vals) ∧ (s.next left).freeze = true
  | _ => True

/-- The step is not a reload of a frozen, unmarked `right_next` by `remove`. -/
def ReloadsThawed {K : Type} (s : LinkedList K) (pc : ListPc K) (_ : ListOp K) : Prop :=
  match pc with
  | .rmLoad _ _ right => (s.next right.addr).freeze = true → (s.next right.addr).mark = true
  | _ => True

instance {K : Type} (s : LinkedList K) (pc : ListPc K) (op : ListOp K) :
    Decidable (ReloadsThawed s pc op) := by
  delta ReloadsThawed
  cases pc <;> infer_instance

namespace LinkedList

variable {K : Type} [LinearOrder K] [BoundedOrder K] {s s' : LinkedList K}

/-- The vectors of a collection survive the steps of the other threads. -/
theorem collects_mono {pc : ListPc K} (h : s.Inv) (hpc : pc.Ok s) (hg : Guar s s')
    (hw : FinalWords s s') (hc : pc.Collects s) : pc.Collects s' := by
  cases pc with
  | ret r =>
    cases r with
    | vectors keys vals =>
      obtain ⟨ks, vs, ht, hk, hv⟩ := hc
      exact ⟨ks, vs, ht.mono h hg hw, hk, hv⟩
    | _ => trivial
  | rmMark => exact hc
  | collTest | collCheck | collLoad | collFreeze => exact Trace.mono h hg hw hc
  | collFollow left keys vals =>
    refine ⟨hc.1.mono h hg hw, ?_⟩
    rw [hw left hpc.1 hc.2]
    exact hc.2
  | _ => trivial

omit [BoundedOrder K] in
/-- A search holds no vectors. -/
theorem findBranch_collects (s s' : LinkedList K) (u : Update K) (left : ℕ)
    (right rightNext : TaggedPtr) : (s.findBranch u left right rightNext).Collects s' := by
  unfold findBranch
  split
  · trivial
  · split
    · cases u <;> unfold findReturn <;> repeat' (first | trivial | split)
    · trivial

omit [LinearOrder K] [BoundedOrder K] in
/-- The result of `remove` is no vector. -/
theorem valueResult_collects (s s' : LinkedList K) (w : TaggedPtr) :
    (ListPc.ret (s.valueResult w)).Collects s' := by
  unfold valueResult
  split <;> trivial

/-- A step other than a reload of a frozen word leaves the frozen words alone. -/
theorem step_collects {pc pc' : ListPc K} {op : ListOp K} (h : s.Inv) (hpc : pc.Ok s)
    (hc : pc.Collects s) (hok : ReloadsThawed s pc op) (hs : s.step pc = some (s', pc')) :
    pc'.Collects s' ∧ FinalWords s s' := by
  have hread : ∀ {p : ListPc K}, s' = s → pc' = p → p.Collects s →
      pc'.Collects s' ∧ FinalWords s s' := by
    rintro p rfl rfl hp
    exact ⟨hp, FinalWords.refl _⟩
  -- the pointers of a search are clean, so its CASes expect thawed words
  have hclean : ∀ {prev : ℕ} {right w : TaggedPtr}, right.IsClean → s.next prev = right →
      FinalWords s (s.setNext prev w) := fun hright hnext =>
    FinalWords.setNext_of_thawed (by rw [hnext]; exact hright.2)
  obtain ⟨hinv', -, hg⟩ := step_ok h hpc hs
  cases pc with
  | ret r => simp [step] at hs
  | findHead u =>
    simp only [step] at hs
    split at hs <;> cases hs <;> exact hread rfl rfl trivial
  | findRight u =>
    simp only [step, Option.some.injEq, Prod.mk.injEq] at hs
    exact hread hs.1.symm hs.2.symm trivial
  | findNext u left right =>
    simp only [step] at hs
    split at hs <;> cases hs
    · exact hread rfl rfl trivial
    · exact hread rfl rfl (findBranch_collects _ _ _ _ _ _)
  | findReload u left right =>
    simp only [step] at hs
    split at hs
    · cases hs
      exact hread rfl rfl trivial
    · split at hs <;> cases hs
      · exact hread rfl rfl trivial
      · exact hread rfl rfl (findBranch_collects _ _ _ _ _ _)
  | findUnlink u left right rightNext =>
    simp only [step] at hs
    split at hs <;> cases hs
    · exact hread rfl rfl trivial
    · next s₁ hcas =>
      obtain ⟨hnext, rfl⟩ := cas_eq_some_iff.mp hcas
      exact ⟨trivial, hclean hpc.2.1.clean hnext⟩
  | insStore key value prev right =>
    simp only [step, Option.some.injEq, Prod.mk.injEq] at hs
    exact hread hs.1.symm hs.2.symm trivial
  | insLink key value prev right newNode =>
    simp only [step] at hs
    split at hs <;> cases hs
    · exact hread rfl rfl trivial
    · next s₁ hcas =>
      obtain ⟨hnext, rfl⟩ := cas_eq_some_iff.mp hcas
      exact ⟨trivial, (hclean hpc.2.1.clean hnext).trans (FinalWords.alloc _ _) le_rfl⟩
  | insCount =>
    simp only [step, Option.some.injEq, Prod.mk.injEq] at hs
    obtain ⟨rfl, rfl⟩ := hs
    exact ⟨trivial, fun _ _ _ => rfl⟩
  | rmLoad key prev right =>
    simp only [step] at hs
    split at hs <;> cases hs
    · next hm =>
      refine hread rfl rfl ?_
      -- an unmarked word was read, so the reload read a thawed one
      have hmark : (s.next right.addr).mark = false := by simpa [TaggedPtr.isMarked] using hm
      show (s.next right.addr).freeze = false
      rw [Bool.eq_false_iff]
      intro hf
      rw [hok hf] at hmark
      cases hmark
    · exact hread rfl rfl trivial
  | rmMark key prev right rightNext =>
    simp only [step] at hs
    split at hs <;> cases hs
    · exact hread rfl rfl trivial
    · next s₁ hcas =>
      obtain ⟨hnext, rfl⟩ := cas_eq_some_iff.mp hcas
      exact ⟨trivial, FinalWords.setNext_of_thawed (by rw [hnext]; exact hc)⟩
  | rmUnlink prev right rightNext =>
    simp only [step] at hs
    split at hs <;> cases hs
    · exact hread rfl rfl (valueResult_collects _ _ _)
    · next s₁ hcas =>
      obtain ⟨hnext, rfl⟩ := cas_eq_some_iff.mp hcas
      obtain ⟨⟨k, -, hw⟩, -⟩ := hpc
      exact ⟨valueResult_collects _ _ _, hclean hw.clean hnext⟩
  | searchAt key curr =>
    simp only [step] at hs
    split at hs <;> cases hs <;> exact hread rfl rfl trivial
  | collTest left keys vals =>
    simp only [step] at hs
    split at hs <;> cases hs
    · next hnull =>
      -- only the max sentinel has a null word
      have hleft : left = maxAddr := by
        by_contra hmax
        have hpos := (h.succ_node left hpc hmax).1
        simp [succ, hnull, TaggedPtr.null] at hpos
      subst hleft
      exact hread rfl rfl ⟨keys, vals, hc, rfl, rfl⟩
    · exact hread rfl rfl hc
  | collCheck left keys vals =>
    simp only [step] at hs
    split at hs <;> cases hs
    · exact hread rfl rfl hc
    · next hf => exact hread rfl rfl ⟨hc, by simpa [TaggedPtr.isFreeze] using hf⟩
  | collLoad left keys vals =>
    simp only [step, Option.some.injEq, Prod.mk.injEq] at hs
    exact hread hs.1.symm hs.2.symm hc
  | collFreeze left currNext keys vals =>
    simp only [step] at hs
    split at hs <;> cases hs
    · exact hread rfl rfl hc
    · next s₁ hcas =>
      obtain ⟨hnext, rfl⟩ := cas_eq_some_iff.mp hcas
      have hw : FinalWords s (s.setNext left currNext.setFreeze) := by
        by_cases hf : currNext.freeze = true
        · -- the CAS writes the word it expects
          intro b _ _
          by_cases hb : b = left
          · rw [hb, next_setNext, if_pos rfl, TaggedPtr.setFreeze_eq_self hf, hnext]
          · rw [next_setNext, if_neg hb]
        · exact FinalWords.setNext_of_thawed (by rw [hnext]; simpa using hf)
      exact ⟨⟨Trace.mono h hg hw hc, by simp⟩, hw⟩
  | collFollow left keys vals =>
    obtain ⟨ht, hf⟩ := hc
    have htrace := ht.follow ⟨hpc.1, hpc.2, hf⟩
    simp only [step] at hs
    split at hs <;> cases hs
    · next hm =>
      have hmark : (s.next left).mark = false := by simpa [TaggedPtr.isMarked] using hm
      rw [follow, if_neg (by simp [hmark])] at htrace
      exact hread rfl rfl htrace
    · next hm =>
      have hmark : (s.next left).mark = true := by simpa [TaggedPtr.isMarked] using hm
      rw [follow, if_pos hmark] at htrace
      exact hread rfl rfl htrace

/-- The assertions about collections, on top of those of the unrestricted list, in the runs without
a reload of a frozen word. -/
def freezeGuarantee (K : Type) [LinearOrder K] [BoundedOrder K] :
    RelyGuarantee (listMachine K) ReloadsThawed where
  inv := Inv
  loc s pc := pc.Ok s ∧ pc.Collects s
  guar s s' := Guar s s' ∧ FinalWords s s'
  guar_refl s := ⟨Guar.refl s, FinalWords.refl s⟩
  guar_trans h h' := ⟨h.1.trans h'.1, h.2.trans h'.2 h.1.size_le⟩
  step {s pc op s' pc'} h hpc hok hs := by
    obtain ⟨hinv, hok', hg⟩ := (relyGuarantee K).step h hpc.1 trivial hs
    cases pc with
    | ret r =>
      simp only [listMachine] at hs
      split at hs <;> cases hs
      refine ⟨hinv, ⟨hok', ?_⟩, hg, FinalWords.refl _⟩
      cases op with
      | collect => exact Trace.start _
      | _ => trivial
    | _ =>
      obtain ⟨hc, hw⟩ := step_collects h hpc.1 hpc.2 hok hs
      exact ⟨hinv, ⟨hok', hc⟩, hg, hw⟩
  stable h hpc hg := ⟨ok_mono hg.1 hpc.1, collects_mono h hpc.1 hg.1 hg.2 hpc.2⟩

end LinkedList

/-- The step of thread `i` from `c` to `d` is the CAS by which an `insert` or a `remove` takes
effect: the calls that report success of their own are those that pass it. -/
def TakesEffect {ι K : Type} (c d : Config ι (LinkedList K) (ListPc K)) (i : ι) (a : ℕ) : Prop :=
  (∃ key value right newNode, c.thread i = .insLink key value a right newNode ∧
    d.thread i = .insCount) ∨
  (∃ key prev right rightNext, c.thread i = .rmMark key prev right rightNext ∧ right.addr = a ∧
    d.thread i = .rmUnlink prev right rightNext)

/-- A collection has completed, and its thread still holds the vectors. -/
def Collected {ι K : Type} (c : Config ι (LinkedList K) (ListPc K)) (keys : List K)
    (vals : List Val) : Prop := ∃ i, c.thread i = .ret (.vectors keys vals)

/-- Freezing is final from `c` to a later `d`. -/
structure FreezingFinal {ι K : Type} [DecidableEq ι] [LinearOrder K] [BoundedOrder K]
    (ok : LinkedList K → ListPc K → ListOp K → Prop) (c d : Config ι (LinkedList K) (ListPc K)) :
    Prop where
  /-- A frozen word never changes. -/
  words : LinkedList.FinalWords c.shared d.shared
  /-- All collections agree. -/
  vectors : ∀ {ks ks' vs vs'}, Collected c ks vs → Collected d ks' vs' → ks = ks' ∧ vs = vs'
  /-- No update takes effect at a frozen word, and none at all once a collection has completed. -/
  updates : ∀ {i op e a}, ok d.shared (d.thread i) op → d.fire (listMachine K) i op = some e →
    TakesEffect d e i a → (d.shared.next a).freeze = false ∧ ∀ ks vs, ¬ Collected c ks vs

section Final

variable {ι K : Type} [DecidableEq ι] [LinearOrder K] [BoundedOrder K]

/-- An update that takes effect expects an unmarked word, and a thawed one unless `remove` has
reloaded a frozen word. -/
theorem thawed_of_takesEffect {c d : Config ι (LinkedList K) (ListPc K)} {i : ι} {op : ListOp K}
    {a : ℕ} (h : (LinkedList.freezeGuarantee K).Holds c)
    (hf : c.fire (listMachine K) i op = some d) (he : TakesEffect c d i a) :
    c.shared.IsNode a ∧ a ≠ LinkedList.maxAddr ∧ (c.shared.next a).IsClean := by
  obtain ⟨s', pc', hs, rfl⟩ := Config.fire_eq_some_iff.mp hf
  obtain ⟨hok, hcoll⟩ := h.loc i
  obtain ⟨key, value, right, newNode, hpc, hd⟩ | ⟨key, prev, right, rightNext, hpc, rfl, hd⟩ := he
  · rw [hpc] at hs hok
    obtain ⟨-, hw, -⟩ := hok
    simp only [listMachine, LinkedList.step] at hs
    split at hs <;> cases hs
    · simp at hd
    · next s₁ hcas =>
      obtain ⟨hnext, -⟩ := LinkedList.cas_eq_some_iff.mp hcas
      exact ⟨hw.left_node, h.inv.ne_max hw.left_key, by rw [hnext]; exact hw.clean⟩
  · rw [hpc] at hs hok hcoll
    obtain ⟨hu, hw, hkey, hm⟩ := hok
    simp only [listMachine, LinkedList.step] at hs
    split at hs <;> cases hs
    · simp at hd
    · next s₁ hcas =>
      obtain ⟨hnext, -⟩ := LinkedList.cas_eq_some_iff.mp hcas
      refine ⟨hw.right_node, h.inv.ne_max (hkey.trans_lt hu.2), ?_⟩
      rw [hnext]
      exact ⟨hm, hcoll⟩

/-- In every run in which no `remove` reloads a frozen word that is not marked yet, freezing is
final: frozen words never change, all collections return the same vectors, and no update takes
effect at a frozen word or after a collection. -/
theorem freezing_final [Nontrivial K] (count : ℤ) {c d : Config ι (LinkedList K) (ListPc K)}
    (hc : Run (listMachine K) ReloadsThawed (listInit count) c)
    (hd : Run (listMachine K) ReloadsThawed c d) : FreezingFinal ReloadsThawed c d := by
  have hinit : (LinkedList.freezeGuarantee K).Holds (listInit count : Config ι _ _) :=
    ⟨LinkedList.inv_new count, fun _ => ⟨trivial, trivial⟩⟩
  have hhc := (LinkedList.freezeGuarantee K).run_holds hc hinit
  have hhd := (LinkedList.freezeGuarantee K).run_holds hd hhc
  obtain ⟨hg, hw⟩ := (LinkedList.freezeGuarantee K).run_guar hd hhc
  refine ⟨hw, ?_, ?_⟩
  · rintro ks ks' vs vs' ⟨i, hi⟩ ⟨j, hj⟩
    have hci := (hhc.loc i).2
    have hdj := (hhd.loc j).2
    rw [hi] at hci
    rw [hj] at hdj
    obtain ⟨ks₁, vs₁, ht, rfl, rfl⟩ := hci
    obtain ⟨ks₂, vs₂, ht', rfl, rfl⟩ := hdj
    have heq := (ht.mono hhc.inv hg hw).unique ht' rfl rfl
    simp only [Prod.mk.injEq, true_and] at heq
    rw [heq.1, heq.2]
    exact ⟨rfl, rfl⟩
  · intro i op e a hok hf he
    obtain ⟨hnode, hmax, hclean⟩ := thawed_of_takesEffect hhd hf he
    refine ⟨hclean.2, ?_⟩
    rintro ks vs ⟨j, hj⟩
    have hcj := (hhc.loc j).2
    rw [hj] at hcj
    obtain ⟨ks₁, vs₁, ht, -, -⟩ := hcj
    -- the collection has frozen every unmarked node, but the update expects a clean word
    have hfrozen := (ht.mono hhc.inv hg hw).frozen_of_unmarked hhd.inv rfl hnode hmax hclean.1
    rw [hclean.2] at hfrozen
    cases hfrozen

end Final

/-- Thread 0 inserts 3 and 5, removes 3 and collects. Thread 1 then collects the frozen list
again. -/
theorem freezing_final_two_collects :
    ∃ c d : Config (Fin 2) (LinkedList (Fin 8)) (ListPc (Fin 8)),
      Collected c [5] [9] ∧ Collected d [5] [9] ∧ FreezingFinal ReloadsThawed c d := by
  let sched : List (Fin 2 × ListOp (Fin 8)) :=
    List.replicate 7 (0, .update (.insert 3 7)) ++ List.replicate 8 (0, .update (.insert 5 9)) ++
    List.replicate 7 (0, .update (.remove 3)) ++ List.replicate 12 (0, .collect)
  have hexec : (((listInit 0).exec (listMachine (Fin 8)) ReloadsThawed sched).bind fun c =>
      (c.exec (listMachine (Fin 8)) ReloadsThawed (List.replicate 8 (1, .collect))).map fun d =>
        (c.thread 0, d.thread 1)) =
      some (.ret (.vectors [5] [9]), .ret (.vectors [5] [9])) := by decide
  obtain ⟨c, hc, hcd⟩ := Option.bind_eq_some_iff.mp hexec
  obtain ⟨d, hd, hpc⟩ := Option.map_eq_some_iff.mp hcd
  exact ⟨c, d, ⟨0, congrArg Prod.fst hpc⟩, ⟨1, congrArg Prod.snd hpc⟩,
    freezing_final 0 (Config.exec_run hc) (Config.exec_run hd)⟩

/-- Thread 1 stops in `remove(3)` before the reload while thread 0 collects `[3]`. The reload reads
a frozen word and thread 1 marks it, so the next collection returns nothing. The value that thread 1
reports it reads through the frozen word of `head`. -/
theorem freezing_not_final :
    ∃ c d : Config (Fin 2) (LinkedList (Fin 8)) (ListPc (Fin 8)),
      Run (listMachine (Fin 8)) anyStep (listInit 0) c ∧ Run (listMachine (Fin 8)) anyStep c d ∧
      Collected c [3] [7] ∧ Collected d [] [] ∧ d.thread 1 = .ret (.misread ⟨3, false, true⟩) ∧
      ¬ FreezingFinal anyStep c d := by
  let sched : List (Fin 2 × ListOp (Fin 8)) :=
    List.replicate 7 (0, .update (.insert 3 7)) ++ List.replicate 4 (1, .update (.remove 3)) ++
    List.replicate 12 (0, .collect)
  let sched' : List (Fin 2 × ListOp (Fin 8)) :=
    List.replicate 3 (1, .collect) ++ List.replicate 8 (0, .collect)
  have hexec : (((listInit 0).exec (listMachine (Fin 8)) anyStep sched).bind fun c =>
      (c.exec (listMachine (Fin 8)) anyStep sched').map fun d =>
        (c.thread 0, d.thread 0, d.thread 1)) =
      some (.ret (.vectors [3] [7]), .ret (.vectors [] []), .ret (.misread ⟨3, false, true⟩)) := by
    decide
  obtain ⟨c, hc, hcd⟩ := Option.bind_eq_some_iff.mp hexec
  obtain ⟨d, hd, hpc⟩ := Option.map_eq_some_iff.mp hcd
  simp only [Prod.mk.injEq] at hpc
  refine ⟨c, d, Config.exec_run hc, Config.exec_run hd, ⟨0, hpc.1⟩, ⟨0, hpc.2.1⟩, hpc.2.2, ?_⟩
  intro hfinal
  have hvectors := hfinal.vectors ⟨0, hpc.1⟩ ⟨0, hpc.2.1⟩
  cases hvectors.1

end KanvaImpl
