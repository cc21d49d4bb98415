import Kanva.RS.VersionTracker.Machine
import Mathlib.Data.Int.Order.Basic
import Mathlib.Data.List.Range

/-!
# The invariant of the timestamp tracker

The linking CAS gives the `k`-th node the address `k + 2`, so the shape of the list is arithmetic:
the node at `a` has timestamp `a - 2` and points at `a + 1`, the last one at the sentinel. `tail` is
one of the last two addresses, and every node before `head` is finished. A local pointer to a tail
is an address up to `tail`, a local pointer to a head one up to `head`, however stale it is.

## Main results

* `TrackerList.step_ok`: every step keeps the invariant and the assertion of its thread.
* `TrackerList.relyGuarantee`: the same as a rely-guarantee proof.
* `TrackerList.issued`: the nodes a thread has linked, as owned resources.
-/

namespace KanvaRS

open Interleaving

namespace TrackerList

/-- The invariant of the tracker memory. -/
structure Inv (s : TrackerList) : Prop where
  ts_eq : ∀ a, 2 ≤ a → a < s.size → (s.node a).ts = a - 2
  next_lt : ∀ a, 2 ≤ a → a + 1 < s.size → (s.node a).next = a + 1
  next_last : ∀ a, 2 ≤ a → a + 1 = s.size → (s.node a).next = sentinelLast
  tail_ge : 2 ≤ s.tail
  tail_lt : s.tail < s.size
  size_le : s.size ≤ s.tail + 2
  head_ge : 2 ≤ s.head
  head_lt : s.head < s.size
  finished : ∀ a, 2 ≤ a → a < s.head → (s.node a).finish = true

/-- What a step of any thread leaves alone: the list grows, `tail` and `head` move forward, and a
finished node stays finished. -/
structure Guar (s s' : TrackerList) : Prop where
  size_le : s.size ≤ s'.size
  tail_le : s.tail ≤ s'.tail
  head_le : s.head ≤ s'.head
  finish : ∀ a, a < s.size → (s.node a).finish = true → (s'.node a).finish = true

section Writes

variable (s : TrackerList) (a b n : ℕ) (t : TrackerNode)

@[simp] theorem ts_setNext : ((s.setNext a n).node b).ts = (s.node b).ts := by
  by_cases h : b = a <;> simp [setNext, h]

@[simp] theorem next_setNext :
    ((s.setNext a n).node b).next = if b = a then n else (s.node b).next := by
  by_cases h : b = a <;> simp [setNext, h]

@[simp] theorem finish_setNext : ((s.setNext a n).node b).finish = (s.node b).finish := by
  by_cases h : b = a <;> simp [setNext, h]

@[simp] theorem ts_setFinish : ((s.setFinish a).node b).ts = (s.node b).ts := by
  by_cases h : b = a <;> simp [setFinish, h]

@[simp] theorem next_setFinish : ((s.setFinish a).node b).next = (s.node b).next := by
  by_cases h : b = a <;> simp [setFinish, h]

theorem finish_setFinish (h : (s.node b).finish = true) :
    ((s.setFinish a).node b).finish = true := by
  by_cases hb : b = a <;> simp [setFinish, hb, h]

theorem node_alloc : (s.alloc t).node b = if b = s.size then t else s.node b := by
  by_cases h : b = s.size <;> simp [alloc, h]

@[simp] theorem size_setNext : (s.setNext a n).size = s.size := rfl
@[simp] theorem size_alloc : (s.alloc t).size = s.size + 1 := rfl

end Writes

variable {s s' : TrackerList}

theorem Guar.refl (s : TrackerList) : Guar s s := ⟨le_rfl, le_rfl, le_rfl, fun _ _ h => h⟩

theorem Guar.trans {s'' : TrackerList} (h : Guar s s') (h' : Guar s' s'') : Guar s s'' where
  size_le := h.size_le.trans h'.size_le
  tail_le := h.tail_le.trans h'.tail_le
  head_le := h.head_le.trans h'.head_le
  finish a ha hf := h'.finish a (lt_of_lt_of_le ha h.size_le) (h.finish a ha hf)

/-- A fresh tracker satisfies the invariant. -/
theorem inv_new : Inv new where
  ts_eq a ha hlt := by
    have hlt' : a < 3 := hlt
    obtain rfl : a = 2 := by omega
    simp [new, sentinelLast]
  next_lt a ha hlt := by
    have hlt' : a + 1 < 3 := hlt
    omega
  next_last a ha hlast := by
    have hlast' : a + 1 = 3 := hlast
    obtain rfl : a = 2 := by omega
    simp [new, sentinelLast]
  tail_ge := le_rfl
  tail_lt := by decide
  size_le := by decide
  head_ge := le_rfl
  head_lt := by decide
  finished a ha hlt := by
    have hlt' : a < 2 := hlt
    omega

namespace Inv

variable (h : s.Inv) {a : ℕ}

include h

/-- A node points at the sentinel exactly when it is the last one. -/
theorem next_eq_sentinel_iff (ha : 2 ≤ a) (hlt : a < s.size) :
    (s.node a).next = sentinelLast ↔ a + 1 = s.size := by
  refine ⟨fun hnext => ?_, h.next_last a ha⟩
  by_contra hne
  rw [h.next_lt a ha (by omega)] at hnext
  simp only [sentinelLast] at hnext
  omega

end Inv

/-- Linking a node behind the last one. -/
theorem inv_link (h : s.Inv) {a : ℕ} (hle : a ≤ s.tail) (hlast : a + 1 = s.size) :
    ((s.setNext a s.size).alloc ⟨a - 1, sentinelLast, false⟩).Inv := by
  -- `tail` has caught up with the last node
  have htail : s.tail + 1 = s.size := by
    have := h.tail_lt
    omega
  refine ⟨?_, ?_, ?_, h.tail_ge, ?_, ?_, h.head_ge, ?_, ?_⟩
  · intro b hb hlt
    rw [node_alloc, size_setNext]
    split
    · next hbs =>
      show (a : ℤ) - 1 = (b : ℤ) - 2
      omega
    · next hbs =>
      rw [ts_setNext]
      exact h.ts_eq b hb (by simp only [size_alloc, size_setNext] at hlt; omega)
  · intro b hb hlt
    rw [size_alloc, size_setNext] at hlt
    rw [node_alloc, size_setNext, if_neg (by omega), next_setNext]
    split
    · omega
    · exact h.next_lt b hb (by omega)
  · intro b hb hlast'
    rw [size_alloc, size_setNext] at hlast'
    rw [node_alloc, size_setNext, if_pos (by omega)]
  · exact Nat.lt_succ_of_lt h.tail_lt
  · show s.size + 1 ≤ s.tail + 2
    omega
  · exact Nat.lt_succ_of_lt h.head_lt
  · intro b hb hlt
    have hlt' : b < s.head := hlt
    have hbs : b ≠ s.size := Nat.ne_of_lt (hlt'.trans h.head_lt)
    rw [node_alloc, size_setNext, if_neg hbs, finish_setNext]
    exact h.finished b hb hlt'

/-- Linking a node is within the guarantee. -/
theorem Guar.link (s : TrackerList) (a : ℕ) (t : TrackerNode) :
    Guar s ((s.setNext a s.size).alloc t) where
  size_le := Nat.le_succ _
  tail_le := le_rfl
  head_le := le_rfl
  finish b hb hf := by
    rwa [node_alloc, size_setNext, if_neg (Nat.ne_of_lt hb), finish_setNext]

/-- Moving `tail` to the next node. -/
theorem inv_tail (h : s.Inv) (hlt : s.tail + 1 < s.size) :
    Inv { s with tail := s.tail + 1 } :=
  { h with
    tail_ge := Nat.le_succ_of_le h.tail_ge
    tail_lt := hlt
    size_le := Nat.le_succ_of_le h.size_le }

/-- Moving `head` from a finished node to the next one. -/
theorem inv_head (h : s.Inv) (hlt : s.head + 1 < s.size) (hf : (s.node s.head).finish = true) :
    Inv { s with head := s.head + 1 } :=
  { h with
    head_ge := Nat.le_succ_of_le h.head_ge
    head_lt := hlt
    finished := by
      intro a ha hlt'
      rcases Nat.lt_succ_iff_lt_or_eq.mp hlt' with hold | rfl
      · exact h.finished a ha hold
      · exact hf }

/-- Finishing a node. -/
theorem inv_setFinish (h : s.Inv) (a : ℕ) : (s.setFinish a).Inv where
  ts_eq b hb hlt := by
    rw [ts_setFinish]
    exact h.ts_eq b hb hlt
  next_lt b hb hlt := by
    rw [next_setFinish]
    exact h.next_lt b hb hlt
  next_last b hb hlast := by
    rw [next_setFinish]
    exact h.next_last b hb hlast
  tail_ge := h.tail_ge
  tail_lt := h.tail_lt
  size_le := h.size_le
  head_ge := h.head_ge
  head_lt := h.head_lt
  finished b hb hlt := finish_setFinish _ _ _ (h.finished b hb hlt)

/-- A local pointer to a tail, however stale. -/
def TailPtr (s : TrackerList) (a : ℕ) : Prop := 2 ≤ a ∧ a ≤ s.tail

/-- A local pointer to a head that was seen to be finished. -/
structure DoneHead (s : TrackerList) (a : ℕ) : Prop where
  ge : 2 ≤ a
  le : a ≤ s.head
  finish : (s.node a).finish = true

end TrackerList

/-- What the local variables of a thread satisfy at each program point. -/
def TrackerPc.Ok (s : TrackerList) : TrackerPc → Prop
  | .addCas currTail newTail =>
    s.TailPtr currTail ∧ newTail = ⟨currTail - 1, TrackerList.sentinelLast, false⟩
  | .addSwing currTail newTail => s.TailPtr currTail ∧ newTail = currTail + 1 ∧ newTail < s.size
  | .helpTest currTail => s.TailPtr currTail
  | .helpNext currTail => s.TailPtr currTail ∧ currTail + 1 < s.size
  | .helpSwing currTail next => s.TailPtr currTail ∧ next = currTail + 1 ∧ next < s.size
  | .rhFinish _ currHead => 2 ≤ currHead ∧ currHead ≤ s.head
  | .rhTest _ currHead => s.DoneHead currHead
  | .rhNext _ currHead => s.DoneHead currHead ∧ currHead + 1 < s.size
  | .rhSwing _ currHead next => s.DoneHead currHead ∧ next = currHead + 1 ∧ next < s.size
  | .ret (.added a) => 3 ≤ a ∧ a ≤ s.tail
  | _ => True

namespace TrackerList

variable {s s' : TrackerList}

theorem TailPtr.mono {a : ℕ} (hg : Guar s s') (h : s.TailPtr a) : s'.TailPtr a :=
  ⟨h.1, h.2.trans hg.tail_le⟩

theorem DoneHead.mono {a : ℕ} (hs : s.Inv) (hg : Guar s s') (h : s.DoneHead a) :
    s'.DoneHead a :=
  ⟨h.ge, h.le.trans hg.head_le, hg.finish a (lt_of_le_of_lt h.le hs.head_lt) h.finish⟩

/-- The assertion of a thread survives the steps of the others. -/
theorem ok_mono {pc : TrackerPc} (hs : s.Inv) (hg : Guar s s') (h : pc.Ok s) : pc.Ok s' := by
  have hsize := hg.size_le
  cases pc with
  | addCas currTail newTail => exact ⟨h.1.mono hg, h.2⟩
  | addSwing currTail newTail | helpSwing currTail newTail =>
    exact ⟨h.1.mono hg, h.2.1, lt_of_lt_of_le h.2.2 hsize⟩
  | helpTest currTail => exact TailPtr.mono hg h
  | helpNext currTail => exact ⟨h.1.mono hg, lt_of_lt_of_le h.2 hsize⟩
  | rhFinish call currHead => exact ⟨h.1, h.2.trans hg.head_le⟩
  | rhTest call currHead => exact DoneHead.mono hs hg h
  | rhNext call currHead => exact ⟨h.1.mono hs hg, lt_of_lt_of_le h.2 hsize⟩
  | rhSwing call currHead next => exact ⟨h.1.mono hs hg, h.2.1, lt_of_lt_of_le h.2.2 hsize⟩
  | ret r =>
    cases r with
    | added a => exact ⟨h.1, h.2.trans hg.tail_le⟩
    | _ => trivial
  | _ => trivial

/-- A CAS on `tail` from a local tail pointer to the node after it, whether it succeeds or not. -/
theorem swing_tail (h : s.Inv) {a n : ℕ} (ha : s.TailPtr a) (hn : n = a + 1) (hlt : n < s.size) :
    (if s.tail = a then { s with tail := n } else s).Inv ∧
      Guar s (if s.tail = a then { s with tail := n } else s) ∧
      n ≤ (if s.tail = a then { s with tail := n } else s).tail := by
  subst hn
  obtain ⟨-, hle⟩ := ha
  split
  · next hta =>
    subst hta
    exact ⟨inv_tail h hlt, ⟨le_rfl, Nat.le_succ _, le_rfl, fun _ _ hf => hf⟩, le_rfl⟩
  · next hta => exact ⟨h, Guar.refl s, by omega⟩

/-- A CAS on `head` from a finished node to the node after it, whether it succeeds or not. -/
theorem swing_head (h : s.Inv) {a n : ℕ} (ha : s.DoneHead a) (hn : n = a + 1) (hlt : n < s.size) :
    (if s.head = a then { s with head := n } else s).Inv ∧
      Guar s (if s.head = a then { s with head := n } else s) := by
  subst hn
  split
  · next hha =>
    subst hha
    exact ⟨inv_head h hlt ha.finish, ⟨le_rfl, le_rfl, Nat.le_succ _, fun _ _ hf => hf⟩⟩
  · exact ⟨h, Guar.refl s⟩

/-- Every step of a thread keeps the invariant and its assertion, and stays within `Guar`. -/
theorem step_ok {pc pc' : TrackerPc} (h : s.Inv) (hpc : pc.Ok s)
    (hs : s.step pc = some (s', pc')) : s'.Inv ∧ pc'.Ok s' ∧ Guar s s' := by
  -- a step that only reads
  have hread : ∀ {p : TrackerPc}, s' = s → pc' = p → p.Ok s → s'.Inv ∧ pc'.Ok s' ∧ Guar s s' := by
    rintro p rfl rfl hp
    exact ⟨h, hp, Guar.refl _⟩
  have htail : s.TailPtr s.tail := ⟨h.tail_ge, le_rfl⟩
  cases pc with
  | ret r => simp [step] at hs
  | addLoad =>
    simp only [step, Option.some.injEq, Prod.mk.injEq] at hs
    refine hread hs.1.symm hs.2.symm ⟨htail, ?_⟩
    rw [h.ts_eq _ h.tail_ge h.tail_lt]
    congr 1
    omega
  | addCas currTail newTail =>
    obtain ⟨hptr, rfl⟩ := hpc
    have hlt := lt_of_le_of_lt hptr.2 h.tail_lt
    simp only [step] at hs
    split at hs <;> cases hs
    · -- the CAS that links the new node: the local tail still is the last one
      next hnext =>
      have hlast := (h.next_eq_sentinel_iff hptr.1 hlt).mp hnext
      exact ⟨inv_link h hptr.2 hlast, ⟨hptr, hlast.symm, Nat.lt_succ_self _⟩,
        Guar.link s _ _⟩
    · exact hread rfl rfl trivial
  | addSwing currTail newTail =>
    obtain ⟨hptr, hn, hlt⟩ := hpc
    obtain ⟨hinv, hg, hle⟩ := swing_tail h hptr hn hlt
    have hge := hptr.1
    simp only [step, Option.some.injEq, Prod.mk.injEq] at hs
    obtain ⟨rfl, rfl⟩ := hs
    exact ⟨hinv, ⟨by omega, hle⟩, hg⟩
  | helpLoad =>
    simp only [step, Option.some.injEq, Prod.mk.injEq] at hs
    exact hread hs.1.symm hs.2.symm htail
  | helpTest currTail =>
    have hlt := lt_of_le_of_lt hpc.2 h.tail_lt
    simp only [step] at hs
    split at hs <;> cases hs
    · exact hread rfl rfl trivial
    · next hnext =>
      -- there is a node behind the local tail
      rw [h.next_eq_sentinel_iff hpc.1 hlt] at hnext
      exact hread rfl rfl ⟨hpc, by omega⟩
  | helpNext currTail =>
    obtain ⟨hptr, hlt⟩ := hpc
    simp only [step, Option.some.injEq, Prod.mk.injEq] at hs
    rw [h.next_lt _ hptr.1 hlt] at hs
    exact hread hs.1.symm hs.2.symm ⟨hptr, rfl, hlt⟩
  | helpSwing currTail next =>
    obtain ⟨hptr, hn, hlt⟩ := hpc
    obtain ⟨hinv, hg, -⟩ := swing_tail h hptr hn hlt
    simp only [step, Option.some.injEq, Prod.mk.injEq] at hs
    obtain ⟨rfl, rfl⟩ := hs
    exact ⟨hinv, trivial, hg⟩
  | rhLoad call =>
    simp only [step, Option.some.injEq, Prod.mk.injEq] at hs
    exact hread hs.1.symm hs.2.symm ⟨h.head_ge, le_rfl⟩
  | rhFinish call currHead =>
    simp only [step] at hs
    split at hs <;> cases hs
    · next hf => exact hread rfl rfl ⟨hpc.1, hpc.2, hf⟩
    · cases call <;> exact hread rfl rfl trivial
  | rhTest call currHead =>
    have hlt := lt_of_le_of_lt hpc.le h.head_lt
    simp only [step] at hs
    split at hs <;> cases hs
    · next hnext =>
      -- there is a node behind the finished head
      rw [ne_eq, h.next_eq_sentinel_iff hpc.ge hlt] at hnext
      exact hread rfl rfl ⟨hpc, by omega⟩
    · cases call <;> exact hread rfl rfl trivial
  | rhNext call currHead =>
    obtain ⟨hdone, hlt⟩ := hpc
    simp only [step, Option.some.injEq, Prod.mk.injEq] at hs
    rw [h.next_lt _ hdone.ge hlt] at hs
    exact hread hs.1.symm hs.2.symm ⟨hdone, rfl, hlt⟩
  | rhSwing call currHead next =>
    obtain ⟨hdone, hn, hlt⟩ := hpc
    obtain ⟨hinv, hg⟩ := swing_head h hdone hn hlt
    simp only [step, Option.some.injEq, Prod.mk.injEq] at hs
    obtain ⟨rfl, rfl⟩ := hs
    exact ⟨hinv, trivial, hg⟩
  | latest =>
    simp only [step, Option.some.injEq, Prod.mk.injEq] at hs
    exact hread hs.1.symm hs.2.symm trivial
  | finStore a =>
    simp only [step, Option.some.injEq, Prod.mk.injEq] at hs
    obtain ⟨rfl, rfl⟩ := hs
    exact ⟨inv_setFinish h a, trivial, le_rfl, le_rfl, le_rfl,
      fun b _ hf => finish_setFinish _ _ _ hf⟩

/-- What a thread knows about its own nodes. -/
def ThreadOk (s : TrackerList) (t : TrackerThread) : Prop :=
  t.pc.Ok s ∧ ∀ a ∈ t.mine, 3 ≤ a ∧ a ≤ s.tail

/-- The node of a completed `add_timestamp` joins the thread's own ones. -/
theorem threadOk_moveTo {t : TrackerThread} {pc : TrackerPc} (hpc : pc.Ok s)
    (hmine : ∀ a ∈ t.mine, 3 ≤ a ∧ a ≤ s.tail) : s.ThreadOk (t.moveTo pc) := by
  unfold TrackerThread.moveTo
  split
  · refine ⟨hpc, fun b hb => ?_⟩
    rcases List.mem_cons.mp hb with rfl | hb
    · exact hpc
    · exact hmine b hb
  · exact ⟨hpc, hmine⟩

/-- A thread between two calls enters the next one, and a thread inside a call takes a step. -/
theorem next_cases {t t' : TrackerThread} {op : TrackerOp}
    (hs : trackerMachine.next s t op = some (s', t')) :
    (∃ r, t.pc = .ret r ∧ op.Allowed t.mine ∧ s' = s ∧ t' = ⟨enter op, t.mine⟩) ∨
      ∃ pc', s.step t.pc = some (s', pc') ∧ t' = t.moveTo pc' := by
  obtain ⟨pc, mine⟩ := t
  cases pc with
  | ret r =>
    simp only [trackerMachine] at hs
    split at hs <;> cases hs
    next hop => exact .inl ⟨r, rfl, hop, rfl, rfl⟩
  | _ =>
    simp only [trackerMachine, Option.map_eq_some_iff, Prod.mk.injEq, Prod.exists] at hs
    obtain ⟨s₁, pc₁, hstep, rfl, rfl⟩ := hs
    exact .inr ⟨pc₁, hstep, rfl⟩

/-- The invariant and the assertions, as a rely-guarantee proof. -/
def relyGuarantee : RelyGuarantee trackerMachine anyStep where
  inv := Inv
  loc := ThreadOk
  guar := Guar
  guar_refl := Guar.refl
  guar_trans := Guar.trans
  step {s t op s' t'} h ht _ hs := by
    obtain ⟨hpc, hmine⟩ := ht
    obtain ⟨r, -, -, rfl, rfl⟩ | ⟨pc', hstep, rfl⟩ := next_cases hs
    · refine ⟨h, ⟨?_, hmine⟩, Guar.refl _⟩
      cases op <;> trivial
    · obtain ⟨hinv, hok, hg⟩ := step_ok h hpc hstep
      refine ⟨hinv, threadOk_moveTo hok fun a ha => ?_, hg⟩
      exact ⟨(hmine a ha).1, (hmine a ha).2.trans hg.tail_le⟩
  stable h ht hg :=
    ⟨ok_mono h hg ht.1, fun a ha => ⟨(ht.2 a ha).1, (ht.2 a ha).2.trans hg.tail_le⟩⟩

/-- The nodes a thread has linked: the ones its calls have returned, and the one it is about to
return. -/
def issuedBy (t : TrackerThread) : List ℕ :=
  match t.pc with
  | .addSwing _ newTail => newTail :: t.mine
  | _ => t.mine

/-- A thread gets the next fresh address by its linking CAS, and otherwise keeps its nodes. -/
theorem issuedBy_step {t : TrackerThread} {pc' : TrackerPc}
    (hs : s.step t.pc = some (s', pc')) :
    issuedBy (t.moveTo pc') = issuedBy t ∨
      issuedBy (t.moveTo pc') = s.size :: issuedBy t ∧ s'.size = s.size + 1 := by
  obtain ⟨pc, mine⟩ := t
  cases pc with
  | addCas currTail newTail =>
    simp only [step] at hs
    split at hs <;> cases hs
    · exact .inr ⟨rfl, rfl⟩
    · exact .inl rfl
  | rhFinish call currHead | rhTest call currHead =>
    simp only [step] at hs
    split at hs <;> cases hs
    · exact .inl rfl
    · cases call <;> exact .inl rfl
  | ret r => simp [step] at hs
  | helpTest currTail =>
    simp only [step] at hs
    split at hs <;> cases hs <;> exact .inl rfl
  | _ =>
    simp only [step, Option.some.injEq, Prod.mk.injEq] at hs
    obtain ⟨-, rfl⟩ := hs
    exact .inl rfl

/-- The nodes linked by different `add_timestamp` calls are different. -/
def issued : Ownership relyGuarantee ℕ where
  own := issuedBy
  fresh s a := s.size ≤ a
  fresh_mono hg hfresh := hg.size_le.trans hfresh
  step {s t op s' t'} h ht _ hs hnodup hused := by
    have hsize : s.size ≤ s'.size := (relyGuarantee.step h ht trivial hs).2.2.size_le
    have hkeep : (issuedBy t).Nodup ∧
        ∀ a ∈ issuedBy t, (a ∈ issuedBy t ∨ s.size ≤ a) ∧ ¬ s'.size ≤ a :=
      ⟨hnodup, fun a ha => ⟨.inl ha, fun hle => hused a ha (hsize.trans hle)⟩⟩
    obtain ⟨r, hr, -, -, rfl⟩ | ⟨pc', hstep, rfl⟩ := next_cases hs
    · have hsame : issuedBy ⟨enter op, t.mine⟩ = issuedBy t := by
        unfold issuedBy
        rw [hr]
        cases op <;> rfl
      rwa [hsame]
    · rcases issuedBy_step hstep with hsame | ⟨hnew, hsize'⟩
      · rwa [hsame]
      · rw [hnew]
        refine ⟨List.nodup_cons.mpr ⟨fun hmem => hused _ hmem le_rfl, hnodup⟩, fun a ha => ?_⟩
        rcases List.mem_cons.mp ha with rfl | ha
        · exact ⟨.inr le_rfl, by omega⟩
        · exact hkeep.2 a ha

/-- Initially the invariant holds and no thread has linked a node. -/
theorem holds_init {ι : Type} : relyGuarantee.Holds (trackerInit : Config ι _ _) :=
  ⟨inv_new, fun _ => ⟨trivial, fun _ ha => absurd ha List.not_mem_nil⟩⟩

theorem exclusive_init {ι : Type} [DecidableEq ι] :
    issued.Exclusive (trackerInit : Config ι _ _) :=
  ⟨fun _ => List.nodup_nil, fun _ _ ha => absurd ha List.not_mem_nil,
    fun _ _ _ _ ha => absurd ha List.not_mem_nil⟩

end TrackerList

end KanvaRS
