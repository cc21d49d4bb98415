import Kanva.Impl.LinkedList.Safety

/-!
# Exclusive removal

`remove` decides which of two callers deletes a node by the CAS that marks its word. But it loads
`right_next` a second time after `find` has returned, and a caller that reads a marked word there
goes on to the unlinking CAS as if it had set the mark itself. The unlinking CAS also overwrites
`right_node` when it fails, and the value to report is read through that pointer afterwards.

In a run in which neither happens for a key, the mark of its node is set once, by the only call that
reports success, and the value reported is the value of the node.

## Main results

* `exclusive_removal`: in those runs, at most one `remove` of a key that was inserted once reports
  success, with the value that was inserted.
* `removal_not_exclusive`: two calls report success for one key, one of them with another value.
-/

namespace KanvaImpl

open Kanva Interleaving

variable {ι K : Type}

/-- A thread at this program point runs `remove(k)`. -/
def ListPc.Removes (s : LinkedList K) (k : K) : ListPc K → Prop
  | .findHead u | .findRight u | .findNext u _ _ | .findUnlink u _ _ _ | .findReload u _ _ =>
    u = .remove k
  | .rmLoad key _ _ | .rmMark key _ _ _ => key = k
  | .rmUnlink _ right _ => s.keyOf right.addr = k
  | _ => False

/-- A result of `remove` other than the two failure codes. -/
def ListResult.Success (r : ListResult K) : Prop := r ≠ .status (-1) ∧ r ≠ .status (-2)

/-- One node has been linked with this key. -/
def LinkedList.InsertedOnce (s : LinkedList K) (k : K) : Prop := ∃! a, s.IsNode a ∧ s.keyOf a = k

/-- A `remove(k)` that comes to load `right_next` again finds it unmarked, and its unlinking CAS
finds `prev_node` still pointing at the node. -/
def RemovesAlone [DecidableEq K] (k : K) (s : LinkedList K) (pc : ListPc K) (_ : ListOp K) : Prop :=
  match pc with
  | .rmLoad key _ right => key = k → (s.next right.addr).mark = false
  | .rmUnlink prev right _ => s.keyOf right.addr = k → s.next prev = right
  | _ => True

instance [DecidableEq K] (k : K) (s : LinkedList K) :
    ∀ (pc : ListPc K) (op : ListOp K), Decidable (RemovesAlone k s pc op)
  | .rmLoad key _ right, _ =>
    inferInstanceAs (Decidable (key = k → (s.next right.addr).mark = false))
  | .rmUnlink prev right _, _ =>
    inferInstanceAs (Decidable (s.keyOf right.addr = k → s.next prev = right))
  | .ret _, _ | .findHead _, _ | .findRight _, _ | .findNext _ _ _, _ | .findUnlink _ _ _ _, _
  | .findReload _ _ _, _ | .insStore _ _ _ _, _ | .insLink _ _ _ _ _, _ | .insCount, _
  | .rmMark _ _ _ _, _ | .searchAt _ _, _ | .collTest _ _ _, _ | .collCheck _ _ _, _
  | .collLoad _ _ _, _ | .collFreeze _ _ _ _, _ | .collFollow _ _ _, _ =>
    inferInstanceAs (Decidable True)

section Reports

variable [DecidableEq ι] [LinearOrder K] [BoundedOrder K]

/-- The step of thread `i` from `c` to `d` is the last one of a `remove(k)` that returns `r`, a
success. -/
structure ReportsRemoval (ok : LinkedList K → ListPc K → ListOp K → Prop) (k : K)
    (c d : Config ι (LinkedList K) (ListPc K)) (i : ι) (r : ListResult K) : Prop where
  step : ∃ op, ok c.shared (c.thread i) op ∧ c.fire (listMachine K) i op = some d
  removes : (c.thread i).Removes c.shared k
  result : d.thread i = .ret r
  success : r.Success

end Reports

namespace LinkedList

variable [LinearOrder K] {s s' : LinkedList K} {k : K} {pc pc' : ListPc K}

/-- What `find` returns to `remove` ends the call with a failure code only. -/
theorem findBranch_remove {left : ℕ} {right rightNext : TaggedPtr} {r : ListResult K}
    (h : s.findBranch (.remove k) left right rightNext = .ret r) : ¬ r.Success := by
  unfold findBranch at h
  split_ifs at h
  rw [findReturn] at h
  split_ifs at h
  cases h
  exact fun hr => hr.2 rfl

/-- A `remove` reports success at its last access only. -/
theorem success_of_step {r : ListResult K} (hpc : pc.Removes s k)
    (hs : s.step pc = some (s', .ret r)) (hr : r.Success) :
    ∃ prev right rightNext, pc = .rmUnlink prev right rightNext ∧ s.keyOf right.addr = k := by
  -- before its last access a `remove` returns -1 or no value only
  cases pc with
  | findHead u =>
    simp only [step] at hs
    split at hs <;> cases hs
    exact absurd rfl hr.1
  | findRight u => simp [step] at hs
  | findNext u left right =>
    obtain rfl : u = .remove k := hpc
    simp only [step] at hs
    split at hs <;> simp only [Option.some.injEq, Prod.mk.injEq] at hs
    · cases hs.2
      exact absurd rfl hr.1
    · exact absurd hr (findBranch_remove hs.2)
  | findUnlink u left right rightNext =>
    simp only [step] at hs
    split at hs <;> cases hs
  | findReload u left right =>
    obtain rfl : u = .remove k := hpc
    simp only [step] at hs
    split at hs
    · cases hs
      exact absurd rfl hr.1
    · split at hs <;> simp only [Option.some.injEq, Prod.mk.injEq] at hs
      · cases hs.2
        exact absurd rfl hr.1
      · exact absurd hr (findBranch_remove hs.2)
  | rmLoad key prev right =>
    simp only [step] at hs
    split at hs <;> cases hs
  | rmMark key prev right rightNext =>
    simp only [step] at hs
    split at hs <;> cases hs
  | rmUnlink prev right rightNext => exact ⟨prev, right, rightNext, rfl, hpc⟩
  | _ => exact hpc.elim

/-- A thread comes to the unlinking CAS by its own marking CAS, or by a load of a marked word. -/
theorem rmUnlink_of_step {prev : ℕ} {right rightNext : TaggedPtr}
    (hs : s.step pc = some (s', .rmUnlink prev right rightNext)) :
    (∃ key, pc = .rmMark key prev right rightNext ∧ s.next right.addr = rightNext ∧
      s' = s.setNext right.addr rightNext.setMark) ∨
    (∃ key, pc = .rmLoad key prev right ∧ (s.next right.addr).mark = true) := by
  -- `find` itself never ends at the unlinking CAS
  have hbranch : ∀ {u : Update K} {left : ℕ} {w w' : TaggedPtr},
      s.findBranch u left w w' ≠ .rmUnlink prev right rightNext := by
    intro u left w w' h
    unfold findBranch at h
    split_ifs at h
    cases u <;> rw [findReturn] at h <;> split_ifs at h
  cases pc with
  | rmLoad key prev' right' =>
    simp only [step] at hs
    split at hs <;> cases hs
    next hm => exact .inr ⟨key, rfl, by simpa [TaggedPtr.isMarked] using hm⟩
  | rmMark key prev' right' rightNext' =>
    simp only [step] at hs
    split at hs <;> cases hs
    next hcas =>
    obtain ⟨hnext, rfl⟩ := cas_eq_some_iff.mp hcas
    exact .inl ⟨key, rfl, hnext, rfl⟩
  | findNext u left w | findReload u left w =>
    simp only [step] at hs
    repeat' split at hs
    all_goals simp only [Option.some.injEq, Prod.mk.injEq] at hs
    · cases hs.2
    all_goals first | exact absurd hs.2 hbranch | cases hs.2
  | _ =>
    simp only [step] at hs
    repeat' split at hs
    all_goals cases hs

end LinkedList

/-- The program point stands before the CAS that unlinks the node at `a`. -/
def ListPc.Unlinks (a : ℕ) (pc : ListPc K) : Prop :=
  ∃ prev right rightNext, pc = .rmUnlink prev right rightNext ∧ right.addr = a

section Exclusive

variable [DecidableEq ι] [LinearOrder K] [BoundedOrder K] {k : K}
  {c d : Config ι (LinkedList K) (ListPc K)}

/-- A node with key `k` that a thread is about to unlink is marked, and no other thread is about to
unlink it. -/
def UnlinkedOnce (k : K) (c : Config ι (LinkedList K) (ListPc K)) : Prop :=
  ∀ i a, (c.thread i).Unlinks a → c.shared.keyOf a = k →
    (c.shared.next a).mark = true ∧ ∀ j, (c.thread j).Unlinks a → j = i

/-- The node at `a` is marked and nobody is about to unlink it. -/
structure Removed (a : ℕ) (c : Config ι (LinkedList K) (ListPc K)) : Prop where
  node : c.shared.IsNode a
  marked : (c.shared.next a).mark = true
  none : ∀ i, ¬ (c.thread i).Unlinks a

omit [DecidableEq ι] in
/-- What a thread is about to unlink is a node. -/
theorem isNode_of_unlinks {i : ι} {a : ℕ} (hc : (LinkedList.relyGuarantee K).Holds c)
    (h : (c.thread i).Unlinks a) : c.shared.IsNode a := by
  obtain ⟨prev, right, rightNext, hpc, rfl⟩ := h
  have hloc : (c.thread i).Ok c.shared := hc.loc i
  rw [hpc] at hloc
  obtain ⟨⟨key, -, hw⟩, -⟩ := hloc
  exact hw.right_node

/-- In the runs considered, a thread comes to unlink a node of `k` only by marking it. -/
theorem mark_of_unlinks {i : ι} {op : ListOp K} {a : ℕ}
    (hc : (LinkedList.relyGuarantee K).Holds c) (hok : RemovesAlone k c.shared (c.thread i) op)
    (hf : c.fire (listMachine K) i op = some d) (hu : (d.thread i).Unlinks a)
    (hk : d.shared.keyOf a = k) :
    c.shared.IsNode a ∧ (c.shared.next a).mark = false ∧ (d.shared.next a).mark = true := by
  obtain ⟨s', pc', hs, rfl⟩ := Config.fire_eq_some_iff.mp hf
  obtain ⟨prev, right, rightNext, hpc', rfl⟩ := hu
  have hloc : (c.thread i).Ok c.shared := hc.loc i
  simp only [Function.update_self] at hpc'
  subst hpc'
  -- a call that is just entered is not there yet
  have hstep : c.shared.step (c.thread i) = some (s', .rmUnlink prev right rightNext) := by
    cases hpc : c.thread i with
    | ret r =>
      rw [hpc] at hs
      simp only [listMachine] at hs
      split at hs
      · cases op <;> simp [LinkedList.enter] at hs
      · cases hs
    | _ => rw [hpc] at hs; exact hs
  rcases LinkedList.rmUnlink_of_step hstep with ⟨key, hpc, hnext, rfl⟩ | ⟨key, hpc, hm⟩
  · rw [hpc] at hloc
    obtain ⟨-, hw, -, hm⟩ := hloc
    refine ⟨hw.right_node, by rwa [hnext], ?_⟩
    rw [LinkedList.next_setNext, if_pos rfl]
    rfl
  · -- the load of a marked word is the branch the run does not take
    rw [hpc] at hs hloc hok
    obtain ⟨-, -, hkey⟩ := hloc
    simp only [listMachine, LinkedList.step] at hs
    split at hs <;> cases hs
    have hfalse := hok (hkey.symm.trans hk)
    rw [hm] at hfalse
    cases hfalse

/-- A step keeps the key of a node and its mark. -/
theorem marked_of_fire {i : ι} {op : ListOp K} {a : ℕ}
    (hc : (LinkedList.relyGuarantee K).Holds c) (hf : c.fire (listMachine K) i op = some d)
    (ha : c.shared.IsNode a) (hm : (c.shared.next a).mark = true) :
    d.shared.IsNode a ∧ d.shared.keyOf a = c.shared.keyOf a ∧ (d.shared.next a).mark = true := by
  have hg : LinkedList.Guar c.shared d.shared :=
    ((LinkedList.relyGuarantee K).fire_holds hc trivial hf).2
  exact ⟨ha.mono hg.size_le, hg.key_eq a ha, (hg.marked a ha hm).1⟩

/-- A step of one thread leaves the program points of the others. -/
theorem thread_of_fire {i j : ι} {op : ListOp K} (hf : c.fire (listMachine K) i op = some d)
    (hj : j ≠ i) : d.thread j = c.thread j := by
  obtain ⟨s', pc', -, rfl⟩ := Config.fire_eq_some_iff.mp hf
  exact Function.update_of_ne hj _ _

theorem Removed.fire {i : ι} {op : ListOp K} {a : ℕ} (h : Removed a c)
    (hc : (LinkedList.relyGuarantee K).Holds c) (hok : RemovesAlone k c.shared (c.thread i) op)
    (hf : c.fire (listMachine K) i op = some d) (hk : c.shared.keyOf a = k) : Removed a d := by
  obtain ⟨hnode, hkey, hmark⟩ := marked_of_fire hc hf h.node h.marked
  refine ⟨hnode, hmark, fun j hj => ?_⟩
  by_cases hji : j = i
  · subst hji
    have hfalse := (mark_of_unlinks hc hok hf hj (hkey.trans hk)).2.1
    rw [h.marked] at hfalse
    cases hfalse
  · rw [thread_of_fire hf hji] at hj
    exact h.none j hj

theorem UnlinkedOnce.fire {i : ι} {op : ListOp K} (h : UnlinkedOnce k c)
    (hc : (LinkedList.relyGuarantee K).Holds c) (hok : RemovesAlone k c.shared (c.thread i) op)
    (hf : c.fire (listMachine K) i op = some d) : UnlinkedOnce k d := by
  -- a thread that was about to unlink the node before the step
  have hold : ∀ j a, j ≠ i → (d.thread j).Unlinks a → d.shared.keyOf a = k →
      (c.thread j).Unlinks a ∧ c.shared.keyOf a = k ∧ (c.shared.next a).mark = true := by
    intro j a hji hj hk
    rw [thread_of_fire hf hji] at hj
    have hg : LinkedList.Guar c.shared d.shared :=
      ((LinkedList.relyGuarantee K).fire_holds hc trivial hf).2
    rw [hg.key_eq a (isNode_of_unlinks hc hj)] at hk
    exact ⟨hj, hk, (h j a hj hk).1⟩
  intro j a hj hk
  by_cases hji : j = i
  · subst hji
    obtain ⟨-, hfalse, hmark⟩ := mark_of_unlinks hc hok hf hj hk
    refine ⟨hmark, fun j' hj' => ?_⟩
    by_contra hne
    rw [(hold j' a hne hj' hk).2.2] at hfalse
    cases hfalse
  · obtain ⟨hcj, hck, hcm⟩ := hold j a hji hj hk
    refine ⟨(marked_of_fire hc hf (isNode_of_unlinks hc hcj) hcm).2.2, fun j' hj' => ?_⟩
    by_cases hji' : j' = i
    · subst hji'
      have hfalse := (mark_of_unlinks hc hok hf hj' hk).2.1
      rw [hcm] at hfalse
      cases hfalse
    · exact (h j a hcj hck).2 j' (hold j' a hji' hj' hk).1

/-- The marked nodes of `k` are unlinked by one thread each, in every state of the runs
considered. -/
theorem unlinkedOnce_of_run [Nontrivial K] (count : ℤ)
    (h : Run (listMachine K) (RemovesAlone k) (listInit count) c) :
    (LinkedList.relyGuarantee K).Holds c ∧ UnlinkedOnce k c := by
  refine h.invariant (P := fun c => (LinkedList.relyGuarantee K).Holds c ∧ UnlinkedOnce k c)
    (fun i op hc hok hf => ?_) ⟨LinkedList.holds_init count, fun i a hi _ => ?_⟩
  · exact ⟨((LinkedList.relyGuarantee K).fire_holds hc.1 trivial hf).1, hc.2.fire hc.1 hok hf⟩
  · obtain ⟨prev, right, rightNext, hpc, -⟩ := hi
    cases hpc

/-- A node of `k` that has been removed stays so. -/
theorem Removed.run {a : ℕ} (h : Run (listMachine K) (RemovesAlone k) c d)
    (hc : (LinkedList.relyGuarantee K).Holds c) (ha : Removed a c) (hk : c.shared.keyOf a = k) :
    Removed a d ∧ d.shared.keyOf a = k := by
  have hall := h.invariant
    (P := fun c => (LinkedList.relyGuarantee K).Holds c ∧ Removed a c ∧ c.shared.keyOf a = k)
    (fun i op hc hok hf => ?_) ⟨hc, ha, hk⟩
  · exact hall.2
  · obtain ⟨hh, hr, hkey⟩ := hc
    refine ⟨((LinkedList.relyGuarantee K).fire_holds hh trivial hf).1, hr.fire hh hok hf hkey, ?_⟩
    exact (marked_of_fire hh hf hr.node hr.marked).2.1.trans hkey

/-- The last step of a successful `remove(k)`: it reports the value of a node of `k`, which is
removed from then on. -/
theorem ReportsRemoval.removed {i : ι} {r : ListResult K}
    (h : ReportsRemoval (RemovesAlone k) k c d i r) (hc : (LinkedList.relyGuarantee K).Holds c)
    (honce : UnlinkedOnce k c) :
    ∃ a, (c.thread i).Unlinks a ∧ Removed a d ∧ d.shared.keyOf a = k ∧
      r = .status (LinkedList.toInt (d.shared.node a).value) := by
  obtain ⟨⟨op, hok, hf⟩, hrem, hres, hsucc⟩ := h
  have hd := ((LinkedList.relyGuarantee K).fire_holds hc trivial hf).1
  have hothers := fun j (hj : j ≠ i) => thread_of_fire hf hj
  obtain ⟨s', pc', hs, rfl⟩ := Config.fire_eq_some_iff.mp hf
  have hloc : (c.thread i).Ok c.shared := hc.loc i
  simp only [Function.update_self] at hres
  subst hres
  -- the thread is inside its call
  have hstep : c.shared.step (c.thread i) = some (s', .ret r) := by
    cases hpc : c.thread i with
    | ret r =>
      rw [hpc] at hrem
      exact hrem.elim
    | _ => rw [hpc] at hs; exact hs
  obtain ⟨prev, right, rightNext, hpc, hkey⟩ := LinkedList.success_of_step hrem hstep hsucc
  have hun : (c.thread i).Unlinks right.addr := ⟨prev, right, rightNext, hpc, rfl⟩
  obtain ⟨hm, honly⟩ := honce i right.addr hun hkey
  obtain ⟨hnode, hkey', hmark⟩ := marked_of_fire hc hf (isNode_of_unlinks hc hun) hm
  refine ⟨right.addr, hun, ⟨hnode, hmark, fun j hj => ?_⟩, hkey'.trans hkey, ?_⟩
  · -- this thread has returned, and no other one was about to unlink the node
    by_cases hji : j = i
    · subst hji
      obtain ⟨_, _, _, hfalse, -⟩ := hj
      simp only [Function.update_self] at hfalse
      cases hfalse
    · rw [hothers j hji] at hj
      exact hji (honly j hj)
  · -- the unlinking CAS succeeds, so `right_node` still is the node
    rw [hpc] at hstep hloc hok
    obtain ⟨⟨key, -, hw⟩, -⟩ := hloc
    simp only [LinkedList.step] at hstep
    split at hstep
    · next hcas => simp [LinkedList.cas, hok hkey] at hcas
    · cases hstep
      rw [LinkedList.valueResult, TaggedPtr.isMarked, TaggedPtr.isFreeze, hw.clean.1, hw.clean.2]
      rfl

/-- In every run in which no `remove(k)` reads a marked word when it loads `right_next` again, and
none fails to unlink, a `remove(k)` that reports success reports the value that was inserted, and no
later one reports success, if `k` was inserted once. -/
theorem exclusive_removal [Nontrivial K] (count : ℤ) {i : ι} {r : ListResult K}
    (hc : Run (listMachine K) (RemovesAlone k) (listInit count) c)
    (hrep : ReportsRemoval (RemovesAlone k) k c d i r) :
    (d.shared.InsertedOnce k → ∀ a, d.shared.IsNode a → d.shared.keyOf a = k →
      r = .status (LinkedList.toInt (d.shared.node a).value)) ∧
    ∀ c' d' j r', Run (listMachine K) (RemovesAlone k) d c' →
      ReportsRemoval (RemovesAlone k) k c' d' j r' → ¬ d'.shared.InsertedOnce k := by
  obtain ⟨hh, hun⟩ := unlinkedOnce_of_run count hc
  obtain ⟨b, -, hgone, hkey, hval⟩ := hrep.removed hh hun
  obtain ⟨op, hok, hf⟩ := hrep.step
  have hd : Run (listMachine K) (RemovesAlone k) (listInit count) d := hc.step i op hok hf
  constructor
  · intro honce a ha hak
    rw [hval, honce.unique ⟨ha, hak⟩ ⟨hgone.node, hkey⟩]
  · intro c' d' j r' hrun hrep' honce
    obtain ⟨hh', hun'⟩ := unlinkedOnce_of_run count (hd.trans hrun)
    obtain ⟨a, hua, hgone', hkey', -⟩ := hrep'.removed hh' hun'
    obtain ⟨hb, hbk⟩ := hgone.run hrun (unlinkedOnce_of_run count hd).1 hkey
    -- the two removed nodes are the one node of the key
    obtain ⟨op', -, hf'⟩ := hrep'.step
    obtain ⟨hbn, hbk', -⟩ := marked_of_fire hh' hf' hb.node hb.marked
    obtain rfl := honce.unique ⟨hgone'.node, hkey'⟩ ⟨hbn, hbk'.trans hbk⟩
    exact hb.none j hua

end Exclusive

/-- Thread 0 inserts 3 with the value 7, and both threads look for it to remove it. -/
def twoRemovers : List (Fin 2 × ListOp (Fin 8)) :=
  List.replicate 7 (0, .update (.insert 3 7)) ++ List.replicate 4 (0, .update (.remove 3)) ++
    List.replicate 4 (1, .update (.remove 3))

/-- Thread 1 has found 3, thread 0 removes it and reports 7. -/
theorem exclusive_removal_one : ∃ c d : Config (Fin 2) (LinkedList (Fin 8)) (ListPc (Fin 8)),
    ReportsRemoval (RemovesAlone 3) 3 c d 0 (.status 7) ∧
    (d.shared.InsertedOnce 3 → ∀ a, d.shared.IsNode a → d.shared.keyOf a = 3 →
      ListResult.status 7 =
        (.status (LinkedList.toInt (d.shared.node a).value) : ListResult (Fin 8))) ∧
    ∀ c' d' j r', Run (listMachine (Fin 8)) (RemovesAlone 3) d c' →
      ReportsRemoval (RemovesAlone 3) 3 c' d' j r' → ¬ d'.shared.InsertedOnce 3 := by
  have hexec : (((listInit 0).exec (listMachine (Fin 8)) (RemovesAlone 3)
      (twoRemovers ++ List.replicate 2 (0, .collect))).bind fun c =>
      (c.fire (listMachine (Fin 8)) 0 .collect).map fun d =>
        (decide (RemovesAlone 3 c.shared (c.thread 0) .collect), c.thread 0,
          c.shared.keyOf 3, d.thread 0)) =
      some (true, .rmUnlink 2 (.clean 3) (.clean 1), 3, .ret (.status 7)) := by decide
  obtain ⟨c, hc, hcd⟩ := Option.bind_eq_some_iff.mp hexec
  obtain ⟨d, hd, hpc⟩ := Option.map_eq_some_iff.mp hcd
  simp only [Prod.mk.injEq, decide_eq_true_eq] at hpc
  obtain ⟨hok, hpc, hkey, hres⟩ := hpc
  have hrep : ReportsRemoval (RemovesAlone 3) 3 c d 0 (.status 7) :=
    ⟨⟨_, hok, hd⟩, by rw [hpc]; exact hkey, hres, by decide, by decide⟩
  exact ⟨c, d, hrep, exclusive_removal 0 (Config.exec_run hc) hrep⟩

/-- Both threads have found 3. Thread 0 removes it and reports 7. Thread 1 then reads the marked
word, fails to unlink the node, and reports 0, the value of the max sentinel. -/
theorem removal_not_exclusive :
    ∃ c c' d d' : Config (Fin 2) (LinkedList (Fin 8)) (ListPc (Fin 8)),
      Run (listMachine (Fin 8)) anyStep (listInit 0) c ∧
      ReportsRemoval anyStep 3 c c' 0 (.status 7) ∧
      Run (listMachine (Fin 8)) anyStep c' d ∧
      ReportsRemoval anyStep 3 d d' 1 (.status 0) ∧ d'.shared.InsertedOnce 3 := by
  have hexec : (((listInit 0).exec (listMachine (Fin 8)) anyStep
      (twoRemovers ++ List.replicate 2 (0, .collect))).bind fun c =>
      (c.fire (listMachine (Fin 8)) 0 .collect).bind fun c' =>
      (c'.exec (listMachine (Fin 8)) anyStep [(1, .collect)]).bind fun d =>
      (d.fire (listMachine (Fin 8)) 1 .collect).map fun d' =>
        ([c.thread 0, c'.thread 0, d.thread 1, d'.thread 1], c.shared.keyOf 3, d.shared.keyOf 3,
          d'.shared.size, List.map d'.shared.keyOf [1, 2, 3])) =
      some ([.rmUnlink 2 (.clean 3) (.clean 1), .ret (.status 7),
        .rmUnlink 2 (.clean 3) ⟨1, true, false⟩, .ret (.status 0)], 3, 3, 4, [7, 0, 3]) := by decide
  obtain ⟨c, hc, hexec⟩ := Option.bind_eq_some_iff.mp hexec
  obtain ⟨c', hc', hexec⟩ := Option.bind_eq_some_iff.mp hexec
  obtain ⟨d, hd, hexec⟩ := Option.bind_eq_some_iff.mp hexec
  obtain ⟨d', hd', hpc⟩ := Option.map_eq_some_iff.mp hexec
  simp only [Prod.mk.injEq, List.map_cons, List.map_nil, List.cons.injEq, and_true] at hpc
  -- only the node at 3 has the key 3
  obtain ⟨⟨hcpc, hcres, hdpc, hdres⟩, hckey, hdkey, hsize, hmax, hmin, hkey⟩ := hpc
  refine ⟨c, c', d, d', Config.exec_run hc,
    ⟨⟨_, trivial, hc'⟩, by rw [hcpc]; exact hckey, hcres, by decide, by decide⟩,
    Config.exec_run hd,
    ⟨⟨_, trivial, hd'⟩, by rw [hdpc]; exact hdkey, hdres, by decide, by decide⟩, 3, ?_, ?_⟩
  · exact ⟨⟨by decide, by omega⟩, hkey⟩
  · rintro a ⟨⟨hpos, hlt⟩, ha⟩
    obtain rfl | rfl | rfl : a = 1 ∨ a = 2 ∨ a = 3 := by omega
    · rw [hmax] at ha
      exact absurd ha (by decide)
    · rw [hmin] at ha
      exact absurd ha (by decide)
    · rfl

end KanvaImpl
