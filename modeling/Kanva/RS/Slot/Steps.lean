import Kanva.RS.Slot.Invariant

/-!
# The steps of a slot

The assertion of a thread says what its local pointers are: `left_node` and `right_node` in a
search, and in a collection the nodes it has passed, with their keys in the vector.

## Main results

* `SlotMemory.step_ok`: every step keeps the invariant and the assertion of its thread.
* `SlotMemory.relyGuarantee`: the same as a rely-guarantee proof.
-/

namespace KanvaRS

open Interleaving Kanva PointerChain

variable {K : Type} [LinearOrder K] [BoundedOrder K]

/-- The local pointers of a search for `key`. -/
structure SlotMemory.Window (s : SlotMemory K) (key : K) (left : ℕ) (right : TaggedPtr) : Prop where
  left_node : s.IsNode left
  left_key : left = head ∨ s.keyOf left < key
  clean : right.IsClean
  right_node : s.IsNode right.addr
  right_head : right.addr ≠ head

/-- After a new node has been linked, there is a node with its key. -/
def SlotInit.Ok (s : SlotMemory K) : SlotInit K → Prop
  | .newNode c => s.HasKey c.op.key
  | _ => True

/-- What the local variables of a thread satisfy at each program point. -/
def SlotPc.Ok (s : SlotMemory K) : SlotPc K → Prop
  | .ret (.list op status _) => status = 1 → s.HasKey op.key
  | .findNext c left right => s.Window c.op.key left right
  | .insLink c prev right => s.Window c.op.key prev right ∧ c.op.key < s.keyOf right.addr
  | .newHead c _ => s.HasKey c.op.key
  | .sizeAdd c => s.HasKey c.op.key
  | .initTest call _ => call.Ok s
  | .initLoad call _ => call.Ok s
  | .initCas call _ _ => call.Ok s
  | .collCheck _ left acc => s.Collecting left (acc.map Prod.fst) ∧ left ≠ SlotMemory.maxAddr
  | .collLoad _ left acc => s.Collecting left (acc.map Prod.fst) ∧ left ≠ SlotMemory.maxAddr
  | .collFreeze _ left _ acc => s.Collecting left (acc.map Prod.fst) ∧ left ≠ SlotMemory.maxAddr
  | .collCheckV _ left acc => s.Collecting left (acc.map Prod.fst) ∧ s.FrozenNode left
  | .collLoadV _ _ _ => False
  | .collFreezeV _ _ _ _ => False
  | .collCopy _ left acc =>
    s.Collecting left (acc.map Prod.fst) ∧ s.FrozenNode left ∧ left ≠ SlotMemory.head
  | .collPush _ left _ acc =>
    s.Collecting left (acc.map Prod.fst) ∧ s.FrozenNode left ∧ left ≠ SlotMemory.head
  | .collFollow _ left acc => s.Leaving left (acc.map Prod.fst)
  | .collLoop _ left acc => s.Collecting left (acc.map Prod.fst)
  | .collected _ acc => s.Complete (acc.map Prod.fst)
  | .publishAi _ acc => s.Complete (acc.map Prod.fst)
  | .setReclaimed c => s.mob = .ai c.mob
  | _ => True

namespace SlotMemory

variable {s s' : SlotMemory K}

omit [BoundedOrder K] in
theorem Window.mono {key : K} {left : ℕ} {right : TaggedPtr} (hg : Guar s s')
    (h : s.Window key left right) : s'.Window key left right where
  left_node := h.left_node.mono hg.nodeSize_le
  left_key := by
    rw [hg.key_eq _ h.left_node]
    exact h.left_key
  clean := h.clean
  right_node := h.right_node.mono hg.nodeSize_le
  right_head := h.right_head

omit [LinearOrder K] [BoundedOrder K] in
theorem FrozenNode.mono {a : ℕ} (hg : Guar s s') (h : s.FrozenNode a) : s'.FrozenNode a :=
  ⟨h.isNode.mono hg.nodeSize_le, h.ne_max, by
    rw [hg.frozen _ h.isNode h.frozen]
    exact h.frozen⟩

omit [LinearOrder K] [BoundedOrder K] in
theorem init_mono {call : SlotInit K} (hg : Guar s s') (h : call.Ok s) : call.Ok s' := by
  cases call with
  | newNode c => exact HasKey.mono h hg
  | _ => trivial

omit [BoundedOrder K] in
/-- The assertion of a thread survives the steps of the others. -/
theorem ok_mono {pc : SlotPc K} (hg : Guar s s') (h : pc.Ok s) : pc.Ok s' := by
  cases pc with
  | ret r =>
    cases r with
    | list op status linked => exact fun hone => (h hone).mono hg
    | _ => trivial
  | findNext c left right => exact Window.mono hg h
  | insLink c prev right => exact ⟨h.1.mono hg, by rw [hg.key_eq _ h.1.right_node]; exact h.2⟩
  | newHead c a => exact HasKey.mono h hg
  | sizeAdd c => exact HasKey.mono h hg
  | initTest call a | initLoad call a | initCas call a t => exact init_mono hg h
  | collCheck c left acc | collLoad c left acc | collFreeze c left w acc => exact ⟨h.1.mono hg, h.2⟩
  | collCheckV c left acc => exact ⟨h.1.mono hg, h.2.mono hg⟩
  | collLoadV c left acc | collFreezeV c left w acc => exact h
  | collCopy c left acc | collPush c left w acc => exact ⟨h.1.mono hg, h.2.1.mono hg, h.2.2⟩
  | collFollow c left acc => exact Leaving.mono h hg
  | collLoop c left acc => exact Collecting.mono h hg
  | collected c acc | publishAi c acc => exact Complete.mono h hg
  | setReclaimed c =>
    have hmob : s.mob = .ai c.mob := h
    have hsteps := hg.mob
    rw [hmob] at hsteps
    exact MobPtr.Next.of_ai hsteps
  | _ => trivial

omit [BoundedOrder K] in
theorem initReturn_ok {call : SlotInit K} {node : ℕ} (h : call.Ok s) :
    (s.initReturn node call).Ok s := by
  cases call with
  | newNode c => exact h
  | read c loc => trivial
  | vCAS c loc oldValue head =>
    rw [initReturn]
    cases loc <;> split_ifs <;> first | trivial | exact fun habs => by cases habs
  | linked c loc =>
    cases loc with
    | node a => exact fun habs => by cases habs
    | entry i => trivial

omit [BoundedOrder K] in
theorem updated_ok {c : SlotCall K} {linked : Option ℕ} {loc : VheadLoc} :
    (updated c linked loc).Ok s := by
  cases loc with
  | node a => exact fun habs => by cases habs
  | entry i => trivial

omit [BoundedOrder K] in
theorem failed_ok {c : SlotCall K} {loc : VheadLoc} : (failed c loc).Ok s := by
  cases loc <;> trivial

omit [BoundedOrder K] in
theorem enterAi_ok {c : SlotCall K} : (s.enterAi c).Ok s := by
  rw [enterAi]
  split <;> trivial

omit [BoundedOrder K] in
theorem full_ok {c : SlotCall K} : (full c).Ok s := by
  rw [full]
  split
  · trivial
  · exact fun habs => by cases habs

omit [BoundedOrder K] in
theorem aiReturn_ok {c : SlotCall K} {i : ℕ} {v : Val} : (aiReturn c i v).Ok s := by
  rw [aiReturn]
  split <;> split <;> trivial

omit [BoundedOrder K] in
/-- After `find` has stopped at a node, `insert` goes on soundly. -/
theorem findReturn_ok {c : SlotCall K} {left : ℕ} {right : TaggedPtr}
    (hw : s.Window c.op.key left right) (hle : c.op.key ≤ s.keyOf right.addr) :
    (s.findReturn c left right).Ok s := by
  rw [findReturn]
  split
  · trivial
  · next hne =>
    split
    · exact fun habs => by cases habs
    · exact ⟨hw, lt_of_le_of_ne hle fun heq => hne heq.symm⟩

omit [LinearOrder K] [BoundedOrder K] in
/-- A collection that has not reached the max sentinel stands at a node before it. -/
theorem Collecting.frozen {left : ℕ} {keys : List K} (h : s.Collecting left keys)
    (hmax : left ≠ maxAddr) (hf : (s.next left).freeze = true) : s.FrozenNode left := by
  obtain ⟨n, -, hnode, -, -⟩ := h
  exact ⟨hnode, hmax, hf⟩

omit [LinearOrder K] [BoundedOrder K] in
/-- A collection leaves `head` without a key. -/
theorem Collecting.leave_head (hs : ∀ a, s.FrozenNode a → s.succ a ≠ head) {keys : List K}
    (h : s.Collecting head keys) (hf : s.FrozenNode head) : s.Leaving head keys := by
  obtain ⟨n, hleft, -, hpassed, rfl⟩ := h
  cases n with
  | zero => exact ⟨0, rfl, hpassed.succ hf, rfl⟩
  | succ n =>
    rw [walk_succ] at hleft
    exact absurd hleft (hs _ (hpassed n n.lt_succ_self))

omit [LinearOrder K] [BoundedOrder K] in
/-- It leaves any other node with its key. -/
theorem Collecting.leave {left : ℕ} {keys : List K} (h : s.Collecting left keys)
    (hf : s.FrozenNode left) (hhead : left ≠ head) : s.Leaving left (keys ++ [s.keyOf left]) := by
  obtain ⟨n, rfl, -, hpassed, rfl⟩ := h
  cases n with
  | zero => exact absurd rfl hhead
  | succ n => exact ⟨n + 1, rfl, hpassed.succ hf, (s.keysTo_succ n).symm⟩

/-- The node behind the one it leaves. -/
theorem Leaving.follow (hs : s.ListInv) {left : ℕ} {keys : List K} (h : s.Leaving left keys) :
    s.Collecting (s.succ left) keys := by
  obtain ⟨n, rfl, hpassed, rfl⟩ := h
  have hlast := hpassed n n.lt_succ_self
  exact ⟨n + 1, walk_succ s n, (hs.succ_node hlast.isNode hlast.ne_max).1, hpassed, rfl⟩

/-- A collection ends at the max sentinel. -/
theorem Collecting.complete (hs : s.ListInv) {left : ℕ} {keys : List K} (h : s.Collecting left keys)
    (hnull : (s.next left).getUnmarkedRef = .null) : s.Complete keys := by
  obtain ⟨n, rfl, hnode, hpassed, rfl⟩ := h
  refine ⟨n, ?_, hpassed, rfl⟩
  by_contra hmax
  have hpos := (hs.succ_node hnode hmax).1.1
  have haddr : s.succ (s.walk n) = 0 := congrArg TaggedPtr.addr hnull
  omega

/-- A step that leaves the list, the slot and the flag alone. -/
theorem Inv.of_nodes (h : s.Inv) (hg : Guar s s') (hmob : s'.mob = s.mob)
    (hreclaimed : s'.isReclaimed = s.isReclaimed) (hlist : s'.ListInv)
    (harr : s'.array.map Prod.fst = s.array.map Prod.fst) : s'.Inv where
  list := hlist
  published a ha := by
    rw [harr]
    exact (h.published a (hmob ▸ ha)).mono hg
  reclaimed hr := by
    rw [hmob]
    exact h.reclaimed (hreclaimed ▸ hr)

/-- Every step of a thread keeps the invariant and its assertion, and stays within `Guar`. -/
theorem step_ok {x : SlotInput K} {pc pc' : SlotPc K} (h : s.Inv) (hpc : pc.Ok s)
    (hs : s.step x pc = some (s', pc')) : s'.Inv ∧ pc'.Ok s' ∧ Guar s s' := by
  have hl := h.list
  -- a step that only reads
  have hread : ∀ {p : SlotPc K}, s' = s → pc' = p → p.Ok s → s'.Inv ∧ pc'.Ok s' ∧ Guar s s' := by
    rintro p rfl rfl hp
    exact ⟨h, hp, Guar.refl _⟩
  cases pc with
  | ret r => simp [step] at hs
  | load op =>
    simp only [step] at hs
    split at hs
    · split at hs <;> cases hs <;> exact hread rfl rfl trivial
    · cases hs
      exact hread rfl rfl trivial
    · cases hs
      exact hread rfl rfl enterAi_ok
  | publishBin op =>
    simp only [step] at hs
    split at hs <;> cases hs
    · -- the CAS that publishes the new list in an empty slot
      next hmob =>
      refine ⟨⟨hl.congr rfl (fun _ => rfl) fun _ => rfl, fun a ha => (by cases ha), fun hr => ?_⟩,
        trivial, ?_⟩
      · obtain ⟨a, ha⟩ := h.reclaimed hr
        rw [hmob] at ha
        cases ha
      · refine ⟨?_, le_rfl, fun _ _ => rfl, fun _ _ _ => rfl, fun _ _ => rfl⟩
        rw [hmob]
        exact .single (.bin _)
    · exact hread rfl rfl trivial
  | size c =>
    simp only [step] at hs
    split at hs <;> cases hs
    · exact hread rfl rfl full_ok
    · exact hread rfl rfl trivial
  | findHead c =>
    simp only [step] at hs
    split at hs <;> cases hs
    · exact hread rfl rfl fun habs => by cases habs
    · exact hread rfl rfl trivial
  | findRight c =>
    simp only [step, Option.some.injEq, Prod.mk.injEq] at hs
    refine hread hs.1.symm hs.2.symm ⟨hl.head_node, .inl rfl, by simp, ?_, ?_⟩
    · exact (hl.succ_node hl.head_node (by decide)).1
    · exact hl.succ_ne_head hl.head_node (by decide)
  | findNext c left right =>
    have hw : s.Window c.op.key left right := hpc
    simp only [step] at hs
    split at hs
    · cases hs
      exact hread rfl rfl fun habs => by cases habs
    · next hf =>
      split at hs <;> cases hs
      · next hle => exact hread rfl rfl (findReturn_ok hw hle)
      · next hlt =>
        -- the search moves on; the word it has read is not frozen, so it is clean
        have hkey : s.keyOf right.addr < c.op.key := lt_of_not_ge hlt
        have hmax := hl.ne_max hkey
        refine hread rfl rfl ⟨hw.right_node, .inr hkey, ?_, ?_, ?_⟩
        · exact TaggedPtr.isClean_getUnmarkedRef (by simpa [TaggedPtr.isFreeze] using hf)
        · exact (hl.succ_node hw.right_node hmax).1
        · exact hl.succ_ne_head hw.right_node hmax
  | insLink c prev right =>
    obtain ⟨hw, hlt⟩ := hpc
    simp only [step] at hs
    split at hs <;> cases hs
    · -- the CAS that links the new node
      next hnext =>
      rw [hw.clean.eq_clean] at hnext
      have hg : Guar s ((s.setNext prev (.clean s.nodeSize)).allocNode c.op.key c.op.value right) :=
        (Guar.setNext fun hf => by simp [hnext] at hf).trans (Guar.allocNode _ _ _ _)
      have hlink := hl.link c.op.value hw.left_node hnext hw.left_key hlt
      rw [← hw.clean.eq_clean] at hlink
      refine ⟨h.of_nodes hg rfl rfl hlink rfl, ?_, hg⟩
      refine ⟨s.nodeSize, ⟨?_, Nat.lt_succ_self _⟩, hl.head_node.ne_nodeSize.symm,
        hl.max_node.ne_nodeSize.symm, ?_⟩
      · exact lt_of_lt_of_le (by decide) hl.nodeSize_ge
      · rw [keyOf_allocNode, nodeSize_setNext, if_pos rfl]
    · exact hread rfl rfl trivial
  | newHead c newNode =>
    simp only [step, Option.some.injEq, Prod.mk.injEq] at hs
    exact hread hs.1.symm hs.2.symm hpc
  | sizeAdd c =>
    simp only [step, Option.some.injEq, Prod.mk.injEq] at hs
    obtain ⟨rfl, rfl⟩ := hs
    have hg : Guar s { s with size := s.size + 1 } :=
      .of_nodes rfl rfl (fun _ => rfl) (fun _ => rfl) rfl
    exact ⟨h.of_nodes hg rfl rfl (hl.congr rfl (fun _ => rfl) fun _ => rfl) rfl,
      fun _ => HasKey.mono hpc hg, hg⟩
  | initTest call node =>
    simp only [step] at hs
    split at hs <;> cases hs
    · exact hread rfl rfl hpc
    · exact hread rfl rfl (initReturn_ok hpc)
  | initLoad call node =>
    simp only [step, Option.some.injEq, Prod.mk.injEq] at hs
    exact hread hs.1.symm hs.2.symm hpc
  | initCas call node globalTs =>
    simp only [step, Option.some.injEq, Prod.mk.injEq] at hs
    obtain ⟨rfl, rfl⟩ := hs
    have hnext : ∀ a, (s.stamp node globalTs).next a = s.next a := fun a => by
      rw [next, node_stamp, next]
    have hkey : ∀ a, (s.stamp node globalTs).keyOf a = s.keyOf a := fun a => by
      rw [keyOf, node_stamp, keyOf]
    have hg : Guar s (s.stamp node globalTs) :=
      .of_nodes (by simp) (by simp) hnext hkey (by simp)
    exact ⟨h.of_nodes hg (by simp) (by simp) (hl.congr (by simp) hnext hkey) (by simp),
      ok_mono hg (initReturn_ok hpc), hg⟩
  | readHead c loc | vcasHead c loc oldValue =>
    simp only [step, Option.some.injEq, Prod.mk.injEq] at hs
    exact hread hs.1.symm hs.2.symm trivial
  | readValue c loc =>
    simp only [step] at hs
    split at hs <;> cases hs
    · exact hread rfl rfl updated_ok
    · exact hread rfl rfl trivial
  | vcasLink c loc head =>
    simp only [step] at hs
    split at hs <;> cases hs
    · -- the CAS of `vCAS` writes versions only
      set s₁ := (s.setVhead loc (.clean s.versionSize)).allocVersion ⟨c.op.value, -1, head.addr⟩
      have hnext : ∀ a, s₁.next a = s.next a := fun a => next_setVhead s a _ loc
      have hkey : ∀ a, s₁.keyOf a = s.keyOf a := fun a => keyOf_setVhead s a _ loc
      have hmob : s₁.mob = s.mob := mob_setVhead s _ loc
      have hsize : s₁.nodeSize = s.nodeSize := nodeSize_setVhead s _ loc
      have hrec : s₁.isReclaimed = s.isReclaimed := isReclaimed_setVhead s _ loc
      have harr : s₁.array.map Prod.fst = s.array.map Prod.fst := keys_setVhead s _ loc
      have hg : Guar s s₁ := .of_nodes hmob hsize hnext hkey harr
      exact ⟨h.of_nodes hg hmob hrec (hl.congr hsize hnext hkey) harr, trivial, hg⟩
    · exact hread rfl rfl failed_ok
  | markTest c loc =>
    simp only [step] at hs
    split at hs <;> cases hs
    · exact hread rfl rfl fun habs => by cases habs
    · exact hread rfl rfl trivial
  | collStart c =>
    simp only [step] at hs
    split at hs <;> cases hs
    · exact hread rfl rfl trivial
    · exact hread rfl rfl ⟨⟨0, rfl, hl.head_node, fun _ hm => absurd hm (Nat.not_lt_zero _), rfl⟩,
        by decide⟩
  | collCheck c left acc =>
    simp only [step] at hs
    split at hs <;> cases hs
    · exact hread rfl rfl hpc
    · next hf =>
      exact hread rfl rfl ⟨hpc.1, hpc.1.frozen hpc.2 (by simpa [TaggedPtr.isFreeze] using hf)⟩
  | collLoad c left acc =>
    simp only [step, Option.some.injEq, Prod.mk.injEq] at hs
    exact hread hs.1.symm hs.2.symm hpc
  | collFreeze c left currNext acc =>
    obtain ⟨hcoll, hmax⟩ := hpc
    obtain ⟨-, -, hnode, -, -⟩ := id hcoll
    simp only [step] at hs
    split at hs <;> cases hs
    · -- the CAS that freezes the word of the node
      next hnext =>
      subst hnext
      have hg : Guar s (s.setNext left (s.next left).setFreeze) := by
        refine Guar.setNext fun hf => ?_
        rw [TaggedPtr.setFreeze, ← hf]
      refine ⟨h.of_nodes hg rfl rfl (hl.setFreeze hnode hmax) rfl,
        ⟨hcoll.mono hg, hnode, hmax, ?_⟩, hg⟩
      rw [next_setNext, if_pos rfl]
      rfl
    · exact hread rfl rfl ⟨hcoll, hmax⟩
  | collCheckV c left acc =>
    obtain ⟨hcoll, hf⟩ := hpc
    simp only [step] at hs
    split at hs
    · -- the word has just been frozen, and stays so
      next hthawed => simp [TaggedPtr.isFreeze, hf.frozen] at hthawed
    · split at hs <;> cases hs
      · next hhead =>
        subst hhead
        refine hread rfl rfl (hcoll.leave_head (fun a ha => ?_) hf)
        exact hl.succ_ne_head ha.isNode ha.ne_max
      · next hhead => exact hread rfl rfl ⟨hcoll, hf, hhead⟩
  | collLoadV c left acc | collFreezeV c left w acc => exact absurd hpc id
  | collCopy c left acc =>
    simp only [step, Option.some.injEq, Prod.mk.injEq] at hs
    obtain ⟨rfl, rfl⟩ := hs
    have hg : Guar s { s with copied := Function.update s.copied left true } :=
      .of_nodes rfl rfl (fun _ => rfl) (fun _ => rfl) rfl
    have hpush : (SlotPc.collPush c left (s.vhead (.node left)).getUnmarkedRef acc).Ok s := hpc
    exact ⟨h.of_nodes hg rfl rfl (hl.congr rfl (fun _ => rfl) fun _ => rfl) rfl,
      ok_mono hg hpush, hg⟩
  | collPush c left w acc =>
    obtain ⟨hcoll, hf, hhead⟩ := hpc
    simp only [step] at hs
    split at hs <;> cases hs
    · -- the key goes into the vectors, and the node is left
      refine hread rfl rfl ?_
      show s.Leaving left _
      rw [List.map_append]
      exact hcoll.leave hf hhead
    · exact hread rfl rfl trivial
  | collFollow c left acc =>
    simp only [step, Option.some.injEq, Prod.mk.injEq] at hs
    exact hread hs.1.symm hs.2.symm (Leaving.follow hl hpc)
  | collLoop c left acc =>
    have hcoll : s.Collecting left (acc.map Prod.fst) := hpc
    simp only [step] at hs
    split at hs <;> cases hs
    · next hnull =>
      refine hread rfl rfl ⟨hcoll, ?_⟩
      -- the max sentinel has a null word
      rintro rfl
      rw [hl.max_next] at hnull
      exact hnull rfl
    · next hnull => exact hread rfl rfl (hcoll.complete hl (not_not.mp hnull))
  | collected c acc =>
    simp only [step] at hs
    split at hs <;> cases hs
    · exact hread rfl rfl trivial
    · exact hread rfl rfl hpc
  | publishAi c acc =>
    simp only [step] at hs
    split at hs <;> cases hs
    · -- the CAS that publishes the model: from now on the slot keeps it
      next hmob =>
      have hg : Guar s { s with mob := .ai s.mobSize, mobSize := s.mobSize + 1, array := acc } := by
        refine ⟨?_, le_rfl, fun _ _ => rfl, fun _ _ _ => rfl, fun a ha => ?_⟩
        · rw [hmob]
          exact .single (.ai _ _)
        · rw [hmob] at ha
          cases ha
      exact ⟨⟨hl.congr rfl (fun _ => rfl) fun _ => rfl, fun _ _ => Complete.mono hpc hg,
        fun _ => ⟨_, rfl⟩⟩, rfl, hg⟩
    · exact hread rfl rfl trivial
  | setReclaimed c =>
    simp only [step, Option.some.injEq, Prod.mk.injEq] at hs
    obtain ⟨rfl, rfl⟩ := hs
    have hg : Guar s { s with isReclaimed := true } :=
      .of_nodes rfl rfl (fun _ => rfl) (fun _ => rfl) rfl
    exact ⟨⟨hl.congr rfl (fun _ => rfl) fun _ => rfl, fun a ha => (h.published a ha).mono hg,
      fun _ => ⟨_, hpc⟩⟩, ok_mono hg enterAi_ok, hg⟩
  | aiValue c i =>
    simp only [step, Option.some.injEq, Prod.mk.injEq] at hs
    exact hread hs.1.symm hs.2.symm aiReturn_ok
  | aiBelow c =>
    simp only [step, Option.some.injEq, Prod.mk.injEq] at hs
    exact hread hs.1.symm hs.2.symm trivial

/-- The invariant and the assertions, as a rely-guarantee proof. -/
def relyGuarantee (K : Type) [LinearOrder K] [BoundedOrder K] :
    RelyGuarantee (slotMachine K) anyStep where
  inv := Inv
  loc s pc := pc.Ok s
  guar := Guar
  guar_refl := Guar.refl
  guar_trans := Guar.trans
  step {s pc x s' pc'} h hpc _ hs := by
    cases pc with
    | ret r =>
      cases hs
      exact ⟨h, trivial, Guar.refl _⟩
    | _ => exact step_ok (x := x) h hpc hs
  stable _ hpc hg := ok_mono hg hpc

/-- Initially the slot is empty, and every thread is before its first call. -/
theorem holds_init {ι : Type} :
    (relyGuarantee K).Holds (slotInit : Config ι (SlotMemory K) (SlotPc K)) :=
  ⟨⟨.new, fun a ha => (by cases ha), fun hr => (by cases hr)⟩, fun _ => trivial⟩

end SlotMemory

end KanvaRS
