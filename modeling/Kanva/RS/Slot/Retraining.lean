import Kanva.RS.Slot.Safety

/-!
# Updates in time survive retraining

An update of a key that is in the list puts a new version in front of the chain of its node.
`collect` copies the `vhead` words into the model, and does not freeze them: the bit it tests before
it would is the one of `next`, which it has just set. So an update that has passed `find` before the
list is frozen may write to a `vhead` that has been copied, and the model never sees its version.

Every other update is kept. A node is updated until its `vhead` is copied, and the entry of the
model starts at the copy.

## Main results

* `updates_in_time_survive`: in a run without such an update the versions of all updates are in the
  chains of the model.
* `late_update_lost`: a run that loses an update.
-/

namespace KanvaRS

open Interleaving Kanva PointerChain

variable {K : Type}

namespace SlotMemory

/-- `v` is the address of a version. -/
def IsVersion (s : SlotMemory K) (v : ℕ) : Prop := 0 < v ∧ v < s.versionSize

/-- `w` is in the chain of versions that starts at `v`. -/
def Reaches (s : SlotMemory K) : ℕ → ℕ → Prop :=
  Relation.ReflTransGen fun v w => s.IsVersion v ∧ (s.version v).nextv = w

/-- `a` is a node with this key, or the max sentinel. -/
structure NodeOf (s : SlotMemory K) (key : K) (a : ℕ) : Prop where
  isNode : s.IsNode a
  ne_head : a ≠ head
  key_eq : s.keyOf a = key

/-- The version `v` is in the chain of the node with this key. -/
def InChain (s : SlotMemory K) (key : K) (v : ℕ) : Prop :=
  ∃ a, s.NodeOf key a ∧ s.Reaches (s.vhead (.node a)).addr v

/-- The entry is a copy of the key and the `vhead` of a node. -/
def Copied (s : SlotMemory K) (e : K × TaggedPtr) : Prop :=
  ∃ a, s.NodeOf e.1 a ∧ s.copied a = true ∧ e.2.addr = (s.vhead (.node a)).addr

/-- The chain of the entry has grown from the one of a node whose `vhead` has been copied. -/
def Grown (s : SlotMemory K) (e : K × TaggedPtr) : Prop :=
  ∃ a, s.NodeOf e.1 a ∧ s.copied a = true ∧ s.Reaches e.2.addr (s.vhead (.node a)).addr

/-- What holds of the chains of versions. -/
structure VersionInv (s : SlotMemory K) : Prop where
  versionSize_pos : 0 < s.versionSize
  entry : ∀ e ∈ s.array, s.Grown e

/-- What a step of any thread leaves alone in the chains of the nodes, as long as no `vCAS` succeeds
on a `vhead` that has been copied. -/
structure VersionGuar (s s' : SlotMemory K) : Prop where
  versionSize_le : s.versionSize ≤ s'.versionSize
  nextv : ∀ v, s.IsVersion v → (s'.version v).nextv = (s.version v).nextv
  vhead : ∀ a, s.IsNode a → s'.Reaches (s'.vhead (.node a)).addr (s.vhead (.node a)).addr
  copied : ∀ a, s.IsNode a → s.copied a = true →
    s'.copied a = true ∧ s'.vhead (.node a) = s.vhead (.node a)

end SlotMemory

open SlotMemory

/-- A `vhead` word an update of `key` may write. -/
def VheadLoc.Ok (s : SlotMemory K) (key : K) : VheadLoc → Prop
  | .node a => s.NodeOf key a
  | .entry _ => True

/-- What the caller of `init_ts` knows about its `vhead` and about the version it stamps. -/
def SlotInit.VersionOk (s : SlotMemory K) (node : ℕ) : SlotInit K → Prop
  | .newNode _ => True
  | .read c loc => loc.Ok s c.op.key
  | .vCAS c loc _ _ => loc.Ok s c.op.key
  | .linked c (.node _) => s.InChain c.op.key node
  | .linked _ (.entry _) => True

/-- What the local variables of a thread say about the versions at each program point. -/
def SlotPc.VersionOk (s : SlotMemory K) : SlotPc K → Prop
  | .ret (.list op _ (some v)) => s.InChain op.key v
  | .initTest call v | .initLoad call v | .initCas call v _ => call.VersionOk s v
  | .readHead c loc | .readValue c loc | .vcasHead c loc _ | .vcasLink c loc _ | .markTest c loc =>
    loc.Ok s c.op.key
  | .collCheck _ _ acc | .collLoad _ _ acc | .collFreeze _ _ _ acc | .collCheckV _ _ acc
  | .collLoadV _ _ acc | .collFreezeV _ _ _ acc | .collCopy _ _ acc | .collFollow _ _ acc
  | .collLoop _ _ acc | .collected _ acc | .publishAi _ acc => ∀ e ∈ acc, s.Copied e
  | .collPush _ left vhead acc =>
    (∀ e ∈ acc, s.Copied e) ∧ s.copied left = true ∧ vhead.addr = (s.vhead (.node left)).addr
  | _ => True

/-- The steps of the runs that lose no update: no `vCAS` on a node succeeds after a `collect` has
read the `vhead` of the node. -/
def InTime (s : SlotMemory K) (pc : SlotPc K) (_ : SlotInput K) : Prop :=
  match pc with
  | .vcasLink _ (.node a) head => s.vhead (.node a) = head → s.copied a = false
  | _ => True

instance (s : SlotMemory K) (pc : SlotPc K) (x : SlotInput K) : Decidable (InTime s pc x) := by
  unfold InTime
  split <;> infer_instance

namespace SlotMemory

section Writes

variable (s : SlotMemory K) (a b : ℕ) (w : TaggedPtr) (ts : ℤ) (key : K) (value : Val)

@[simp] theorem vhead_setNext : (s.setNext a w).vhead (.node b) = s.vhead (.node b) := by
  by_cases h : b = a <;> simp [setNext, vhead, h]

@[simp] theorem vhead_allocNode : (s.allocNode key value w).vhead (.node b) =
    if b = s.nodeSize then .clean s.versionSize else s.vhead (.node b) := by
  by_cases h : b = s.nodeSize <;> simp [allocNode, vhead, h]

@[simp] theorem vhead_stamp : (s.stamp a ts).vhead (.node b) = s.vhead (.node b) := by
  rw [vhead, node_stamp, vhead]

@[simp] theorem versionSize_stamp : (s.stamp a ts).versionSize = s.versionSize := by
  unfold stamp
  split <;> rfl

@[simp] theorem copied_stamp : (s.stamp a ts).copied = s.copied := by
  unfold stamp
  split <;> rfl

/-- A stamp keeps the chains. -/
@[simp] theorem nextv_stamp : ((s.stamp a ts).version b).nextv = (s.version b).nextv := by
  unfold stamp
  split
  · by_cases h : b = a <;> simp [h]
  · rfl

end Writes

variable {s s' s'' : SlotMemory K}

theorem IsVersion.mono {v : ℕ} (h : s.IsVersion v) (hle : s.versionSize ≤ s'.versionSize) :
    s'.IsVersion v := ⟨h.1, lt_of_lt_of_le h.2 hle⟩

/-- A chain of versions stays a chain. -/
theorem Reaches.mono {v w : ℕ} (h : s.Reaches v w) (hg : VersionGuar s s') : s'.Reaches v w := by
  refine Relation.ReflTransGen.mono (fun v w hvw => ?_) _ _ h
  exact ⟨hvw.1.mono hg.versionSize_le, (hg.nextv v hvw.1).trans hvw.2⟩

namespace VersionGuar

theorem refl (s : SlotMemory K) : VersionGuar s s :=
  ⟨le_rfl, fun _ _ => rfl, fun _ _ => .refl, fun _ _ hc => ⟨hc, rfl⟩⟩

theorem trans (hle : s.nodeSize ≤ s'.nodeSize) (h : VersionGuar s s') (h' : VersionGuar s' s'') :
    VersionGuar s s'' where
  versionSize_le := h.versionSize_le.trans h'.versionSize_le
  nextv v hv := (h'.nextv v (hv.mono h.versionSize_le)).trans (h.nextv v hv)
  vhead a ha := (h'.vhead a (ha.mono hle)).trans ((h.vhead a ha).mono h')
  copied a ha hc := by
    obtain ⟨hc', hv⟩ := h.copied a ha hc
    obtain ⟨hc'', hv'⟩ := h'.copied a (ha.mono hle) hc'
    exact ⟨hc'', hv'.trans hv⟩

/-- A write that touches no chain of versions of a node. -/
theorem of_vhead (hle : s.versionSize ≤ s'.versionSize)
    (hnextv : ∀ v, s.IsVersion v → (s'.version v).nextv = (s.version v).nextv)
    (hvhead : ∀ a, s.IsNode a → s'.vhead (.node a) = s.vhead (.node a))
    (hcopied : ∀ a, s.copied a = true → s'.copied a = true) : VersionGuar s s' where
  versionSize_le := hle
  nextv := hnextv
  vhead a ha := by
    rw [hvhead a ha]
    exact .refl
  copied a ha hc := ⟨hcopied a hc, hvhead a ha⟩

end VersionGuar

theorem NodeOf.mono {key : K} {a : ℕ} (h : s.NodeOf key a) (hg : Guar s s') : s'.NodeOf key a :=
  ⟨h.isNode.mono hg.nodeSize_le, h.ne_head, (hg.key_eq a h.isNode).trans h.key_eq⟩

theorem InChain.mono {key : K} {v : ℕ} (h : s.InChain key v) (hg : Guar s s')
    (hv : VersionGuar s s') : s'.InChain key v := by
  obtain ⟨a, ha, hreach⟩ := h
  exact ⟨a, ha.mono hg, (hv.vhead a ha.isNode).trans (hreach.mono hv)⟩

theorem Copied.mono {e : K × TaggedPtr} (h : s.Copied e) (hg : Guar s s') (hv : VersionGuar s s') :
    s'.Copied e := by
  obtain ⟨a, ha, hc, haddr⟩ := h
  obtain ⟨hc', hvhead⟩ := hv.copied a ha.isNode hc
  exact ⟨a, ha.mono hg, hc', by rw [hvhead, haddr]⟩

theorem Grown.mono {e : K × TaggedPtr} (h : s.Grown e) (hg : Guar s s') (hv : VersionGuar s s') :
    s'.Grown e := by
  obtain ⟨a, ha, hc, hreach⟩ := h
  obtain ⟨hc', hvhead⟩ := hv.copied a ha.isNode hc
  refine ⟨a, ha.mono hg, hc', ?_⟩
  rw [hvhead]
  exact hreach.mono hv

theorem loc_mono {key : K} {loc : VheadLoc} (h : loc.Ok s key) (hg : Guar s s') :
    loc.Ok s' key := by
  cases loc with
  | node a => exact NodeOf.mono h hg
  | entry i => trivial

theorem call_mono {call : SlotInit K} {v : ℕ} (h : call.VersionOk s v) (hg : Guar s s')
    (hv : VersionGuar s s') : call.VersionOk s' v := by
  cases call with
  | newNode c => trivial
  | read c loc | vCAS c loc oldValue head => exact loc_mono h hg
  | linked c loc =>
    cases loc with
    | node a => exact InChain.mono h hg hv
    | entry i => trivial

/-- The assertion of a thread survives the steps of the others. -/
theorem versionOk_mono {pc : SlotPc K} (h : pc.VersionOk s) (hg : Guar s s')
    (hv : VersionGuar s s') (hpc : ∀ c left w acc, pc = .collPush c left w acc → s.IsNode left) :
    pc.VersionOk s' := by
  cases pc with
  | ret r =>
    cases r with
    | list op status linked =>
      cases linked with
      | none => trivial
      | some v => exact InChain.mono h hg hv
    | _ => trivial
  | initTest call a | initLoad call a | initCas call a t => exact call_mono h hg hv
  | readHead c loc | readValue c loc | vcasHead c loc oldValue | vcasLink c loc head
  | markTest c loc => exact loc_mono h hg
  | collCheck c left acc | collLoad c left acc | collFreeze c left w acc | collCheckV c left acc
  | collLoadV c left acc | collFreezeV c left w acc | collCopy c left acc | collFollow c left acc
  | collLoop c left acc | collected c acc | publishAi c acc =>
    exact fun e he => (h e he).mono hg hv
  | collPush c left w acc =>
    -- the `vhead` has been copied, so it does not change any more
    obtain ⟨hacc, hcopied, haddr⟩ := h
    obtain ⟨hcopied', hvhead⟩ := hv.copied left (hpc c left w acc rfl) hcopied
    exact ⟨fun e he => (hacc e he).mono hg hv, hcopied', by rw [hvhead, haddr]⟩
  | _ => trivial

theorem initReturn_versionOk {call : SlotInit K} {node : ℕ} (h : call.VersionOk s' node) :
    (s.initReturn node call).VersionOk s' := by
  cases call with
  | newNode c => trivial
  | read c loc => exact h
  | vCAS c loc oldValue head =>
    -- `vCAS` fails when the newest value is not the expected one
    rw [initReturn]
    cases loc with
    | node a =>
      split_ifs
      · exact h
      · trivial
      · exact h
    | entry i => split_ifs <;> trivial
  | linked c loc =>
    cases loc with
    | node a => exact h
    | entry i => trivial

theorem updated_versionOk {c : SlotCall K} {loc : VheadLoc} : (updated c none loc).VersionOk s := by
  cases loc <;> trivial

theorem failed_versionOk {c : SlotCall K} {loc : VheadLoc} (h : loc.Ok s c.op.key) :
    (failed c loc).VersionOk s := by
  cases loc with
  | node a => exact h
  | entry i => trivial

theorem full_versionOk {c : SlotCall K} : (full c).VersionOk s := by
  rw [full]
  split <;> trivial

theorem aiReturn_versionOk {c : SlotCall K} {i : ℕ} {v : Val} : (aiReturn c i v).VersionOk s := by
  rw [aiReturn]
  split <;> split <;> trivial

section Order

variable [LinearOrder K]

theorem enterAi_versionOk {c : SlotCall K} : (s.enterAi c).VersionOk s := by
  rw [enterAi]
  split <;> trivial

/-- `find` has stopped at a node of its key if `insert` goes on with an update. -/
theorem findReturn_versionOk {c : SlotCall K} {left : ℕ} {right : TaggedPtr}
    (hw : s.Window c.op.key left right) : (s.findReturn c left right).VersionOk s := by
  rw [findReturn]
  split
  · next heq => exact ⟨hw.right_node, hw.right_head, heq⟩
  · split <;> trivial

/-- Two nodes of one key are the same. -/
theorem NodeOf.unique [BoundedOrder K] (hl : s.ListInv) {key : K} {a b : ℕ} (ha : s.NodeOf key a)
    (hb : s.NodeOf key b) : a = b := by
  obtain ⟨l, hspine, hmem⟩ := hl.spine
  refine hspine.key_inj ((hmem a).mpr ha.isNode) ((hmem b).mpr hb.isNode) ?_
  rw [ListInv.rank_of_ne ha.ne_head, ListInv.rank_of_ne hb.ne_head, ha.key_eq, hb.key_eq]

end Order

/-- A step that leaves the entries of the model alone. -/
theorem VersionInv.of_array (h : s.VersionInv) (hg : Guar s s') (hv : VersionGuar s s')
    (harr : s'.array = s.array) : s'.VersionInv where
  versionSize_pos := lt_of_lt_of_le h.versionSize_pos hv.versionSize_le
  entry e he := (h.entry e (harr ▸ he)).mono hg hv

/-! ### The link of a new version -/

section Link

variable {loc : VheadLoc} {head : TaggedPtr} {value : Val}

/-- The memory after `vCAS` has linked a new version in front of `head`. -/
def linkVersion (s : SlotMemory K) (loc : VheadLoc) (head : TaggedPtr) (value : Val) :
    SlotMemory K :=
  (s.setVhead loc (.clean s.versionSize)).allocVersion ⟨value, -1, head.addr⟩

@[simp] theorem versionSize_linkVersion :
    (s.linkVersion loc head value).versionSize = s.versionSize + 1 := by cases loc <;> rfl

@[simp] theorem copied_linkVersion : (s.linkVersion loc head value).copied = s.copied := by
  cases loc <;> rfl

@[simp] theorem version_linkVersion (v : ℕ) : (s.linkVersion loc head value).version v =
    if v = s.versionSize then ⟨value, -1, head.addr⟩ else s.version v := by
  cases loc <;> by_cases hv : v = s.versionSize <;> simp [linkVersion, setVhead, allocVersion, hv]

theorem vhead_linkVersion_self {a : ℕ} :
    (s.linkVersion (.node a) head value).vhead (.node a) = .clean s.versionSize := by
  simp [linkVersion, setVhead, allocVersion, vhead]

theorem vhead_linkVersion_of_ne {a : ℕ} (hne : loc ≠ .node a) :
    (s.linkVersion loc head value).vhead (.node a) = s.vhead (.node a) := by
  cases loc with
  | node b =>
    have hab : a ≠ b := fun heq => hne (by rw [heq])
    simp [linkVersion, setVhead, allocVersion, vhead, hab]
  | entry i => rfl

/-- An entry of the model after a link is an old one, or the one that has been written. -/
theorem mem_array_linkVersion {e : K × TaggedPtr}
    (he : e ∈ (s.linkVersion loc head value).array) :
    e ∈ s.array ∨ ∃ i old, loc = .entry i ∧ s.array[i]? = some old ∧
      e = (old.1, .clean s.versionSize) := by
  cases loc with
  | node a => exact .inl he
  | entry i =>
    obtain ⟨j, hj⟩ := List.mem_iff_getElem?.mp he
    have hmod : (s.array.modify i fun e => (e.1, .clean s.versionSize))[j]? = some e := hj
    rw [List.getElem?_modify] at hmod
    obtain ⟨old, hold, rfl⟩ := Option.map_eq_some_iff.mp hmod
    split
    · next hij => exact .inr ⟨i, old, rfl, hij ▸ hold, rfl⟩
    · exact .inl (List.mem_of_getElem? hold)

/-- The new version is followed by the old one. -/
theorem reaches_linkVersion (hpos : 0 < s.versionSize) :
    (s.linkVersion loc head value).Reaches s.versionSize head.addr := by
  refine .single ⟨⟨hpos, ?_⟩, ?_⟩
  · rw [versionSize_linkVersion]
    omega
  · rw [version_linkVersion, if_pos rfl]

/-- A link at a `vhead` that has not been copied leaves the chains alone, but for the new
version. -/
theorem VersionGuar.linkVersion (hpos : 0 < s.versionSize) (hhead : s.vhead loc = head)
    (hcopied : ∀ a, loc = .node a → s.copied a = false) :
    VersionGuar s (s.linkVersion loc head value) where
  versionSize_le := by
    rw [versionSize_linkVersion]
    omega
  nextv v hv := by rw [version_linkVersion, if_neg hv.2.ne]
  vhead a ha := by
    by_cases hloc : loc = .node a
    · subst hloc
      rw [vhead_linkVersion_self, hhead]
      exact reaches_linkVersion hpos
    · rw [vhead_linkVersion_of_ne hloc]
      exact .refl
  copied a ha hc := by
    have hloc : loc ≠ .node a := fun heq => by
      rw [hcopied a heq] at hc
      cases hc
    rw [copied_linkVersion]
    exact ⟨hc, vhead_linkVersion_of_ne hloc⟩

/-- A link keeps the invariant. -/
theorem VersionInv.linkVersion (h : s.VersionInv) (hg : Guar s (s.linkVersion loc head value))
    (hv : VersionGuar s (s.linkVersion loc head value)) (hhead : s.vhead loc = head) :
    (s.linkVersion loc head value).VersionInv where
  versionSize_pos := lt_of_lt_of_le h.versionSize_pos hv.versionSize_le
  entry e he := by
    rcases mem_array_linkVersion he with hold | ⟨i, old, rfl, hi, rfl⟩
    · exact (h.entry e hold).mono hg hv
    · obtain ⟨a, ha, hc, hreach⟩ := (h.entry old (List.mem_of_getElem? hi)).mono hg hv
      -- the new version is in front of what the entry pointed to
      have hold : head = old.2 := by
        rw [← hhead, SlotMemory.vhead, hi]
        rfl
      refine ⟨a, ha, hc, Relation.ReflTransGen.trans ?_ hreach⟩
      rw [← hold]
      exact reaches_linkVersion h.versionSize_pos

end Link

variable [LinearOrder K] [BoundedOrder K]

/-- Every step that is in time keeps the chains of versions. -/
theorem step_versionOk {x : SlotInput K} {pc pc' : SlotPc K} (h : s.Inv) (hv : s.VersionInv)
    (hpc : pc.Ok s) (hvpc : pc.VersionOk s) (hok : InTime s pc x)
    (hs : s.step x pc = some (s', pc')) :
    s'.VersionInv ∧ pc'.VersionOk s' ∧ VersionGuar s s' := by
  have hg : Guar s s' := (step_ok h hpc hs).2.2
  -- a step that only reads
  have hread : ∀ {p : SlotPc K}, s' = s → pc' = p → p.VersionOk s →
      s'.VersionInv ∧ pc'.VersionOk s' ∧ VersionGuar s s' := by
    rintro p rfl rfl hp
    exact ⟨hv, hp, .refl _⟩
  -- a step that writes nothing the assertions are about
  have hwrite : s'.versionSize = s.versionSize → (∀ v, (s'.version v).nextv = (s.version v).nextv) →
      (∀ a, s'.vhead (.node a) = s.vhead (.node a)) → s'.copied = s.copied → s'.array = s.array →
      s'.VersionInv ∧ VersionGuar s s' := by
    intro hsize hnextv hvhead hcopied harr
    have hvg : VersionGuar s s' :=
      .of_vhead hsize.ge (fun v _ => hnextv v) (fun a _ => hvhead a) fun a ha => hcopied ▸ ha
    exact ⟨hv.of_array hg hvg harr, hvg⟩
  cases pc with
  | ret r => simp [step] at hs
  | load op =>
    simp only [step] at hs
    split at hs
    · split at hs <;> cases hs <;> exact hread rfl rfl trivial
    · cases hs
      exact hread rfl rfl trivial
    · cases hs
      exact hread rfl rfl enterAi_versionOk
  | publishBin op =>
    simp only [step] at hs
    split at hs <;> cases hs
    · obtain ⟨hinv, hvg⟩ := hwrite rfl (fun _ => rfl) (fun _ => rfl) rfl rfl
      exact ⟨hinv, trivial, hvg⟩
    · exact hread rfl rfl trivial
  | size c =>
    simp only [step] at hs
    split at hs <;> cases hs
    · exact hread rfl rfl full_versionOk
    · exact hread rfl rfl trivial
  | findHead c =>
    simp only [step] at hs
    split at hs <;> cases hs <;> exact hread rfl rfl trivial
  | findRight c =>
    simp only [step, Option.some.injEq, Prod.mk.injEq] at hs
    exact hread hs.1.symm hs.2.symm trivial
  | findNext c left right =>
    simp only [step] at hs
    split at hs
    · cases hs
      exact hread rfl rfl trivial
    · split at hs <;> cases hs
      · exact hread rfl rfl (findReturn_versionOk hpc)
      · exact hread rfl rfl trivial
  | insLink c prev right =>
    simp only [step] at hs
    split at hs <;> cases hs
    · -- a new node comes with a version of its own
      set s₁ := (s.setNext prev (.clean s.nodeSize)).allocNode c.op.key c.op.value right
      have hvg : VersionGuar s s₁ := by
        refine .of_vhead (Nat.le_succ _) (fun v hv => ?_) (fun a ha => ?_) fun a ha => ha
        · exact congrArg Vnode.nextv (Function.update_of_ne hv.2.ne _ _)
        · rw [vhead_allocNode, nodeSize_setNext, if_neg ha.ne_nodeSize, vhead_setNext]
      exact ⟨hv.of_array hg hvg rfl, trivial, hvg⟩
    · exact hread rfl rfl trivial
  | newHead c newNode =>
    simp only [step, Option.some.injEq, Prod.mk.injEq] at hs
    exact hread hs.1.symm hs.2.symm trivial
  | sizeAdd c =>
    simp only [step, Option.some.injEq, Prod.mk.injEq] at hs
    obtain ⟨rfl, rfl⟩ := hs
    obtain ⟨hinv, hvg⟩ := hwrite rfl (fun _ => rfl) (fun _ => rfl) rfl rfl
    exact ⟨hinv, trivial, hvg⟩
  | initTest call node =>
    simp only [step] at hs
    split at hs <;> cases hs
    · exact hread rfl rfl hvpc
    · exact hread rfl rfl (initReturn_versionOk hvpc)
  | initLoad call node =>
    simp only [step, Option.some.injEq, Prod.mk.injEq] at hs
    exact hread hs.1.symm hs.2.symm hvpc
  | initCas call node globalTs =>
    simp only [step, Option.some.injEq, Prod.mk.injEq] at hs
    obtain ⟨rfl, rfl⟩ := hs
    obtain ⟨hinv, hvg⟩ := hwrite (versionSize_stamp ..) (fun v => nextv_stamp ..)
      (fun a => vhead_stamp ..) (copied_stamp ..) (array_stamp ..)
    exact ⟨hinv, initReturn_versionOk (call_mono hvpc hg hvg), hvg⟩
  | readHead c loc | vcasHead c loc oldValue =>
    simp only [step, Option.some.injEq, Prod.mk.injEq] at hs
    exact hread hs.1.symm hs.2.symm hvpc
  | readValue c loc =>
    simp only [step] at hs
    split at hs <;> cases hs
    · exact hread rfl rfl updated_versionOk
    · exact hread rfl rfl hvpc
  | vcasLink c loc head =>
    simp only [step] at hs
    split at hs <;> cases hs
    · -- a step in time links its version to a `vhead` that has not been copied
      next hhead =>
      have hvg : VersionGuar s (s.linkVersion loc head c.op.value) := by
        refine .linkVersion hv.versionSize_pos hhead fun a ha => ?_
        subst ha
        exact hok hhead
      refine ⟨hv.linkVersion hg hvg hhead, ?_, hvg⟩
      cases loc with
      | node a =>
        refine ⟨a, NodeOf.mono hvpc hg, ?_⟩
        show (s.linkVersion (.node a) head c.op.value).Reaches
          ((s.linkVersion (.node a) head c.op.value).vhead (.node a)).addr s.versionSize
        rw [vhead_linkVersion_self]
        exact .refl
      | entry i => trivial
    · exact hread rfl rfl (failed_versionOk hvpc)
  | markTest c loc =>
    simp only [step] at hs
    split at hs <;> cases hs
    · exact hread rfl rfl trivial
    · exact hread rfl rfl hvpc
  | collStart c =>
    simp only [step] at hs
    split at hs <;> cases hs
    · exact hread rfl rfl trivial
    · exact hread rfl rfl fun e he => absurd he List.not_mem_nil
  | collCheck c left acc =>
    simp only [step] at hs
    split at hs <;> cases hs <;> exact hread rfl rfl hvpc
  | collLoad c left acc =>
    simp only [step, Option.some.injEq, Prod.mk.injEq] at hs
    exact hread hs.1.symm hs.2.symm hvpc
  | collFreeze c left currNext acc =>
    simp only [step] at hs
    split at hs <;> cases hs
    · obtain ⟨hinv, hvg⟩ := hwrite rfl (fun _ => rfl) (fun a => vhead_setNext ..) rfl rfl
      exact ⟨hinv, fun e he => (hvpc e he).mono hg hvg, hvg⟩
    · exact hread rfl rfl hvpc
  | collCheckV c left acc =>
    obtain ⟨hcoll, hf⟩ := hpc
    simp only [step] at hs
    split at hs
    · cases hs
      exact hread rfl rfl hvpc
    · split at hs <;> cases hs <;> exact hread rfl rfl hvpc
  | collLoadV c left acc | collFreezeV c left w acc => exact absurd hpc id
  | collCopy c left acc =>
    simp only [step, Option.some.injEq, Prod.mk.injEq] at hs
    obtain ⟨rfl, rfl⟩ := hs
    -- from here on no step in time writes this `vhead`
    have hvg : VersionGuar s { s with copied := Function.update s.copied left true } := by
      refine .of_vhead le_rfl (fun _ _ => rfl) (fun _ _ => rfl) fun a ha => ?_
      by_cases hleft : a = left <;> simp [hleft, ha]
    exact ⟨hv.of_array hg hvg rfl, ⟨fun e he => (hvpc e he).mono hg hvg, by simp, rfl⟩, hvg⟩
  | collPush c left w acc =>
    obtain ⟨-, hf, hhead⟩ := hpc
    obtain ⟨hacc, hcopied, haddr⟩ := hvpc
    simp only [step] at hs
    split at hs <;> cases hs
    · -- the pushed entry is the copied `vhead` of its node
      refine hread rfl rfl fun e he => ?_
      rcases List.mem_append.mp he with hold | hnew
      · exact hacc e hold
      · rw [List.mem_singleton.mp hnew]
        exact ⟨left, ⟨hf.isNode, hhead, rfl⟩, hcopied, haddr⟩
    · exact hread rfl rfl trivial
  | collFollow c left acc =>
    simp only [step, Option.some.injEq, Prod.mk.injEq] at hs
    exact hread hs.1.symm hs.2.symm hvpc
  | collLoop c left acc =>
    simp only [step] at hs
    split at hs <;> cases hs <;> exact hread rfl rfl hvpc
  | collected c acc =>
    simp only [step] at hs
    split at hs <;> cases hs
    · exact hread rfl rfl trivial
    · exact hread rfl rfl hvpc
  | publishAi c acc =>
    simp only [step] at hs
    split at hs <;> cases hs
    · -- the entries of the model are the copied ones
      set s₁ : SlotMemory K :=
        { s with mob := .ai s.mobSize, mobSize := s.mobSize + 1, array := acc }
      have hvg : VersionGuar s s₁ :=
        .of_vhead le_rfl (fun _ _ => rfl) (fun _ _ => rfl) fun _ ha => ha
      refine ⟨⟨hv.versionSize_pos, fun e he => ?_⟩, trivial, hvg⟩
      obtain ⟨a, ha, hcopied, haddr⟩ := (hvpc e he).mono hg hvg
      exact ⟨a, ha, hcopied, by rw [haddr]; exact .refl⟩
    · exact hread rfl rfl trivial
  | setReclaimed c =>
    simp only [step, Option.some.injEq, Prod.mk.injEq] at hs
    obtain ⟨rfl, rfl⟩ := hs
    obtain ⟨hinv, hvg⟩ := hwrite rfl (fun _ => rfl) (fun _ => rfl) rfl rfl
    exact ⟨hinv, enterAi_versionOk, hvg⟩
  | aiValue c i =>
    simp only [step, Option.some.injEq, Prod.mk.injEq] at hs
    exact hread hs.1.symm hs.2.symm aiReturn_versionOk
  | aiBelow c =>
    simp only [step, Option.some.injEq, Prod.mk.injEq] at hs
    exact hread hs.1.symm hs.2.symm trivial

/-- The invariants and the assertions of the runs in time, as a rely-guarantee proof. -/
def versionGuarantee (K : Type) [LinearOrder K] [BoundedOrder K] :
    RelyGuarantee (slotMachine K) InTime where
  inv s := s.Inv ∧ s.VersionInv
  loc s pc := pc.Ok s ∧ pc.VersionOk s
  guar s s' := Guar s s' ∧ VersionGuar s s'
  guar_refl s := ⟨.refl s, .refl s⟩
  guar_trans h h' := ⟨h.1.trans h'.1, h.2.trans h.1.nodeSize_le h'.2⟩
  step {s pc x s' pc'} h hpc hok hs := by
    obtain ⟨hinv, hloc, hguar⟩ := (relyGuarantee K).step h.1 hpc.1 trivial hs
    have hversion : s'.VersionInv ∧ pc'.VersionOk s' ∧ VersionGuar s s' := by
      cases pc with
      | ret r =>
        cases hs
        exact ⟨h.2, trivial, .refl _⟩
      | _ => exact step_versionOk (x := x) h.1 h.2 hpc.1 hpc.2 hok hs
    exact ⟨⟨hinv, hversion.1⟩, ⟨hloc, hversion.2.1⟩, hguar, hversion.2.2⟩
  stable {s s' pc} _ hpc hg := by
    refine ⟨ok_mono hg.1 hpc.1, versionOk_mono hpc.2 hg.1 hg.2 ?_⟩
    rintro c left w acc rfl
    exact hpc.1.2.1.isNode

/-- Initially there is no entry and no chain but those of the sentinels. -/
theorem version_holds_init {ι : Type} :
    (versionGuarantee K).Holds (slotInit : Config ι (SlotMemory K) (SlotPc K)) := by
  have hbase : (relyGuarantee K).Holds (slotInit : Config ι (SlotMemory K) (SlotPc K)) := holds_init
  exact ⟨⟨hbase.inv, Nat.zero_lt_succ _, fun e he => absurd he List.not_mem_nil⟩,
    fun i => ⟨hbase.loc i, trivial⟩⟩

omit [LinearOrder K] [BoundedOrder K] in
/-- The oldest version of a chain reaches no other. -/
theorem not_reaches_of_nextv_zero {v w : ℕ} (hnextv : (s.version w).nextv = 0) (hne : w ≠ v)
    (hv : v ≠ 0) : ¬ s.Reaches w v := by
  intro h
  rcases h.cases_head with rfl | ⟨u, ⟨-, hu⟩, hreach⟩
  · exact hne rfl
  · rw [hnextv] at hu
    subst hu
    rcases hreach.cases_head with rfl | ⟨-, ⟨hpos, -⟩, -⟩
    · exact hv rfl
    · exact absurd hpos.1 (Nat.lt_irrefl 0)

end SlotMemory

section Runs

variable {ι : Type} [DecidableEq ι] [LinearOrder K] [BoundedOrder K]
  {c d : Config ι (SlotMemory K) (SlotPc K)}

/-- In every run of any number of threads in which no `vCAS` succeeds on a `vhead` after a `collect`
has read it: when a call on a key of the list has returned because its `vCAS` has linked the version
`v`, the entry of that key in the model reaches `v` in every later state that has a model. -/
theorem updates_in_time_survive (hc : Run (slotMachine K) InTime slotInit c)
    (hd : Run (slotMachine K) InTime c d) {i : ι} {op : SlotOp K} {status : ℤ} {v : ℕ}
    (hret : c.thread i = .ret (.list op status (some v))) (hkey : c.shared.HasKey op.key) {a : ℕ}
    (hai : d.shared.mob = .ai a) :
    ∃ w, (op.key, w) ∈ d.shared.array ∧ d.shared.Reaches w.addr v := by
  have hholds := (versionGuarantee K).run_holds hc version_holds_init
  have hholds' := (versionGuarantee K).run_holds hd hholds
  obtain ⟨hguar, hvguar⟩ : Guar c.shared d.shared ∧ VersionGuar c.shared d.shared :=
    (versionGuarantee K).run_guar hd hholds
  obtain ⟨hinv, hvinv⟩ : d.shared.Inv ∧ d.shared.VersionInv := hholds'.inv
  have hlinked : c.shared.InChain op.key v := by
    have hloc := (hholds.loc i).2
    rw [hret] at hloc
    exact hloc
  -- the version is in the chain of the node, and the entry has grown from that chain
  obtain ⟨b, hb, hreach⟩ := hlinked.mono hguar hvguar
  have hmem := (hinv.published a hai).mem hinv.list (hkey.mono hguar)
  obtain ⟨⟨key, w⟩, he, rfl⟩ := List.mem_map.mp hmem
  obtain ⟨b', hb', -, hgrown⟩ := hvinv.entry _ he
  obtain rfl := NodeOf.unique hinv.list hb hb'
  exact ⟨w, he, hgrown.trans hreach⟩

end Runs

/-! ### An update of the first key of a full list -/

/-- Thread 0 links the tenth node, finds the list full and puts the model into the slot. -/
def linkRetrain : List (Fin 2 × SlotInput (Fin 64)) :=
  insertSteps 0 0 7 0 12 ++ insertSteps 0 10 7 0 92

/-- Thread 1 has linked the version with this address to the node of the key 1, and the slot holds a
model. -/
def updatedOne (v : ℕ) (c : Config (Fin 2) (SlotMemory (Fin 64)) (SlotPc (Fin 64))) : Bool :=
  (match c.thread 1 with | .ret r => r = .list (.insert 1 8) 0 (some v) | _ => false) &&
    c.shared.mob = .ai 1 && (c.shared.node 11).key = 1 && c.shared.nodeSize = 13

/-- What the test says. -/
theorem updatedOne_spec {v : ℕ} {c : Config (Fin 2) (SlotMemory (Fin 64)) (SlotPc (Fin 64))}
    (h : updatedOne v c = true) : c.thread 1 = .ret (.list (.insert 1 8) 0 (some v)) ∧
      c.shared.mob = .ai 1 ∧ c.shared.HasKey 1 := by
  simp only [updatedOne, Bool.and_eq_true, decide_eq_true_eq] at h
  obtain ⟨⟨⟨hret, hmob⟩, hkey⟩, hsize⟩ := h
  refine ⟨?_, hmob, 11, ⟨by decide, by omega⟩, by decide, by decide, hkey⟩
  split at hret
  · next r hr => rw [hr, of_decide_eq_true hret]
  · cases hret

/-- Thread 1 updates the key 1 before the list is full. -/
theorem updates_in_time_survive_one : ∃ c : Config (Fin 2) (SlotMemory (Fin 64)) (SlotPc (Fin 64)),
    Run (slotMachine (Fin 64)) InTime slotInit c ∧
      ∃ w, (1, w) ∈ c.shared.array ∧ c.shared.Reaches w.addr 12 := by
  have hexec : ((slotInit : Config (Fin 2) (SlotMemory (Fin 64)) (SlotPc (Fin 64))).exec
      (slotMachine (Fin 64)) InTime (linkNine ++ insertSteps 1 1 8 0 15 ++ linkRetrain)).any
        (updatedOne 12) = true := by decide +kernel
  obtain ⟨c, hc, hcheck⟩ := Config.exec_any hexec
  obtain ⟨hret, hmob, hkey⟩ := updatedOne_spec hcheck
  exact ⟨c, hc, updates_in_time_survive hc (.refl c) hret hkey hmob⟩

/-- Thread 1 stops in its update before the `vCAS`, and goes on when the model is in the slot: the
update is successful, and the entry of the key 1 does not reach its version. -/
theorem late_update_lost : ∃ c : Config (Fin 2) (SlotMemory (Fin 64)) (SlotPc (Fin 64)),
    Run (slotMachine (Fin 64)) anyStep slotInit c ∧
      c.thread 1 = .ret (.list (.insert 1 8) 0 (some 13)) ∧ c.shared.HasKey 1 ∧
      c.shared.mob = .ai 1 ∧ ∀ w, (1, w) ∈ c.shared.array → ¬ c.shared.Reaches w.addr 13 := by
  have hexec : ((slotInit : Config (Fin 2) (SlotMemory (Fin 64)) (SlotPc (Fin 64))).exec
      (slotMachine (Fin 64)) anyStep
        (linkNine ++ insertSteps 1 1 8 0 11 ++ linkRetrain ++ insertSteps 1 1 8 0 4)).any
        (fun c => updatedOne 13 c && c.shared.array.all fun e =>
          e.1 ≠ 1 || (c.shared.version e.2.addr).nextv = 0 && e.2.addr ≠ 13) = true := by
    decide +kernel
  obtain ⟨c, hc, hcheck⟩ := Config.exec_any hexec
  obtain ⟨hupdated, hentries⟩ := Bool.and_eq_true_iff.mp hcheck
  obtain ⟨hret, hmob, hkey⟩ := updatedOne_spec hupdated
  refine ⟨c, hc, hret, hkey, hmob, fun w hw => ?_⟩
  have hold := List.all_eq_true.mp hentries _ hw
  simp only [ne_eq, not_true_eq_false, decide_false, Bool.false_or, Bool.and_eq_true,
    decide_eq_true_eq] at hold
  exact not_reaches_of_nextv_zero hold.1 hold.2 (by decide)

end KanvaRS
