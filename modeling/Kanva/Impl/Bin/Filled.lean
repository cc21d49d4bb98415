import Kanva.Impl.Bin.Bounds
import Kanva.Impl.Bin.Calls

/-!
# Splits have pairs

`split_root` takes the key in the middle of the collected keys as the separator, which is out of
bounds when there are none. A leaf is split when it is full, or when an insertion has met a freeze
bit in it; in either case some insertion into it has been counted or some thread is splitting it, so
that it holds a key, unless the bin is sealed.

## Main results

* `LinkedList.Inv.collected`: what a collection of a list without removals returns.
* `BinMem.filled_step`: a leaf with a count or a freeze bit holds a key.
* `splits_have_pairs`: in every run without removals, every split has pairs.
-/

namespace KanvaImpl

open Kanva Interleaving

namespace LinkedList

variable {K : Type} [LinearOrder K] [BoundedOrder K] {s s' : LinkedList K} {key : K} {value : Val}
  {p p' : ListPc K}

/-- A node between the sentinels. -/
def HasPair (s : LinkedList K) : Prop := ∃ a, s.IsNode a ∧ ⊥ < s.keyOf a ∧ s.keyOf a < ⊤

theorem HasPair.mono (hg : Guar s s') (h : s.HasPair) : s'.HasPair := by
  obtain ⟨a, ha, hbot, htop⟩ := h
  exact ⟨a, ha.mono hg.size_le, hg.key_eq a ha ▸ hbot, hg.key_eq a ha ▸ htop⟩

/-- The vectors of a collection of a list without removals are its pairs. -/
theorem Inv.collected (h : s.Inv) (hm : s.Unmarked) {keys : List K} {vals : List Val}
    (hv : (ListPc.ret (.vectors keys vals)).Collects s) :
    s.Complete ∧ keys = s.pairs.map Prod.fst ∧ vals = s.pairs.map Prod.snd := by
  obtain ⟨ks, vs, ht, rfl, rfl⟩ := hv
  have hlive : ∀ a ∈ s.chain, (s.next a).mark = false := fun a ha => hm a (h.chain_spine.2.1 a ha)
  exact ⟨⟨ks, vs, ht⟩, h.vectors hlive ht⟩

/-- The key of a list without removals is among its pairs. -/
theorem Inv.mem_collected (h : s.Inv) (hm : s.Unmarked) (hrange : ⊥ < key ∧ key < ⊤) :
    key ∈ s.pairs.map Prod.fst ↔ s.HoldsKey key :=
  h.mem_pairs (fun a ha => hm a (h.chain_spine.2.1 a ha)) hrange

/-- A list with a pair has one to collect. -/
theorem Inv.pairs_ne_nil (h : s.Inv) (hm : s.Unmarked) (hp : s.HasPair) :
    s.pairs.map Prod.fst ≠ [] := by
  obtain ⟨a, ha, hbot, htop⟩ := hp
  have hmem := (h.mem_collected hm ⟨hbot, htop⟩).mpr (h.holdsKey_iff.mpr ⟨a, ha, rfl, hm a ha⟩)
  exact List.ne_nil_of_mem hmem

/-- An insertion freezes no word. -/
theorem frozenNode_of_inserts (h : s.Inv) (hm : s.Unmarked) (hp : p.Ok s)
    (hi : p.Inserts s key value) (hs : s.step p = some (s', p')) {a : ℕ} (ha : s'.FrozenNode a) :
    s.FrozenNode a := by
  have hfr : p.FrozenOk s := by
    cases p with
    | ret | findHead | findRight | findNext | findUnlink | findReload | insStore | insLink
    | insCount => trivial
    | _ => exact hi.elim
  obtain ⟨hnode, hmax, hf⟩ := ha
  cases step_write h hp hfr hs with
  | none hsize hnode' =>
    refine ⟨⟨hnode.1, hsize ▸ hnode.2⟩, hmax, ?_⟩
    rwa [next, hnode'] at hf
  | mark | freeze => exact hi.elim
  | unlink _ _ _ hright hmarked =>
    rw [hm _ hright] at hmarked
    cases hmarked
  | @link k v prev right _ _ hnext _ =>
    rw [next_alloc, next_setNext] at hf
    split_ifs at hf with hsize hprev
    · cases hf
    · cases hf
    · have hlt : a < s.size + 1 := hnode.2
      have hne : a ≠ s.size := hsize
      exact ⟨⟨hnode.1, by omega⟩, hmax, hf⟩

/-- A word that an insertion meets frozen belongs to a node. -/
theorem frozenNode_of_meets (h : s.Inv) (hp : p.Ok s) (hf : p.MeetsFreeze s) :
    ∃ a, s.FrozenNode a := by
  -- the word of the max sentinel is null
  have hnode : ∀ {a : ℕ}, s.IsNode a → (s.next a).isFreeze = true → s.FrozenNode a := by
    refine fun {a} ha hfa => ⟨ha, ?_, hfa⟩
    rintro rfl
    rw [h.max_next] at hfa
    cases hfa
  cases p with
  | findHead u => exact ⟨_, hnode h.head_node hf⟩
  | findNext u left right => exact ⟨_, hnode hp.2.right_node hf⟩
  | findReload u left right =>
    rcases hf with hf | hf
    · exact ⟨_, hnode hp.2.right_node hf⟩
    · have hclean : right.freeze = false := hp.2.clean.2
      have hf : right.freeze = true := hf
      rw [hclean] at hf
      cases hf
  | _ => exact hf.elim

/-- An insertion with the status 1 has put its key into the list. -/
theorem holdsKey_of_status (h : s.Inv) (hi : p.Inserts s key value)
    (hs : s.step p = some (s', .ret (.status 1))) : s'.HoldsKey key := by
  have hbranch : ∀ {u : Update K} {left : ℕ} {right rightNext : TaggedPtr},
      u = .insert key value → s.findBranch u left right rightNext ≠ .ret (.status 1) := by
    rintro u left right rightNext rfl
    rw [findBranch]
    split_ifs
    · simp
    · rw [findReturn]
      split_ifs <;> simp
    · simp
  cases p with
  | ret r => simp [step] at hs
  | findHead u =>
    simp only [step, findNull] at hs
    split at hs <;> simp at hs
  | findRight u => simp [step] at hs
  | findNext u left right =>
    simp only [step, findNull] at hs
    split at hs
    · simp at hs
    · exact absurd (Prod.ext_iff.mp (Option.some.inj hs)).2 (hbranch hi)
  | findReload u left right =>
    simp only [step, findNull] at hs
    split_ifs at hs
    · simp at hs
    · simp at hs
    · exact absurd (Prod.ext_iff.mp (Option.some.inj hs)).2 (hbranch hi)
  | findUnlink u left right rightNext =>
    simp only [step] at hs
    split at hs <;> simp at hs
  | insStore k v prev right => simp [step] at hs
  | insLink k v prev right newNode =>
    simp only [step] at hs
    split at hs <;> simp at hs
  | insCount =>
    have hok : (ListPc.insCount : ListPc K).Ok s := trivial
    obtain ⟨h', -, -⟩ := step_ok h hok hs
    cases hs
    exact h'.holdsKey_iff.mpr (h.holdsKey_iff.mp hi)
  | _ => exact hi.elim

end LinkedList

namespace BinMem

variable {K : Type} [LinearOrder K] [BoundedOrder K]

/-- The leaf holds a key, unless the bin is sealed. -/
def Filled (b : BinMem K) (c : ℕ) : Prop := b.root.isMarked = true ∨ (b.leaf c).list.HasPair

/-- A leaf with a count or a freeze bit is filled. -/
structure Stocked (b : BinMem K) : Prop where
  count : ∀ c, b.IsLeaf c → 0 < (b.leaf c).count → b.Filled c
  frozen : ∀ c a, b.IsLeaf c → (b.leaf c).list.FrozenNode a → b.Filled c

end BinMem

/-- A split has been started in a leaf that is filled, and a collection in a sealed bin. -/
def BinPc.Filled {K : Type} [LinearOrder K] [BoundedOrder K] (b : BinMem K) : BinPc K → Prop
  | .loadRoot .collect | .collect _ _ _ _ _ => b.root.isMarked = true
  | .loadCount _ _ pl | .listUpdate _ pl _ => pl.root.isMarked = false
  | .addCount _ pl => b.Filled pl.child
  | .splitCollect _ pl _ | .casSplit _ pl _ _ => pl.root.isMarked = false ∧ b.Filled pl.child
  | .search _ _ pc => ∃ k curr, pc = .searchAt k curr
  | _ => True

/-- The call is no removal and collects only a sealed bin, and an insertion into a leaf root does
not load a freeze bit. -/
def SealedCollects {K : Type} (b : BinMem K) (pc : BinPc K) (op : ListOp K) : Prop :=
  match pc, op with
  | .ret _, .collect => b.root.isMarked = true
  | pc, op => LeafRootThawed b pc op

instance {K : Type} (b : BinMem K) (pc : BinPc K) (op : ListOp K) :
    Decidable (SealedCollects b pc op) := by
  delta SealedCollects
  induction pc using BinPc.casesOn with
  | ret r => induction op using ListOp.casesOn <;> infer_instance
  | _ => infer_instance

namespace BinMem

variable {K : Type} [LinearOrder K] [BoundedOrder K] {b b' : BinMem K} {c : ℕ} {pl : Place K}
  {u : Update K}

/-- What a step of any thread leaves alone, the mark of the root included. -/
structure FillGuar (b b' : BinMem K) : Prop where
  guar : Guar b b'
  sealed : b.root.isMarked = true → b'.root.isMarked = true

omit [LinearOrder K] [BoundedOrder K] in
theorem FillGuar.refl (b : BinMem K) : FillGuar b b := ⟨Guar.refl b, id⟩

omit [LinearOrder K] [BoundedOrder K] in
theorem FillGuar.trans {b'' : BinMem K} (h : FillGuar b b') (h' : FillGuar b' b'') :
    FillGuar b b'' := ⟨h.guar.trans h'.guar, fun hm => h'.sealed (h.sealed hm)⟩

theorem Filled.mono (hg : FillGuar b b') (hc : b.IsLeaf c) (h : b.Filled c) : b'.Filled c :=
  h.imp hg.sealed fun hp => hp.mono (hg.guar.list c hc).guar

/-! ### The steps -/

/-- A step in the list of a leaf that freezes only words of a filled leaf. -/
theorem Stocked.setList (h : b.Stocked) (hc : b.IsLeaf c) {l : LinkedList K}
    (hg : Guar b (b.setList c l))
    (hfrozen : ∀ a, l.FrozenNode a → (b.leaf c).list.FrozenNode a ∨ b.Filled c) :
    (b.setList c l).Stocked ∧ FillGuar b (b.setList c l) := by
  have hguar : FillGuar b (b.setList c l) := ⟨hg, id⟩
  refine ⟨⟨fun d hd hcount => ?_, fun d a hd ha => ?_⟩, hguar⟩
  · refine (h.count d hd ?_).mono hguar hd
    by_cases hdc : d = c <;> simpa [BinMem.setList, hdc] using hcount
  · by_cases hdc : d = c
    · subst hdc
      rw [list_setList] at ha
      rcases hfrozen a ha with hold | hfilled
      · exact (h.frozen d a hd hold).mono hguar hd
      · exact hfilled.mono hguar hd
    · have hold : (b.leaf d).list.FrozenNode a := by
        simpa [BinMem.setList, hdc] using ha
      exact (h.frozen d a hd hold).mono hguar hd

/-- The count of a filled leaf may be anything. -/
theorem Stocked.setCount (h : b.Stocked) (hf : b.Filled c) (n : ℤ) : (b.setCount c n).Stocked := by
  have hfilled : ∀ {d : ℕ}, b.Filled d → (b.setCount c n).Filled d := by
    intro d hd
    refine hd.imp id fun hp => ?_
    by_cases hdc : d = c <;> simpa [BinMem.setCount, hdc] using hp
  refine ⟨fun d hd hcount => ?_, fun d a hd ha => hfilled (h.frozen d a hd ?_)⟩
  · by_cases hdc : d = c
    · exact hdc ▸ hfilled hf
    · exact hfilled (h.count d hd (by simpa [BinMem.setCount, hdc] using hcount))
  · by_cases hdc : d = c <;> simpa [BinMem.setCount, hdc] using ha

/-- A leaf with pairs has a node for them. -/
theorem hasPair_ofPairs [Nontrivial K] {l : List (K × Val)} (hne : l ≠ [])
    (hsorted : (l.map Prod.fst).Pairwise (· < ·)) (hrange : ∀ k ∈ l.map Prod.fst, ⊥ < k ∧ k < ⊤) :
    (LinkedList.ofPairs l).HasPair := by
  obtain ⟨hinv, -, hkeys⟩ := LinkedList.ofPairs_ok hsorted hrange
  obtain ⟨p, hp⟩ := List.exists_mem_of_ne_nil l hne
  have hmem := List.mem_map_of_mem (f := Prod.fst) hp
  obtain ⟨hbot, htop⟩ := hrange _ hmem
  obtain ⟨a, ha, hka, -⟩ := hinv.holdsKey_iff.mp ((hkeys _ hbot htop).mpr hmem)
  exact ⟨a, ha, hka ▸ hbot, hka ▸ htop⟩

/-- The two leaves of a split start with the counts of their pairs. -/
theorem Stocked.installSplit [Nontrivial K] [Zero K] (h : b.Stocked) (hinv : b.Inv)
    (hpl : pl.Ok b) (hmark : b.root.isMarked = false) {keys : List K} {vals : List Val}
    (hv : (ListPc.ret (.vectors keys vals)).Collects (b.leaf pl.child).list) :
    (b.installSplit u pl keys vals).Stocked := by
  have hchild := hpl.isLeaf hinv
  have hguar := guar_installSplit (b := b) u pl keys vals
  -- the old leaves are filled with keys
  have hold : ∀ {d : ℕ}, b.IsLeaf d → b.Filled d → (b.installSplit u pl keys vals).Filled d := by
    intro d hd hfilled
    refine .inr (LinkedList.HasPair.mono (hguar.list d hd).guar (hfilled.resolve_left ?_))
    simp [hmark]
  obtain ⟨-, hkeys, hvals⟩ := (hinv.list _ hchild).collected (hinv.unmarked _ hchild) hv
  obtain ⟨hsorted, hrange⟩ := (hinv.list _ hchild).pairs_sorted
  have hzip : keys.zip vals = (b.leaf pl.child).list.pairs := by
    rw [hkeys, hvals, List.zip_map', List.map_id']
  have hhalf : ∀ {half : List (K × Val)}, half.Sublist (keys.zip vals) → half ≠ [] →
      (LinkedList.ofPairs half).HasPair := by
    intro half hsub hne
    rw [hzip] at hsub
    exact hasPair_ofPairs hne (hsorted.sublist (hsub.map Prod.fst)) fun k hk =>
      hrange k ((hsub.map Prod.fst).subset hk)
  have hlen : (keys.zip vals).length = keys.length := by
    rw [hzip, hkeys, List.length_map]
  have hleft : (b.installSplit u pl keys vals).leaf b.leafSize =
      ⟨(keys.length / 2 : ℕ), .ofPairs ((keys.zip vals).take (keys.length / 2))⟩ := by
    simp [BinMem.installSplit]
  have hright : (b.installSplit u pl keys vals).leaf (b.leafSize + 1) =
      ⟨(keys.length - keys.length / 2 : ℕ), .ofPairs ((keys.zip vals).drop (keys.length / 2))⟩ := by
    simp [BinMem.installSplit]
  have hcases := fun (d : ℕ) hd => isLeaf_installSplit (b := b) (c := d) u pl keys vals hd
  refine ⟨fun d hd hcount => ?_, fun d a hd ha => ?_⟩
  · rcases hcases d hd with hd | rfl | rfl
    · rw [leaf_installSplit u pl keys vals hd] at hcount
      exact hold hd (h.count d hd hcount)
    · rw [hleft] at hcount
      right
      rw [hleft]
      refine hhalf (List.take_sublist _ _) (List.ne_nil_of_length_pos ?_)
      rw [List.length_take, hlen]
      have hpos : (0 : ℤ) < (keys.length / 2 : ℕ) := hcount
      omega
    · rw [hright] at hcount
      right
      rw [hright]
      refine hhalf (List.drop_sublist _ _) (List.ne_nil_of_length_pos ?_)
      rw [List.length_drop, hlen]
      have hpos : (0 : ℤ) < (keys.length - keys.length / 2 : ℕ) := hcount
      omega
  · rcases hcases d hd with hd | rfl | rfl
    · rw [leaf_installSplit u pl keys vals hd] at ha
      exact hold hd (h.frozen d a hd ha)
    · rw [hleft] at ha
      have hthawed := ha.frozen
      rw [LinkedList.ofPairs_thawed] at hthawed
      cases hthawed
    · rw [hright] at ha
      have hthawed := ha.frozen
      rw [LinkedList.ofPairs_thawed] at hthawed
      cases hthawed

/-- The assertion of a thread survives the steps of the others. -/
theorem filled_mono {pc : BinPc K} (h : b.Inv) (hg : FillGuar b b') (hpc : pc.Ok b)
    (hf : pc.Filled b) : pc.Filled b' := by
  cases pc with
  | loadRoot op => cases op <;> first | exact hg.sealed hf | trivial
  | addCount u pl => exact Filled.mono hg (hpc.1.isLeaf h) hf
  | splitCollect u pl p | casSplit u pl keys vals =>
    exact ⟨hf.1, hf.2.mono hg (hpc.1.isLeaf h)⟩
  | collect rest keys vals child p => exact hg.sealed hf
  | _ => exact hf

theorem splitOrSeal_filled (hmark : pl.root.isMarked = false)
    (hf : b.Filled pl.child) : (splitOrSeal u pl).Filled b := by
  rcases splitOrSeal_cases u pl with heq | heq <;> rw [heq]
  · exact ⟨hmark, hf⟩
  · trivial

/-- An update is routed by a root that is not sealed. -/
theorem dispatch_filled {op : ListOp K} (hop : (BinPc.loadRoot op).Filled b) :
    (b.dispatch op).Filled b := by
  have hroot : ∀ key, (b.place key).root = b.root := by
    intro key
    unfold place
    split <;> rfl
  cases op with
  | update u =>
    cases u with
    | insert key value | remove key =>
      rw [dispatch]
      split
      · trivial
      · next hm =>
        show (b.place key).root.isMarked = false
        rw [hroot]
        simpa using hm
  | search key => exact ⟨key, LinkedList.head, rfl⟩
  | collect =>
    rw [dispatch]
    split
    · trivial
    · exact hop

/-- After the list's `insert`: a status of -1 has met a freeze bit, and a status of 1 is counted. -/
theorem updateReturn_filled {key : K} {value : Val} {r : ℤ} (hmark : pl.root.isMarked = false)
    (hstatus : r = -1 ∨ r = 0 ∨ r = 1) (hfreeze : r = -1 → b.Filled pl.child)
    (hone : r = 1 → b.Filled pl.child) :
    (updateReturn (.insert key value) pl r).Filled b := by
  rcases updateReturn_cases (.insert key value) pl r with heq | heq | heq | heq
  · rcases hstatus with rfl | rfl | rfl
    · rw [heq]
      exact splitOrSeal_filled hmark (hfreeze rfl)
    · -- a status of 0 ends the call
      exfalso
      revert heq
      rcases splitOrSeal_cases (.insert key value) pl with hs | hs <;> rw [hs] <;>
        cases pl.parent.isNone <;> simp [updateReturn, boolOfInt]
    · rw [heq]
      exact splitOrSeal_filled hmark (hone rfl)
  · rw [heq]
    rcases hstatus with rfl | rfl | rfl
    · exact hfreeze rfl
    · exfalso
      revert heq
      cases pl.parent.isNone <;> simp [updateReturn, boolOfInt]
    · exact hone rfl
  · rw [heq]
    trivial
  · rw [heq]
    trivial

/-- A step keeps the leaves filled that have a count or a freeze bit. -/
theorem filled_step [Nontrivial K] [Zero K] {pc pc' : BinPc K} {op : ListOp K} (h : b.Inv)
    (hst : b.Stocked) (hpc : pc.Ok b) (hf : pc.Filled b) (hok : LeafRootThawed b pc op)
    (hs : b.step pc = some (b', pc')) : b'.Stocked ∧ pc'.Filled b' ∧ FillGuar b b' := by
  obtain ⟨-, -, hguar⟩ := step_ok h hpc hok hs
  -- a step that leaves the memory alone
  have hread : ∀ {p : BinPc K}, b' = b → pc' = p → p.Filled b →
      b'.Stocked ∧ pc'.Filled b' ∧ FillGuar b b' := by
    rintro p rfl rfl hp
    exact ⟨hst, hp, .refl _⟩
  cases pc with
  | ret r | offEnd u => simp [step] at hs
  | loadRoot op =>
    cases hs
    exact hread rfl rfl (dispatch_filled hf)
  | loadCount key value pl =>
    rw [step] at hs
    split at hs <;> cases hs
    · exact hread rfl rfl hf
    · next hfull =>
      -- a full leaf has a count
      refine hread rfl rfl (splitOrSeal_filled hf (hst.count _ (hpc.1.isLeaf h) ?_))
      have hmax : (0 : ℤ) < childMax := by decide
      omega
  | listUpdate u pl p =>
    obtain ⟨hpl, hu, hp, key, value, rfl, hi⟩ := hpc
    rw [step] at hs
    obtain ⟨⟨l, p'⟩, hl, heq⟩ := Option.map_eq_some_iff.mp hs
    cases heq
    have hleaf := hpl.isLeaf h
    have hinv := h.list _ hleaf
    have hm := h.unmarked _ hleaf
    obtain ⟨hst', hg⟩ := hst.setList hleaf hguar fun a ha =>
      .inl (LinkedList.frozenNode_of_inserts hinv hm hp hi hl ha)
    refine ⟨hst', ?_, hg⟩
    split
    · next r =>
      obtain ⟨hi', hmeets⟩ := LinkedList.inserts_step hinv hm hp hi hl
      have hstatus : r = -1 ∨ r = 0 ∨ r = 1 := hi'.imp_right And.left
      refine updateReturn_filled hf hstatus (fun hr => ?_) fun hr => ?_
      · obtain ⟨a, ha⟩ := LinkedList.frozenNode_of_meets hinv hp (hmeets (by rw [hr]))
        exact (hst.frozen _ a hleaf ha).mono hg hleaf
      · have hl' : (b.leaf pl.child).list.step p = some (l, .ret (.status 1)) := by rw [← hr, hl]
        obtain ⟨hlinv, -, -⟩ := LinkedList.step_ok hinv hp hl
        obtain ⟨a, ha, hka, -⟩ :=
          hlinv.holdsKey_iff.mp (LinkedList.holdsKey_of_status hinv hi hl')
        right
        rw [list_setList]
        exact ⟨a, ha, hka ▸ hu.1, hka ▸ hu.2⟩
    · -- only a removal misreads a value
      exact (LinkedList.inserts_step hinv hm hp hi hl).1.elim
    · exact hf
  | addCount u pl =>
    cases u <;> cases hs <;> exact ⟨hst.setCount hf _, trivial, hguar, id⟩
  | splitCollect u pl p =>
    rw [step] at hs
    obtain ⟨⟨l, p'⟩, hl, heq⟩ := Option.map_eq_some_iff.mp hs
    cases heq
    have hleaf := hpc.1.isLeaf h
    obtain ⟨hst', hg⟩ := hst.setList hleaf hguar fun _ _ => .inr hf.2
    refine ⟨hst', ?_, hg⟩
    split
    · exact ⟨hf.1, hf.2.mono hg hleaf⟩
    · exact ⟨hf.1, hf.2.mono hg hleaf⟩
  | casSplit u pl keys vals =>
    rw [step] at hs
    split at hs <;> cases hs
    · next hroot =>
      have hmark : b.root.isMarked = false := hroot ▸ hf.1
      refine ⟨hst.installSplit h hpc.1 hmark hpc.2.2, trivial, hguar, fun hm => ?_⟩
      rw [hmark] at hm
      cases hm
    · exact hread rfl rfl trivial
  | casSeal u pl =>
    rw [step] at hs
    split at hs <;> cases hs
    · exact ⟨⟨fun _ _ _ => .inl rfl, fun _ _ _ _ => .inl rfl⟩, trivial, hguar, fun _ => rfl⟩
    · exact hread rfl rfl trivial
  | search key child p =>
    obtain ⟨k, curr, rfl⟩ := hf
    have hsame := b.setList_self child
    rw [step, LinkedList.step] at hs
    split at hs
    · cases hs
      exact hread hsame rfl ⟨_, _, rfl⟩
    · cases hs
      exact hread hsame rfl trivial
  | collect rest keys vals child p =>
    have hm : b.root.isMarked = true := hf
    rw [step] at hs
    obtain ⟨⟨l, p'⟩, hl, heq⟩ := Option.map_eq_some_iff.mp hs
    cases heq
    obtain ⟨hst', hg⟩ := hst.setList hpc.2.1 hguar fun _ _ => .inr (.inl hm)
    refine ⟨hst', ?_, hg⟩
    split
    · trivial
    · exact hm
    · exact hm

/-- A split of a filled leaf that is about to replace the root has pairs. -/
theorem pairs_of_filled (h : b.Inv) (hpl : pl.Ok b) (hroot : b.root = pl.root)
    (hmark : pl.root.isMarked = false) (hf : b.Filled pl.child) {keys : List K} {vals : List Val}
    (hv : (ListPc.ret (.vectors keys vals)).Collects (b.leaf pl.child).list) :
    keys.Pairwise (· < ·) ∧ keys ≠ [] := by
  have hleaf := hpl.isLeaf h
  have hinv := h.list _ hleaf
  obtain ⟨-, rfl, -⟩ := hinv.collected (h.unmarked _ hleaf) hv
  refine ⟨hinv.pairs_sorted.1, hinv.pairs_ne_nil (h.unmarked _ hleaf) (hf.resolve_left ?_)⟩
  simp [hroot, hmark]

/-- A fresh leaf has no count and no freeze bit. -/
theorem stocked_new : (BinMem.new : BinMem K).Stocked := by
  refine ⟨fun c _ hcount => absurd hcount (lt_irrefl _), fun c a _ ha => ?_⟩
  have hthawed : ((BinMem.new : BinMem K).leaf c).list.next a = LinkedList.next .new a := rfl
  have hfrozen := ha.frozen
  rw [hthawed] at hfrozen
  have hnew := LinkedList.ofPairs_thawed (K := K) [] a
  rw [show LinkedList.ofPairs ([] : List (K × Val)) = .new from rfl, hfrozen] at hnew
  cases hnew

/-- The invariant and the assertions, in the runs without removals. -/
def fillRelyGuarantee (K : Type) [LinearOrder K] [BoundedOrder K] [Nontrivial K] [Zero K] :
    RelyGuarantee (binMachine K) SealedCollects where
  inv b := b.Inv ∧ b.Stocked
  loc b pc := pc.Ok b ∧ pc.Filled b
  guar := FillGuar
  guar_refl := .refl
  guar_trans := .trans
  step {b pc op b' pc'} h hpc hok hs := by
    have hthawed : LeafRootThawed b pc op := by
      revert hok
      cases pc <;> rcases op with (_ | _) | _ | _ <;> first | exact id | exact fun _ => trivial
    cases pc with
    | ret r =>
      simp only [binMachine] at hs
      split at hs <;> cases hs
      next hop =>
      refine ⟨h, ⟨⟨hop, ?_⟩, ?_⟩, .refl _⟩
      · rintro key rfl
        exact hthawed
      · rcases op with (_ | _) | _ | _
        · trivial
        · trivial
        · trivial
        · exact hok
    | _ =>
      obtain ⟨hinv, hpc', -⟩ := step_ok h.1 hpc.1 hthawed hs
      obtain ⟨hst, hf, hg⟩ := filled_step h.1 h.2 hpc.1 hpc.2 hthawed hs
      exact ⟨⟨hinv, hst⟩, ⟨hpc', hf⟩, hg⟩
  stable h hpc hg := ⟨ok_mono h.1 hg.guar hpc.1, filled_mono h.1 hg hpc.1 hpc.2⟩

end BinMem

section Split

variable {ι K : Type} [DecidableEq ι] [LinearOrder K] [BoundedOrder K] [Nontrivial K] [Zero K]

/-- In every run without removals in which no insertion into a leaf root loads a freeze bit, a split
that is about to replace the root has pairs, so that its separator is one of their keys. -/
theorem splits_have_pairs {c : Config ι (BinMem K) (BinPc K)} {i : ι} {u : Update K} {pl : Place K}
    {keys : List K} {vals : List Val} (hc : Run (binMachine K) SealedCollects binInit c)
    (hpc : c.thread i = .casSplit u pl keys vals) (hroot : c.shared.root = pl.root) :
    keys.getD (keys.length / 2) 0 ∈ keys := by
  have hinit : (BinMem.fillRelyGuarantee K).Holds (binInit : Config ι (BinMem K) (BinPc K)) :=
    ⟨⟨BinMem.inv_new, BinMem.stocked_new⟩, fun _ => ⟨trivial, trivial⟩⟩
  have hh := (BinMem.fillRelyGuarantee K).run_holds hc hinit
  have hinv : c.shared.Inv := hh.inv.1
  obtain ⟨hok, hfilled⟩ := hh.loc i
  rw [hpc] at hok hfilled
  obtain ⟨hsorted, hne⟩ := BinMem.pairs_of_filled hinv hok.1 hroot hfilled.1 hfilled.2 hok.2.2
  exact (BinMem.halves_bounds hsorted hne).2.2

end Split

/-- The thread is about to replace the root in memory by the node of a split. -/
def BinPc.Splits {K : Type} (b : BinMem K) : BinPc K → Bool
  | .casSplit _ pl _ _ => b.root = pl.root
  | _ => false

theorem BinPc.eq_casSplit {K : Type} {b : BinMem K} {pc : BinPc K} (h : pc.Splits b = true) :
    ∃ u pl keys vals, pc = .casSplit u pl keys vals ∧ b.root = pl.root := by
  cases pc with
  | casSplit u pl keys vals => exact ⟨u, pl, keys, vals, rfl, of_decide_eq_true h⟩
  | _ => cases h

/-- Thread 0 inserts 33 keys. The last insertion finds the leaf full and has collected it. -/
theorem splits_have_pairs_full :
    ∃ (c : Config (Fin 2) (BinMem (Fin 64)) (BinPc (Fin 64))) (u : Update (Fin 64))
      (pl : Place (Fin 64)) (keys : List (Fin 64)) (vals : List Val),
      c.thread 0 = .casSplit u pl keys vals ∧ keys.getD (keys.length / 2) 0 ∈ keys := by
  have hexec : ((binInit.exec (binMachine (Fin 64)) SealedCollects (descending 32 ++
      List.replicate 169 (0, .update (.insert 18 7)))).any fun c =>
        (c.thread 0).Splits c.shared) = true := by decide +kernel
  obtain ⟨c, hc, hsplit⟩ := Config.exec_any hexec
  obtain ⟨u, pl, keys, vals, hpc, hroot⟩ := BinPc.eq_casSplit hsplit
  exact ⟨c, u, pl, keys, vals, hpc, splits_have_pairs hc hpc hroot⟩

end KanvaImpl
