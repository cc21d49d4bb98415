import Kanva.Impl.Bin.Filled
import Kanva.Impl.Bin.Pairs
import Kanva.Impl.Bin.Removal

/-!
# What the collection of a sealed bin gathers

A sealed bin keeps its leaves, and a thread that collects it freezes them one after the other.
Other threads may still insert into the leaves it has not come to, so what it gathers is not the
content of the bin at any one time; but a frozen leaf does not change any more, and so the keys of
the vectors are in the end exactly those that the bin holds, in order.

## Main results

* `BinMem.KeyInv.ordered`: the keys of the leaves are in the order of the leaves.
* `BinMem.keeps_step`: a step of a bin without removals keeps what a collection has gathered.
-/

namespace KanvaImpl

open Kanva Interleaving

/-- The pair has a value that is no tombstone. -/
def Stored {K : Type} (_ : K) (val : Val) : Prop := val ≠ -1

theorem stored_sentinels (K : Type) [LE K] [BoundedOrder K] : Sentinels (@Stored K) := by
  have hzero : (0 : Val) ≠ -1 := by decide
  exact ⟨hzero, hzero⟩

theorem Update.brings_stored {K : Type} (u : Update K) : u.Brings Stored := by
  cases u with
  | insert key value => exact id
  | remove key => trivial

namespace BinMem

variable {K : Type} [LinearOrder K] [BoundedOrder K]

/-- The keys that a collection has taken from the leaves it is through with. -/
structure Gathered (b : BinMem K) (done : List ℕ) (keys : List K) : Prop where
  complete : ∀ c ∈ done, (b.leaf c).list.Complete
  mem : ∀ k, k ∈ keys ↔ (⊥ < k ∧ k < ⊤) ∧ ∃ c ∈ done, (b.leaf c).list.HoldsKey k
  sorted : keys.Pairwise (· ≤ ·)

end BinMem

/-- The collection has gathered the leaves in front of the one it is at. -/
def BinPc.Gathers {K : Type} [LinearOrder K] [BoundedOrder K] (b : BinMem K) : BinPc K → Prop
  | .collect rest keys _ child _ =>
    ∃ done, b.children = done ++ child :: rest ∧ b.Gathered done keys
  | .ret (.vectors keys _) => b.Gathered b.children keys
  | _ => True

namespace BinMem

variable {K : Type} [LinearOrder K] [BoundedOrder K] {key : K} {b b' : BinMem K} {c d : ℕ}

/-- The keys of the leaves are in the order of the leaves. -/
theorem KeyInv.ordered (h : b.KeyInv key) {l r : List ℕ} (hchildren : b.children = l ++ r)
    (hc : c ∈ l) (hd : d ∈ r) {k k' : K} (hk : ⊥ < k ∧ k < ⊤) (hk' : ⊥ < k' ∧ k' < ⊤)
    (hck : (b.leaf c).list.HoldsKey k) (hdk : (b.leaf d).list.HoldsKey k') : k ≤ k' := by
  obtain ⟨bound, hfits, hwithin⟩ := h.bounds
  have hleaf := h.child _ h.root
  rw [← children, hchildren] at hleaf
  have hbound : ∀ {e : ℕ} {k : K}, e ∈ l ++ r → ⊥ < k ∧ k < ⊤ → (b.leaf e).list.HoldsKey k →
      (bound e).1 ≤ k ∧ k ≤ (bound e).2 := by
    intro e k he hrange hek
    obtain ⟨a, ha⟩ := (h.list e (hleaf e he)).inv.holdsKey_iff_live.mp hek
    exact live_within hrange (hwithin e (hleaf e he)) ha
  have hupper := (hbound (List.mem_append_left r hc) hk hck).2
  have hlower := (hbound (List.mem_append_right l hd) hk' hdk).1
  have hroot := hfits _ h.root
  have hnode : b.children = (b.node b.root.addr).children := rfl
  rw [hchildren] at hnode
  generalize b.node b.root.addr = node at hroot hnode
  cases node with
  | leaf id =>
    -- one leaf is not on both sides
    have hlen := congrArg List.length hnode
    have hl := List.length_pos_of_mem hc
    have hr := List.length_pos_of_mem hd
    rw [List.length_append, RootNode.children, List.length_singleton] at hlen
    omega
  | internal n =>
    obtain ⟨hsep, hfit⟩ := hroot
    obtain ⟨i, hi, rfl⟩ := List.getElem_of_mem hc
    obtain ⟨j, hj, rfl⟩ := List.getElem_of_mem hd
    have hlen := congrArg List.length hnode
    rw [List.length_append, RootNode.children, List.length_map, List.length_range] at hlen
    have hget : ∀ (m : ℕ) (hm : m < (l ++ r).length), (l ++ r)[m] = n.ptr m := by
      intro m hm
      have hm' : m < n.count + 1 := by
        rw [List.length_append] at hm
        omega
      simp [hnode, RootNode.children]
    have hci := hget i (by rw [List.length_append]; omega)
    rw [List.getElem_append_left hi] at hci
    have hdj := hget (l.length + j) (by rw [List.length_append]; omega)
    rw [List.getElem_append_right (by omega)] at hdj
    simp only [Nat.add_sub_cancel_left] at hdj
    rw [hci, hfit i (by omega)] at hupper
    rw [hdj, hfit (l.length + j) (by omega)] at hlower
    rw [InternalNode.upper, if_pos (by omega)] at hupper
    rw [InternalNode.lower, if_neg (by omega)] at hlower
    exact hupper.trans ((hsep.mono i (l.length + j - 1) (by omega) (by omega)).trans hlower)

/-- What has been gathered does not change any more. -/
theorem Gathered.mono {done : List ℕ} {keys : List K} (h : b.Inv) (hg : Guar b b')
    (hleaf : ∀ c ∈ done, b.IsLeaf c) (hgath : b.Gathered done keys) : b'.Gathered done keys := by
  refine ⟨fun c hc => ?_, fun k => ?_, hgath.sorted⟩
  · exact (hgath.complete c hc).mono (h.list c (hleaf c hc)) (hg.list c (hleaf c hc))
  · rw [hgath.mem k]
    refine and_congr_right fun _ => exists_congr fun c => and_congr_right fun hc => ?_
    have hlist := hg.list c (hleaf c hc)
    exact ⟨hlist.holds k, (hgath.complete c hc).holdsKey (h.list c (hleaf c hc))
      (h.unmarked c (hleaf c hc)) hlist⟩

/-- The keys of the next leaf come behind those that have been gathered. -/
theorem Gathered.append {done rest : List ℕ} {child : ℕ} {keys ks : List K} {vs : List Val}
    (h : b.Inv) (hkey : b.KeyInv key) (hchildren : b.children = done ++ child :: rest)
    (hgath : b.Gathered done keys)
    (hv : (ListPc.ret (.vectors ks vs)).Collects (b.leaf child).list) :
    b.Gathered (done ++ [child]) (keys ++ ks) := by
  have hleaf : b.IsLeaf child := h.child _ h.root child (by
    rw [← children, hchildren]
    exact List.mem_append_right _ List.mem_cons_self)
  have hinv := h.list child hleaf
  have hm := h.unmarked child hleaf
  obtain ⟨hcomplete, rfl, -⟩ := hinv.collected hm hv
  obtain ⟨hsorted, hrange⟩ := hinv.pairs_sorted
  refine ⟨fun c hc => ?_, fun k => ?_, ?_⟩
  · rcases List.mem_append.mp hc with hc | hc
    · exact hgath.complete c hc
    · exact List.mem_singleton.mp hc ▸ hcomplete
  · constructor
    · intro hk
      rcases List.mem_append.mp hk with hk | hk
      · obtain ⟨hkr, c, hc, hck⟩ := (hgath.mem k).mp hk
        exact ⟨hkr, c, List.mem_append_left _ hc, hck⟩
      · exact ⟨hrange k hk, child, List.mem_append_right _ (List.mem_singleton_self _),
          (hinv.mem_collected hm (hrange k hk)).mp hk⟩
    · rintro ⟨hkr, c, hc, hck⟩
      rcases List.mem_append.mp hc with hc | hc
      · exact List.mem_append_left _ ((hgath.mem k).mpr ⟨hkr, c, hc, hck⟩)
      · obtain rfl := List.mem_singleton.mp hc
        exact List.mem_append_right _ ((hinv.mem_collected hm hkr).mpr hck)
  · refine List.pairwise_append.mpr ⟨hgath.sorted, hsorted.imp le_of_lt, fun k hk k' hk' => ?_⟩
    obtain ⟨hkr, c, hc, hck⟩ := (hgath.mem k).mp hk
    exact hkey.ordered hchildren hc List.mem_cons_self hkr (hrange k' hk') hck
      ((hinv.mem_collected hm (hrange k' hk')).mp hk')

end BinMem

/-! ### The steps -/

/-- The step loses no insertion of the key: an insertion into a leaf root does not load a freeze
bit, and a split has another separator. -/
def KeepsInserts {K : Type} [Zero K] (key : K) (b : BinMem K) : BinPc K → Prop
  | .listUpdate _ pl pc => pl.parent.isNone → ¬ pc.MeetsFreeze (b.leaf pl.child).list
  | .casSplit _ pl keys _ => b.root = pl.root → keys.getD (keys.length / 2) 0 ≠ key
  | _ => True

instance {K : Type} [DecidableEq K] [Zero K] (key : K) (b : BinMem K) (pc : BinPc K) :
    Decidable (KeepsInserts key b pc) := by
  delta KeepsInserts
  induction pc using BinPc.casesOn <;> infer_instance

/-- The invariants of a bin without removals in which one key is followed. -/
structure BinMem.Keeps {K : Type} [LinearOrder K] [BoundedOrder K] (key : K) (b : BinMem K) :
    Prop where
  inv : b.Inv
  keyInv : b.KeyInv key
  stocked : b.Stocked
  values : b.Each Stored

/-- What a step of any thread leaves alone. -/
structure BinMem.KeepsGuar {K : Type} (key : K) (b b' : BinMem K) : Prop where
  guar : BinMem.Guar b b'
  keyGuar : BinMem.KeyGuar key False b b'

/-- What the local variables of a thread satisfy. -/
structure BinPc.Keeps {K : Type} [LinearOrder K] [BoundedOrder K] (key : K) (b : BinMem K)
    (pc : BinPc K) : Prop where
  ok : pc.Ok b
  keyOk : pc.KeyOk key False b
  filled : pc.Filled b
  brings : pc.Brings Stored
  gathers : pc.Gathers b

namespace BinMem

variable {K : Type} [LinearOrder K] [BoundedOrder K] {key : K} {b b' : BinMem K} {pc pc' : BinPc K}

omit [LinearOrder K] [BoundedOrder K] in
theorem KeepsGuar.refl (key : K) (b : BinMem K) : KeepsGuar key b b := ⟨Guar.refl b, .refl key _ b⟩

omit [LinearOrder K] [BoundedOrder K] in
theorem KeepsGuar.trans {b'' : BinMem K} (h : KeepsGuar key b b') (h' : KeepsGuar key b' b'') :
    KeepsGuar key b b'' := ⟨h.guar.trans h'.guar, h.keyGuar.trans h'.keyGuar⟩

omit [LinearOrder K] [BoundedOrder K] in
theorem KeepsGuar.fill (h : KeepsGuar key b b') : FillGuar b b' := by
  refine ⟨h.guar, fun hm => ?_⟩
  rw [h.keyGuar.sealed hm]
  exact hm

/-- The leaves of a bin without removals are not marked and a thread outside `remove` marks
nothing, so no step breaks the two rules for a key. -/
theorem keyThawed_of_grows {c : ℕ} (h : b.Inv) (hc : b.IsLeaf c) {p : ListPc K}
    (hp : p.Grows (b.leaf c).list) : KeyThawed key (b.leaf c).list p := by
  cases p with
  | rmMark k prev right rightNext => exact absurd trivial hp.not_inRemove
  | collFreeze left w keys vals =>
    obtain ⟨hnode, hmax⟩ := hp.ok
    exact fun _ _ => h.unmarked c hc _ ((h.list c hc).succ_node left hnode hmax)
  | _ => trivial

/-- No step of a bin without removals loses a removal. -/
theorem keyKept_of_keeps [Zero K] (h : b.Keeps key) (hpc : pc.Keeps key b)
    (hok : KeepsInserts key b pc) : KeyKept key b pc := by
  obtain ⟨hpcok, -, hfilled, -, -⟩ := hpc
  cases pc with
  | listUpdate u pl p =>
    obtain ⟨hpl, -, hp, k, value, rfl, hi⟩ := hpcok
    exact ⟨keyThawed_of_grows h.inv (hpl.isLeaf h.inv) (inserts_grows hp hi), fun hu => by cases hu⟩
  | splitCollect u pl p => exact keyThawed_of_grows h.inv (hpcok.1.isLeaf h.inv) hpcok.2.2
  | collect rest keys vals child p => exact keyThawed_of_grows h.inv hpcok.2.1 hpcok.2.2
  | casSplit u pl keys vals =>
    intro hroot
    obtain ⟨hpl, ⟨-, k, value, rfl⟩, hv⟩ := hpcok
    obtain ⟨-, hne⟩ := pairs_of_filled h.inv hpl hroot hfilled.1 hfilled.2 hv
    exact ⟨hne, hok hroot, fun hu => by cases hu⟩
  | _ => trivial

/-- What a collection has gathered stays. -/
theorem gathers_mono (h : b.Keeps key) (hg : KeepsGuar key b b') (hpc : pc.Keeps key b) :
    pc.Gathers b' := by
  obtain ⟨-, hkey, -, -, hgath⟩ := hpc
  have hleaf := h.inv.child _ h.inv.root
  cases pc with
  | collect rest keys vals child p =>
    obtain ⟨done, hchildren, hdone⟩ := hgath
    refine ⟨done, (hg.keyGuar.children_eq h.keyInv hkey.1).trans hchildren,
      hdone.mono h.inv hg.guar fun c hc => hleaf c ?_⟩
    rw [← children, hchildren]
    exact List.mem_append_left _ hc
  | ret r =>
    cases r with
    | vectors keys vals =>
      show b'.Gathered b'.children keys
      rw [hg.keyGuar.children_eq h.keyInv hkey.1]
      exact Gathered.mono h.inv hg.guar hleaf hgath
    | _ => trivial
  | _ => trivial

/-- An update gathers nothing. -/
theorem gathers_of_for {u : Update K} (hpc : pc.For u) : pc.Gathers b := by
  cases pc with
  | ret r => cases r <;> first | exact hpc.elim | trivial
  | collect => exact hpc.elim
  | _ => trivial

/-- A collection goes through the leaves. -/
theorem gathers_step [Zero K] (h : b.Keeps key) (h' : b'.KeyInv key) (hpc : pc.Keeps key b)
    (hs : b.step pc = some (b', pc')) : pc'.Gathers b' := by
  obtain ⟨hok, -, -, -, hgath⟩ := hpc
  have hupdate : ∀ u, pc.For u → pc'.Gathers b' := fun u hu => gathers_of_for (step_for hu hs)
  -- only the collection has something to keep: the leaves it is done with
  cases pc with
  | ret r | offEnd u => simp [step] at hs
  | loadRoot op =>
    cases op with
    | update u => exact hupdate u rfl
    | search k =>
      cases hs
      trivial
    | collect =>
      cases hs
      rw [dispatch]
      have hnil : b.Gathered [] [] :=
        ⟨fun c hc => absurd hc List.not_mem_nil, fun k => by simp, List.Pairwise.nil⟩
      split
      · next hchildren =>
        show b.Gathered b.children []
        rw [hchildren]
        exact hnil
      · next child rest hchildren => exact ⟨[], hchildren, hnil⟩
  | loadCount k value pl => exact hupdate (.insert k value) rfl
  | listUpdate u pl p => exact hupdate u rfl
  | addCount u pl => exact hupdate u rfl
  | splitCollect u pl p => exact hupdate u rfl
  | casSplit u pl keys vals => exact hupdate u rfl
  | casSeal u pl => exact hupdate u rfl
  | search k child p =>
    rw [step] at hs
    obtain ⟨⟨l, p'⟩, -, heq⟩ := Option.map_eq_some_iff.mp hs
    cases heq
    split <;> trivial
  | collect rest keys vals child p =>
    obtain ⟨done, hchildren, hdone⟩ := hgath
    rw [step] at hs
    obtain ⟨⟨l, p'⟩, hl, heq⟩ := Option.map_eq_some_iff.mp hs
    cases heq
    obtain ⟨hinv, hguar, hp'⟩ := list_step h.inv hok.2.1 hok.2.2 hl
    have hleaf := h.inv.child _ h.inv.root
    have hdone' : (b.setList child l).Gathered done keys := by
      refine hdone.mono h.inv hguar fun c hc => hleaf c ?_
      rw [← children, hchildren]
      exact List.mem_append_left _ hc
    split
    -- the last leaf is done, so the whole bin is gathered
    · next ks vs =>
      have hall := hdone'.append hinv h' hchildren hp'.collects
      rw [← hchildren] at hall
      exact hall
    · next ks vs next rest =>
      -- the leaf is done and the next one begins
      refine ⟨done ++ [child], ?_, hdone'.append hinv h' hchildren hp'.collects⟩
      rw [List.append_assoc]
      exact hchildren
    · exact ⟨done, hchildren, hdone'⟩

/-- The assertion of a thread survives the steps of the others. -/
theorem keeps_mono (h : b.Keeps key) (hg : KeepsGuar key b b') (hpc : pc.Keeps key b) :
    pc.Keeps key b' :=
  ⟨ok_mono h.inv hg.guar hpc.ok, keyOk_mono h.keyInv hg.keyGuar hpc.keyOk,
    filled_mono h.inv hg.fill hpc.ok hpc.filled, hpc.brings, gathers_mono h hg hpc⟩

/-- A step that loses no insertion keeps the invariants and the assertions of its thread. -/
theorem keeps_step [Nontrivial K] [Zero K] (h : b.Keeps key) (hrange : ⊥ < key ∧ key < ⊤)
    (hpc : pc.Keeps key b) (hok : KeepsInserts key b pc) (hs : b.step pc = some (b', pc')) :
    b'.Keeps key ∧ pc'.Keeps key b' ∧ KeepsGuar key b b' := by
  have hthawed : LeafRootThawed b pc .collect := by
    cases pc with
    | listUpdate => exact hok
    | _ => trivial
  obtain ⟨hinv, hpcok, hguar⟩ := step_ok h.inv hpc.ok hthawed hs
  obtain ⟨hkey, hpckey, hkeyguar⟩ :=
    keyStep_ok h.keyInv hrange hpc.keyOk (keyKept_of_keeps h hpc hok) hs
  obtain ⟨hstocked, hfilled, -⟩ := filled_step h.inv h.stocked hpc.ok hpc.filled hthawed hs
  obtain ⟨hvalues, hbrings⟩ := step_each h.values (stored_sentinels K) hpc.brings hs
  exact ⟨⟨hinv, hkey, hstocked, hvalues⟩,
    ⟨hpcok, hpckey, hfilled, hbrings, gathers_step h hkey hpc hs⟩, hguar, hkeyguar⟩

/-- A fresh bin satisfies the invariants. -/
theorem keeps_new [Nontrivial K] : (BinMem.new : BinMem K).Keeps key :=
  ⟨inv_new, keyInv_new, stocked_new, each_new (stored_sentinels K)⟩

/-- An insertion starts. -/
theorem keeps_loadRoot {u : Update K} (hu : u.IsInsert) :
    (BinPc.loadRoot (.update u)).Keeps key b := by
  obtain ⟨hrange, k, value, rfl⟩ := hu
  exact ⟨⟨hrange, fun k' heq => by cases heq⟩, ⟨hrange, fun hq => hq.elim⟩, trivial,
    Update.brings_stored (.insert k value), trivial⟩

/-- A sealed bin is collected. -/
theorem keeps_collect (hm : b.root.isMarked = true) : (BinPc.loadRoot .collect).Keeps key b :=
  ⟨⟨trivial, fun k heq => by cases heq⟩, hm, hm, trivial, trivial⟩

/-! ### The keys of a bin -/

/-- A key that a bin without removals holds stays in it. -/
theorem held_mono (h : b.Keeps key) (h' : b'.Keeps key)
    (hrange : ⊥ < key ∧ key < ⊤) (hg : KeepsGuar key b b') (hk : b.Held key) : b'.Held key := by
  obtain ⟨c, hc, hkc⟩ := hk
  have honce : b.HeldOnce key := ⟨c, h.inv.child _ h.inv.root c hc, hkc⟩
  exact h'.inv.retained key hrange.1 hrange.2 (honce.mono hg.guar)

/-- A sealed bin whose leaves are frozen. If it holds the key, that has been copied. -/
structure Closed (key : K) (b : BinMem K) (copied : Prop) : Prop where
  marked : b.root.isMarked = true
  complete : ∀ c ∈ b.children, (b.leaf c).list.Complete
  held : b.Held key → copied

/-- The keys of a sealed bin whose leaves are frozen do not change. -/
theorem Closed.mono {copied : Prop} (h : b.Keeps key) (hg : KeepsGuar key b b')
    (hclosed : b.Closed key copied) : b'.Closed key copied := by
  have hchildren := hg.keyGuar.children_eq h.keyInv hclosed.marked
  have hleaf := h.inv.child _ h.inv.root
  refine ⟨hg.fill.sealed hclosed.marked, fun c hc => ?_, fun hk => hclosed.held ?_⟩
  · rw [hchildren] at hc
    exact (hclosed.complete c hc).mono (h.inv.list c (hleaf c hc)) (hg.guar.list c (hleaf c hc))
  · obtain ⟨c, hc, hkc⟩ := hk
    rw [hchildren] at hc
    exact ⟨c, hc, (hclosed.complete c hc).holdsKey (h.inv.list c (hleaf c hc))
      (h.inv.unmarked c (hleaf c hc)) (hg.guar.list c (hleaf c hc)) hkc⟩

/-- What a collection of a sealed bin has returned. -/
theorem closed_of_vectors {keys : List K} {vals : List Val} (hrange : ⊥ < key ∧ key < ⊤)
    (hpc : (BinPc.ret (.vectors keys vals)).Keeps key b) :
    b.Closed key (key ∈ keys) ∧ keys.Pairwise (· ≤ ·) ∧ BringsAll Stored keys vals := by
  obtain ⟨-, hkey, -, hbrings, hgath⟩ := hpc
  have hgath : b.Gathered b.children keys := hgath
  have hmem : b.Held key → key ∈ keys := fun hk => (hgath.mem key).mpr ⟨hrange, hk⟩
  exact ⟨⟨hkey.1, hgath.complete, hmem⟩, hgath.sorted, hbrings⟩

end BinMem

end KanvaImpl
