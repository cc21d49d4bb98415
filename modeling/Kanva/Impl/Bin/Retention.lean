import Kanva.Impl.Bin.Machine
import Kanva.Impl.Bin.Splitting
import Kanva.Impl.LinkedList.Insertion

/-!
# Insertions and leaf splits

A split freezes a leaf, copies its pairs into two new leaves and replaces the root. Threads that
have passed the count check go on inserting into the old leaf until they meet a frozen word; the
list then returns -1 and the insertion has to start over. `insert_internal` keeps that status in an
`int`, but `insert_leaf` keeps it in a `bool`, so it takes -1 for success.

`LeafRootThawed` says that a step is not a load of a freeze bit by an insertion into a leaf root. A
leaf that is no longer below the root is completely frozen, and all its keys are below the root.

## Main results

* `BinMem.Inv.setList` and `BinMem.Inv.installSplit`: a step in a list and a split keep the
  invariant.
* `inserts_retained`: in every run without such a load, no split loses a key.
* `insert_not_retained`: one such load, and an insertion that reports success is lost.
-/

namespace KanvaImpl

open Kanva Interleaving PointerChain

/-! ### The list of a new leaf -/

namespace LinkedList

variable {K : Type} [LinearOrder K] [BoundedOrder K]

/-- `split_root` can append a node behind `curr_list_node`. -/
structure Appending (st : LinkedList K × ℕ) : Prop where
  inv : st.1.Inv
  unmarked : st.1.Unmarked
  node : st.1.IsNode st.2
  next : st.1.next st.2 = .clean maxAddr

variable {st : LinkedList K × ℕ}

theorem Appending.append (h : Appending st) {p : K × Val} (hlt : st.1.keyOf st.2 < p.1)
    (htop : p.1 < ⊤) : Appending (appendPair st p) ∧
      (appendPair st p).1.keyOf (appendPair st p).2 = p.1 ∧
      ∀ key, (∃ a, (appendPair st p).1.IsNode a ∧ (appendPair st p).1.keyOf a = key) ↔
        (∃ a, st.1.IsNode a ∧ st.1.keyOf a = key) ∨ key = p.1 := by
  obtain ⟨s, q⟩ := st
  obtain ⟨hinv, hm, hnode, hnext⟩ := h
  have hsize : (appendPair (s, q) p).1.IsNode s.size :=
    ⟨lt_of_lt_of_le (by decide) hinv.size_ge, Nat.lt_succ_self _⟩
  -- the new list has one node more, and the old nodes keep their keys
  have hcases : ∀ a, (appendPair (s, q) p).1.IsNode a ↔ s.IsNode a ∨ a = s.size := by
    intro a
    constructor
    · rintro ⟨hpos, hlt⟩
      exact (Nat.lt_succ_iff_lt_or_eq.mp hlt).imp (⟨hpos, ·⟩) id
    · rintro (ha | rfl)
      · exact ha.mono (Nat.le_succ _)
      · exact hsize
  have hkey : ∀ a, s.IsNode a → (appendPair (s, q) p).1.keyOf a = s.keyOf a := by
    intro a ha
    simp [appendPair, ha.ne_size]
  have hlast : (appendPair (s, q) p).1.keyOf s.size = p.1 := by simp [appendPair]
  refine ⟨⟨?_, ?_, hsize, by simp [appendPair]⟩, hlast, fun key => ?_⟩
  · exact inv_link hinv hnode hnext rfl hlt (hinv.max_key ▸ htop)
  · intro a ha
    rcases (hcases a).mp ha with ha | rfl
    · by_cases hq : a = q
      · simp [appendPair, hq, hnode.ne_size]
      · simpa [appendPair, ha.ne_size, hq] using hm a ha
    · simp [appendPair]
  · constructor
    · rintro ⟨a, ha, rfl⟩
      rcases (hcases a).mp ha with ha | rfl
      · exact .inl ⟨a, ha, (hkey a ha).symm⟩
      · exact .inr hlast
    · rintro (⟨a, ha, rfl⟩ | rfl)
      · exact ⟨a, (hcases a).mpr (.inl ha), hkey a ha⟩
      · exact ⟨_, hsize, hlast⟩

/-- The loop of `split_root` over sorted pairs. -/
theorem Appending.foldl {l : List (K × Val)} (h : Appending st)
    (hsorted : (l.map Prod.fst).Pairwise (· < ·))
    (hlt : ∀ k ∈ l.map Prod.fst, st.1.keyOf st.2 < k ∧ k < ⊤) :
    Appending (l.foldl appendPair st) ∧
      ∀ key, (∃ a, (l.foldl appendPair st).1.IsNode a ∧ (l.foldl appendPair st).1.keyOf a = key) ↔
        (∃ a, st.1.IsNode a ∧ st.1.keyOf a = key) ∨ key ∈ l.map Prod.fst := by
  induction l generalizing st with
  | nil => exact ⟨h, fun key => by simp⟩
  | cons p l ih =>
    rw [List.map_cons, List.pairwise_cons] at hsorted
    obtain ⟨hp, hrest⟩ := List.forall_mem_cons.mp hlt
    obtain ⟨h', hlast, hkeys⟩ := h.append hp.1 hp.2
    obtain ⟨h'', hkeys'⟩ := ih h' hsorted.2 fun k hk => ⟨hlast ▸ hsorted.1 k hk, (hrest k hk).2⟩
    refine ⟨h'', fun key => ?_⟩
    rw [List.foldl_cons, hkeys', hkeys, List.map_cons, List.mem_cons, or_assoc]

/-- The first round appends behind `head`. -/
theorem appending_new [Nontrivial K] : Appending ((new, head) : LinkedList K × ℕ) :=
  ⟨inv_new 0, fun a _ => by by_cases ha : a = maxAddr <;> simp [next, new, ha, TaggedPtr.null],
    (inv_new 0).head_node, rfl⟩

/-- The list of a new leaf holds the keys of the pairs and the two sentinels. -/
theorem ofPairs_ok [Nontrivial K] {l : List (K × Val)} (hsorted : (l.map Prod.fst).Pairwise (· < ·))
    (hrange : ∀ k ∈ l.map Prod.fst, ⊥ < k ∧ k < ⊤) :
    (ofPairs l).Inv ∧ (ofPairs l).Unmarked ∧
      ∀ key, ⊥ < key → key < ⊤ → ((ofPairs l).HoldsKey key ↔ key ∈ l.map Prod.fst) := by
  obtain ⟨⟨hinv, hm, -, -⟩, hkeys⟩ := appending_new.foldl hsorted fun k hk => hrange k hk
  refine ⟨hinv, hm, fun key hbot htop => ?_⟩
  have hiff : (ofPairs l).HoldsKey key ↔ ∃ a, (ofPairs l).IsNode a ∧ (ofPairs l).keyOf a = key :=
    hinv.holdsKey_iff.trans (exists_congr fun a =>
      ⟨fun h => ⟨h.1, h.2.1⟩, fun h => ⟨h.1, h.2, hm a h.1⟩⟩)
  rw [hiff]
  refine (hkeys key).trans (or_iff_right ?_)
  -- the two sentinels are out of range
  rintro ⟨a, -, rfl⟩
  by_cases ha : a = maxAddr
  · simp [keyOf, new, ha] at htop
  · simp [keyOf, new, ha] at hbot

end LinkedList

/-! ### The invariant -/

/-- The update is an insertion of a key in range. -/
def Update.IsInsert {K : Type} [LinearOrder K] [BoundedOrder K] (u : Update K) : Prop :=
  u.InRange ∧ ∃ key value, u = .insert key value

/-- A thread outside `remove`, in a list with its invariant. -/
structure ListPc.Grows {K : Type} [LinearOrder K] [BoundedOrder K] (s : LinkedList K)
    (pc : ListPc K) :
    Prop where
  ok : pc.Ok s
  collects : pc.Collects s
  not_inRemove : ¬ pc.InRemove

namespace BinMem

variable {K : Type}

/-- `c` is the identity of a leaf. -/
def IsLeaf (b : BinMem K) (c : ℕ) : Prop := 0 < c ∧ c < b.leafSize

/-- `a` is the address of a node. -/
def IsNode (b : BinMem K) (a : ℕ) : Prop := 0 < a ∧ a < b.nodeSize

/-- The list of a leaf below the root holds the key. -/
def Held (b : BinMem K) (key : K) : Prop := ∃ c ∈ b.children, (b.leaf c).list.HoldsKey key

instance [DecidableEq K] (b : BinMem K) (key : K) : Decidable (b.Held key) := by
  unfold Held
  infer_instance

/-- Some leaf, below the root or replaced since, holds the key. -/
def HeldOnce (b : BinMem K) (key : K) : Prop := ∃ c, b.IsLeaf c ∧ (b.leaf c).list.HoldsKey key

/-- The invariant of a bin from which nothing is removed. -/
structure Inv [LinearOrder K] [BoundedOrder K] (b : BinMem K) : Prop where
  list : ∀ c, b.IsLeaf c → (b.leaf c).list.Inv
  unmarked : ∀ c, b.IsLeaf c → (b.leaf c).list.Unmarked
  root : b.IsNode b.root.addr
  child : ∀ a, b.IsNode a → ∀ c ∈ (b.node a).children, b.IsLeaf c
  /-- A leaf that is not below the root any more is completely frozen. -/
  replaced : ∀ c, b.IsLeaf c → c ∉ b.children → (b.leaf c).list.Complete
  retained : ∀ key, ⊥ < key → key < ⊤ → b.HeldOnce key → b.Held key

/-- What a step of any thread leaves alone. -/
structure Guar (b b' : BinMem K) : Prop where
  leafSize_le : b.leafSize ≤ b'.leafSize
  nodeSize_le : b.nodeSize ≤ b'.nodeSize
  node_eq : ∀ a, b.IsNode a → b'.node a = b.node a
  list : ∀ c, b.IsLeaf c → LinkedList.Grows (b.leaf c).list (b'.leaf c).list

theorem IsLeaf.mono {b b' : BinMem K} {c : ℕ} (h : b.IsLeaf c) (hg : Guar b b') : b'.IsLeaf c :=
  ⟨h.1, h.2.trans_le hg.leafSize_le⟩

theorem IsNode.mono {b b' : BinMem K} {a : ℕ} (h : b.IsNode a) (hg : Guar b b') : b'.IsNode a :=
  ⟨h.1, h.2.trans_le hg.nodeSize_le⟩

theorem Guar.refl (b : BinMem K) : Guar b b :=
  ⟨le_rfl, le_rfl, fun _ _ => rfl, fun _ _ => LinkedList.Grows.refl _⟩

theorem Guar.trans {b b' b'' : BinMem K} (h : Guar b b') (h' : Guar b' b'') : Guar b b'' where
  leafSize_le := h.leafSize_le.trans h'.leafSize_le
  nodeSize_le := h.nodeSize_le.trans h'.nodeSize_le
  node_eq a ha := (h'.node_eq a (ha.mono h)).trans (h.node_eq a ha)
  list c hc := (h.list c hc).trans (h'.list c (hc.mono h))

theorem HeldOnce.mono {b b' : BinMem K} {key : K} (h : b.HeldOnce key) (hg : Guar b b') :
    b'.HeldOnce key := by
  obtain ⟨c, hc, hk⟩ := h
  exact ⟨c, hc.mono hg, (hg.list c hc).holds key hk⟩

end BinMem

/-- The node, the position and the leaf of an update belong together. -/
def Place.Ok {K : Type} (b : BinMem K) (pl : Place K) : Prop :=
  b.IsNode pl.root.addr ∧
    match pl.parent with
    | none => b.node pl.root.addr = .leaf pl.child
    | some (n, i) => b.node pl.root.addr = .internal n ∧ i ≤ n.count ∧ pl.child = n.ptr i

/-- What the local variables of a thread satisfy at each program point. -/
def BinPc.Ok {K : Type} [LinearOrder K] [BoundedOrder K] (b : BinMem K) : BinPc K → Prop
  | .ret (.updated (.insert key value) true) => ⊥ < key ∧ key < ⊤ ∧ (value ≠ -1 → b.HeldOnce key)
  | .ret _ | .offEnd _ => True
  | .loadRoot op => op.InRange ∧ ∀ key, op ≠ .update (.remove key)
  | .loadCount key value pl => pl.Ok b ∧ (Update.insert key value).IsInsert
  | .listUpdate u pl pc => pl.Ok b ∧ u.InRange ∧ pc.Ok (b.leaf pl.child).list ∧
      ∃ key value, u = .insert key value ∧ pc.Inserts (b.leaf pl.child).list key value
  | .addCount u pl => pl.Ok b ∧ u.InRange ∧
      ∃ key value, u = .insert key value ∧ (value ≠ -1 → (b.leaf pl.child).list.HoldsKey key)
  | .splitCollect u pl pc => pl.Ok b ∧ u.IsInsert ∧ pc.Grows (b.leaf pl.child).list
  | .casSplit u pl keys vals => pl.Ok b ∧ u.IsInsert ∧
      (ListPc.ret (.vectors keys vals)).Collects (b.leaf pl.child).list
  | .casSeal u pl => pl.Ok b ∧ u.IsInsert
  | .search _ child pc => b.IsLeaf child ∧ pc.Grows (b.leaf child).list
  | .collect rest _ _ child pc =>
    (∀ c ∈ rest, b.IsLeaf c) ∧ b.IsLeaf child ∧ pc.Grows (b.leaf child).list

/-- The call is no removal, and an insertion into a leaf root does not load a freeze bit. -/
def LeafRootThawed {K : Type} (b : BinMem K) (pc : BinPc K) (op : ListOp K) : Prop :=
  match pc, op with
  | .ret _, .update (.remove _) => False
  | .listUpdate _ pl pc, _ => pl.parent.isNone → ¬ pc.MeetsFreeze (b.leaf pl.child).list
  | _, _ => True

instance {K : Type} (b : BinMem K) (pc : BinPc K) (op : ListOp K) :
    Decidable (LeafRootThawed b pc op) := by
  delta LeafRootThawed
  cases pc <;> rcases op with (_ | _) | _ | _ <;> infer_instance

namespace Place

variable {K : Type} {b b' : BinMem K} {pl : Place K}

theorem Ok.mono (h : pl.Ok b) (hg : BinMem.Guar b b') : pl.Ok b' := by
  refine ⟨h.1.mono hg, ?_⟩
  rw [hg.node_eq _ h.1]
  exact h.2

/-- The leaf of an update is below its node. -/
theorem Ok.mem_children (h : pl.Ok b) : pl.child ∈ (b.node pl.root.addr).children := by
  obtain ⟨-, h⟩ := h
  split at h
  · rw [h]
    exact List.mem_singleton_self _
  · next n i _ =>
    obtain ⟨hnode, hi, hchild⟩ := h
    rw [hnode, hchild]
    exact List.mem_map_of_mem (List.mem_range.mpr (Nat.lt_succ_of_le hi))

variable [LinearOrder K] [BoundedOrder K]

theorem Ok.isLeaf (h : pl.Ok b) (hb : b.Inv) : b.IsLeaf pl.child := hb.child _ h.1 _ h.mem_children

/-- The leaves after a split are the two new ones and the others of before. -/
theorem Ok.mem_children_splitNode [Zero K] (h : pl.Ok b) {u : Update K} (hu : u.IsInsert)
    (keys : List K) (left right c : ℕ) :
    (c ∈ (RootNode.internal (BinMem.splitNode u pl keys left right)).children →
      c = left ∨ c = right ∨ c ∈ (b.node pl.root.addr).children) ∧
    (c = left ∨ c = right ∨ c ∈ (b.node pl.root.addr).children ∧ c ≠ pl.child →
      c ∈ (RootNode.internal (BinMem.splitNode u pl keys left right)).children) := by
  obtain ⟨-, key, value, rfl⟩ := hu
  obtain ⟨-, h⟩ := h
  rcases hparent : pl.parent with _ | ⟨n, i⟩
  · rw [hparent] at h
    simp only [BinMem.splitNode, hparent, h]
    simp [RootNode.children, InternalNode.ofSplit, List.range_succ]
    tauto
  · rw [hparent] at h
    obtain ⟨hnode, hi, hchild⟩ := h
    -- in the children of the node, the two leaves take the place of the split one
    have hnew : (RootNode.internal (n.insertSplit i
        (.ofSplit (keys.getD (keys.length / 2) 0) left right))).children =
        n.children.take i ++ [left, right] ++ n.children.drop (i + 1) :=
      InternalNode.children_insertSplit _ hi
    have hlen : i < n.children.length := by
      rw [InternalNode.children, List.length_map, List.length_range]
      exact Nat.lt_succ_of_le hi
    have hold : (RootNode.internal n).children =
        n.children.take i ++ n.ptr i :: n.children.drop (i + 1) := by
      have hget : n.children[i] = n.ptr i := by simp [InternalNode.children]
      rw [← hget, ← List.drop_eq_getElem_cons hlen, List.take_append_drop]
      rfl
    simp only [BinMem.splitNode, hparent, hnode, hchild]
    rw [hnew, hold]
    simp only [List.mem_append, List.mem_cons, List.not_mem_nil, or_false]
    tauto

end Place

namespace BinMem

variable {K : Type} [LinearOrder K] [BoundedOrder K] {b b' : BinMem K} {pl : Place K}

/-- A step in the list of a leaf keeps the invariant. -/
theorem Inv.setList (h : b.Inv) {c : ℕ} {l : LinkedList K} (hl : l.Inv) (hm : l.Unmarked)
    (hg : LinkedList.Grows (b.leaf c).list l) :
    (b.setList c l).Inv ∧ Guar b (b.setList c l) := by
  have hleaf : ∀ d, ((b.setList c l).leaf d).list = if d = c then l else (b.leaf d).list := by
    intro d
    by_cases hd : d = c <;> simp [BinMem.setList, hd]
  have hguar : Guar b (b.setList c l) := by
    refine ⟨le_rfl, le_rfl, fun _ _ => rfl, fun d _ => ?_⟩
    rw [hleaf]
    split
    · next hd => exact hd ▸ hg
    · exact LinkedList.Grows.refl _
  refine ⟨⟨fun d hd => ?_, fun d hd => ?_, h.root, h.child, fun d hd hout => ?_, ?_⟩, hguar⟩
  · rw [hleaf]
    split
    · exact hl
    · exact h.list d hd
  · rw [hleaf]
    split
    · exact hm
    · exact h.unmarked d hd
  · exact (h.replaced d hd hout).mono (h.list d hd) (hguar.list d hd)
  · rintro key hbot htop ⟨d, hd, hk⟩
    -- a key is new only in a leaf below the root
    by_cases hin : d ∈ b.children
    · exact ⟨d, hin, hk⟩
    · have hold := (h.replaced d hd hin).holdsKey (h.list d hd) (h.unmarked d hd)
          (hguar.list d hd) hk
      obtain ⟨e, he, hke⟩ := h.retained key hbot htop ⟨d, hd, hold⟩
      exact ⟨e, he, (hguar.list e (h.child _ h.root e he)).holds key hke⟩

/-! ### A split -/

/-- The lists of the leaves that replace a leaf with the vectors of a collection of it. -/
structure Halves (s left right : LinkedList K) : Prop where
  inv_left : left.Inv
  inv_right : right.Inv
  unmarked_left : left.Unmarked
  unmarked_right : right.Unmarked
  holds : ∀ key, ⊥ < key → key < ⊤ → s.HoldsKey key → left.HoldsKey key ∨ right.HoldsKey key

/-- The vectors of a collection are the pairs of the list, and each of them goes to one half. -/
theorem halves_of_collects [Nontrivial K] {s : LinkedList K} (h : s.Inv) (hm : s.Unmarked)
    {keys : List K} {vals : List Val} (hv : (ListPc.ret (.vectors keys vals)).Collects s) (m : ℕ) :
    s.Complete ∧
      Halves s (.ofPairs ((keys.zip vals).take m)) (.ofPairs ((keys.zip vals).drop m)) := by
  obtain ⟨ks, vs, ht, rfl, rfl⟩ := hv
  have hlive : ∀ a ∈ s.chain, (s.next a).mark = false :=
    fun a ha => hm a (h.chain_spine.2.1 a ha)
  obtain ⟨hkeys, hvals⟩ := h.vectors hlive ht
  obtain ⟨hsorted, hrange⟩ := h.pairs_sorted
  have hzip : ks.dropLast.zip vs.dropLast = s.pairs := by
    rw [hkeys, hvals, List.zip_map', List.map_id']
  have hhalf : ∀ {half : List (K × Val)}, half.Sublist s.pairs → _ := fun hsub =>
    LinkedList.ofPairs_ok (hsorted.sublist (hsub.map _)) fun k hk =>
      hrange k ((hsub.map _).subset hk)
  obtain ⟨hlinv, hlm, hlkeys⟩ := hhalf (List.take_sublist m s.pairs)
  obtain ⟨hrinv, hrm, hrkeys⟩ := hhalf (List.drop_sublist m s.pairs)
  rw [hzip]
  refine ⟨⟨ks, vs, ht⟩, hlinv, hrinv, hlm, hrm, fun key hbot htop hk => ?_⟩
  have hkey := (h.mem_pairs hlive ⟨hbot, htop⟩).mpr hk
  rw [← List.take_append_drop m s.pairs, List.map_append, List.mem_append] at hkey
  exact hkey.imp (hlkeys key hbot htop).mpr (hrkeys key hbot htop).mpr

section Install

variable [Zero K] (u : Update K) (pl : Place K) (keys : List K) (vals : List Val)

theorem leaf_installSplit {c : ℕ} (hc : b.IsLeaf c) :
    (b.installSplit u pl keys vals).leaf c = b.leaf c := by
  have hleft : c ≠ b.leafSize := hc.2.ne
  have hright : c ≠ b.leafSize + 1 := (hc.2.trans (Nat.lt_succ_self _)).ne
  simp [BinMem.installSplit, hleft, hright]

theorem isLeaf_installSplit {c : ℕ} (hc : (b.installSplit u pl keys vals).IsLeaf c) :
    b.IsLeaf c ∨ c = b.leafSize ∨ c = b.leafSize + 1 := by
  obtain ⟨hpos, hlt⟩ := hc
  have hlt : c < b.leafSize + 2 := hlt
  rcases Nat.lt_or_ge c b.leafSize with hc | hc
  · exact .inl ⟨hpos, hc⟩
  · omega

theorem node_installSplit {a : ℕ} (ha : b.IsNode a) :
    (b.installSplit u pl keys vals).node a = b.node a := by
  simp [BinMem.installSplit, ha.2.ne]

theorem children_installSplit : (b.installSplit u pl keys vals).children =
    (RootNode.internal (splitNode u pl keys b.leafSize (b.leafSize + 1))).children := by
  simp [BinMem.installSplit, BinMem.children]

/-- A split changes no old leaf and no old node. -/
theorem guar_installSplit : Guar b (b.installSplit u pl keys vals) where
  leafSize_le := Nat.le_add_right _ _
  nodeSize_le := Nat.le_succ _
  node_eq _ ha := node_installSplit u pl keys vals ha
  list c hc := by
    rw [leaf_installSplit u pl keys vals hc]
    exact LinkedList.Grows.refl _

end Install

/-- A split keeps the invariant: every key of the leaf it replaces is in one of the two new ones. -/
theorem Inv.installSplit [Nontrivial K] [Zero K] (h : b.Inv) {u : Update K} (hu : u.IsInsert)
    (hpl : pl.Ok b) (hroot : b.root = pl.root) {keys : List K} {vals : List Val}
    (hv : (ListPc.ret (.vectors keys vals)).Collects (b.leaf pl.child).list) :
    (b.installSplit u pl keys vals).Inv := by
  have hchild := hpl.isLeaf h
  obtain ⟨hcomplete, hhalves⟩ :=
    halves_of_collects (h.list _ hchild) (h.unmarked _ hchild) hv (keys.length / 2)
  have hguar := guar_installSplit (b := b) u pl keys vals
  have hpos : 0 < b.leafSize := hchild.1.trans hchild.2
  -- the leaves below the new root
  have hmem := hpl.mem_children_splitNode hu keys b.leafSize (b.leafSize + 1)
  rw [← hroot, ← children_installSplit u pl keys vals] at hmem
  have hleft := (hmem _).2 (.inl rfl)
  have hright := (hmem _).2 (.inr (.inl rfl))
  have hsplit := fun {c : ℕ} (hc : b.IsLeaf c) => leaf_installSplit u pl keys vals hc
  have hcases := fun (c : ℕ) hc => isLeaf_installSplit (b := b) (c := c) u pl keys vals hc
  have hlists : ((b.installSplit u pl keys vals).leaf b.leafSize).list =
        .ofPairs ((keys.zip vals).take (keys.length / 2)) ∧
      ((b.installSplit u pl keys vals).leaf (b.leafSize + 1)).list =
        .ofPairs ((keys.zip vals).drop (keys.length / 2)) := by
    simp [BinMem.installSplit]
  refine ⟨fun c hc => ?_, fun c hc => ?_, ?_, fun a ha c hc => ?_, fun c hc hout => ?_, ?_⟩
  · rcases hcases c hc with hc | rfl | rfl
    · rw [hsplit hc]
      exact h.list c hc
    · exact hlists.1 ▸ hhalves.inv_left
    · exact hlists.2 ▸ hhalves.inv_right
  · rcases hcases c hc with hc | rfl | rfl
    · rw [hsplit hc]
      exact h.unmarked c hc
    · exact hlists.1 ▸ hhalves.unmarked_left
    · exact hlists.2 ▸ hhalves.unmarked_right
  · exact ⟨hpl.1.1.trans hpl.1.2, Nat.lt_succ_self _⟩
  · rcases Nat.lt_succ_iff_lt_or_eq.mp ha.2 with hlt | rfl
    · have hnode : b.IsNode a := ⟨ha.1, hlt⟩
      rw [node_installSplit u pl keys vals hnode] at hc
      exact (h.child a hnode c hc).mono hguar
    · rcases (hmem c).1 hc with rfl | rfl | hold
      · exact ⟨hpos, Nat.lt_succ_of_lt (Nat.lt_succ_self _)⟩
      · exact ⟨Nat.succ_pos _, Nat.lt_succ_self _⟩
      · exact (h.child _ h.root c hold).mono hguar
  · rcases hcases c hc with hold | rfl | rfl
    · rw [hsplit hold]
      by_cases heq : c = pl.child
      · exact heq ▸ hcomplete
      · exact h.replaced c hold fun hin => hout ((hmem c).2 (.inr (.inr ⟨hin, heq⟩)))
    · exact absurd hleft hout
    · exact absurd hright hout
  · rintro key hbot htop ⟨c, hc, hk⟩
    rcases hcases c hc with hold | rfl | rfl
    · rw [hsplit hold] at hk
      obtain ⟨d, hd, hkd⟩ := h.retained key hbot htop ⟨c, hold, hk⟩
      by_cases heq : d = pl.child
      · rcases hhalves.holds key hbot htop (heq ▸ hkd) with hkl | hkr
        · exact ⟨_, hleft, hlists.1 ▸ hkl⟩
        · exact ⟨_, hright, hlists.2 ▸ hkr⟩
      · refine ⟨d, (hmem d).2 (.inr (.inr ⟨hd, heq⟩)), ?_⟩
        rw [hsplit (h.child _ h.root d hd)]
        exact hkd
    · exact ⟨_, hleft, hk⟩
    · exact ⟨_, hright, hk⟩

/-! ### The steps -/

/-- The assertion of a thread survives the steps of the others. -/
theorem ok_mono {pc : BinPc K} (h : b.Inv) (hg : Guar b b') (hpc : pc.Ok b) : pc.Ok b' := by
  -- a call on the list of a leaf
  have hgrows : ∀ {c : ℕ} {p : ListPc K}, b.IsLeaf c → p.Grows (b.leaf c).list →
      p.Grows (b'.leaf c).list := fun {c p} hc hp =>
    ⟨LinkedList.ok_mono (hg.list c hc).guar hp.ok, LinkedList.collects_mono (h.list c hc) hp.ok
      (hg.list c hc).guar (hg.list c hc).words hp.collects, hp.not_inRemove⟩
  cases pc with
  | ret r =>
    cases r with
    | updated u r =>
      cases u with
      | insert key value =>
        cases r with
        | false => trivial
        | true => exact ⟨hpc.1, hpc.2.1, fun hv => (hpc.2.2 hv).mono hg⟩
      | remove key => trivial
    | _ => trivial
  | offEnd u => trivial
  | loadRoot op => exact hpc
  | loadCount key value pl => exact ⟨hpc.1.mono hg, hpc.2⟩
  | listUpdate u pl p =>
    obtain ⟨hpl, hu, hp, key, value, rfl, hi⟩ := hpc
    have hlist := hg.list _ (hpl.isLeaf h)
    exact ⟨hpl.mono hg, hu, LinkedList.ok_mono hlist.guar hp, key, value, rfl,
      LinkedList.inserts_mono hlist hi⟩
  | addCount u pl =>
    obtain ⟨hpl, hu, key, value, rfl, hi⟩ := hpc
    exact ⟨hpl.mono hg, hu, key, value, rfl, fun hv => (hg.list _ (hpl.isLeaf h)).holds key (hi hv)⟩
  | splitCollect u pl p => exact ⟨hpc.1.mono hg, hpc.2.1, hgrows (hpc.1.isLeaf h) hpc.2.2⟩
  | casSplit u pl keys vals =>
    obtain ⟨hpl, hu, hv⟩ := hpc
    have hlist := hg.list _ (hpl.isLeaf h)
    exact ⟨hpl.mono hg, hu,
      LinkedList.collects_mono (h.list _ (hpl.isLeaf h)) trivial hlist.guar hlist.words hv⟩
  | casSeal u pl => exact ⟨hpc.1.mono hg, hpc.2⟩
  | search key child p => exact ⟨hpc.1.mono hg, hgrows hpc.1 hpc.2⟩
  | collect rest keys vals child p =>
    exact ⟨fun c hc => (hpc.1 c hc).mono hg, hpc.2.1.mono hg, hgrows hpc.2.1 hpc.2.2⟩

/-- A step in the list of a leaf, of a thread outside `remove`. -/
theorem list_step (h : b.Inv) {c : ℕ} (hc : b.IsLeaf c) {p p' : ListPc K} {l : LinkedList K}
    (hp : p.Grows (b.leaf c).list) (hs : (b.leaf c).list.step p = some (l, p')) :
    (b.setList c l).Inv ∧ Guar b (b.setList c l) ∧ p'.Grows ((b.setList c l).leaf c).list := by
  have hinv := h.list c hc
  have hm := h.unmarked c hc
  obtain ⟨hm', hr', hgrows⟩ := LinkedList.step_grows hinv hm hp.ok hp.collects hp.not_inRemove hs
  obtain ⟨hl, hok, -⟩ := LinkedList.step_ok hinv hp.ok hs
  have hthawed : ReloadsThawed (b.leaf c).list p .collect := by
    cases p with
    | rmLoad => exact absurd trivial hp.not_inRemove
    | _ => trivial
  have hcoll := (LinkedList.step_collects hinv hp.ok hp.collects hthawed hs).1
  obtain ⟨hinv', hguar⟩ := h.setList hl hm' hgrows
  refine ⟨hinv', hguar, ?_⟩
  have heq : ((b.setList c l).leaf c).list = l := by simp [BinMem.setList]
  rw [heq]
  exact ⟨hok, hcoll, hr'⟩

/-- An update is routed to a leaf below the root. -/
theorem place_ok (h : b.Inv) (key : K) : (b.place key).Ok b := by
  unfold place
  split
  · next id hnode => exact ⟨h.root, hnode⟩
  · next n hnode => exact ⟨h.root, hnode, SortedArray.lowerBound_le _ _ _, rfl⟩

/-- A collection of a leaf starts. -/
theorem enter_collect (h : b.Inv) {c : ℕ} (hc : b.IsLeaf c) :
    (LinkedList.enter .collect).Grows (b.leaf c).list :=
  ⟨(h.list c hc).head_node, LinkedList.Trace.start _, id⟩

/-- A leaf is collected before it is split. -/
theorem splitOrSeal_ok (h : b.Inv) {u : Update K} (hpl : pl.Ok b) (hu : u.IsInsert) :
    (splitOrSeal u pl).Ok b := by
  have hcollect := enter_collect h (hpl.isLeaf h)
  unfold splitOrSeal
  split
  · exact ⟨hpl, hu, hcollect⟩
  · split
    · exact ⟨hpl, hu, hcollect⟩
    · exact ⟨hpl, hu⟩

/-- A call is routed by the root it has loaded. -/
theorem dispatch_ok (h : b.Inv) {op : ListOp K} (hop : op.InRange)
    (hrem : ∀ key, op ≠ .update (.remove key)) : (b.dispatch op).Ok b := by
  cases op with
  | update u =>
    cases u with
    | insert key value =>
      rw [dispatch]
      split
      · trivial
      · exact ⟨place_ok h key, hop, key, value, rfl⟩
    | remove key => exact absurd rfl (hrem key)
  | search key =>
    have hleaf := (place_ok h key).isLeaf h
    exact ⟨hleaf, ⟨hop.2, (h.list _ hleaf).head_node⟩, trivial, id⟩
  | collect =>
    rw [dispatch]
    have hchild := h.child _ h.root
    split
    · trivial
    · next child rest hchildren =>
      have hmem : ∀ c ∈ child :: rest, b.IsLeaf c := hchildren ▸ hchild
      have hleaf := hmem child List.mem_cons_self
      exact ⟨fun c hc => hmem c (List.mem_cons_of_mem _ hc), hleaf, enter_collect h hleaf⟩

/-- After the list's `insert`. The `bool` of `insert_leaf` is right because the status is not -1. -/
theorem updateReturn_ok (h : b.Inv) {key : K} {value : Val} (hpl : pl.Ok b)
    (hu : (Update.insert key value).InRange) {r : ℤ}
    (hi : (ListPc.ret (.status r)).Inserts (b.leaf pl.child).list key value)
    (hleaf : pl.parent.isNone → r ≠ -1) : (updateReturn (.insert key value) pl r).Ok b := by
  rcases hi with rfl | ⟨hr, hk⟩
  · -- the frozen status of a child of an internal node
    have hparent : pl.parent.isNone = false := by
      rw [Bool.eq_false_iff]
      exact fun hnone => hleaf hnone rfl
    have hres : updateReturn (.insert key value) pl (-1) = splitOrSeal (.insert key value) pl := by
      simp [updateReturn, hparent]
    rw [hres]
    exact splitOrSeal_ok h hpl ⟨hu, key, value, rfl⟩
  · have hheld : value ≠ -1 → b.HeldOnce key := fun hv => ⟨pl.child, hpl.isLeaf h, hk hv⟩
    -- the statuses 0 and 1 are the same as a `bool`
    have hbool : (if pl.parent.isNone then boolOfInt r else r) = r := by
      rcases hr with rfl | rfl <;> simp [boolOfInt]
    rw [updateReturn, hbool]
    rcases hr with rfl | rfl
    · exact ⟨hu.1, hu.2, hheld⟩
    · exact ⟨hpl, hu, key, value, rfl, hk⟩

/-- A write of a count keeps the invariant. -/
theorem Inv.setCount (h : b.Inv) (c : ℕ) (count : ℤ) :
    (b.setCount c count).Inv ∧ Guar b (b.setCount c count) := by
  have hlist : ∀ d, ((b.setCount c count).leaf d).list = (b.leaf d).list := by
    intro d
    by_cases hd : d = c <;> simp [BinMem.setCount, hd]
  have hguar : Guar b (b.setCount c count) := by
    refine ⟨le_rfl, le_rfl, fun _ _ => rfl, fun d _ => ?_⟩
    rw [hlist]
    exact LinkedList.Grows.refl _
  refine ⟨⟨fun d hd => ?_, fun d hd => ?_, h.root, h.child, fun d hd hout => ?_, ?_⟩, hguar⟩
  · rw [hlist]
    exact h.list d hd
  · rw [hlist]
    exact h.unmarked d hd
  · rw [hlist]
    exact h.replaced d hd hout
  · rintro key hbot htop ⟨d, hd, hk⟩
    rw [hlist] at hk
    obtain ⟨e, he, hke⟩ := h.retained key hbot htop ⟨d, hd, hk⟩
    exact ⟨e, he, (hlist e).symm ▸ hke⟩

/-- A thread inside `insert` is outside `remove` and collects nothing. -/
theorem inserts_grows {s : LinkedList K} {p : ListPc K} {key : K} {value : Val} (hp : p.Ok s)
    (hi : p.Inserts s key value) : p.Grows s := by
  refine ⟨hp, ?_, ?_⟩
  · cases p with
    | ret r => cases r <;> trivial
    | collTest | collCheck | collLoad | collFreeze | collFollow | rmMark => exact hi.elim
    | _ => trivial
  · cases p with
    | rmLoad | rmMark | rmUnlink => exact hi.elim
    | findHead | findRight | findNext | findUnlink | findReload =>
      rintro ⟨k, rfl⟩
      cases hi
    | _ => exact id

/-- A call that starts over. -/
theorem retry_ok {u : Update K} (hu : u.IsInsert) : (BinPc.loadRoot (.update u)).Ok b := by
  obtain ⟨hrange, key, value, rfl⟩ := hu
  exact ⟨hrange, fun k hk => by cases hk⟩

/-- A step keeps the invariant and the assertion of its thread. -/
theorem step_ok [Nontrivial K] [Zero K] {pc pc' : BinPc K} {op : ListOp K} (h : b.Inv)
    (hpc : pc.Ok b) (hok : LeafRootThawed b pc op) (hs : b.step pc = some (b', pc')) :
    b'.Inv ∧ pc'.Ok b' ∧ Guar b b' := by
  -- a step that leaves the memory alone
  have hread : ∀ {p : BinPc K}, b' = b → pc' = p → p.Ok b → b'.Inv ∧ pc'.Ok b' ∧ Guar b b' := by
    rintro p rfl rfl hp
    exact ⟨h, hp, Guar.refl _⟩
  cases pc with
  | ret r | offEnd u => simp [step] at hs
  | loadRoot op =>
    cases hs
    exact hread rfl rfl (dispatch_ok h hpc.1 hpc.2)
  | loadCount key value pl =>
    obtain ⟨hpl, hu⟩ := hpc
    rw [step] at hs
    split at hs <;> cases hs
    · exact hread rfl rfl ⟨hpl, hu.1, hu.1, key, value, rfl, rfl⟩
    · exact hread rfl rfl (splitOrSeal_ok h hpl hu)
  | listUpdate u pl p =>
    obtain ⟨hpl, hu, hp, key, value, rfl, hi⟩ := hpc
    rw [step] at hs
    obtain ⟨⟨l, p'⟩, hl, heq⟩ := Option.map_eq_some_iff.mp hs
    cases heq
    have hleaf := hpl.isLeaf h
    obtain ⟨hinv, hguar, hp'⟩ := list_step h hleaf (inserts_grows hp hi) hl
    obtain ⟨hi', hfreeze⟩ :=
      LinkedList.inserts_step (h.list _ hleaf) (h.unmarked _ hleaf) hp hi hl
    have heq : ((b.setList pl.child l).leaf pl.child).list = l := by simp [BinMem.setList]
    rw [← heq] at hi'
    refine ⟨hinv, ?_, hguar⟩
    split
    · refine updateReturn_ok hinv (hpl.mono hguar) hu hi' fun hnone hr => ?_
      exact hok hnone (hfreeze (hr ▸ rfl))
    · exact hi'.elim
    · exact ⟨hpl.mono hguar, hu, hp'.ok, key, value, rfl, hi'⟩
  | addCount u pl =>
    obtain ⟨hpl, hu, key, value, rfl, hk⟩ := hpc
    cases hs
    obtain ⟨hinv, hguar⟩ := h.setCount pl.child ((b.leaf pl.child).count + 1)
    refine ⟨hinv, ⟨hu.1, hu.2, fun hv => ?_⟩, hguar⟩
    exact HeldOnce.mono ⟨_, hpl.isLeaf h, hk hv⟩ hguar
  | splitCollect u pl p =>
    obtain ⟨hpl, hu, hp⟩ := hpc
    rw [step] at hs
    obtain ⟨⟨l, p'⟩, hl, heq⟩ := Option.map_eq_some_iff.mp hs
    cases heq
    obtain ⟨hinv, hguar, hp'⟩ := list_step h (hpl.isLeaf h) hp hl
    refine ⟨hinv, ?_, hguar⟩
    split
    · exact ⟨hpl.mono hguar, hu, hp'.collects⟩
    · exact ⟨hpl.mono hguar, hu, hp'⟩
  | casSplit u pl keys vals =>
    obtain ⟨hpl, hu, hv⟩ := hpc
    rw [step] at hs
    split at hs <;> cases hs
    · next hroot =>
      exact ⟨h.installSplit hu hpl hroot hv, retry_ok hu, guar_installSplit u pl keys vals⟩
    · exact hread rfl rfl (retry_ok hu)
  | casSeal u pl =>
    obtain ⟨hpl, hu⟩ := hpc
    rw [step] at hs
    split at hs <;> cases hs
    · next hroot =>
      -- the mark does not change the leaves below the root
      have hinv : { b with root := pl.root.setMark }.Inv := by
        rw [← hroot]
        exact ⟨h.list, h.unmarked, h.root, h.child, h.replaced, h.retained⟩
      exact ⟨hinv, retry_ok hu, ⟨le_rfl, le_rfl, fun _ _ => rfl, fun _ _ => .refl _⟩⟩
    · exact hread rfl rfl (retry_ok hu)
  | search key child p =>
    rw [step] at hs
    obtain ⟨⟨l, p'⟩, hl, heq⟩ := Option.map_eq_some_iff.mp hs
    cases heq
    obtain ⟨hinv, hguar, hp'⟩ := list_step h hpc.1 hpc.2 hl
    refine ⟨hinv, ?_, hguar⟩
    split
    · trivial
    · exact ⟨hpc.1.mono hguar, hp'⟩
  | collect rest keys vals child p =>
    rw [step] at hs
    obtain ⟨⟨l, p'⟩, hl, heq⟩ := Option.map_eq_some_iff.mp hs
    cases heq
    obtain ⟨hinv, hguar, hp'⟩ := list_step h hpc.2.1 hpc.2.2 hl
    have hrest := fun c hc => (hpc.1 c hc).mono hguar
    refine ⟨hinv, ?_, hguar⟩
    split
    · trivial
    · have hnext := hrest _ List.mem_cons_self
      exact ⟨fun c hc => hrest c (List.mem_cons_of_mem _ hc), hnext, enter_collect hinv hnext⟩
    · exact ⟨hrest, hpc.2.1.mono hguar, hp'⟩

/-- A fresh bin satisfies the invariant. -/
theorem inv_new [Nontrivial K] : (BinMem.new : BinMem K).Inv := by
  have hone : ∀ c, (BinMem.new : BinMem K).IsLeaf c → c = 1 := by
    rintro c ⟨hpos, hlt⟩
    have hlt : c < 2 := hlt
    omega
  have hlist : LinkedList.Appending ((LinkedList.new, LinkedList.head) : LinkedList K × ℕ) :=
    LinkedList.appending_new
  refine ⟨fun c _ => hlist.inv, fun c _ => hlist.unmarked, ⟨Nat.one_pos, Nat.one_lt_two⟩,
    fun a _ c hc => ?_, fun c hc hout => ?_, ?_⟩
  · rw [List.mem_singleton.mp hc]
    exact ⟨Nat.one_pos, Nat.one_lt_two⟩
  · rw [hone c hc] at hout
    exact absurd (List.mem_singleton_self 1) hout
  · rintro key - - ⟨c, hc, hk⟩
    exact ⟨c, (hone c hc) ▸ List.mem_singleton_self 1, hk⟩

/-- The invariant and the assertions, in the runs without a load of a freeze bit by an insertion
into a leaf root. -/
def relyGuarantee (K : Type) [LinearOrder K] [BoundedOrder K] [Nontrivial K] [Zero K] :
    RelyGuarantee (binMachine K) LeafRootThawed where
  inv := Inv
  loc b pc := pc.Ok b
  guar := Guar
  guar_refl := Guar.refl
  guar_trans := Guar.trans
  step {b pc op b' pc'} h hpc hok hs := by
    cases pc with
    | ret r =>
      simp only [binMachine] at hs
      split at hs <;> cases hs
      next hop => exact ⟨h, ⟨hop, by rintro key rfl; exact hok⟩, Guar.refl _⟩
    | _ => exact step_ok h hpc hok hs
  stable h hpc hg := ok_mono h hg hpc

end BinMem

section Retained

variable {ι K : Type} [DecidableEq ι] [LinearOrder K] [BoundedOrder K] [Nontrivial K] [Zero K]

/-- In every run without removals in which no insertion into a leaf root loads a freeze bit, the key
of an insertion that has reported success stays in the list of a leaf below the root, unless its
value is the tombstone. -/
theorem inserts_retained {c d : Config ι (BinMem K) (BinPc K)} {i : ι} {key : K} {value : Val}
    (hc : Run (binMachine K) LeafRootThawed binInit c)
    (hret : c.thread i = .ret (.updated (.insert key value) true)) (hv : value ≠ -1)
    (hd : Run (binMachine K) LeafRootThawed c d) : d.shared.Held key := by
  have hinit : (BinMem.relyGuarantee K).Holds (binInit : Config ι (BinMem K) (BinPc K)) :=
    ⟨BinMem.inv_new, fun _ => trivial⟩
  have hhc := (BinMem.relyGuarantee K).run_holds hc hinit
  have hhd := (BinMem.relyGuarantee K).run_holds hd hhc
  have hguar : BinMem.Guar c.shared d.shared := (BinMem.relyGuarantee K).run_guar hd hhc
  have hpc : (c.thread i).Ok c.shared := hhc.loc i
  rw [hret] at hpc
  obtain ⟨hbot, htop, hheld⟩ := hpc
  exact hhd.inv.retained key hbot htop ((hheld hv).mono hguar)

end Retained

/-- The result of a thread between two calls. -/
def BinPc.result? {K : Type} : BinPc K → Option (BinResult K)
  | .ret r => some r
  | _ => none

theorem BinPc.eq_ret {K : Type} {pc : BinPc K} {r : BinResult K} (h : pc.result? = some r) :
    pc = .ret r := by
  cases pc with
  | ret r' => exact congrArg BinPc.ret (Option.some.inj h)
  | _ => cases h

/-- The calls are insertions. -/
def OnlyInserts {K : Type} (_ : BinMem K) (pc : BinPc K) (op : ListOp K) : Prop :=
  match pc, op with
  | .ret _, .update (.insert _ _) => True
  | .ret _, _ => False
  | _, _ => True

instance {K : Type} (b : BinMem K) (pc : BinPc K) (op : ListOp K) :
    Decidable (OnlyInserts b pc op) := by
  delta OnlyInserts
  cases pc <;> rcases op with (_ | _) | _ | _ <;> infer_instance

/-- Thread 0 inserts `n` keys from 50 downwards. -/
def descending (n : ℕ) : List (Fin 2 × ListOp (Fin 64)) :=
  (List.range n).flatMap fun i =>
    List.replicate 10 (0, .update (.insert (Fin.ofNat 64 (50 - i)) 7))

/-- Thread 0 inserts 33 keys. The last insertion finds the leaf full and splits it. -/
theorem inserts_retained_split :
    ∃ d : Config (Fin 2) (BinMem (Fin 64)) (BinPc (Fin 64)),
      d.shared.children = [2, 3] ∧ d.shared.Held 50 := by
  have hexec : (((binInit.exec (binMachine (Fin 64)) LeafRootThawed (descending 1)).bind fun c =>
      (c.exec (binMachine (Fin 64)) LeafRootThawed ((descending 32).drop 10 ++
        List.replicate 179 (0, .update (.insert 18 7)))).map fun d =>
        ((c.thread 0).result?, d.shared.children))) =
      some (some (.updated (.insert 50 7) true), [2, 3]) := by decide +kernel
  obtain ⟨c, hc, hcd⟩ := Option.bind_eq_some_iff.mp hexec
  obtain ⟨d, hd, heq⟩ := Option.map_eq_some_iff.mp hcd
  simp only [Prod.mk.injEq] at heq
  exact ⟨d, heq.2, inserts_retained (Config.exec_run hc) (BinPc.eq_ret heq.1) (by decide)
    (Config.exec_run hd)⟩

/-- Thread 1 stops in `insert(60, 9)` behind the count check, with 31 keys in the leaf root. Thread
0 inserts the 32nd key and starts to split the leaf: it has frozen `head`. Thread 1 meets the freeze
bit, and its insertion reports success, but the key is in no leaf. -/
theorem insert_not_retained :
    ∃ c : Config (Fin 2) (BinMem (Fin 64)) (BinPc (Fin 64)),
      Run (binMachine (Fin 64)) OnlyInserts binInit c ∧
      c.thread 1 = .ret (.updated (.insert 60 9) true) ∧ ¬ c.shared.Held 60 := by
  have hexec : ((binInit.exec (binMachine (Fin 64)) OnlyInserts (descending 31 ++
      List.replicate 3 (1, .update (.insert 60 9)) ++ (descending 32).drop 310 ++
      List.replicate 7 (0, .update (.insert 18 7)) ++
      List.replicate 2 (1, .update (.insert 60 9)))).map fun c =>
        ((c.thread 1).result?, decide (c.shared.Held 60))) =
      some (some (.updated (.insert 60 9) true), false) := by decide +kernel
  obtain ⟨c, hc, heq⟩ := Option.map_eq_some_iff.mp hexec
  simp only [Prod.mk.injEq, decide_eq_false_iff_not] at heq
  exact ⟨c, Config.exec_run hc, BinPc.eq_ret heq.1, heq.2⟩

end KanvaImpl
