import Kanva.Impl.Bin.Calls
import Kanva.Impl.LinkedList.Invariant

/-!
# What the pairs of a bin satisfy

A property of pairs that the sentinels have, and every pair that a call inserts, is one of all nodes
of a bin: the steps of a list make nodes of the pairs they have been given or have read, and so do a
split and the collection of a bin. Nothing has to be known about the list for this.

## Main results

* `LinkedList.step_each`, `BinMem.step_each`: a step of a thread that brings only pairs with the
  property keeps it.
-/

namespace KanvaImpl

open Kanva

/-- Every node has a pair with the property. -/
def LinkedList.Each {K : Type} (P : K → Val → Prop) (s : LinkedList K) : Prop :=
  ∀ a, P (s.keyOf a) (s.node a).value

/-- Every node of a leaf has a pair with the property. -/
def BinMem.Each {K : Type} (P : K → Val → Prop) (b : BinMem K) : Prop :=
  ∀ c, (b.leaf c).list.Each P

/-- The two sentinels have the property. -/
structure Sentinels {K : Type} [LE K] [BoundedOrder K] (P : K → Val → Prop) : Prop where
  min : P ⊥ 0
  max : P ⊤ 0

/-- The pair of an insertion has the property, unless it is refused. -/
def Update.Brings {K : Type} (P : K → Val → Prop) : Update K → Prop
  | .insert key value => value ≠ -1 → P key value
  | .remove _ => True

/-- The pairs of two vectors have the property. -/
structure BringsAll {K : Type} (P : K → Val → Prop) (keys : List K) (vals : List Val) : Prop where
  length : keys.length = vals.length
  pair : ∀ p ∈ keys.zip vals, P p.1 p.2

/-- The pairs that a thread brings to a list or takes from it have the property. -/
def ListPc.Brings {K : Type} (P : K → Val → Prop) : ListPc K → Prop
  | .ret (.vectors keys vals) => BringsAll P keys vals
  | .findHead u | .findRight u | .findNext u _ _ | .findUnlink u _ _ _ | .findReload u _ _ =>
    u.Brings P
  | .insStore key value _ _ => P key value
  | .insLink key value _ _ newNode => P key value ∧ P newNode.key newNode.value
  | .collTest _ keys vals | .collCheck _ keys vals | .collLoad _ keys vals
  | .collFreeze _ _ keys vals | .collFollow _ keys vals => BringsAll P keys vals
  | _ => True

/-- The pairs that a thread brings to a bin or takes from it have the property. -/
def BinPc.Brings {K : Type} (P : K → Val → Prop) : BinPc K → Prop
  | .ret (.vectors keys vals) => BringsAll P keys vals
  | .ret _ | .addCount _ _ | .offEnd _ => True
  | .loadRoot (.update u) => u.Brings P
  | .loadRoot _ => True
  | .loadCount key value _ => value ≠ -1 → P key value
  | .listUpdate u _ pc | .splitCollect u _ pc => u.Brings P ∧ pc.Brings P
  | .casSplit u _ keys vals => u.Brings P ∧ BringsAll P keys vals
  | .casSeal u _ => u.Brings P
  | .search _ _ pc => pc.Brings P
  | .collect _ keys vals _ pc => BringsAll P keys vals ∧ pc.Brings P

namespace BringsAll

variable {K : Type} {P : K → Val → Prop} {keys keys' : List K} {vals vals' : List Val}

theorem nil : BringsAll P ([] : List K) [] := ⟨rfl, fun _ hp => absurd hp List.not_mem_nil⟩

theorem append (h : BringsAll P keys vals) (h' : BringsAll P keys' vals') :
    BringsAll P (keys ++ keys') (vals ++ vals') := by
  refine ⟨by rw [List.length_append, List.length_append, h.length, h'.length], fun p hp => ?_⟩
  rw [List.zip_append h.length] at hp
  exact (List.mem_append.mp hp).elim (h.pair p) (h'.pair p)

theorem dropLast (h : BringsAll P keys vals) : BringsAll P keys.dropLast vals.dropLast := by
  refine ⟨by rw [List.length_dropLast, List.length_dropLast, h.length], fun p hp => h.pair p ?_⟩
  rw [List.dropLast_eq_take, List.dropLast_eq_take, ← h.length, List.zip, ← List.take_zipWith] at hp
  exact List.mem_of_mem_take hp

end BringsAll

/-! ### Lists -/

namespace LinkedList

variable {K : Type} {P : K → Val → Prop} {s s' : LinkedList K}

theorem Each.setNext (h : s.Each P) (a : ℕ) (w : TaggedPtr) : (s.setNext a w).Each P := by
  intro b
  rw [keyOf_setNext, value_setNext]
  exact h b

theorem Each.alloc (h : s.Each P) {n : LLNode K} (hn : P n.key n.value) : (s.alloc n).Each P := by
  intro b
  rw [keyOf_alloc, value_alloc]
  split
  · exact hn
  · exact h b

theorem Each.cas (h : s.Each P) {a : ℕ} {expected desired : TaggedPtr}
    (hs : s.cas a expected desired = some s') : s'.Each P := by
  obtain ⟨-, rfl⟩ := cas_eq_some_iff.mp hs
  exact h.setNext a desired

/-- A fresh list has the two sentinels only. -/
theorem each_new [LE K] [BoundedOrder K] (hP : Sentinels P) (count : ℤ) :
    (new count : LinkedList K).Each P := by
  intro a
  by_cases ha : a = maxAddr
  · simpa [keyOf, new, ha] using hP.max
  · simpa [keyOf, new, ha] using hP.min

/-- The list of a new leaf has its pairs. -/
theorem each_ofPairs [LE K] [BoundedOrder K] (hP : Sentinels P) {l : List (K × Val)}
    (hl : ∀ p ∈ l, P p.1 p.2) : (ofPairs l).Each P := by
  have hfold : ∀ {l : List (K × Val)} {st : LinkedList K × ℕ}, st.1.Each P →
      (∀ p ∈ l, P p.1 p.2) → (l.foldl appendPair st).1.Each P := by
    intro l
    induction l with
    | nil => exact fun hst _ => hst
    | cons p l ih =>
      intro st hst hl
      obtain ⟨hp, hl⟩ := List.forall_mem_cons.mp hl
      exact ih ((hst.setNext _ _).alloc hp) hl
  exact hfold (each_new hP 0) hl

variable [LinearOrder K] {u : Update K} {pc pc' : ListPc K}

/-- A search turns into a call that brings the same pair. -/
theorem findBranch_brings (hu : u.Brings P) (left : ℕ) (right rightNext : TaggedPtr) :
    (s.findBranch u left right rightNext).Brings P := by
  unfold findBranch
  split_ifs
  · exact hu
  · cases u with
    | insert key value =>
      rw [findReturn]
      split_ifs with hkey hvalue
      · trivial
      · trivial
      · exact hu hvalue
    | remove key =>
      rw [findReturn]
      split_ifs <;> trivial
  · exact hu

/-- A step of a thread that brings only pairs with the property keeps it. -/
theorem step_each (h : s.Each P) (hpc : pc.Brings P) (hs : s.step pc = some (s', pc')) :
    s'.Each P ∧ pc'.Brings P := by
  cases pc with
  | ret r => simp [step] at hs
  | findHead u =>
    simp only [step] at hs
    split at hs <;> cases hs
    · exact ⟨h, trivial⟩
    · exact ⟨h, hpc⟩
  | findNext u left right | findReload u left right =>
    simp only [step] at hs
    split_ifs at hs <;> cases hs <;>
      first | exact ⟨h, trivial⟩ | exact ⟨h, findBranch_brings hpc _ _ _⟩
  | findUnlink u left right rightNext =>
    simp only [step] at hs
    split at hs <;> cases hs
    · exact ⟨h, hpc⟩
    · next hcas => exact ⟨h.cas hcas, hpc⟩
  | insStore key value prev right =>
    cases hs
    exact ⟨h, hpc, hpc⟩
  -- the pair of the insertion enters the list here and nowhere else
  | insLink key value prev right newNode =>
    simp only [step] at hs
    split at hs <;> cases hs
    · exact ⟨h, fun _ => hpc.1⟩
    · next hcas => exact ⟨(h.cas hcas).alloc hpc.2, trivial⟩
  | rmLoad key prev right =>
    simp only [step] at hs
    split at hs <;> cases hs <;> exact ⟨h, trivial⟩
  | rmMark key prev right rightNext =>
    simp only [step] at hs
    split at hs <;> cases hs
    · exact ⟨h, trivial⟩
    · next hcas => exact ⟨h.cas hcas, trivial⟩
  | rmUnlink prev right rightNext =>
    have hret : ∀ (s : LinkedList K) w, (ListPc.ret (s.valueResult w)).Brings P := by
      intro s w
      unfold valueResult
      split <;> trivial
    simp only [step] at hs
    split at hs <;> cases hs
    · exact ⟨h, hret _ _⟩
    · next hcas => exact ⟨h.cas hcas, hret _ _⟩
  | searchAt key curr =>
    simp only [step] at hs
    split at hs <;> cases hs <;> exact ⟨h, trivial⟩
  | collTest left keys vals =>
    simp only [step] at hs
    split at hs <;> cases hs
    · exact ⟨h, BringsAll.dropLast hpc⟩
    · exact ⟨h, hpc⟩
  | collCheck left keys vals =>
    simp only [step] at hs
    split at hs <;> cases hs <;> exact ⟨h, hpc⟩
  | collFreeze left currNext keys vals =>
    simp only [step] at hs
    split at hs <;> cases hs
    · exact ⟨h, hpc⟩
    · next hcas => exact ⟨h.cas hcas, hpc⟩
  | collFollow left keys vals =>
    simp only [step] at hs
    split at hs <;> cases hs
    -- the collection takes the pair of a node that is in the list
    · refine ⟨h, BringsAll.append hpc ⟨rfl, fun p hp => ?_⟩⟩
      obtain rfl := List.mem_singleton.mp hp
      exact h _
    · exact ⟨h, hpc⟩
  | findRight | insCount | collLoad =>
    cases hs
    exact ⟨h, hpc⟩

end LinkedList

/-! ### Bins -/

namespace BinMem

variable {K : Type} {P : K → Val → Prop} {b b' : BinMem K} {u : Update K} {pl : Place K}

theorem Each.setList (h : b.Each P) {c : ℕ} {l : LinkedList K} (hl : l.Each P) :
    (b.setList c l).Each P := by
  intro d
  by_cases hd : d = c
  · simpa [BinMem.setList, hd] using hl
  · simpa [BinMem.setList, hd] using h d

theorem Each.setCount (h : b.Each P) (c : ℕ) (n : ℤ) : (b.setCount c n).Each P := by
  intro d
  by_cases hd : d = c
  · simpa [BinMem.setCount, hd] using h c
  · simpa [BinMem.setCount, hd] using h d

theorem each_new [LE K] [BoundedOrder K] (hP : Sentinels P) : (BinMem.new : BinMem K).Each P :=
  fun _ => LinkedList.each_new hP 0

/-- The two leaves of a split have its pairs. -/
theorem Each.installSplit [LE K] [BoundedOrder K] [Zero K] (h : b.Each P) (hP : Sentinels P)
    {keys : List K} {vals : List Val} (hkv : BringsAll P keys vals) :
    (b.installSplit u pl keys vals).Each P := by
  have hhalf : ∀ {l : List (K × Val)}, l.Sublist (keys.zip vals) → (LinkedList.ofPairs l).Each P :=
    fun hl => LinkedList.each_ofPairs hP fun p hp => hkv.pair p (hl.subset hp)
  intro c
  by_cases hright : c = b.leafSize + 1
  · simpa [BinMem.installSplit, hright] using hhalf (List.drop_sublist (keys.length / 2) _)
  · by_cases hleft : c = b.leafSize
    · simpa [BinMem.installSplit, hleft] using hhalf (List.take_sublist (keys.length / 2) _)
    · simpa [BinMem.installSplit, hright, hleft] using h c

theorem splitOrSeal_brings (hu : u.Brings P) : (splitOrSeal u pl).Brings P := by
  rcases splitOrSeal_cases u pl with heq | heq <;> rw [heq]
  · exact ⟨hu, .nil⟩
  · exact hu

theorem updateReturn_brings (hu : u.Brings P) (r : ℤ) : (updateReturn u pl r).Brings P := by
  rcases updateReturn_cases u pl r with heq | heq | heq | heq <;> rw [heq]
  · exact splitOrSeal_brings hu
  · trivial
  · trivial
  · trivial

theorem misreadReturn_brings : (misreadReturn u pl).Brings P := by
  rcases misreadReturn_cases u pl with heq | heq <;> rw [heq] <;> trivial

variable [LinearOrder K]

theorem dispatch_brings {op : ListOp K} (hop : (BinPc.loadRoot op).Brings P) :
    (b.dispatch op).Brings P := by
  cases op with
  | update u =>
    cases u with
    | insert key value =>
      rw [dispatch]
      split
      · trivial
      · exact hop
    | remove key =>
      rw [dispatch]
      split
      · trivial
      · exact ⟨trivial, trivial⟩
  | search key => trivial
  | collect =>
    rw [dispatch]
    split
    · exact .nil
    · exact ⟨.nil, .nil⟩

/-- A step of a thread that brings only pairs with the property keeps it. -/
theorem step_each [BoundedOrder K] [Zero K] (h : b.Each P) (hP : Sentinels P) {pc pc' : BinPc K}
    (hpc : pc.Brings P) (hs : b.step pc = some (b', pc')) : b'.Each P ∧ pc'.Brings P := by
  -- a step in the list of a leaf
  have hlist : ∀ {c : ℕ} {p p' : ListPc K} {l : LinkedList K}, p.Brings P →
      (b.leaf c).list.step p = some (l, p') → (b.setList c l).Each P ∧ p'.Brings P := by
    intro c p p' l hp hl
    obtain ⟨heach, hp'⟩ := LinkedList.step_each (h c) hp hl
    exact ⟨h.setList heach, hp'⟩
  cases pc with
  | ret r | offEnd u => simp [step] at hs
  | loadRoot op =>
    cases hs
    exact ⟨h, dispatch_brings hpc⟩
  | loadCount key value pl =>
    have hu : (Update.insert key value).Brings P := hpc
    rw [step] at hs
    split at hs <;> cases hs
    · exact ⟨h, hu, hu⟩
    · exact ⟨h, splitOrSeal_brings hu⟩
  | listUpdate u pl p =>
    rw [step] at hs
    obtain ⟨⟨l, p'⟩, hl, heq⟩ := Option.map_eq_some_iff.mp hs
    cases heq
    obtain ⟨heach, hp'⟩ := hlist hpc.2 hl
    refine ⟨heach, ?_⟩
    split
    · exact updateReturn_brings hpc.1 _
    · exact misreadReturn_brings
    · exact ⟨hpc.1, hp'⟩
  | addCount u pl =>
    cases u <;> cases hs <;> exact ⟨h.setCount _ _, trivial⟩
  | splitCollect u pl p =>
    rw [step] at hs
    obtain ⟨⟨l, p'⟩, hl, heq⟩ := Option.map_eq_some_iff.mp hs
    cases heq
    obtain ⟨heach, hp'⟩ := hlist hpc.2 hl
    refine ⟨heach, ?_⟩
    split
    · exact ⟨hpc.1, hp'⟩
    · exact ⟨hpc.1, hp'⟩
  | casSplit u pl keys vals =>
    rw [step] at hs
    split at hs <;> cases hs
    · exact ⟨h.installSplit hP hpc.2, hpc.1⟩
    · exact ⟨h, hpc.1⟩
  | casSeal u pl =>
    rw [step] at hs
    split at hs <;> cases hs <;> exact ⟨h, hpc⟩
  | search key child p =>
    rw [step] at hs
    obtain ⟨⟨l, p'⟩, hl, heq⟩ := Option.map_eq_some_iff.mp hs
    cases heq
    obtain ⟨heach, hp'⟩ := hlist hpc hl
    refine ⟨heach, ?_⟩
    split
    · trivial
    · exact hp'
  | collect rest keys vals child p =>
    rw [step] at hs
    obtain ⟨⟨l, p'⟩, hl, heq⟩ := Option.map_eq_some_iff.mp hs
    cases heq
    obtain ⟨heach, hp'⟩ := hlist hpc.2 hl
    refine ⟨heach, ?_⟩
    split
    · exact hpc.1.append hp'
    · exact ⟨hpc.1.append hp', .nil⟩
    · exact ⟨hpc.1, hp'⟩

end BinMem

end KanvaImpl
