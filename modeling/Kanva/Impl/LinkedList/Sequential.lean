import Kanva.Impl.LinkedList.Machine
import Kanva.SortedAssoc

/-!
# The bin list without interference

The calls of `kanva_impl::Linked_List` when one thread runs alone: every CAS finds the word it
expects, so no loop starts over. A list is then the chain of the nodes between its two sentinels,
each with the tag bits of its own `next` word, and the freeze bit of `head`.

A list without tag bits is `SeqList.ofPairs` of its contents, and the lemmas about `ofPairs` say
what each call does to the contents.
-/

namespace KanvaImpl

open Kanva SortedAssoc

/-- A node between the sentinels, with the tag bits of its `next` word. -/
structure ListCell (K : Type) where
  key : K
  value : Val
  mark : Bool
  freeze : Bool
deriving DecidableEq, Repr

/-- The freeze bit of `head->next`, and the nodes between the sentinels. -/
structure SeqList (K : Type) where
  headFreeze : Bool
  cells : List (ListCell K)
deriving DecidableEq, Repr

namespace SeqList

variable {K : Type} [LinearOrder K] [BoundedOrder K]

/-- `Linked_List::Linked_List` -/
def new : SeqList K := ⟨false, []⟩

/-- The inner loops of `find`: the nodes it has passed, and those from `right_node` on, or none of
these when it meets a frozen word and returns `nullptr`. The marked nodes it meets are unlinked. -/
def findFrom (key : K) : List (ListCell K) → List (ListCell K) × Option (List (ListCell K))
  | [] => ([], some [])
  | c :: cs =>
    if c.freeze then (c :: cs, none)
    else if c.mark then findFrom key cs
    else if key ≤ c.key then ([], some (c :: cs))
    else (c :: (findFrom key cs).1, (findFrom key cs).2)

/-- `find`: as `findFrom`, after the test of `head->next`. -/
def find (s : SeqList K) (key : K) : List (ListCell K) × Option (List (ListCell K)) :=
  if s.headFreeze then (s.cells, none) else findFrom key s.cells

/-- The key of `right_node`, the max sentinel's when no node is left. -/
def rightKey (cs : List (ListCell K)) : K := (cs.head?.map ListCell.key).getD ⊤

/-- `insert` -/
def insert (s : SeqList K) (key : K) (value : Val) : SeqList K × ℤ :=
  match s.find key with
  | (before, none) => ({ s with cells := before }, -1)
  | (before, some after) =>
    if rightKey after = key then ({ s with cells := before ++ after }, 0)
    else if value = -1 then ({ s with cells := before ++ after }, 0)
    else ({ s with cells := before ++ ⟨key, value, false, false⟩ :: after }, 1)

/-- `remove`, with the value of the removed node as an `int`. -/
def remove (s : SeqList K) (key : K) : SeqList K × ℤ :=
  match s.find key with
  | (before, none) => ({ s with cells := before }, -1)
  | (before, some after) =>
    if rightKey after ≠ key then ({ s with cells := before ++ after }, -2)
    else ({ s with cells := before ++ after.tail },
      LinkedList.toInt ((after.head?.map ListCell.value).getD 0))

/-- `search`: the first node at or above the key has the key and is not marked. For the least key
that node is `head`, which is never marked. -/
def search (s : SeqList K) (key : K) : Bool :=
  if key = ⊥ then true
  else
    match s.cells.find? fun c => !decide (c.key < key) with
    | some c => c.key = key && !c.mark
    | none => decide ((⊤ : K) = key)

/-- The pairs `collect` appends on its way to the max sentinel: the node a word points at is
appended unless the word is marked. The last one would be the sentinel's. -/
def collectFrom (mark : Bool) : List (ListCell K) → List (K × Val)
  | [] => if mark then [] else [(⊤, 0)]
  | c :: cs => (if mark then [] else [(c.key, c.value)]) ++ collectFrom c.mark cs

/-- `collect`: all words are frozen, and the last pair is taken off again. -/
def collect (s : SeqList K) : SeqList K × List (K × Val) :=
  (⟨true, s.cells.map fun c => { c with freeze := true }⟩,
    (collectFrom false s.cells).dropLast)

/-- The node of a pair, without tag bits. -/
def cellOf (p : K × Val) : ListCell K := ⟨p.1, p.2, false, false⟩

/-- The list without tag bits that holds these pairs. -/
def ofPairs (l : List (K × Val)) : SeqList K := ⟨false, l.map cellOf⟩

variable {key : K} {value : Val} {l : List (K × Val)}

omit [BoundedOrder K] in
theorem findFrom_map_cellOf (key : K) (l : List (K × Val)) :
    findFrom key (l.map cellOf) =
      ((below key l).map cellOf, some ((above key l).map cellOf)) := by
  induction l with
  | nil => rfl
  | cons p l ih =>
    rw [List.map_cons, findFrom, ih]
    by_cases hlt : p.1 < key
    · simp [cellOf, below, above, hlt, not_le.mpr hlt]
    · simp [cellOf, below, above, hlt, not_lt.mp hlt]

omit [BoundedOrder K] in
theorem find_ofPairs (key : K) (l : List (K × Val)) :
    (ofPairs l).find key = ((below key l).map cellOf, some ((above key l).map cellOf)) := by
  rw [find, if_neg (by simp [ofPairs])]
  exact findFrom_map_cellOf key l

/-- The right node of a search for an inner key has this key exactly when the list has it. -/
theorem rightKey_above_iff (h : Sorted l) (hkey : key < ⊤) :
    rightKey ((above key l).map cellOf) = key ↔ HasKey key l := by
  rw [h.hasKey_iff]
  cases hl : above key l with
  | nil => simpa [rightKey] using hkey.ne'
  | cons p t =>
    obtain ⟨x, v⟩ := p
    simp [rightKey, cellOf]

omit [BoundedOrder K] in
theorem ofPairs_append_above (key : K) (l : List (K × Val)) :
    { ofPairs l with cells := (below key l).map cellOf ++ (above key l).map cellOf } =
      ofPairs l := by
  rw [← List.map_append, below_append_above]
  rfl

/-- Inserting a key adds its pair, unless the list has the key. -/
theorem insert_ofPairs (h : Sorted l) (hkey : key < ⊤) (hv : value ≠ -1) :
    (ofPairs l).insert key value =
      (ofPairs (insertPair key value l), if HasKey key l then 0 else 1) := by
  rw [insert, find_ofPairs]
  by_cases hk : HasKey key l
  · simp only [insertPair, if_pos hk, if_pos ((rightKey_above_iff h hkey).mpr hk),
      ofPairs_append_above]
  · simp only [insertPair, if_neg hk, if_neg hv,
      if_neg (fun heq => hk ((rightKey_above_iff h hkey).mp heq))]
    simp [ofPairs, insertNew, cellOf]

/-- Inserting the key of the max sentinel or the reserved value changes nothing. -/
theorem insert_of_not_args (h : ¬ (key < ⊤ ∧ value ≠ -1)) :
    (ofPairs l).insert key value = (ofPairs l, 0) := by
  rw [insert, find_ofPairs]
  simp only [ofPairs_append_above]
  by_cases hkey : key < ⊤
  · have hv : value = -1 := by_contra fun hv => h ⟨hkey, hv⟩
    simp only [if_pos hv, ite_self]
  · obtain rfl : key = ⊤ := not_lt_top_iff.mp hkey
    refine if_pos ?_
    cases ha : above (⊤ : K) l with
    | nil => rfl
    | cons p t =>
      have hle : (⊤ : K) ≤ p.1 := le_head_above (by rw [ha]; rfl)
      exact top_le_iff.mp hle

/-- Removing a key the list does not have changes nothing. -/
theorem remove_of_not_hasKey (h : Sorted l) (hkey : key < ⊤) (hk : ¬ HasKey key l) :
    (ofPairs l).remove key = (ofPairs l, -2) := by
  rw [remove, find_ofPairs]
  simp only
  rw [if_pos (fun heq => hk ((rightKey_above_iff h hkey).mp heq)), ofPairs_append_above]

/-- Removing a key takes its pair out and returns its value. -/
theorem remove_of_mem (h : Sorted l) (hkey : key < ⊤) (hmem : (key, value) ∈ l) :
    (ofPairs l).remove key =
      (ofPairs (below key l ++ (above key l).tail), LinkedList.toInt value) := by
  rw [remove, find_ofPairs]
  simp only
  rw [if_neg (fun hne => hne ((rightKey_above_iff h hkey).mpr ⟨value, hmem⟩))]
  have hhead : ((above key l).map cellOf).head? = some (cellOf (key, value)) := by
    rw [List.head?_map, h.head_above hmem]
    rfl
  rw [hhead]
  simp [ofPairs, cellOf]

omit [BoundedOrder K] in
/-- The node `search` stops at. -/
theorem find?_ofPairs (key : K) (l : List (K × Val)) :
    (ofPairs l).cells.find? (fun c => !decide (c.key < key)) =
      (above key l).head?.map cellOf := by
  rw [show (ofPairs l).cells = l.map cellOf from rfl]
  induction l with
  | nil => rfl
  | cons p l ih =>
    by_cases hlt : p.1 < key
    · simpa [cellOf, above, hlt] using ih
    · simp [cellOf, above, hlt]

/-- `search` finds the least key in every list. -/
theorem search_bot (s : SeqList K) : s.search ⊥ = true := if_pos rfl

/-- `search` decides whether the list has the key. -/
theorem search_ofPairs (h : Sorted l) (hbot : ⊥ < key) (hkey : key < ⊤) :
    (ofPairs l).search key = true ↔ HasKey key l := by
  rw [h.hasKey_iff, search, if_neg hbot.ne', find?_ofPairs]
  cases hl : (above key l).head? with
  | none => simpa using hkey.ne'
  | some p =>
    obtain ⟨x, v⟩ := p
    simp [cellOf]

/-- `remove` takes the key out. -/
theorem remove_ofPairs (h : Sorted l) (hkey : key < ⊤) :
    ∃ r, (ofPairs l).remove key = (ofPairs (erasePair key l), r) := by
  by_cases hk : HasKey key l
  · obtain ⟨v, hv⟩ := hk
    exact ⟨_, by rw [remove_of_mem h hkey hv, erasePair, if_pos ⟨v, hv⟩]⟩
  · exact ⟨_, by rw [remove_of_not_hasKey h hkey hk, erasePair, if_neg hk]⟩

/-- The value with which a list has a key, as its calls see it. The least key is the one of
`head`. -/
def lookup (s : SeqList K) (key : K) : Option Val :=
  if key = ⊥ then some 0
  else
    match s.cells.find? fun c => !decide (c.key < key) with
    | some c => if c.key = key ∧ c.mark = false then some c.value else none
    | none => none

theorem lookup_ofPairs (h : Sorted l) (hbot : ⊥ < key) :
    (ofPairs l).lookup key = l.lookup key := by
  refine Option.ext fun v => ?_
  rw [h.lookup_eq_some_iff, lookup, if_neg hbot.ne', find?_ofPairs]
  constructor
  · intro hv
    cases ha : (above key l).head? with
    | none => simp [ha] at hv
    | some p =>
      obtain ⟨x, w⟩ := p
      simp only [ha, Option.map_some, cellOf, and_true] at hv
      split at hv
      · next hx =>
        obtain rfl := Option.some.inj hv
        subst hx
        rw [← below_append_above x l]
        exact List.mem_append_right _ (List.mem_of_mem_head? ha)
      · cases hv
  · intro hv
    simp [h.head_above hv, cellOf]

/-! ### Lists with freeze bits -/

/-- The list has no marked node. -/
def Clean (s : SeqList K) : Prop := ∀ c ∈ s.cells, c.mark = false

/-- The pairs of the nodes that are not marked. -/
def pairs (s : SeqList K) : List (K × Val) :=
  (s.cells.filter fun c => !c.mark).map fun c => (c.key, c.value)

/-- A search for the key meets a frozen word. -/
def FrozenFor (s : SeqList K) (key : K) : Prop := (s.find key).2 = none

/-- A search for the key meets a frozen word and has unlinked no node. -/
def Rejects (s : SeqList K) (key : K) : Prop := s.find key = (s.cells, none)

instance (s : SeqList K) (key : K) : Decidable (s.FrozenFor key) :=
  inferInstanceAs (Decidable ((s.find key).2 = none))

instance (s : SeqList K) : Decidable s.Clean :=
  inferInstanceAs (Decidable (∀ c ∈ s.cells, c.mark = false))

variable {s : SeqList K}

omit [BoundedOrder K] in
/-- `collect` freezes `head` first, and the calls that follow stop there. -/
theorem rejects_of_headFreeze (h : s.headFreeze = true) (key : K) : s.Rejects key := if_pos h

omit [LinearOrder K] [BoundedOrder K] in
theorem clean_ofPairs (l : List (K × Val)) : (ofPairs l).Clean := by
  intro c hc
  obtain ⟨p, -, rfl⟩ := List.mem_map.mp hc
  rfl

omit [LinearOrder K] [BoundedOrder K] in
@[simp] theorem pairs_ofPairs (l : List (K × Val)) : (ofPairs l).pairs = l := by
  rw [pairs, List.filter_eq_self.mpr fun c hc => by rw [clean_ofPairs l c hc]; rfl]
  simp [ofPairs, cellOf, Function.comp_def]

omit [BoundedOrder K] in
theorem not_frozenFor_ofPairs (l : List (K × Val)) (key : K) : ¬ (ofPairs l).FrozenFor key := by
  rw [FrozenFor, find_ofPairs]
  exact Option.some_ne_none _

omit [BoundedOrder K] in
/-- A search that meets a frozen word passes only nodes that are not marked. -/
theorem FrozenFor.rejects (h : s.FrozenFor key) (hclean : s.Clean) : s.Rejects key := by
  have hfrom : ∀ cs : List (ListCell K), (∀ c ∈ cs, c.mark = false) →
      (findFrom key cs).2 = none → findFrom key cs = (cs, none) := by
    intro cs hmark hnone
    induction cs with
    | nil => simp [findFrom] at hnone
    | cons c cs ih =>
      have hc := hmark c List.mem_cons_self
      have hrest := ih fun d hd => hmark d (List.mem_cons_of_mem _ hd)
      rw [findFrom] at hnone ⊢
      by_cases hf : c.freeze = true
      · rw [if_pos hf]
      · rw [if_neg hf, if_neg (by simp [hc])] at hnone ⊢
        by_cases hle : key ≤ c.key
        · simp [hle] at hnone
        · rw [if_neg hle] at hnone ⊢
          rw [hrest hnone]
  rw [FrozenFor, find] at h
  rw [Rejects, find]
  by_cases hhead : s.headFreeze = true
  · rw [if_pos hhead]
  · rw [if_neg hhead] at h ⊢
    exact hfrom s.cells hclean h

theorem Rejects.insert (h : s.Rejects key) (value : Val) : s.insert key value = (s, -1) := by
  rw [SeqList.insert, h]

theorem Rejects.remove (h : s.Rejects key) : s.remove key = (s, -1) := by
  rw [SeqList.remove, h]

/-- The status of `insert` is negative only in a frozen list. -/
theorem insert_eq_neg_one_iff : (s.insert key value).2 = -1 ↔ s.FrozenFor key := by
  rw [FrozenFor, insert]
  cases hf : s.find key with
  | mk before after =>
    cases after with
    | none => simp
    | some after =>
      simp only [reduceCtorEq, iff_false]
      split_ifs <;> simp

/-- `collect` returns the pairs of a list without marked nodes. -/
theorem collect_eq_pairs (hclean : s.Clean) : s.collect.2 = s.pairs := by
  have hfrom : ∀ cs : List (ListCell K), (∀ c ∈ cs, c.mark = false) →
      collectFrom false cs = (cs.map fun c => (c.key, c.value)) ++ [((⊤ : K), (0 : Val))] := by
    intro cs hmark
    induction cs with
    | nil => rfl
    | cons c cs ih =>
      rw [collectFrom, hmark c List.mem_cons_self,
        ih fun d hd => hmark d (List.mem_cons_of_mem _ hd)]
      rfl
  rw [collect, hfrom s.cells hclean, pairs,
    List.filter_eq_self.mpr fun c hc => by rw [hclean c hc]; rfl]
  simp

/-- `collect` returns the contents. -/
theorem collect_ofPairs (l : List (K × Val)) : ((ofPairs l).collect).2 = l := by
  rw [collect_eq_pairs (clean_ofPairs l), pairs_ofPairs]

/-- `collect` keeps the pairs. -/
@[simp] theorem pairs_collect (s : SeqList K) : s.collect.1.pairs = s.pairs := by
  simp [collect, pairs, List.filter_map, Function.comp_def]

end SeqList

end KanvaImpl
