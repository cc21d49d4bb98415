import Kanva.SortedArray
import Mathlib.Data.List.Basic
import Mathlib.Order.Lattice
import Mathlib.Data.List.Pairwise
import Mathlib.Data.List.TakeWhile

/-!
# Association lists with strictly increasing keys

The contents of a sorted list, of a leaf and of a model array are association lists
`List (K × V)` whose keys strictly increase. `below k l` and `above k l` are the two parts a search
for `k` splits such a list into, and `insertNew k v l` puts a new pair between them. A sorted list
is a finite partial map: `lookup_eq_some_iff` reads `List.lookup` as membership.
-/

namespace SortedAssoc

variable {K V : Type*} [LinearOrder K]

/-- The keys strictly increase. -/
def Sorted (l : List (K × V)) : Prop := l.Pairwise fun p q => p.1 < q.1

/-- The part of `l` before the key `k`. -/
def below (k : K) (l : List (K × V)) : List (K × V) := l.takeWhile fun p => p.1 < k

/-- The part of `l` from the key `k` on. -/
def above (k : K) (l : List (K × V)) : List (K × V) := l.dropWhile fun p => p.1 < k

/-- Put a pair with a new key at its place. -/
def insertNew (k : K) (v : V) (l : List (K × V)) : List (K × V) := below k l ++ (k, v) :: above k l

/-- `k` is a key of `l`. -/
def HasKey (k : K) (l : List (K × V)) : Prop := ∃ v, (k, v) ∈ l

omit [LinearOrder K] in
theorem hasKey_iff_mem_map {k : K} {l : List (K × V)} : HasKey k l ↔ k ∈ l.map Prod.fst := by
  simp [HasKey]

/-- The keys of a list are those `List.lookup` finds. -/
theorem hasKey_iff_lookup (l : List (K × V)) {k : K} : HasKey k l ↔ ∃ v, l.lookup k = some v := by
  rw [← Option.isSome_iff_exists, Option.isSome_iff_ne_none, Ne, List.lookup_eq_none_iff]
  simp only [HasKey, not_forall, bne_iff_ne, ne_eq, Decidable.not_not]
  constructor
  · rintro ⟨v, hv⟩
    exact ⟨(k, v), hv, by simp⟩
  · rintro ⟨⟨x, v⟩, hv, heq⟩
    obtain rfl : k = x := by simpa using heq
    exact ⟨v, hv⟩

/-- A pair at the end counts when its key is new. -/
theorem lookup_concat (l : List (K × V)) (k : K) (v : V) (x : K) :
    (l ++ [(k, v)]).lookup x = if x = k then some ((l.lookup k).getD v) else l.lookup x := by
  rw [List.lookup_append]
  by_cases hx : x = k
  · subst hx
    cases l.lookup x <;> simp
  · have hbeq : (x == k) = false := by simpa using hx
    simp [hx, List.lookup_cons, hbeq]

instance (k : K) (l : List (K × V)) : Decidable (HasKey k l) :=
  decidable_of_iff _ hasKey_iff_mem_map.symm

/-- Put a pair at its place, unless the key is there already. -/
def insertPair (k : K) (v : V) (l : List (K × V)) : List (K × V) :=
  if HasKey k l then l else insertNew k v l

variable {k x : K} {v w : V} {l l₁ l₂ : List (K × V)}

theorem below_append_above (k : K) (l : List (K × V)) : below k l ++ above k l = l :=
  List.takeWhile_append_dropWhile

theorem lt_of_mem_below {p : K × V} (hp : p ∈ below k l) : p.1 < k := by
  simpa using List.mem_takeWhile_imp hp

/-- The first key at or above `k` is at least `k`. -/
theorem le_head_above {p : K × V} (hp : (above k l).head? = some p) : k ≤ p.1 := by
  have hnot := List.head?_dropWhile_not (fun p : K × V => decide (p.1 < k)) l
  unfold above at hp
  rw [hp] at hnot
  simpa using hnot

namespace Sorted

theorem nil : Sorted ([] : List (K × V)) := List.Pairwise.nil

theorem sublist (h : Sorted l₂) (hs : l₁.Sublist l₂) : Sorted l₁ := List.Pairwise.sublist hs h

theorem append_iff : Sorted (l₁ ++ l₂) ↔ Sorted l₁ ∧ Sorted l₂ ∧ ∀ p ∈ l₁, ∀ q ∈ l₂, p.1 < q.1 :=
  List.pairwise_append

/-- All the keys above `k` are at least `k`. -/
theorem le_of_mem_above (h : Sorted l) {p : K × V} (hp : p ∈ above k l) : k ≤ p.1 := by
  have hs : Sorted (above k l) := h.sublist (List.dropWhile_sublist _)
  cases hl : above k l with
  | nil => simp [hl] at hp
  | cons q t =>
    have hq : k ≤ q.1 := le_head_above (by rw [hl]; rfl)
    rw [hl] at hp hs
    rcases List.mem_cons.mp hp with rfl | ht
    · exact hq
    · exact hq.trans (List.rel_of_pairwise_cons hs ht).le

/-- A key determines its pair. -/
theorem eq_of_mem (h : Sorted l) (hv : (k, v) ∈ l) (hw : (k, w) ∈ l) : v = w := by
  induction l with
  | nil => simp at hv
  | cons p l ih =>
    have hlt : ∀ q ∈ l, p.1 < q.1 := fun q hq => List.rel_of_pairwise_cons h hq
    rcases List.mem_cons.mp hv with hpv | hvl
    · rcases List.mem_cons.mp hw with hpw | hwl
      · exact (Prod.ext_iff.mp (hpv.trans hpw.symm)).2
      · exact absurd (hlt _ hwl) (by rw [← hpv]; exact lt_irrefl _)
    · rcases List.mem_cons.mp hw with hpw | hwl
      · exact absurd (hlt _ hvl) (by rw [← hpw]; exact lt_irrefl _)
      · exact ih (List.Pairwise.of_cons h) hvl hwl

/-- The pair at a key is the head of the part from that key on. -/
theorem head_above (h : Sorted l) (hv : (k, v) ∈ l) : (above k l).head? = some (k, v) := by
  have hin : (k, v) ∈ above k l := by
    rw [← below_append_above k l] at hv
    rcases List.mem_append.mp hv with hb | ha
    · exact absurd (lt_of_mem_below hb) (lt_irrefl _)
    · exact ha
  cases hl : above k l with
  | nil => simp [hl] at hin
  | cons q t =>
    have hs : Sorted (above k l) := h.sublist (List.dropWhile_sublist _)
    have hq : k ≤ q.1 := le_head_above (by rw [hl]; rfl)
    rw [hl] at hin hs
    rcases List.mem_cons.mp hin with heq | ht
    · rw [heq]
      rfl
    · exact absurd (List.rel_of_pairwise_cons hs ht) (not_lt.mpr hq)

/-- `k` is a key exactly when the part from `k` on starts with it. -/
theorem hasKey_iff (h : Sorted l) : HasKey k l ↔ ∃ v, (above k l).head? = some (k, v) := by
  constructor
  · rintro ⟨v, hv⟩
    exact ⟨v, h.head_above hv⟩
  · rintro ⟨v, hv⟩
    refine ⟨v, ?_⟩
    rw [← below_append_above k l]
    exact List.mem_append_right _ (List.mem_of_mem_head? hv)

/-- A sorted list is read off by `List.lookup`. -/
theorem lookup_eq_some_iff (h : Sorted l) : l.lookup k = some v ↔ (k, v) ∈ l := by
  induction l with
  | nil => simp
  | cons p l ih =>
    obtain ⟨x, u⟩ := p
    have hlt : ∀ q ∈ l, x < q.1 := fun q hq => List.rel_of_pairwise_cons h hq
    rw [List.lookup_cons]
    by_cases hx : k = x
    · subst hx
      simp only [beq_self_eq_true, Option.some.injEq, List.mem_cons, Prod.mk.injEq, true_and]
      constructor
      · rintro rfl
        exact .inl rfl
      · rintro (rfl | hmem)
        · rfl
        · exact absurd (hlt _ hmem) (lt_irrefl _)
    · have hbeq : (k == x) = false := by simpa using hx
      rw [hbeq, ih (List.Pairwise.of_cons h)]
      simp [hx]

/-- Inserting a new key keeps the list sorted. -/
theorem insertNew (h : Sorted l) (hk : ¬ HasKey k l) : Sorted (insertNew k v l) := by
  have hs := h
  rw [← below_append_above k l, append_iff] at hs
  obtain ⟨hb, ha, hba⟩ := hs
  refine append_iff.mpr ⟨hb, List.pairwise_cons.mpr ⟨fun q hq => ?_, ha⟩, fun p hp q hq => ?_⟩
  · obtain ⟨x, w⟩ := q
    refine lt_of_le_of_ne (h.le_of_mem_above hq) fun heq => hk ⟨w, ?_⟩
    obtain rfl : k = x := heq
    rw [← below_append_above k l]
    exact List.mem_append_right _ hq
  · rcases List.mem_cons.mp hq with rfl | hq
    · exact lt_of_mem_below hp
    · exact hba p hp q hq

end Sorted

theorem mem_insertNew {p : K × V} : p ∈ insertNew k v l ↔ p = (k, v) ∨ p ∈ l := by
  conv_rhs => rw [← below_append_above k l]
  simp only [insertNew, List.mem_append, List.mem_cons]
  tauto

theorem length_insertNew : (insertNew k v l).length = l.length + 1 := by
  conv_rhs => rw [← below_append_above k l]
  simp only [insertNew, List.length_append, List.length_cons]
  omega

theorem Sorted.insertPair (h : Sorted l) : Sorted (insertPair k v l) := by
  unfold SortedAssoc.insertPair
  split
  · exact h
  · next hk => exact h.insertNew hk

theorem mem_insertPair {p : K × V} :
    p ∈ insertPair k v l ↔ p ∈ l ∨ p = (k, v) ∧ ¬ HasKey k l := by
  unfold insertPair
  split
  · next hk => simp [hk]
  · next hk =>
    rw [mem_insertNew]
    simp [hk, or_comm]

theorem hasKey_insertPair : HasKey x (insertPair k v l) ↔ x = k ∨ HasKey x l := by
  constructor
  · rintro ⟨w, hw⟩
    rcases mem_insertPair.mp hw with hl | ⟨heq, -⟩
    · exact .inr ⟨w, hl⟩
    · exact .inl (Prod.ext_iff.mp heq).1
  · rintro (rfl | ⟨w, hw⟩)
    · by_cases hk : HasKey x l
      · obtain ⟨w, hw⟩ := hk
        exact ⟨w, mem_insertPair.mpr (.inl hw)⟩
      · exact ⟨v, mem_insertPair.mpr (.inr ⟨rfl, hk⟩)⟩
    · exact ⟨w, mem_insertPair.mpr (.inl hw)⟩

theorem length_insertPair :
    (insertPair k v l).length = if HasKey k l then l.length else l.length + 1 := by
  unfold insertPair
  split
  · rfl
  · exact length_insertNew

/-- The first value of a key stays. -/
theorem Sorted.lookup_insertPair (h : Sorted l) :
    (SortedAssoc.insertPair k v l).lookup x =
      if x = k then some ((l.lookup k).getD v) else l.lookup x := by
  have hins := h.insertPair (k := k) (v := v)
  by_cases hx : x = k
  · subst hx
    rw [if_pos rfl, hins.lookup_eq_some_iff, mem_insertPair]
    cases hl : l.lookup x with
    | none =>
      refine .inr ⟨rfl, fun hk => ?_⟩
      obtain ⟨w, hw⟩ := (hasKey_iff_lookup l).mp hk
      rw [hl] at hw
      cases hw
    | some w => exact .inl (h.lookup_eq_some_iff.mp hl)
  · rw [if_neg hx]
    refine Option.ext fun w => ?_
    rw [hins.lookup_eq_some_iff, h.lookup_eq_some_iff, mem_insertPair]
    simp [hx]

/-- Take the pair of a key out, when there is one. -/
def erasePair (k : K) (l : List (K × V)) : List (K × V) :=
  if HasKey k l then below k l ++ (above k l).tail else l

theorem erasePair_sublist (k : K) (l : List (K × V)) : (erasePair k l).Sublist l := by
  unfold erasePair
  split
  · conv_rhs => rw [← below_append_above k l]
    exact List.Sublist.append_left (List.tail_sublist _) _
  · exact List.Sublist.refl l

theorem Sorted.mem_erasePair (h : Sorted l) {p : K × V} :
    p ∈ erasePair k l ↔ p ∈ l ∧ p.1 ≠ k := by
  unfold erasePair
  split
  · next hk =>
    obtain ⟨v, hv⟩ := hk
    obtain ⟨t, ht⟩ : ∃ t, above k l = (k, v) :: t :=
      ⟨_, (List.cons_head?_tail (h.head_above hv)).symm⟩
    have hs := h
    rw [← below_append_above k l, append_iff, ht] at hs
    conv_rhs => rw [← below_append_above k l, ht]
    rw [ht, List.tail_cons, List.mem_append, List.mem_append, List.mem_cons]
    have hb : p ∈ below k l → p.1 ≠ k := fun hp => (lt_of_mem_below hp).ne
    have ha : p ∈ t → p.1 ≠ k := fun hp => (List.rel_of_pairwise_cons hs.2.1 hp).ne'
    have he : p = (k, v) → p.1 = k := fun hp => by rw [hp]
    tauto
  · next hk =>
    refine ⟨fun hp => ⟨hp, fun heq => hk ⟨p.2, ?_⟩⟩, And.left⟩
    rwa [← heq]

theorem Sorted.erasePair (h : Sorted l) : Sorted (erasePair k l) :=
  h.sublist (erasePair_sublist k l)

/-- Taking a pair out makes the list shorter by one. -/
theorem Sorted.length_erasePair (h : Sorted l) (hk : HasKey k l) :
    (SortedAssoc.erasePair k l).length + 1 = l.length := by
  obtain ⟨v, hv⟩ := hk
  have hlen := congrArg List.length (below_append_above k l)
  rw [List.length_append, ← List.cons_head?_tail (h.head_above hv)] at hlen
  rw [SortedAssoc.erasePair, if_pos ⟨v, hv⟩, List.length_append]
  exact hlen

theorem Sorted.lookup_erasePair (h : Sorted l) :
    (SortedAssoc.erasePair k l).lookup x = if x = k then none else l.lookup x := by
  refine Option.ext fun w => ?_
  rw [h.erasePair.lookup_eq_some_iff, h.mem_erasePair]
  split
  · next hx => simp [hx]
  · next hx => simp [hx, h.lookup_eq_some_iff]

/-! ### Consecutive pieces -/

section Pieces

variable [Zero K] {segs : List (List (K × V))} {seg : List (K × V)}

omit [LinearOrder K] [Zero K] in
theorem getD_map_of_lt {α β : Type*} (f : α → β) {l : List α} {d : β} {i : ℕ}
    (hi : i < l.length) : (l.map f).getD i d = f l[i] := by
  simp [List.getD, hi]

/-- The last key of a list that is not empty is one of its keys, and the greatest. -/
theorem lastKey_spec (hs : Sorted seg) (hne : seg ≠ []) :
    (∃ p ∈ seg, (seg.map Prod.fst).getD (seg.length - 1) 0 = p.1) ∧
      ∀ p ∈ seg, p.1 ≤ (seg.map Prod.fst).getD (seg.length - 1) 0 := by
  have hpos : 0 < seg.length := List.length_pos_iff.mpr hne
  have hlast : (seg.map Prod.fst).getD (seg.length - 1) 0 = (seg[seg.length - 1]).1 := by
    rw [getD_map_of_lt _ (by omega)]
  rw [hlast]
  refine ⟨⟨_, List.getElem_mem _, rfl⟩, fun p hp => ?_⟩
  obtain ⟨i, hi, rfl⟩ := List.mem_iff_getElem.mp hp
  rcases Nat.lt_or_eq_of_le (Nat.le_sub_one_of_lt hi) with hlt | heq
  · exact (List.pairwise_iff_getElem.mp hs i _ hi (by omega) hlt).le
  · simp only [heq]
    exact le_rfl

/-- The last keys of the pieces of a sorted list increase. -/
theorem lastKeys_mono (hne : ∀ seg ∈ segs, seg ≠ []) (hs : Sorted segs.flatten) :
    ∀ i j, i ≤ j → j < segs.length →
      (segs.map fun seg => (seg.map Prod.fst).getD (seg.length - 1) 0).getD i 0 ≤
        (segs.map fun seg => (seg.map Prod.fst).getD (seg.length - 1) 0).getD j 0 := by
  intro i j hij hj
  obtain ⟨hsorted, hpair⟩ := List.pairwise_flatten.mp hs
  rcases Nat.lt_or_eq_of_le hij with hlt | rfl
  · have hspec := fun i (hi : i < segs.length) =>
      lastKey_spec (hsorted _ (List.getElem_mem hi)) (hne _ (List.getElem_mem hi))
    obtain ⟨p, hp, hpe⟩ := (hspec i (by omega)).1
    obtain ⟨q, hq, hqe⟩ := (hspec j hj).1
    have hpq := List.pairwise_iff_getElem.mp hpair i j (by omega) hj hlt p hp q hq
    rw [← hpe, ← hqe] at hpq
    rw [getD_map_of_lt _ (by omega), getD_map_of_lt _ hj]
    exact hpq.le
  · exact le_rfl

/-- The first last key that is not less than a key of a piece is the one of the piece. -/
theorem lowerBound_lastKeys (hne : ∀ seg ∈ segs, seg ≠ []) (hs : Sorted segs.flatten) {j : ℕ}
    (hj : j < segs.length) {p : K × V} (hp : p ∈ segs[j]) :
    SortedArray.lowerBound
      (fun i => (segs.map fun seg => (seg.map Prod.fst).getD (seg.length - 1) 0).getD i 0) p.1
      segs.length = j := by
  obtain ⟨hsorted, hpair⟩ := List.pairwise_flatten.mp hs
  have hspec := fun i (hi : i < segs.length) =>
    lastKey_spec (hsorted _ (List.getElem_mem hi)) (hne _ (List.getElem_mem hi))
  refine SortedArray.lowerBound_eq hj.le (fun i hi => ?_) fun _ => ?_
  · rw [getD_map_of_lt _ (hi.trans hj)]
    obtain ⟨q, hq, hqe⟩ := (hspec i (hi.trans hj)).1
    rw [hqe]
    exact List.pairwise_iff_getElem.mp hpair i j (hi.trans hj) hj hi q hq _ hp
  · rw [getD_map_of_lt _ hj]
    exact (hspec j hj).2 _ hp

end Pieces

end SortedAssoc
