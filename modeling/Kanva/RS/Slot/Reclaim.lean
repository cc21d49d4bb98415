import Kanva.RS.Slot.Retraining
import Kanva.RS.VersionTracker.Watermark

/-!
# What reclamation takes from a range query

`reclaimMem` walks over the frozen list of a bin that has given way to a model. Of every chain it
retires the versions behind the newest one that are stamped at most `tstamp_threshold`. A read at
`T` wants the newest version stamped before `T`, and this one may be older than the threshold: it is
the version that was current at the threshold.

The threshold is the result of `get_oldest_timestamp`, which is always 0.

## Main results

* `reclaimMem_spares_iff`: when the reads at `T` are safe from `reclaimMem`.
* `reclaimMem_takes_read`: a read that is not.
-/

namespace KanvaRS

open Interleaving Kanva

/-- Of a list whose stamps do not increase, the first element stamped before `T` is in the tail and
stamped at most `t`, or one of three things is the case. -/
theorem find?_retired_iff {α : Type*} {f : α → ℤ} {v : α} {l : List α} (hnodup : v ∉ l)
    (hsorted : (v :: l).Pairwise fun a b => f b ≤ f a) {t T : ℤ} :
    (∀ w, (v :: l).find? (fun a => f a < T) = some w → ¬ (w ∈ l ∧ f w ≤ t)) ↔
      f v < T ∨ (∀ w ∈ v :: l, T ≤ f w) ∨ ∃ w ∈ v :: l, t < f w ∧ f w < T := by
  constructor
  · intro h
    -- without one of the three, the first stamp below `T` would be in the tail and at most `t`
    by_cases hv : f v < T
    · exact .inl hv
    cases hfind : (v :: l).find? (fun a => f a < T) with
    | none =>
      refine .inr (.inl fun w hw => ?_)
      simpa using List.find?_eq_none.mp hfind w hw
    | some w =>
      have hlt : f w < T := by simpa using List.find?_some hfind
      have hmem := List.mem_of_find?_eq_some hfind
      have hl : w ∈ l := by
        rcases List.mem_cons.mp hmem with rfl | hl
        · exact absurd hlt hv
        · exact hl
      refine .inr (.inr ⟨w, hmem, ?_, hlt⟩)
      by_contra hle
      exact h w hfind ⟨hl, not_lt.mp hle⟩
  · rintro h w hfind ⟨hl, hle⟩
    have hlt : f w < T := by simpa using List.find?_some hfind
    rcases h with hv | hall | ⟨u, hu, htu, huT⟩
    · rw [List.find?_cons_of_pos (by simpa using hv)] at hfind
      exact hnodup (Option.some.inj hfind ▸ hl)
    · exact absurd (hall w (List.mem_of_find?_eq_some hfind)) (not_le.mpr hlt)
    · -- `u` does not come before the first one
      obtain ⟨-, as, bs, heq, has⟩ := List.find?_eq_some_iff_append.mp hfind
      rw [heq] at hu hsorted
      rcases List.mem_append.mp hu with hu | hu
      · simpa [huT] using has u hu
      · rcases List.mem_cons.mp hu with rfl | hu
        · exact absurd hle (not_le.mpr htu)
        · have hwu := (List.pairwise_cons.mp (List.pairwise_append.mp hsorted).2.1).1 u hu
          omega

namespace SlotMemory

variable {K : Type}

/-- What `reclaimMem` has retired. -/
structure Retired where
  vnodes : List ℕ
  nodes : List ℕ
deriving DecidableEq, Repr

/-- The inner loop of `reclaimMem`, over the versions behind `left_vnode`. -/
def retireVersions (s : SlotMemory K) (threshold : ℤ) : ℕ → ℕ → Retired → Option Retired
  | 0, _, _ => none
  | fuel + 1, leftVnode, r =>
    let currVnode := (s.version leftVnode).nextv
    if currVnode ≠ 0 then
      s.retireVersions threshold fuel currVnode
        (if (s.version currVnode).ts ≤ threshold then ⟨r.vnodes ++ [currVnode], r.nodes⟩ else r)
    else some r

/-- The loop of `reclaimMem` over the nodes; an assertion stops it. -/
def reclaimLoop (s : SlotMemory K) (threshold : ℤ) (vfuel : ℕ) : ℕ → ℕ → Retired → Option Retired
  | 0, _, _ => none
  | fuel + 1, leftNode, r =>
    if (s.next leftNode).getUnmarkedRef ≠ .null then
      if !(s.next leftNode).isFreeze then none
      else
        (s.retireVersions threshold vfuel (s.vhead (.node leftNode)).getUnmarkedRef.addr r).bind
          fun r => s.reclaimLoop threshold vfuel fuel (s.next leftNode).unsetFreeze.addr
            ⟨r.vnodes, r.nodes ++ [leftNode]⟩
    else some r

/-- `Linked_List::reclaimMem`; every loop may take `fuel` rounds. -/
def reclaimMem (s : SlotMemory K) (fuel : ℕ) (threshold : ℤ) : Option Retired :=
  if !(s.next head).isFreeze then none
  else s.reclaimLoop threshold fuel fuel (s.next head).unsetFreeze.addr ⟨[], []⟩

/-- The loop of `range_query` and of `getVersionedValue`: the address of the version it stops at. -/
def skipVersions (s : SlotMemory K) (currTs : ℤ) : ℕ → ℕ → Option ℕ
  | 0, _ => none
  | fuel + 1, currVhead =>
    if currVhead ≠ 0 ∧ currTs ≤ (s.version currVhead).ts then
      s.skipVersions currTs fuel (s.version currVhead).nextv
    else some currVhead

/-- The chain of versions that starts at `v`. -/
def Versions (s : SlotMemory K) : ℕ → List ℕ → Prop
  | v, [] => v = 0
  | v, w :: l => w = v ∧ w ≠ 0 ∧ s.Versions (s.version w).nextv l

instance (s : SlotMemory K) : ∀ v l, Decidable (s.Versions v l)
  | v, [] => inferInstanceAs (Decidable (v = 0))
  | v, w :: l =>
    have := instDecidableVersions s (s.version w).nextv l
    inferInstanceAs (Decidable (w = v ∧ w ≠ 0 ∧ s.Versions (s.version w).nextv l))

/-- The stamp of a version. -/
def ts (s : SlotMemory K) (v : ℕ) : ℤ := (s.version v).ts

/-- A frozen list: its nodes between the sentinels, and the chain of each node, the newest version
first. The chains are fully stamped, and no stamp is below the one behind it. -/
structure FrozenBin (s : SlotMemory K) (nodes : List ℕ) (chain : ℕ → List ℕ) : Prop where
  path : (head :: nodes ++ [maxAddr]).IsChain fun a b => s.succ a = b
  frozen : ∀ a ∈ head :: nodes, (s.next a).freeze = true
  max_next : s.next maxAddr = .null
  versions : ∀ a ∈ nodes, s.Versions (s.vhead (.node a)).addr (chain a)
  chain_ne : ∀ a ∈ nodes, chain a ≠ []
  disjoint : ∀ a ∈ nodes, ∀ b ∈ nodes, a ≠ b → ∀ v ∈ chain a, v ∉ chain b
  stamped : ∀ a ∈ nodes, ∀ v ∈ chain a, s.ts v ≠ -1
  sorted : ∀ a ∈ nodes, (chain a).Pairwise fun v w => s.ts w ≤ s.ts v

instance (s : SlotMemory K) (nodes : List ℕ) (chain : ℕ → List ℕ) :
    Decidable (s.FrozenBin nodes chain) :=
  decidable_of_iff
    ((head :: nodes ++ [maxAddr]).IsChain (fun a b => s.succ a = b) ∧
      (∀ a ∈ head :: nodes, (s.next a).freeze = true) ∧ s.next maxAddr = .null ∧
      (∀ a ∈ nodes, s.Versions (s.vhead (.node a)).addr (chain a)) ∧ (∀ a ∈ nodes, chain a ≠ []) ∧
      (∀ a ∈ nodes, ∀ b ∈ nodes, a ≠ b → ∀ v ∈ chain a, v ∉ chain b) ∧
      (∀ a ∈ nodes, ∀ v ∈ chain a, s.ts v ≠ -1) ∧
      ∀ a ∈ nodes, (chain a).Pairwise fun v w => s.ts w ≤ s.ts v)
    ⟨fun ⟨h₁, h₂, h₃, h₄, h₅, h₆, h₇, h₈⟩ => ⟨h₁, h₂, h₃, h₄, h₅, h₆, h₇, h₈⟩,
      fun ⟨h₁, h₂, h₃, h₄, h₅, h₆, h₇, h₈⟩ => ⟨h₁, h₂, h₃, h₄, h₅, h₆, h₇, h₈⟩⟩

variable {s : SlotMemory K}

/-- A pointer starts one chain only. -/
theorem Versions.unique {v : ℕ} {l l' : List ℕ} (h : s.Versions v l) (h' : s.Versions v l') :
    l = l' := by
  induction l generalizing v l' with
  | nil =>
    cases l' with
    | nil => rfl
    | cons w l' =>
      obtain ⟨rfl, hne, -⟩ := h'
      exact absurd h hne
  | cons w l ih =>
    obtain ⟨rfl, hne, hl⟩ := h
    cases l' with
    | nil => exact absurd h' hne
    | cons w' l' =>
      obtain ⟨rfl, -, hl'⟩ := h'
      rw [ih hl hl']

/-- What follows a version in a chain is the chain behind it. -/
theorem Versions.suffix {v w : ℕ} {l₁ l₂ : List ℕ} (h : s.Versions v (l₁ ++ w :: l₂)) :
    s.Versions w (w :: l₂) := by
  induction l₁ generalizing v with
  | nil => exact h.1 ▸ h
  | cons u l₁ ih => exact ih h.2.2

/-- A chain does not repeat its first version. -/
theorem Versions.head_notMem {v w : ℕ} {l : List ℕ} (h : s.Versions v (w :: l)) : w ∉ l := by
  intro hmem
  obtain ⟨l₁, l₂, rfl⟩ := List.append_of_mem hmem
  obtain rfl : w = v := h.1
  have hshort := h.2.2.suffix.unique h
  have hlen := congrArg List.length hshort
  simp only [List.length_cons, List.length_append] at hlen
  omega

/-- The inner loop goes over the versions behind `left_vnode`. -/
theorem retireVersions_eq {threshold : ℤ} {fuel w : ℕ} {l : List ℕ} {r : Retired}
    (h : s.Versions (s.version w).nextv l) (hfuel : l.length < fuel) :
    s.retireVersions threshold fuel w r =
      some ⟨r.vnodes ++ l.filter fun v => s.ts v ≤ threshold, r.nodes⟩ := by
  induction l generalizing w fuel r with
  | nil =>
    obtain ⟨fuel, rfl⟩ := Nat.exists_eq_add_of_lt hfuel
    have hnull : (s.version w).nextv = 0 := h
    simp [retireVersions, hnull]
  | cons v l ih =>
    obtain ⟨rfl, hne, hl⟩ := h
    cases fuel with
    | zero => exact absurd hfuel (Nat.not_lt_zero _)
    | succ fuel =>
      have hlen : l.length < fuel := Nat.lt_of_succ_lt_succ hfuel
      rw [retireVersions, if_pos hne, ih hl hlen]
      by_cases hts : (s.version (s.version w).nextv).ts ≤ threshold <;> simp [ts, hts]

/-- The read stops at the newest version stamped before `currTs`. -/
theorem skipVersions_eq {currTs : ℤ} {fuel v : ℕ} {l : List ℕ} (h : s.Versions v l)
    (hfuel : l.length < fuel) :
    s.skipVersions currTs fuel v = some ((l.find? fun w => s.ts w < currTs).getD 0) := by
  induction l generalizing v fuel with
  | nil =>
    cases fuel with
    | zero => exact absurd hfuel (Nat.not_lt_zero _)
    | succ fuel =>
      obtain rfl : v = 0 := h
      simp [skipVersions]
  | cons w l ih =>
    obtain ⟨rfl, hne, hl⟩ := h
    cases fuel with
    | zero => exact absurd hfuel (Nat.not_lt_zero _)
    | succ fuel =>
      rw [skipVersions]
      by_cases hts : s.ts w < currTs
      · rw [if_neg (fun hskip => absurd hskip.2 (not_le.mpr hts)),
          List.find?_cons_of_pos (by simpa using hts)]
        rfl
      · rw [if_pos ⟨hne, not_lt.mp hts⟩, List.find?_cons_of_neg (by simpa using hts)]
        exact ih hl (Nat.lt_of_succ_lt_succ hfuel)

/-- A chain has no null pointer in it. -/
theorem Versions.ne_zero {v w : ℕ} {l : List ℕ} (h : s.Versions v l) (hw : w ∈ l) : w ≠ 0 := by
  obtain ⟨l₁, l₂, rfl⟩ := List.append_of_mem hw
  exact h.suffix.2.1

/-- A chain that is not empty: its first version, and what is behind it. -/
theorem Versions.eq_cons {v : ℕ} {l : List ℕ} (h : s.Versions v l) (hne : l ≠ []) :
    ∃ l', l = v :: l' ∧ s.Versions (s.version v).nextv l' := by
  cases l with
  | nil => exact absurd rfl hne
  | cons w l' =>
    obtain ⟨rfl, -, hl⟩ := h
    exact ⟨l', rfl, hl⟩

section Walk

variable {nodes : List ℕ} {chain : ℕ → List ℕ} {threshold : ℤ}

/-- The versions `reclaimMem` retires. -/
def retiredOf (s : SlotMemory K) (chain : ℕ → List ℕ) (threshold : ℤ) (nodes : List ℕ) : List ℕ :=
  nodes.flatMap fun a => (chain a).tail.filter fun v => s.ts v ≤ threshold

/-- A node is followed by the next one, the last by the max sentinel. -/
theorem head?_path {a : ℕ} (hpath : (a :: nodes ++ [maxAddr]).IsChain fun a b => s.succ a = b) :
    (nodes ++ [maxAddr]).head? = some (s.next a).unsetFreeze.addr := by
  cases hrest : nodes ++ [maxAddr] with
  | nil => simp at hrest
  | cons b rest =>
    rw [List.cons_append, hrest, List.isChain_cons_cons] at hpath
    rw [List.head?_cons, ← hpath.1]
    rfl

/-- A node whose word is frozen and whose versions are a chain that is not longer than `vfuel`. -/
structure Readable (s : SlotMemory K) (chain : ℕ → List ℕ) (vfuel a : ℕ) : Prop where
  frozen : (s.next a).freeze = true
  versions : s.Versions (s.vhead (.node a)).addr (chain a)
  chain_ne : chain a ≠ []
  length_le : (chain a).length ≤ vfuel

/-- The loop over the nodes goes on to the max sentinel. -/
theorem reclaimLoop_eq {vfuel fuel leftNode : ℕ} {r : Retired}
    (hpath : (nodes ++ [maxAddr]).IsChain fun a b => s.succ a = b) (hmax : s.next maxAddr = .null)
    (hnodes : ∀ a ∈ nodes, s.Readable chain vfuel a)
    (hleft : (nodes ++ [maxAddr]).head? = some leftNode) (hfuel : nodes.length < fuel) :
    s.reclaimLoop threshold vfuel fuel leftNode r =
      some ⟨r.vnodes ++ s.retiredOf chain threshold nodes, r.nodes ++ nodes⟩ := by
  induction nodes generalizing fuel leftNode r with
  | nil =>
    cases fuel with
    | zero => exact absurd hfuel (Nat.not_lt_zero _)
    -- the sentinel ends the loop
    | succ fuel =>
      obtain rfl : maxAddr = leftNode := Option.some.inj hleft
      have hnull : (s.next maxAddr).getUnmarkedRef = .null := by rw [hmax]; rfl
      rw [reclaimLoop, if_neg (not_not.mpr hnull)]
      simp [retiredOf]
  | cons a nodes ih =>
    cases fuel with
    | zero => exact absurd hfuel (Nat.not_lt_zero _)
    | succ fuel =>
      obtain rfl : a = leftNode := Option.some.inj hleft
      obtain ⟨hf, hversions, hne, hle⟩ := hnodes a List.mem_cons_self
      -- a frozen word is not null, so the loop goes on
      have hnull : (s.next a).getUnmarkedRef ≠ .null := by
        intro heq
        have hfreeze := congrArg TaggedPtr.freeze heq
        rw [TaggedPtr.getUnmarkedRef_freeze, hf] at hfreeze
        cases hfreeze
      obtain ⟨l, hl, hversion⟩ := hversions.eq_cons hne
      rw [hl, List.length_cons] at hle
      rw [reclaimLoop, if_pos hnull, if_neg (by simp [TaggedPtr.isFreeze, hf]),
        TaggedPtr.getUnmarkedRef_addr, retireVersions_eq hversion hle, Option.bind_some]
      rw [ih (List.IsChain.tail hpath) (fun b hb => hnodes b (List.mem_cons_of_mem _ hb))
        (head?_path hpath) (Nat.lt_of_succ_lt_succ hfuel)]
      simp [retiredOf, hl]

/-- On a frozen list no assertion stops `reclaimMem`, and it retires the versions behind the newest
ones that are stamped at most the threshold. -/
theorem FrozenBin.reclaimMem_eq (h : s.FrozenBin nodes chain) {fuel : ℕ}
    (hfuel : nodes.length < fuel)
    (hvfuel : ∀ a ∈ nodes, (chain a).length ≤ fuel) :
    s.reclaimMem fuel threshold = some ⟨s.retiredOf chain threshold nodes, nodes⟩ := by
  have hnodes : ∀ a ∈ nodes, s.Readable chain fuel a := fun a ha =>
    ⟨h.frozen a (List.mem_cons_of_mem _ ha), h.versions a ha, h.chain_ne a ha, hvfuel a ha⟩
  rw [reclaimMem, if_neg (by simp [TaggedPtr.isFreeze, h.frozen head List.mem_cons_self]),
    reclaimLoop_eq (List.IsChain.tail h.path) h.max_next hnodes (head?_path h.path) hfuel]
  simp

/-- A version is retired from its own chain only. -/
theorem FrozenBin.mem_retiredOf (h : s.FrozenBin nodes chain) {a v : ℕ} (ha : a ∈ nodes)
    (hv : v ∈ chain a) :
    v ∈ s.retiredOf chain threshold nodes ↔ v ∈ (chain a).tail ∧ s.ts v ≤ threshold := by
  rw [retiredOf, List.mem_flatMap]
  constructor
  · rintro ⟨b, hb, hmem⟩
    obtain ⟨htail, hts⟩ := List.mem_filter.mp hmem
    -- no other chain has the version
    obtain rfl : a = b := by
      by_contra hab
      exact h.disjoint a ha b hb hab v hv (List.mem_of_mem_tail htail)
    exact ⟨htail, by simpa using hts⟩
  · rintro ⟨htail, hts⟩
    exact ⟨a, ha, List.mem_filter.mpr ⟨htail, by simpa using hts⟩⟩

/-- A read is safe from `reclaimMem` if the version it wants is not an old one behind the newest. -/
theorem FrozenBin.read_safe_iff (h : s.FrozenBin nodes chain) {a fuel : ℕ} (ha : a ∈ nodes)
    (hfuel : (chain a).length < fuel) {T : ℤ} :
    (∃ v, s.skipVersions T fuel (s.vhead (.node a)).addr = some v ∧
        (v ≠ 0 → v ∉ s.retiredOf chain threshold nodes)) ↔
      ∀ w, (chain a).find? (fun v => s.ts v < T) = some w →
        ¬ (w ∈ (chain a).tail ∧ s.ts w ≤ threshold) := by
  rw [skipVersions_eq (h.versions a ha) hfuel]
  simp only [Option.some.injEq, exists_eq_left']
  cases hfind : (chain a).find? (fun v => s.ts v < T) with
  | none => simp
  | some w =>
    have hmem := List.mem_of_find?_eq_some hfind
    simp only [Option.getD_some, Option.some.injEq, forall_eq']
    rw [h.mem_retiredOf ha hmem]
    exact ⟨fun hsafe => hsafe ((h.versions a ha).ne_zero hmem), fun hsafe _ => hsafe⟩

end Walk

end SlotMemory

open SlotMemory

variable {K ι : Type} [DecidableEq ι]

/-- In every run of any number of threads on the tracker in which a call of `get_oldest_timestamp`
has returned `tau`, for every frozen list and for every timestamp `T`, whatever queries are running:
no read at `T` stops at a version that `reclaimMem tau` retires if and only if in every chain the
newest version is stamped before `T`, or none is, or one is stamped after 0 and before `T`. -/
theorem reclaimMem_spares_iff {b c : Config ι TrackerList TrackerThread}
    (hb : Run trackerMachine anyStep trackerInit b) {i : ι} {op : TrackerOp}
    (hcall : (b.thread i).pc.InOldest) (hfire : b.fire trackerMachine i op = some c) {tau : ℤ}
    (hret : (c.thread i).pc = .ret (.ts tau)) {s : SlotMemory K} {nodes : List ℕ}
    {chain : ℕ → List ℕ} (hs : s.FrozenBin nodes chain) (T : ℤ) :
    ∃ fuel₀, ∀ fuel ≥ fuel₀, ∃ retired, s.reclaimMem fuel tau = some retired ∧
      ((∀ a ∈ nodes, ∃ v, s.skipVersions T fuel (s.vhead (.node a)).addr = some v ∧
          (v ≠ 0 → v ∉ retired.vnodes)) ↔
        ∀ a ∈ nodes, (∃ v ∈ (chain a).head?, s.ts v < T) ∨ (∀ v ∈ chain a, T ≤ s.ts v) ∨
          ∃ v ∈ chain a, 0 < s.ts v ∧ s.ts v < T) := by
  obtain rfl : tau = 0 := oldest_eq_zero hb hcall hfire hret
  refine ⟨nodes.length + (nodes.map fun a => (chain a).length).sum + 1, fun fuel hfuel => ?_⟩
  have hlen : ∀ a ∈ nodes, (chain a).length < fuel := by
    intro a ha
    have hle := List.single_le_sum (fun _ _ => Nat.zero_le _) _
      (List.mem_map_of_mem (f := fun a => (chain a).length) ha)
    omega
  refine ⟨_, hs.reclaimMem_eq (by omega) fun a ha => (hlen a ha).le, ?_⟩
  refine forall₂_congr fun a ha => ?_
  have hversions := hs.versions a ha
  have hsorted := hs.sorted a ha
  obtain ⟨l, hl, -⟩ := hversions.eq_cons (hs.chain_ne a ha)
  rw [hs.read_safe_iff ha (hlen a ha)]
  rw [hl] at hversions hsorted ⊢
  rw [List.tail_cons, find?_retired_iff hversions.head_notMem hsorted, List.head?_cons]
  simp only [Option.mem_some_iff, exists_eq_left']

/-! ### A list with an updated key -/

/-- The chains of the list: the key 1 has been updated, the other keys have their first versions. -/
def updatedChain (a : ℕ) : List ℕ := if a = 11 then [12, 11] else if a = 12 then [13] else [a]

/-- Thread 1 updates the key 1 when the latest timestamp is 1, then thread 0 fills the list and
freezes it. -/
def freezeUpdated : List (Fin 2 × SlotInput (Fin 64)) :=
  linkNine ++ insertSteps 1 1 8 1 15 ++ linkRetrain

/-- The nodes of the list, in the order of their keys. -/
def updatedNodes : List ℕ := [12, 11, 10, 9, 8, 7, 6, 5, 4, 3]

/-- The list that thread 0 freezes. -/
theorem freezeUpdated_run : ∃ m : Config (Fin 2) (SlotMemory (Fin 64)) (SlotPc (Fin 64)),
    Run (slotMachine (Fin 64)) anyStep slotInit m ∧ m.shared.FrozenBin updatedNodes updatedChain ∧
      m.shared.ts 12 = 1 ∧ m.shared.ts 11 = 0 ∧
      ∀ a ∈ updatedNodes, ∃ v ∈ (updatedChain a).head?, m.shared.ts v < 2 := by
  have hexec : ((slotInit : Config (Fin 2) (SlotMemory (Fin 64)) (SlotPc (Fin 64))).exec
      (slotMachine (Fin 64)) anyStep freezeUpdated).any (fun m =>
        m.shared.FrozenBin updatedNodes updatedChain && m.shared.ts 12 = 1 && m.shared.ts 11 = 0 &&
          ∀ a ∈ updatedNodes, m.shared.ts ((updatedChain a).headD 0) < 2) = true := by
    decide +kernel
  obtain ⟨m, hm, hcheck⟩ := Config.exec_any hexec
  simp only [Bool.and_eq_true, decide_eq_true_eq] at hcheck
  obtain ⟨⟨⟨hfrozen, hts⟩, hts'⟩, hnewest⟩ := hcheck
  refine ⟨m, hm, hfrozen, hts, hts', fun a ha => ?_⟩
  obtain ⟨v, l, hl⟩ := List.exists_cons_of_ne_nil (hfrozen.chain_ne a ha)
  have hlt := hnewest a ha
  rw [hl] at hlt ⊢
  exact ⟨v, rfl, hlt⟩

/-- A query has got the timestamp 1 and is running when `get_oldest_timestamp` is called. -/
theorem oldest_beside_query : ∃ b c : Config Unit TrackerList TrackerThread,
    Run trackerMachine anyStep trackerInit b ∧ (b.thread ()).pc.InOldest ∧
      b.fire trackerMachine () .getOldestTimestamp = some c ∧ (c.thread ()).pc = .ret (.ts 0) ∧
      3 ∈ (c.thread ()).mine ∧ (c.shared.node 3).ts = 1 ∧ (c.shared.node 3).finish = false := by
  have hexec : ((trackerInit : Config Unit TrackerList TrackerThread).exec trackerMachine anyStep
      (List.replicate 4 ((), .addTimestamp) ++ List.replicate 2 ((), .getOldestTimestamp))).any
      (fun b => (b.thread ()).pc = .rhFinish .getOldestTimestamp 2 &&
        (b.fire trackerMachine () .getOldestTimestamp).any fun c =>
          (c.thread ()).pc = .ret (.ts 0) &&
          3 ∈ (c.thread ()).mine && (c.shared.node 3).ts = 1 && (c.shared.node 3).finish = false) =
      true := by decide
  obtain ⟨b, hb, hcheck⟩ := Config.exec_any hexec
  obtain ⟨hpc, hfire⟩ := Bool.and_eq_true_iff.mp hcheck
  obtain ⟨c, hc, hres⟩ := (Option.any_eq_true _ _).mp hfire
  simp only [Bool.and_eq_true, decide_eq_true_eq] at hres
  obtain ⟨⟨⟨hret, hmine⟩, hts⟩, hfinish⟩ := hres
  refine ⟨b, c, hb, ?_, hc, hret, hmine, hts, hfinish⟩
  rw [of_decide_eq_true hpc]
  rfl

/-- The frozen list with the updated key: the reads at 2 are safe. -/
theorem reclaimMem_spares_two : ∃ s : SlotMemory (Fin 64), s.FrozenBin updatedNodes updatedChain ∧
    ∃ fuel retired, s.reclaimMem fuel 0 = some retired ∧
      ∀ a ∈ updatedNodes, ∃ v, s.skipVersions 2 fuel (s.vhead (.node a)).addr = some v ∧
        (v ≠ 0 → v ∉ retired.vnodes) := by
  obtain ⟨m, -, hfrozen, -, -, hnewest⟩ := freezeUpdated_run
  obtain ⟨b, c, hb, hcall, hfire, hret, -⟩ := oldest_beside_query
  obtain ⟨fuel, hfuel⟩ := reclaimMem_spares_iff hb hcall hfire hret hfrozen 2
  obtain ⟨retired, hretired, hiff⟩ := hfuel fuel le_rfl
  exact ⟨m.shared, hfrozen, fuel, retired, hretired, hiff.mpr fun a ha => .inl (hnewest a ha)⟩

/-- The frozen list with the updated key, and a query with the timestamp 1 that is running: the read
at 1 of the updated key stops at the version that was current before the update, and this version is
retired. -/
theorem reclaimMem_takes_read :
    ∃ (b c : Config Unit TrackerList TrackerThread)
      (m : Config (Fin 2) (SlotMemory (Fin 64)) (SlotPc (Fin 64))) (retired : Retired),
      (Run trackerMachine anyStep trackerInit b ∧ (b.thread ()).pc.InOldest ∧
        b.fire trackerMachine () .getOldestTimestamp = some c ∧ (c.thread ()).pc = .ret (.ts 0) ∧
        3 ∈ (c.thread ()).mine ∧ (c.shared.node 3).ts = 1 ∧ (c.shared.node 3).finish = false) ∧
      Run (slotMachine (Fin 64)) anyStep slotInit m ∧
      m.shared.FrozenBin updatedNodes updatedChain ∧ m.shared.reclaimMem 20 0 = some retired ∧
      m.shared.skipVersions 1 20 (m.shared.vhead (.node 11)).addr = some 11 ∧
      11 ∈ retired.vnodes := by
  obtain ⟨m, hm, hfrozen, hts, hts', -⟩ := freezeUpdated_run
  obtain ⟨b, c, holdest⟩ := oldest_beside_query
  have hlen : ∀ a ∈ updatedNodes, (updatedChain a).length ≤ 20 := by decide
  refine ⟨b, c, m, _, holdest, hm, hfrozen, hfrozen.reclaimMem_eq (by decide) hlen, ?_, ?_⟩
  · rw [skipVersions_eq (hfrozen.versions 11 (by decide)) (by decide)]
    simp [updatedChain, hts, hts']
  · exact (hfrozen.mem_retiredOf (a := 11) (by decide) (by decide)).mpr ⟨by decide, hts'.le⟩

end KanvaRS
