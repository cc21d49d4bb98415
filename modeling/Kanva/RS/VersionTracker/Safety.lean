import Kanva.RS.VersionTracker.Invariant

/-!
# Safety of the timestamp tracker

Under any number of threads, the nodes of a `TrackerList` carry the timestamps 0, 1, 2, … in order,
`tail` lags at most one node behind and moves forward only, no timestamp is handed out twice, and
`head` passes finished nodes only.

## Main results

* `TrackerList.timeline_of_inv`: the nodes in list order, read off the invariant.
* `tracker_safety`: what holds in every reachable state and from any state to a later one.
-/

namespace KanvaRS

open Interleaving

namespace TrackerList

/-- `l` lists the nodes from the initial head to the sentinel, and they carry consecutive
timestamps. -/
structure Timeline (s : TrackerList) (l : List ℕ) : Prop where
  head : l.head? = some initialHead
  path : l.IsChain fun a b => (s.node a).next = b
  last : ∃ z ∈ l.getLast?, (s.node z).next = sentinelLast
  no_sentinel : sentinelLast ∉ l
  stamps : l.map (fun a => (s.node a).ts) = (List.range l.length).map fun k : ℕ => (k : ℤ)

/-- `tail` is the last node of `l` or the one before it. -/
def TailNearEnd (s : TrackerList) (l : List ℕ) : Prop :=
  l.getLast? = some s.tail ∨ l.dropLast.getLast? = some s.tail

/-- `head` is a node of `l`, and every node it has moved past is finished. -/
def HeadBehindFinished (s : TrackerList) (l : List ℕ) : Prop :=
  ∃ l₁ l₂, l = l₁ ++ s.head :: l₂ ∧ ∀ a ∈ l₁, (s.node a).finish = true

variable {s : TrackerList}

/-- The addresses of the nodes, in list order. -/
theorem timeline_of_inv (h : s.Inv) : s.Timeline (List.range' 2 (s.size - 2)) where
  head := by
    have hlt := h.tail_lt
    have hge := h.tail_ge
    obtain ⟨n, hn⟩ : ∃ n, s.size - 2 = n + 1 := ⟨s.size - 3, by omega⟩
    rw [hn]
    rfl
  path := by
    rw [List.isChain_iff_getElem]
    intro i hi
    rw [List.length_range'] at hi
    simp only [List.getElem_range']
    rw [h.next_lt _ (by omega) (by omega)]
    omega
  last := by
    have hlt := h.tail_lt
    have hge := h.tail_ge
    refine ⟨s.size - 1, ?_, h.next_last _ (by omega) (by omega)⟩
    rw [List.getLast?_range', if_neg (by omega)]
    simp
    omega
  no_sentinel := by
    simp [List.mem_range'_1, sentinelLast]
  stamps := by
    refine List.ext_getElem (by simp) fun i hi _ => ?_
    simp only [List.length_map, List.length_range'] at hi
    simp only [List.getElem_map, List.getElem_range', List.getElem_range]
    rw [h.ts_eq _ (by omega) (by omega)]
    omega

theorem tailNearEnd_of_inv (h : s.Inv) : s.TailNearEnd (List.range' 2 (s.size - 2)) := by
  have hlt := h.tail_lt
  have hge := h.tail_ge
  have hle := h.size_le
  rcases Nat.lt_or_ge (s.tail + 1) s.size with hlag | hlast
  · right
    have hlen : s.size - 2 = s.tail - 1 + 1 := by omega
    rw [hlen, List.range'_concat, List.dropLast_concat, List.getLast?_range', if_neg (by omega)]
    simp
    omega
  · left
    rw [List.getLast?_range', if_neg (by omega)]
    simp
    omega

theorem headBehindFinished_of_inv (h : s.Inv) :
    s.HeadBehindFinished (List.range' 2 (s.size - 2)) := by
  have hlt := h.head_lt
  have hge := h.head_ge
  refine ⟨List.range' 2 (s.head - 2), List.range' (s.head + 1) (s.size - s.head - 1), ?_, ?_⟩
  · have hlen : s.size - 2 = s.head - 2 + (s.size - s.head - 1 + 1) := by omega
    rw [hlen, ← List.range'_append_1, List.range'_succ, Nat.add_sub_cancel' hge]
  · intro a ha
    rw [List.mem_range'_1] at ha
    exact h.finished a ha.1 (by omega)

end TrackerList

variable {ι : Type} [DecidableEq ι]

/-- A node that a call has returned is one its thread has linked. -/
theorem mem_issuedBy_of_mine {t : TrackerThread} {a : ℕ} (ha : a ∈ t.mine) :
    a ∈ TrackerList.issuedBy t := by
  unfold TrackerList.issuedBy
  split
  · exact List.mem_cons_of_mem _ ha
  · exact ha

theorem mine_nodup {t : TrackerThread} (h : (TrackerList.issuedBy t).Nodup) : t.mine.Nodup := by
  unfold TrackerList.issuedBy at h
  split at h
  · exact (List.nodup_cons.mp h).2
  · exact h

/-- In every reachable state `c` and in every later state `d`: the nodes carry the timestamps
0, 1, 2, … in order, `tail` is one of the last two and `head` has passed finished nodes only; the
nodes that `add_timestamp` calls have returned, all of them different, have different timestamps;
and between `c` and `d` the timestamp at `tail` does not decrease, and has reached that of every
node returned before `c`. -/
theorem tracker_safety {c d : Config ι TrackerList TrackerThread}
    (hc : Run trackerMachine anyStep trackerInit c) (hd : Run trackerMachine anyStep c d) :
    (∃ l, d.shared.Timeline l ∧ d.shared.TailNearEnd l ∧ d.shared.HeadBehindFinished l) ∧
      (∀ i, ((d.thread i).mine.map fun a => (d.shared.node a).ts).Nodup) ∧
      (∀ i j, i ≠ j → ∀ a ∈ (d.thread i).mine, ∀ b ∈ (d.thread j).mine,
        (d.shared.node a).ts ≠ (d.shared.node b).ts) ∧
      c.shared.getLatestTimestamp ≤ d.shared.getLatestTimestamp ∧
      (∀ i, ∀ a ∈ (c.thread i).mine, (c.shared.node a).ts ≤ d.shared.getLatestTimestamp) := by
  have hrun := hc.trans hd
  have hhc := TrackerList.relyGuarantee.run_holds hc TrackerList.holds_init
  have hhd := TrackerList.relyGuarantee.run_holds hd hhc
  have hg := TrackerList.relyGuarantee.run_guar hd hhc
  have hex := TrackerList.issued.run_exclusive hrun TrackerList.holds_init
    TrackerList.exclusive_init
  have hinv : d.shared.Inv := hhd.inv
  -- a timestamp determines the address of its node
  have hts : ∀ i, ∀ a ∈ (d.thread i).mine, (d.shared.node a).ts = a - 2 := by
    intro i a ha
    obtain ⟨hge, hle⟩ := (hhd.loc i).2 a ha
    exact hinv.ts_eq a (by omega) (lt_of_le_of_lt hle hinv.tail_lt)
  have hlatest : d.shared.getLatestTimestamp = d.shared.tail - 2 :=
    hinv.ts_eq _ hinv.tail_ge hinv.tail_lt
  refine ⟨⟨_, TrackerList.timeline_of_inv hinv, TrackerList.tailNearEnd_of_inv hinv,
    TrackerList.headBehindFinished_of_inv hinv⟩, fun i => ?_, ?_, ?_, ?_⟩
  · refine (List.nodup_map_iff_inj_on (mine_nodup (hex.nodup i))).mpr fun a ha b hb heq => ?_
    rw [hts i a ha, hts i b hb] at heq
    omega
  · intro i j hij a ha b hb heq
    rw [hts i a ha, hts j b hb] at heq
    have hab : a = b := by omega
    subst hab
    exact hex.disjoint i j hij (mem_issuedBy_of_mine ha) (mem_issuedBy_of_mine hb)
  · have hold : c.shared.getLatestTimestamp = c.shared.tail - 2 :=
      hhc.inv.ts_eq _ hhc.inv.tail_ge hhc.inv.tail_lt
    have hle : c.shared.tail ≤ d.shared.tail := hg.tail_le
    rw [hold, hlatest]
    omega
  · intro i a ha
    obtain ⟨hge, hle⟩ := (hhc.loc i).2 a ha
    have hle' : c.shared.tail ≤ d.shared.tail := hg.tail_le
    rw [hlatest, hhc.inv.ts_eq a (by omega) (lt_of_le_of_lt hle hhc.inv.tail_lt)]
    omega

/-- Thread 0 is about to move `tail` when thread 1 appends: thread 1 helps, appends behind it and
finishes its node, and thread 0 then completes. -/
theorem tracker_safety_lagging_tail :
    ∃ d : Config (Fin 2) TrackerList TrackerThread,
      (d.thread 0).mine = [3] ∧ (d.thread 1).mine = [4] ∧
      (∃ l, d.shared.Timeline l ∧ d.shared.TailNearEnd l ∧ d.shared.HeadBehindFinished l) ∧
      (∀ i, ((d.thread i).mine.map fun a => (d.shared.node a).ts).Nodup) ∧
      (∀ i j, i ≠ j → ∀ a ∈ (d.thread i).mine, ∀ b ∈ (d.thread j).mine,
        (d.shared.node a).ts ≠ (d.shared.node b).ts) := by
  let sched : List (Fin 2 × TrackerOp) :=
    List.replicate 3 (0, .addTimestamp) ++ List.replicate 11 (1, .addTimestamp) ++
    List.replicate 2 (1, .finish 4) ++ [(0, .addTimestamp)]
  have hexec : ((trackerInit.exec trackerMachine anyStep sched).map
      fun d => ((d.thread 0).mine, (d.thread 1).mine)) = some ([3], [4]) := by decide
  obtain ⟨d, hd, hmine⟩ := Option.map_eq_some_iff.mp hexec
  simp only [Prod.mk.injEq] at hmine
  obtain ⟨htime, hnodup, hdiff, -⟩ := tracker_safety (Run.refl _) (Config.exec_run hd)
  exact ⟨d, hmine.1, hmine.2, htime, hnodup, hdiff⟩

end KanvaRS
