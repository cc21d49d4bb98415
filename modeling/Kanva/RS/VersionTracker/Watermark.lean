import Kanva.RS.VersionTracker.Safety

/-!
# The reclamation watermark

`get_oldest_timestamp` is to return the timestamp of the oldest range query that is still running,
for which `remove_head` moves `head` over the finished nodes. The first node of the list belongs to
no query, so nobody ever sets its `finish` flag, and `head` stays where it is.

The calls of one thread are the sequences of whole calls: its queries may be started and finished in
any order and overlap in any way.

## Main results

* `TrackerList.run_headIdle`: under any number of threads, `head` never moves.
* `oldest_eq_zero`: under any number of threads, `get_oldest_timestamp` returns 0.
* `watermark_iff`: `get_oldest_timestamp` always returns, and it returns the watermark exactly when
  no query has been started yet.
-/

namespace KanvaRS

open Interleaving

namespace TrackerList

/-- The oldest of the queries in `started` that are not finished has the timestamp `t`; without such
a query `t` is the last timestamp issued, that of the first of them, 0 before the first query. -/
def IsWatermark (s : TrackerList) (started : List ℕ) (t : ℤ) : Prop :=
  if ∃ a ∈ started, (s.node a).finish = false then
    (∃ a ∈ started, (s.node a).finish = false ∧ (s.node a).ts = t) ∧
      ∀ a ∈ started, (s.node a).finish = false → t ≤ (s.node a).ts
  else t = (started.head?.map fun a => (s.node a).ts).getD 0

/-- `head` is the first node, which is not finished. -/
structure HeadIdle (s : TrackerList) : Prop where
  head : s.head = initialHead
  finish : (s.node initialHead).finish = false

/-- A thread sets the flag of a node that a query has got. -/
def FinishesOwn (t : TrackerThread) : Prop := ∀ a, t.pc = .finStore a → 3 ≤ a

variable {s s' : TrackerList}

/-- Once a pointer to a head is seen to be finished, `head` is not idle. -/
theorem HeadIdle.not_done {a : ℕ} (h : s.HeadIdle) : ¬ s.DoneHead a := by
  intro hdone
  have hle := hdone.le
  have hge := hdone.ge
  rw [h.head, initialHead] at hle
  obtain rfl : a = initialHead := le_antisymm hle hge
  have hf := hdone.finish
  rw [h.finish] at hf
  cases hf

/-- No step moves `head`. -/
theorem headIdle_step {pc pc' : TrackerPc} (hinv : s.Inv) (h : s.HeadIdle) (hpc : pc.Ok s)
    (hown : ∀ a, pc = .finStore a → 3 ≤ a) (hs : s.step pc = some (s', pc')) : s'.HeadIdle := by
  -- `head` moves only when the node after it is done
  cases pc with
  | ret r => simp [step] at hs
  | addCas currTail newTail =>
    simp only [step] at hs
    split at hs <;> cases hs
    · have hsize : initialHead ≠ s.size := by
        have hlt := hinv.tail_lt
        have hge := hinv.tail_ge
        simp only [initialHead]
        omega
      refine ⟨h.head, ?_⟩
      rw [node_alloc, size_setNext, if_neg hsize, finish_setNext]
      exact h.finish
    · exact h
  | addSwing currTail newTail | helpSwing currTail newTail =>
    simp only [step, Option.some.injEq, Prod.mk.injEq] at hs
    obtain ⟨rfl, -⟩ := hs
    split <;> exact ⟨h.head, h.finish⟩
  | rhTest call currHead => exact absurd hpc h.not_done
  | rhNext call currHead => exact absurd hpc.1 h.not_done
  | rhSwing call currHead next => exact absurd hpc.1 h.not_done
  | finStore a =>
    -- a thread finishes the node it has been given, which is not the first one
    have hge := hown a rfl
    have hne : initialHead ≠ a := by
      simp only [initialHead]
      omega
    simp only [step, Option.some.injEq, Prod.mk.injEq] at hs
    obtain ⟨rfl, -⟩ := hs
    refine ⟨h.head, ?_⟩
    rw [setFinish]
    simp only [Function.update_of_ne hne]
    exact h.finish
  | helpTest currTail | rhFinish call currHead =>
    simp only [step] at hs
    split at hs <;> cases hs <;> exact h
  | _ =>
    simp only [step, Option.some.injEq, Prod.mk.injEq] at hs
    obtain ⟨rfl, -⟩ := hs
    exact h

/-- A step does not bring a thread before a store to `finish`. -/
theorem finStore_of_step {pc : TrackerPc} {a : ℕ} : s.step pc ≠ some (s', .finStore a) := by
  intro hs
  cases pc with
  | rhFinish call currHead | rhTest call currHead =>
    simp only [step] at hs
    split at hs <;> cases hs
  | addCas currTail newTail | helpTest currTail =>
    simp only [step] at hs
    split at hs <;> cases hs
  | _ => simp [step] at hs

/-- The invariant with an idle `head`, as a rely-guarantee proof. -/
def headGuarantee : RelyGuarantee trackerMachine anyStep where
  inv s := s.Inv ∧ s.HeadIdle
  loc s t := s.ThreadOk t ∧ FinishesOwn t
  guar := Guar
  guar_refl := Guar.refl
  guar_trans := Guar.trans
  step {s t op s' t'} h ht _ hs := by
    obtain ⟨hinv, hok, hg⟩ := relyGuarantee.step h.1 ht.1 trivial hs
    obtain ⟨r, -, hop, rfl, rfl⟩ | ⟨pc', hstep, rfl⟩ := next_cases hs
    · refine ⟨h, ⟨hok, fun a ha => ?_⟩, hg⟩
      cases op <;> cases ha
      exact (ht.1.2 a hop).1
    · refine ⟨⟨hinv, headIdle_step h.1 h.2 ht.1.1 ht.2 hstep⟩, ⟨hok, fun a ha => ?_⟩, hg⟩
      have hpc : (t.moveTo pc').pc = pc' := by
        unfold TrackerThread.moveTo
        split <;> rfl
      rw [← hpc, ha] at hstep
      exact absurd hstep finStore_of_step
  stable h ht hg := ⟨relyGuarantee.stable h.1 ht.1 hg, ht.2⟩

/-- In every reachable state `head` is the first node, and that node is not finished. -/
theorem run_headIdle {ι : Type} [DecidableEq ι] {c : Config ι TrackerList TrackerThread}
    (hc : Run trackerMachine anyStep trackerInit c) : c.shared.HeadIdle := by
  refine (headGuarantee.run_holds hc ⟨⟨inv_new, rfl, rfl⟩, fun i => ⟨holds_init.loc i, ?_⟩⟩).inv.2
  intro a ha
  cases ha

/-- The first node has the timestamp 0. -/
theorem HeadIdle.ts_head (h : s.HeadIdle) (hinv : s.Inv) : (s.node initialHead).ts = 0 := by
  rw [← h.head, hinv.ts_eq _ hinv.head_ge hinv.head_lt, h.head]
  rfl

end TrackerList

section Threads

variable {ι : Type} [DecidableEq ι] {c d : Config ι TrackerList TrackerThread}

/-- The timestamps of the queries that have been started are positive. -/
theorem ts_pos_of_mine (hc : Run trackerMachine anyStep trackerInit c) {i : ι} {a : ℕ}
    (ha : a ∈ (c.thread i).mine) : 0 < (c.shared.node a).ts := by
  have hh := TrackerList.relyGuarantee.run_holds hc TrackerList.holds_init
  have hinv : c.shared.Inv := hh.inv
  obtain ⟨hge, hle⟩ := (hh.loc i).2 a ha
  rw [hinv.ts_eq a (by omega) (lt_of_le_of_lt hle hinv.tail_lt)]
  omega

/-- The thread is inside `get_oldest_timestamp`. -/
def TrackerPc.InOldest : TrackerPc → Prop
  | .rhLoad call | .rhFinish call _ | .rhTest call _ | .rhNext call _ | .rhSwing call _ _ =>
    call = .getOldestTimestamp
  | _ => False

/-- Under any number of threads, a call of `get_oldest_timestamp` that returns, returns 0. -/
theorem oldest_eq_zero (hc : Run trackerMachine anyStep trackerInit c) {i : ι} {op : TrackerOp}
    (hcall : (c.thread i).pc.InOldest) (hfire : c.fire trackerMachine i op = some d) {t : ℤ}
    (hret : (d.thread i).pc = .ret (.ts t)) : t = 0 := by
  have hidle := TrackerList.run_headIdle hc
  have hh := TrackerList.relyGuarantee.run_holds hc TrackerList.holds_init
  have hinv : c.shared.Inv := hh.inv
  have hloc : (c.thread i).pc.Ok c.shared := (hh.loc i).1
  obtain ⟨s', t', hnext, rfl⟩ := Config.fire_eq_some_iff.mp hfire
  have ht' : t'.pc = .ret (.ts t) := by simpa using hret
  obtain ⟨r, hr, -, -, -⟩ | ⟨pc', hstep, rfl⟩ := TrackerList.next_cases hnext
  · rw [hr] at hcall
    cases hcall
  have hpc' : pc' = .ret (.ts t) := by
    unfold TrackerThread.moveTo at ht'
    split at ht'
    · cases ht'
    · exact ht'
  subst hpc'
  -- only the test of the flag of `head` returns
  cases hpc : (c.thread i).pc with
  | rhFinish call currHead =>
    rw [hpc] at hcall hloc hstep
    obtain ⟨hge, hle⟩ := hloc
    rw [hidle.head] at hle
    obtain rfl : currHead = TrackerList.initialHead := le_antisymm hle hge
    obtain rfl : call = .getOldestTimestamp := hcall
    simp [TrackerList.step, hidle.finish, TrackerList.headResult, hidle.ts_head hinv] at hstep
    exact hstep.2.symm
  | rhTest call currHead =>
    rw [hpc] at hloc
    exact absurd hloc hidle.not_done
  | rhLoad call | rhNext call currHead | rhSwing call currHead next =>
    rw [hpc] at hstep
    simp [TrackerList.step] at hstep
  | _ =>
    rw [hpc] at hcall
    cases hcall

end Threads

variable {c : Config Unit TrackerList TrackerThread}

/-- 0 is the watermark only before the first query. -/
theorem isWatermark_zero_iff (hc : Run trackerMachine anyStep trackerInit c) :
    c.shared.IsWatermark (c.thread ()).mine 0 ↔ (c.thread ()).mine = [] := by
  rw [TrackerList.IsWatermark]
  constructor
  · intro h
    split at h
    · obtain ⟨⟨a, ha, -, hts⟩, -⟩ := h
      exact absurd hts (ts_pos_of_mine hc ha).ne'
    · cases hmine : (c.thread ()).mine with
      | nil => rfl
      | cons a as =>
        rw [hmine] at h
        have hpos := ts_pos_of_mine hc (a := a) (by rw [hmine]; exact List.mem_cons_self)
        exact absurd h.symm hpos.ne'
  · intro h
    rw [h]
    simp

/-- One access loads `head`, the next one tests its flag, and 0 is returned. -/
theorem exec_getOldestTimestamp {s : TrackerList} {r : TrackerResult} {mine : List ℕ}
    (h : s.HeadIdle) (hts : (s.node TrackerList.initialHead).ts = 0) :
    (⟨s, fun _ => ⟨.ret r, mine⟩⟩ : Config Unit TrackerList TrackerThread).exec
      trackerMachine anyStep
      (List.replicate 3 ((), .getOldestTimestamp)) = some ⟨s, fun _ => ⟨.ret (.ts 0), mine⟩⟩ := by
  have hupd : ∀ t t' : TrackerThread, Function.update (fun _ : Unit => t) () t' = fun _ => t' :=
    fun t t' => funext fun _ => Function.update_self _ _ _
  simp [List.replicate, Config.exec, Config.fire, anyStep, trackerMachine, TrackerOp.Allowed,
    TrackerList.enter, TrackerList.step, TrackerThread.moveTo, hupd, h.head, h.finish,
    TrackerList.headResult, hts]

/-- After every sequence of queries started and finished, in any order and with any overlap, and of
calls of `remove_head`, `get_oldest_timestamp` and `get_latest_timestamp`: `get_oldest_timestamp`
returns, and what it returns is the watermark if and only if no query has been started. -/
theorem watermark_iff (hc : Run trackerMachine anyStep trackerInit c) {r : TrackerResult}
    (hret : (c.thread ()).pc = .ret r) :
    ∃ d t, c.exec trackerMachine anyStep (List.replicate 3 ((), .getOldestTimestamp)) = some d ∧
      (d.thread ()).pc = .ret (.ts t) ∧
      (c.shared.IsWatermark (c.thread ()).mine t ↔ (c.thread ()).mine = []) := by
  have hidle := TrackerList.run_headIdle hc
  have hh := TrackerList.relyGuarantee.run_holds hc TrackerList.holds_init
  have hinv : c.shared.Inv := hh.inv
  have hts := hidle.ts_head hinv
  have hthread : c = ⟨c.shared, fun _ => ⟨.ret r, (c.thread ()).mine⟩⟩ := by
    refine Config.ext rfl (funext fun u => ?_)
    rw [← hret]
  refine ⟨⟨c.shared, fun _ => ⟨.ret (.ts 0), (c.thread ()).mine⟩⟩, 0, ?_, rfl,
    isWatermark_zero_iff hc⟩
  conv_lhs => rw [hthread]
  exact exec_getOldestTimestamp hidle hts

/-- Two queries are started, and the first one is finished. -/
def twoQueries : List (Unit × TrackerOp) :=
  List.replicate 8 ((), .addTimestamp) ++ List.replicate 2 ((), .finish 3)

/-- The 0 that `get_oldest_timestamp` returns is the watermark before the first query, and it is not
when a query is in progress. -/
theorem watermark_iff_twoQueries :
    (∃ d t, (trackerInit : Config Unit TrackerList TrackerThread).exec trackerMachine anyStep
        (List.replicate 3 ((), .getOldestTimestamp)) = some d ∧
      (d.thread ()).pc = .ret (.ts t) ∧ TrackerList.new.IsWatermark [] t) ∧
    ∃ c d t, trackerInit.exec trackerMachine anyStep twoQueries = some c ∧
      c.exec trackerMachine anyStep (List.replicate 3 ((), .getOldestTimestamp)) = some d ∧
      (d.thread ()).pc = .ret (.ts t) ∧ ¬ c.shared.IsWatermark (c.thread ()).mine t := by
  constructor
  · obtain ⟨d, t, hexec, hres, hiff⟩ := watermark_iff (.refl trackerInit) rfl
    exact ⟨d, t, hexec, hres, hiff.mpr rfl⟩
  · have hexec : (trackerInit.exec trackerMachine anyStep twoQueries).map
        (fun c => ((c.thread ()).pc, (c.thread ()).mine)) = some (.ret .none, [4, 3]) := by decide
    obtain ⟨c, hc, hthread⟩ := Option.map_eq_some_iff.mp hexec
    simp only [Prod.mk.injEq] at hthread
    obtain ⟨d, t, hd, hres, hiff⟩ := watermark_iff (Config.exec_run hc) hthread.1
    refine ⟨c, d, t, hc, hd, hres, fun hmark => ?_⟩
    have hnil := hiff.mp hmark
    rw [hthread.2] at hnil
    cases hnil

/-- Two queries are started and the first one is finished: the second one has the timestamp 2, and
`get_oldest_timestamp` returns 0. -/
theorem watermark_not_exact :
    ∃ c d : Config Unit TrackerList TrackerThread,
      Run trackerMachine anyStep trackerInit c ∧
      c.exec trackerMachine anyStep (List.replicate 3 ((), .getOldestTimestamp)) = some d ∧
      (d.thread ()).pc = .ret (.ts 0) ∧ ¬ c.shared.IsWatermark (c.thread ()).mine 0 ∧
      c.shared.IsWatermark (c.thread ()).mine 2 := by
  have hexec : ((trackerInit.exec trackerMachine anyStep twoQueries).bind fun c =>
      (c.exec trackerMachine anyStep (List.replicate 3 ((), .getOldestTimestamp))).map fun d =>
        ((c.thread ()).mine, c.shared.node 3, c.shared.node 4, (d.thread ()).pc)) =
      some ([4, 3], ⟨1, 4, true⟩, ⟨2, 1, false⟩, .ret (.ts 0)) := by decide
  obtain ⟨c, hc, hcd⟩ := Option.bind_eq_some_iff.mp hexec
  obtain ⟨d, hd, hpc⟩ := Option.map_eq_some_iff.mp hcd
  simp only [Prod.mk.injEq] at hpc
  obtain ⟨hmine, h3, h4, hres⟩ := hpc
  refine ⟨c, d, Config.exec_run hc, hd, hres, ?_, ?_⟩
  all_goals
    rw [hmine, TrackerList.IsWatermark]
    simp [h3, h4]

end KanvaRS
