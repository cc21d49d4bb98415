import Kanva.RS.VersionedArray.Invariant

/-!
# Snapshot reads of version chains

Any number of threads run `add_timestamp`, `insert` and `getVersionedValue` on any number of slots.
The assertions at the program points of a thread say what `init_ts` has established: after it has
returned, the version it was called on is stamped, whoever stamped it, and a versioned read starts
at a settled version.

## Main results

* `VersionStore.step_ok`: every step keeps the invariants and the assertion of its thread.
* `snapshot_reads`: the chains are stamped in order, reads at one timestamp agree, and the stamps
  respect the real-time order of the updates.
-/

namespace KanvaRS

open Interleaving Kanva

namespace VersionStore

variable {S : Type}

/-- The invariant of the store. -/
structure Inv (s : VersionStore S) : Prop where
  tracker : s.tracker.Inv
  slot : ∀ j, (s.slot j).Inv s.tracker.tail

/-- What a step of any thread leaves alone. -/
structure Guar (s s' : VersionStore S) : Prop where
  tracker : TrackerList.Guar s.tracker s'.tracker
  slot : ∀ j, VersionedArray.Guar s.tracker.tail (s.slot j) (s'.slot j)

theorem Guar.refl (s : VersionStore S) : Guar s s :=
  ⟨.refl _, fun _ => .refl _ _⟩

theorem Guar.trans {s s' s'' : VersionStore S} (h : Guar s s') (h' : Guar s' s'') : Guar s s'' :=
  ⟨h.tracker.trans h'.tracker, fun j => (h.slot j).trans h.tracker.tail_le (h'.slot j)⟩

end VersionStore

/-- What the caller of `init_ts(node)` knows about the version. -/
def InitCall.Ok {S : Type} (s : VersionStore S) (j : S) (node : ℕ) : InitCall → Prop
  | .versioned currTs => currTs ≤ clock s.tracker.tail ∧
      ∀ a, node < a → a < (s.slot j).size → currTs ≤ clock ((s.slot j).born a)
  | _ => True

/-- What the local variables of a thread satisfy at each program point. -/
def VersionPc.Ok {S : Type} (s : VersionStore S) : VersionPc S → Prop
  | .ret (.inserted (some (j, a))) => (s.slot j).IsVersion a ∧ (s.slot j).Stamped a
  | .ret (.value j currTs v) =>
    ∃ a, (s.slot j).Selects s.tracker.tail currTs a ∧ v = (s.slot j).valueAt a
  | .tracker pc => pc.Ok s.tracker
  | .initTest call j node => (s.slot j).IsVersion node ∧ call.Ok s j node
  | .initLoad call j node => (s.slot j).IsVersion node ∧ call.Ok s j node
  | .initCas call j node globalTs => (s.slot j).IsVersion node ∧ call.Ok s j node ∧
      clock ((s.slot j).born node) ≤ globalTs ∧ globalTs ≤ clock s.tracker.tail
  | .vcasLink j _ head => (s.slot j).IsVersion head ∧ (s.slot j).Stamped head
  | .getHead _ currTs => currTs ≤ clock s.tracker.tail
  | .getTest j currTs curr => 0 < curr ∧ ∃ b, (s.slot j).Skipped s.tracker.tail currTs curr b
  | _ => True

namespace VersionStore

variable {S : Type} {s s' : VersionStore S}

theorem InitCall.ok_mono {call : InitCall} {j : S} {node : ℕ} (hg : Guar s s')
    (h : call.Ok s j node) : call.Ok s' j node := by
  have hgj := hg.slot j
  cases call with
  | versioned currTs =>
    refine ⟨h.1.trans (clock_mono hg.tracker.tail_le), fun a ha hlt => ?_⟩
    have hpos : 0 < a := lt_of_le_of_lt (Nat.zero_le node) ha
    rcases Nat.lt_or_ge a (s.slot j).size with hold | hnew
    · rw [hgj.born_eq a ⟨hpos, hold⟩]
      exact h.2 a ha hold
    · exact h.1.trans (clock_mono (hgj.born_new a ⟨hpos, hlt⟩ hnew))
  | _ => trivial

/-- The assertion of a thread survives the steps of the others. -/
theorem ok_mono {pc : VersionPc S} (hs : s.Inv) (hg : Guar s s') (h : pc.Ok s) : pc.Ok s' := by
  have htail := hg.tracker.tail_le
  cases pc with
  | ret r =>
    cases r with
    | inserted linked =>
      cases linked with
      | none => trivial
      | some p => exact ⟨h.1.mono (hg.slot _).size_le, h.2.mono (hg.slot _) h.1⟩
    | value j currTs v =>
      obtain ⟨a, hsel, rfl⟩ := h
      -- the selected version stays selected, and no version changes its value
      refine ⟨a, hsel.mono htail (hg.slot j), ?_⟩
      obtain ⟨b, hskip, -⟩ := hsel
      unfold VersionedArray.valueAt
      rcases Nat.eq_zero_or_pos a with rfl | hpos
      · simp
      · rw [(hg.slot j).value_eq a ⟨hpos, lt_of_le_of_lt hskip.le hskip.settled.lt⟩]
    | _ => trivial
  | tracker pc => exact TrackerList.ok_mono hs.tracker hg.tracker h
  | initTest call j node | initLoad call j node =>
    exact ⟨h.1.mono (hg.slot j).size_le, InitCall.ok_mono hg h.2⟩
  | initCas call j node globalTs =>
    obtain ⟨hver, hcall, hlo, hhi⟩ := h
    refine ⟨hver.mono (hg.slot j).size_le, InitCall.ok_mono hg hcall, ?_,
      hhi.trans (clock_mono htail)⟩
    rwa [(hg.slot j).born_eq node hver]
  | vcasLink j value head => exact ⟨h.1.mono (hg.slot j).size_le, h.2.mono (hg.slot j) h.1⟩
  | getHead j currTs => exact le_trans h (clock_mono htail)
  | getTest j currTs curr =>
    obtain ⟨hpos, b, hskip⟩ := h
    exact ⟨hpos, b, hskip.mono htail (hg.slot j)⟩
  | _ => trivial

/-- A versioned read that has skipped down to `curr` goes on, or ends at the null pointer. -/
theorem getLoop_ok {j : S} {currTs : ℤ} {curr b : ℕ}
    (h : (s.slot j).Skipped s.tracker.tail currTs curr b) :
    (getLoop (s.slot j) j currTs curr).Ok s := by
  unfold getLoop
  split
  · next h0 => exact ⟨curr, ⟨b, h, .inl h0⟩, rfl⟩
  · next h0 => exact ⟨Nat.pos_of_ne_zero h0, b, h⟩

/-- After `init_ts(node)` has returned, with the version stamped, its caller continues soundly. -/
theorem initReturn_ok {call : InitCall} {j : S} {node : ℕ} (h : s.Inv)
    (hver : (s.slot j).IsVersion node) (hcall : call.Ok s j node)
    (hst : (s.slot j).Stamped node) : (initReturn (s.slot j) j node call).Ok s := by
  cases call with
  | read value => trivial
  | vCAS value oldValue =>
    simp only [initReturn]
    split
    · trivial
    · split
      · trivial
      · exact ⟨hver, hst⟩
  | linked => exact ⟨hver, hst⟩
  | versioned currTs =>
    obtain ⟨hissued, hlater⟩ := hcall
    refine getLoop_ok (b := node) ⟨⟨hissued, hver.2, ?_, hlater⟩, le_rfl, fun x hx hx' => by omega⟩
    intro a ha hle
    rcases Nat.lt_or_eq_of_le hle with hlt | rfl
    · exact (h.slot j).stamped_of_lt ha hlt hver
    · exact hst

variable [DecidableEq S]

@[simp] theorem slot_setSlot (s : VersionStore S) (i j : S) (c : VersionedArray) :
    (s.setSlot j c).slot i = if i = j then c else s.slot i := by
  by_cases h : i = j <;> simp [setSlot, h]

@[simp] theorem tracker_setSlot (s : VersionStore S) (j : S) (c : VersionedArray) :
    (s.setSlot j c).tracker = s.tracker := rfl

/-- A write to one slot keeps the invariant and the guarantee if it does so on that slot. -/
theorem setSlot_ok {j : S} {c : VersionedArray} (h : s.Inv) (hc : c.Inv s.tracker.tail)
    (hg : VersionedArray.Guar s.tracker.tail (s.slot j) c) :
    (s.setSlot j c).Inv ∧ Guar s (s.setSlot j c) := by
  refine ⟨⟨h.tracker, fun i => ?_⟩, ⟨.refl _, fun i => ?_⟩⟩
  · by_cases hij : i = j
    · simpa [hij] using hc
    · simpa [hij] using h.slot i
  · by_cases hij : i = j
    · subst hij
      simpa using hg
    · simpa [hij] using VersionedArray.Guar.refl _ (s.slot i)

/-- Every step of a thread keeps the invariant and its assertion, and stays within `Guar`. -/
theorem step_ok {pc pc' : VersionPc S} (h : s.Inv) (hpc : pc.Ok s)
    (hs : s.step pc = some (s', pc')) : s'.Inv ∧ pc'.Ok s' ∧ Guar s s' := by
  -- a step that only reads
  have hread : ∀ {p : VersionPc S}, s' = s → pc' = p → p.Ok s → s'.Inv ∧ pc'.Ok s' ∧ Guar s s' := by
    rintro p rfl rfl hp
    exact ⟨h, hp, Guar.refl _⟩
  cases pc with
  | ret r => simp [step] at hs
  | tracker pc =>
    simp only [step, Option.map_eq_some_iff, Prod.mk.injEq, Prod.exists] at hs
    obtain ⟨t, p, hstep, rfl, rfl⟩ := hs
    obtain ⟨hinv, hok, hg⟩ := TrackerList.step_ok h.tracker hpc hstep
    refine ⟨⟨hinv, fun j => (h.slot j).mono hg.tail_le⟩, ?_, ⟨hg, fun j => .refl _ _⟩⟩
    split
    · trivial
    · exact hok
  | initTest call j node =>
    obtain ⟨hver, hcall⟩ := hpc
    simp only [step] at hs
    split at hs <;> cases hs
    · exact hread rfl rfl ⟨hver, hcall⟩
    · next hst => exact hread rfl rfl (initReturn_ok h hver hcall hst)
  | initLoad call j node =>
    obtain ⟨hver, hcall⟩ := hpc
    simp only [step, Option.some.injEq, Prod.mk.injEq] at hs
    refine hread hs.1.symm hs.2.symm ⟨hver, hcall, ?_, ?_⟩
    · rw [h.tracker.latest_eq]
      exact clock_mono ((h.slot j).born_le node hver)
    · exact h.tracker.latest_eq.le
  | initCas call j node globalTs =>
    obtain ⟨hver, hcall, hlo, hhi⟩ := hpc
    obtain ⟨hc, hgc, hst⟩ := VersionedArray.inv_stamp (h.slot j) hver hlo hhi
    obtain ⟨hinv, hg⟩ := setSlot_ok h hc hgc
    simp only [step, Option.some.injEq, Prod.mk.injEq] at hs
    obtain ⟨rfl, rfl⟩ := hs
    -- stamping changes no value, so the caller may have read them before
    have hret : initReturn (s.slot j) j node call =
        initReturn ((s.setSlot j ((s.slot j).stamp node globalTs)).slot j) j node call := by
      cases call <;> simp [initReturn, getLoop, VersionedArray.valueAt]
    refine ⟨hinv, ?_, hg⟩
    rw [hret]
    refine initReturn_ok hinv (by simpa using hver) (InitCall.ok_mono hg hcall) (by simpa using hst)
  | readHead j value =>
    simp only [step, Option.some.injEq, Prod.mk.injEq] at hs
    exact hread hs.1.symm hs.2.symm ⟨(h.slot j).vhead_version, trivial⟩
  | readValue j value =>
    simp only [step] at hs
    split at hs <;> cases hs <;> exact hread rfl rfl trivial
  | vcasHead j value oldValue =>
    simp only [step, Option.some.injEq, Prod.mk.injEq] at hs
    exact hread hs.1.symm hs.2.symm ⟨(h.slot j).vhead_version, trivial⟩
  | vcasLink j value head =>
    obtain ⟨hver, hst⟩ := hpc
    simp only [step] at hs
    split at hs <;> cases hs
    · next hhead =>
      subst hhead
      obtain ⟨hc, hgc⟩ := VersionedArray.inv_link (h.slot j) h.tracker.tail_ge hst value
      obtain ⟨hinv, hg⟩ := setSlot_ok h hc hgc
      refine ⟨hinv, ⟨?_, trivial⟩, hg⟩
      have hpos := hver.2
      simp only [slot_setSlot, if_true]
      exact ⟨by omega, Nat.lt_succ_self _⟩
    · exact hread rfl rfl trivial
  | getHead j currTs =>
    simp only [step, Option.some.injEq, Prod.mk.injEq] at hs
    refine hread hs.1.symm hs.2.symm ⟨(h.slot j).vhead_version, hpc, fun a ha hlt => ?_⟩
    have hvhead := (h.slot j).vhead_eq
    omega
  | getTest j currTs curr =>
    obtain ⟨hpos, b, hskip⟩ := hpc
    simp only [step] at hs
    split at hs <;> cases hs
    · next hge =>
      refine hread rfl rfl (getLoop_ok (b := b) ⟨hskip.settled, ?_, fun x hx hxb => ?_⟩)
      · have hnext := (h.slot j).nextv_eq curr ⟨hpos, lt_of_le_of_lt hskip.le hskip.settled.lt⟩
        have hle := hskip.le
        omega
      · have hnext := (h.slot j).nextv_eq curr ⟨hpos, lt_of_le_of_lt hskip.le hskip.settled.lt⟩
        rcases Nat.lt_or_eq_of_le (show curr ≤ x by omega) with hlt | rfl
        · exact hskip.skipped x hlt hxb
        · exact hge
    · next hlt => exact hread rfl rfl ⟨curr, ⟨b, hskip, .inr (lt_of_not_ge hlt)⟩, rfl⟩

/-- The invariant and the assertions, as a rely-guarantee proof. -/
def relyGuarantee (S : Type) [DecidableEq S] : RelyGuarantee (versionMachine S) anyStep where
  inv := Inv
  loc s pc := pc.Ok s
  guar := Guar
  guar_refl := Guar.refl
  guar_trans := Guar.trans
  step {s pc op s' pc'} h hpc _ hs := by
    cases pc with
    | ret r =>
      simp only [versionMachine] at hs
      split at hs <;> cases hs
      next hop =>
      refine ⟨h, ?_, Guar.refl _⟩
      cases op with
      | getVersionedValue j currTs => exact le_trans hop h.tracker.latest_eq.le
      | _ => trivial
    | _ => exact step_ok h hpc hs
  stable h hpc hg := ok_mono h hg hpc

end VersionStore

namespace VersionedArray

/-- `l` lists the versions of a chain from the newest to the oldest. Only the newest may be
unstamped, and stamps never increase towards older versions. -/
structure History (c : VersionedArray) (l : List ℕ) : Prop where
  head : l.head? = some c.vhead
  path : l.IsChain fun a b => (c.version a).nextv = b
  last : ∃ z ∈ l.getLast?, (c.version z).nextv = 0
  stamped : ∀ a ∈ l.tail, (c.version a).ts ≠ -1
  decreasing : l.Pairwise fun new old =>
    (c.version new).ts = -1 ∨ (c.version old).ts ≤ (c.version new).ts

/-- The addresses of a chain, in list order. -/
theorem history_of_inv {c : VersionedArray} {tail : ℕ} (h : c.Inv tail) :
    c.History (c.vhead :: (List.range' 1 (c.vhead - 1)).reverse) := by
  have hsize := h.vhead_eq
  have hpos := h.vhead_pos
  -- the whole chain is the range of the addresses, reversed
  have hlist : c.vhead :: (List.range' 1 (c.vhead - 1)).reverse =
      (List.range' 1 c.vhead).reverse := by
    obtain ⟨n, hn⟩ : ∃ n, c.vhead = n + 1 := ⟨c.vhead - 1, by omega⟩
    rw [hn, List.range'_concat, List.reverse_append]
    simp [Nat.add_comm]
  refine ⟨rfl, ?_, ?_, ?_, ?_⟩
  · rw [hlist, List.isChain_reverse, List.isChain_iff_getElem]
    intro i hi
    rw [List.length_range'] at hi
    simp only [List.getElem_range']
    have hnext := h.nextv_eq (1 + 1 * (i + 1)) ⟨by omega, by omega⟩
    show (c.version (1 + 1 * (i + 1))).nextv = 1 + 1 * i
    omega
  · refine ⟨1, ?_, ?_⟩
    · rw [hlist, List.getLast?_reverse, List.head?_range', if_neg (by omega)]
      rfl
    · have hnext := h.nextv_eq 1 ⟨Nat.one_pos, by omega⟩
      omega
  · intro a ha
    rw [List.tail_cons, List.mem_reverse, List.mem_range'_1] at ha
    exact h.stamped_of_lt ha.1 (show a < c.vhead by omega) h.vhead_version
  · rw [hlist, List.pairwise_reverse]
    refine (List.pairwise_lt_range' 1).imp_of_mem fun {old new} hold hnew hlt => ?_
    rw [List.mem_range'_1] at hold hnew
    by_cases hs : (c.version new).ts = -1
    · exact .inl hs
    · exact .inr (h.ts_mono hold.1 hlt ⟨hnew.1, by omega⟩ hs)

end VersionedArray

section Snapshot

variable {ι S : Type} [DecidableEq ι] [DecidableEq S]

/-- In every reachable state `c` and in every later state `d`: only the newest version of a chain
may be unstamped, and stamps never increase towards older versions; two reads of one slot at one
timestamp, completed in `c` and in `d`, return the same value; and if an `insert` that linked `u₁`
had returned in `c`, and `u₂` was linked after `c`, then a stamp of `u₂` below `T` puts the stamp of
`u₁` below `T`. -/
theorem snapshot_reads (value : S → Val) {c d : Config ι (VersionStore S) (VersionPc S)}
    (hc : Run (versionMachine S) anyStep (versionInit value) c)
    (hd : Run (versionMachine S) anyStep c d) :
    (∀ j, ∃ l, (d.shared.slot j).History l) ∧
      (∀ i k j T v w, c.thread i = .ret (.value j T v) → d.thread k = .ret (.value j T w) → v = w) ∧
      (∀ i j₁ u₁ j₂ u₂ T, c.thread i = .ret (.inserted (some (j₁, u₁))) →
        (c.shared.slot j₂).size ≤ u₂ → u₂ < (d.shared.slot j₂).size →
        (d.shared.slot j₂).Stamped u₂ → (d.shared.slot j₂).ts u₂ < T →
        (d.shared.slot j₁).Stamped u₁ ∧ (d.shared.slot j₁).ts u₁ < T) := by
  -- the invariant holds in both states, and the later one is reached within the guarantee
  have hinit : (VersionStore.relyGuarantee S).Holds (versionInit value : Config ι _ _) :=
    ⟨⟨TrackerList.inv_new, fun j => VersionedArray.inv_new (value j)⟩, fun _ => trivial⟩
  have hhc := (VersionStore.relyGuarantee S).run_holds hc hinit
  have hhd := (VersionStore.relyGuarantee S).run_holds hd hhc
  have hg : VersionStore.Guar c.shared d.shared := (VersionStore.relyGuarantee S).run_guar hd hhc
  refine ⟨fun j => ⟨_, VersionedArray.history_of_inv (hhd.inv.slot j)⟩, ?_, ?_⟩
  · intro i k j T v w hi hk
    have hread : (VersionPc.ret (.value j T v)).Ok d.shared := by
      rw [← hi]
      exact VersionStore.ok_mono hhc.inv hg (hhc.loc i)
    have hread' : (VersionPc.ret (.value j T w)).Ok d.shared := by
      rw [← hk]
      exact hhd.loc k
    -- the version that a timestamp selects is unique
    obtain ⟨a, hsel, rfl⟩ := hread
    obtain ⟨a', hsel', rfl⟩ := hread'
    rw [hsel.unique (hhd.inv.slot j) hsel']
  · intro i j₁ u₁ j₂ u₂ T hi hnew hlt hst hT
    have hins : (VersionPc.ret (.inserted (some (j₁, u₁)))).Ok c.shared := by
      rw [← hi]
      exact hhc.loc i
    obtain ⟨hver, hst₁⟩ := hins
    have hpos : 0 < u₂ := lt_of_lt_of_le (hhc.inv.slot j₂).vhead_version.1
      ((Nat.le_succ _).trans ((hhc.inv.slot j₂).vhead_eq.le.trans hnew))
    have hver₂ : (d.shared.slot j₂).IsVersion u₂ := ⟨hpos, hlt⟩
    refine ⟨hst₁.mono (hg.slot j₁) hver, ?_⟩
    rw [(hg.slot j₁).ts_eq u₁ hver hst₁]
    -- a version is stamped after it is born, and `u₂` is born after the stamp of `u₁`
    calc (c.shared.slot j₁).ts u₁ ≤ clock c.shared.tracker.tail :=
          ((hhc.inv.slot j₁).stamp u₁ hver hst₁).2
      _ ≤ clock ((d.shared.slot j₂).born u₂) := clock_mono ((hg.slot j₂).born_new u₂ hver₂ hnew)
      _ ≤ (d.shared.slot j₂).ts u₂ := ((hhd.inv.slot j₂).stamp u₂ hver₂ hst).1
      _ < T := hT

end Snapshot

/-- Thread 1 updates a slot from 7 to 9 before thread 0 takes the timestamp 1, and to 11 afterwards.
Thread 0 reads the slot at 1 before and after the second update. -/
theorem snapshot_reads_two_updates :
    ∃ c d : Config (Fin 2) (VersionStore (Fin 2)) (VersionPc (Fin 2)),
      c.thread 0 = .ret (.value 0 1 9) ∧ c.thread 1 = .ret (.inserted (some (0, 2))) ∧
      d.thread 0 = .ret (.value 0 1 9) ∧ d.thread 1 = .ret (.inserted (some (0, 3))) ∧
      (∀ j, ∃ l, (d.shared.slot j).History l) ∧
      (∀ i k j T v w, c.thread i = .ret (.value j T v) → d.thread k = .ret (.value j T w) → v = w) ∧
      (∀ i j₁ u₁ j₂ u₂ T, c.thread i = .ret (.inserted (some (j₁, u₁))) →
        (c.shared.slot j₂).size ≤ u₂ → u₂ < (d.shared.slot j₂).size →
        (d.shared.slot j₂).Stamped u₂ → (d.shared.slot j₂).ts u₂ < T →
        (d.shared.slot j₁).Stamped u₁ ∧ (d.shared.slot j₁).ts u₁ < T) := by
  let sched : List (Fin 2 × VersionOp (Fin 2)) :=
    List.replicate 12 (1, .insert 0 9) ++ List.replicate 4 (0, .addTimestamp) ++
    List.replicate 4 (0, .getVersionedValue 0 1)
  let sched' : List (Fin 2 × VersionOp (Fin 2)) :=
    List.replicate 10 (1, .insert 0 11) ++ List.replicate 5 (0, .getVersionedValue 0 1)
  have hexec : (((versionInit fun _ => 7).exec (versionMachine (Fin 2)) anyStep sched).bind fun c =>
      (c.exec (versionMachine (Fin 2)) anyStep sched').map fun d =>
        (c.thread 0, c.thread 1, d.thread 0, d.thread 1)) =
      some (.ret (.value 0 1 9), .ret (.inserted (some (0, 2))), .ret (.value 0 1 9),
        .ret (.inserted (some (0, 3)))) := by decide
  obtain ⟨c, hc, hcd⟩ := Option.bind_eq_some_iff.mp hexec
  obtain ⟨d, hd, hpc⟩ := Option.map_eq_some_iff.mp hcd
  simp only [Prod.mk.injEq] at hpc
  exact ⟨c, d, hpc.1, hpc.2.1, hpc.2.2.1, hpc.2.2.2,
    snapshot_reads (fun _ => 7) (Config.exec_run hc) (Config.exec_run hd)⟩

end KanvaRS
