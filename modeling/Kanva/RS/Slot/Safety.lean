import Kanva.RS.Slot.Steps

/-!
# New keys survive retraining

A key that has been linked is a node for ever. A collection that returns has frozen the whole list,
so it has the keys of all nodes, and no node comes after it.

## Main results

* `new_keys_survive`: in every run the slot goes from nothing to one bin to one model, all
  collections agree, and the keys that have been linked are in the list and in the model.
-/

namespace KanvaRS

open Interleaving Kanva SlotMemory

variable {ι K : Type} [DecidableEq ι] [LinearOrder K] [BoundedOrder K]
  {c d : Config ι (SlotMemory K) (SlotPc K)}

/-- In every run of any number of threads: the slot pointer goes only from null to one bin to one
model; two collections that have returned true have the same keys, in strictly ascending order; and
a key whose insertion into the list has returned 1 is a node of the list from then on, and an entry
of the model once there is one. -/
theorem new_keys_survive (hc : Run (slotMachine K) anyStep slotInit c)
    (hd : Run (slotMachine K) anyStep c d) :
    Relation.ReflTransGen MobPtr.Next c.shared.mob d.shared.mob ∧
    (∀ i j call call' acc acc', c.thread i = .collected call acc →
      d.thread j = .collected call' acc' →
      acc.map Prod.fst = acc'.map Prod.fst ∧ (acc.map Prod.fst).Pairwise (· < ·)) ∧
    ∀ i op linked, c.thread i = .ret (.list op 1 linked) →
      d.shared.InList op.key ∧
        ∀ a, d.shared.mob = .ai a → op.key ∈ d.shared.array.map Prod.fst := by
  have hholds := (relyGuarantee K).run_holds hc holds_init
  have hholds' := (relyGuarantee K).run_holds hd hholds
  have hguar : Guar c.shared d.shared := (relyGuarantee K).run_guar hd hholds
  have hinv : c.shared.Inv := hholds.inv
  have hinv' : d.shared.Inv := hholds'.inv
  refine ⟨hguar.mob, fun i j call call' acc acc' hi hj => ?_, fun i op linked hi => ?_⟩
  · have hcomplete : (SlotPc.collected call acc).Ok c.shared := hi ▸ hholds.loc i
    have hcomplete' : (SlotPc.collected call' acc').Ok d.shared := hj ▸ hholds'.loc j
    exact ⟨(Complete.mono hcomplete hguar).unique hcomplete', Complete.sorted hinv.list hcomplete⟩
  · have hlinked : (SlotPc.ret (.list op 1 linked)).Ok c.shared := hi ▸ hholds.loc i
    have hkey : d.shared.HasKey op.key := (hlinked rfl).mono hguar
    exact ⟨hinv'.list.inList hkey, fun a ha => (hinv'.published a ha).mem hinv'.list hkey⟩

/-- The result of a thread between two calls. -/
def SlotPc.result? {K : Type} : SlotPc K → Option (SlotResult K)
  | .ret r => some r
  | _ => none

theorem SlotPc.eq_ret {K : Type} {pc : SlotPc K} {r : SlotResult K} (h : pc.result? = some r) :
    pc = .ret r := by
  cases pc with
  | ret r' => exact congrArg SlotPc.ret (Option.some.inj h)
  | _ => cases h

/-! ### A full list -/

/-- `n` steps of a thread that inserts the key with the value, `globalTs` being the latest
timestamp. -/
def insertSteps (i : Fin 2) (key : Fin 64) (val : Val) (globalTs : ℤ) (n : ℕ) :
    List (Fin 2 × SlotInput (Fin 64)) :=
  List.replicate n (i, ⟨.insert key val, globalTs, false⟩)

/-- Thread 0 links nine nodes, each in front of the ones before. -/
def linkNine : List (Fin 2 × SlotInput (Fin 64)) :=
  insertSteps 0 9 7 0 13 ++ [8, 7, 6, 5, 4, 3, 2, 1].flatMap fun key => insertSteps 0 key 7 0 12

/-- Thread 0 has linked nine nodes when thread 1 links the key 11 behind them. Then thread 0 finds
the list full and puts the model into the slot. -/
theorem new_keys_survive_eleven :
    ∃ c d : Config (Fin 2) (SlotMemory (Fin 64)) (SlotPc (Fin 64)),
      Run (slotMachine (Fin 64)) anyStep slotInit c ∧ Run (slotMachine (Fin 64)) anyStep c d ∧
      c.thread 1 = .ret (.list (.insert 11 7) 1 none) ∧ d.shared.mob = .ai 1 ∧
      11 ∈ d.shared.array.map Prod.fst := by
  have hexec : (((slotInit : Config (Fin 2) (SlotMemory (Fin 64)) (SlotPc (Fin 64))).exec
      (slotMachine (Fin 64)) anyStep (linkNine ++ insertSteps 1 11 7 0 21)).bind
      fun c => (c.exec (slotMachine (Fin 64)) anyStep (insertSteps 0 10 7 0 94)).map
      fun d => ((c.thread 1).result?, d.shared.mob)) =
      some (some (.list (.insert 11 7) 1 none), .ai 1) := by decide +kernel
  obtain ⟨c, hc, hcd⟩ := Option.bind_eq_some_iff.mp hexec
  obtain ⟨d, hd, heq⟩ := Option.map_eq_some_iff.mp hcd
  simp only [Prod.mk.injEq] at heq
  have hthread := SlotPc.eq_ret heq.1
  obtain ⟨-, -, hkeys⟩ := new_keys_survive (Config.exec_run hc) (Config.exec_run hd)
  exact ⟨c, d, Config.exec_run hc, Config.exec_run hd, hthread, heq.2,
    (hkeys 1 _ _ hthread).2 1 heq.2⟩

end KanvaRS
