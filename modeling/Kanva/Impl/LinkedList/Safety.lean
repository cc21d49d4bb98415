import Kanva.Impl.LinkedList.Invariant
import Mathlib.Order.Fin.Basic

/-!
# Structural safety of the bin list

In every reachable state of a list under any number of threads, the chain from `head` is finite,
sorted and ends at the max sentinel, and it contains every node that an `insert` has linked and no
`remove` has marked.
-/

namespace KanvaImpl

open Kanva Interleaving PointerChain

variable {ι K : Type} [DecidableEq ι] [LinearOrder K] [BoundedOrder K]

/-- The step of thread `i` from `c` to `d` is a successful linking CAS of `insert`. -/
def LinksNode (c d : Config ι (LinkedList K) (ListPc K)) (i : ι) : Prop :=
  (∃ key value prev right newNode, c.thread i = .insLink key value prev right newNode) ∧
    d.thread i = .insCount

/-- A linking step places its node at the next fresh address. -/
theorem size_of_linksNode {c d : Config ι (LinkedList K) (ListPc K)} {i : ι}
    {op : ListOp K} (hf : c.fire (listMachine K) i op = some d) (hl : LinksNode c d i) :
    d.shared.size = c.shared.size + 1 := by
  obtain ⟨⟨key, value, prev, right, newNode, hpc⟩, hcount⟩ := hl
  obtain ⟨s', pc', hs, rfl⟩ := Config.fire_eq_some_iff.mp hf
  rw [hpc] at hs
  simp only [listMachine, LinkedList.step] at hs
  split at hs <;> cases hs
  · simp at hcount
  · next s₁ hcas =>
    obtain ⟨-, rfl⟩ := LinkedList.cas_eq_some_iff.mp hcas
    rfl

/-- In every reachable state `e` the chain from `head` is finite, strictly increasing in key and
ends at the max sentinel, whose word is null; and it contains every node that a linking CAS
anywhere in the run has placed, as long as its own word is unmarked. -/
theorem chain_safety [Nontrivial K] (count : ℤ) {e : Config ι (LinkedList K) (ListPc K)}
    (he : Run (listMachine K) anyStep (listInit count) e) :
    ∃ l : List ℕ,
      Spine e.shared.succ e.shared.keyOf LinkedList.head LinkedList.maxAddr l ∧
      e.shared.next LinkedList.maxAddr = .null ∧
      ∀ (c d : Config ι (LinkedList K) (ListPc K)) (i : ι) (op : ListOp K),
        Run (listMachine K) anyStep (listInit count) c →
        c.fire (listMachine K) i op = some d → LinksNode c d i →
        Run (listMachine K) anyStep d e →
        (e.shared.next c.shared.size).mark = false → c.shared.size ∈ l := by
  have hinit := LinkedList.holds_init (ι := ι) (K := K) count
  have hinv := ((LinkedList.relyGuarantee K).run_holds he hinit).inv
  obtain ⟨l, hl, -, hmem⟩ := hinv.spine
  refine ⟨l, hl, hinv.max_next, fun c d i op hc hf hlink hd hmark => hmem _ ?_ hmark⟩
  have hhc := (LinkedList.relyGuarantee K).run_holds hc hinit
  have hhd := ((LinkedList.relyGuarantee K).fire_holds hhc trivial hf).1
  have hle : d.shared.size ≤ e.shared.size :=
    ((LinkedList.relyGuarantee K).run_guar hd hhd).size_le
  have hsize := size_of_linksNode hf hlink
  have hge : 3 ≤ c.shared.size := hhc.inv.size_ge
  exact ⟨by omega, by omega⟩

/-- Two threads insert 3 and 5 behind the same node: the second CAS fails and its call retries. -/
theorem chain_safety_two_inserts :
    ∃ e : Config (Fin 2) (LinkedList (Fin 8)) (ListPc (Fin 8)),
      e.thread 0 = .insCount ∧ e.thread 1 = .insCount ∧
      ∃ l, Spine e.shared.succ e.shared.keyOf LinkedList.head LinkedList.maxAddr l ∧
        e.shared.next LinkedList.maxAddr = .null ∧
        ∀ (c d : Config (Fin 2) (LinkedList (Fin 8)) (ListPc (Fin 8))) (i : Fin 2)
          (op : ListOp (Fin 8)), Run (listMachine (Fin 8)) anyStep (listInit 0) c →
          c.fire (listMachine (Fin 8)) i op = some d → LinksNode c d i →
          Run (listMachine (Fin 8)) anyStep d e →
          (e.shared.next c.shared.size).mark = false → c.shared.size ∈ l := by
  -- both calls reach their linking CAS, then thread 0 links, thread 1 fails and starts over
  let sched : List (Fin 2 × ListOp (Fin 8)) :=
    (List.replicate 5 (0, .update (.insert 3 7))) ++
      (List.replicate 5 (1, .update (.insert 5 9))) ++
    (0, .collect) :: List.replicate 7 (1, .collect)
  have hexec : (((listInit 0).exec (listMachine (Fin 8)) anyStep sched).map
      fun e => (e.thread 0, e.thread 1)) = some (.insCount, .insCount) := by decide
  obtain ⟨e, he, hpc⟩ := Option.map_eq_some_iff.mp hexec
  exact ⟨e, congrArg Prod.fst hpc, congrArg Prod.snd hpc, chain_safety 0 (Config.exec_run he)⟩

end KanvaImpl
