import Kanva.Impl.Bin.Searching
import Kanva.Impl.Slot.Machine

/-!
# Searches in a slot

A `find_retrain` reads the word of a slot, then the root of the bin, the words of a list or a value,
while other threads go on. It writes nothing, so that only its own program points tell what it will
return.

## Main results

* `SlotMem.step_finding`: a search writes nothing.
* `SlotMem.step_changing`: an update does not become a search.
* `SlotMem.entry_of_pos?`: an entry at which a call ends has its key.
-/

namespace KanvaImpl

open Kanva Interleaving

/-- The thread is inside `find_retrain`, or has left it with its result. -/
def SlotPc.Finding {K : Type} : SlotPc K → Prop
  | .ret (.found _ _) | .load (.find _) _ | .enterAi (.find _) _ | .value (.find _) _ _ => True
  | .inBin (.find key) _ pc => pc.Searching key
  | _ => False

/-- The thread is neither inside `find_retrain` nor holds its result. -/
def SlotPc.Changing {K : Type} : SlotPc K → Prop
  | .ret (.found _ _) | .load (.find _) _ | .enterAi (.find _) _ | .value (.find _) _ _ => False
  | .inBin (.find _) _ _ => False
  | _ => True

namespace SlotMem

variable {K : Type} {s s' : SlotMem K} {p : SlotAddr}

/-- After a step of its bin, an update goes on or has the `bool` of the bin. -/
theorem afterBin_change (p : SlotAddr) (c : Call K) (pc : BinPc K) :
    (∃ u r, pc = .ret (.updated u r) ∧ afterBin p (.change c) pc = binReturn c p r) ∨
      afterBin p (.change c) pc = .inBin (.change c) p pc := by
  unfold afterBin
  split
  · next u r heq =>
    cases heq
    exact .inl ⟨_, _, rfl, rfl⟩
  · next heq => cases heq
  · exact .inr rfl

/-- After a step of its bin, a search goes on or has the `bool` of the bin. -/
theorem afterBin_find (p : SlotAddr) (key : K) (pc : BinPc K) :
    (∃ k r, pc = .ret (.found k r) ∧ afterBin p (.find key) pc = .ret (.found key (.bin r))) ∨
      afterBin p (.find key) pc = .inBin (.find key) p pc := by
  unfold afterBin
  split
  · next heq => cases heq
  · next heq =>
    cases heq
    exact .inl ⟨_, _, rfl, rfl⟩
  · exact .inr rfl

variable [LinearOrder K]

/-- An entry at which a call ends has its key, and the other calls for the key end there. -/
theorem entry_of_pos? {m : ModelOver K SlotAddr} {op : SlotOp K} {pos : ℕ}
    (h : op.pos? m = some (.entry pos)) :
    pos < m.capacity ∧ m.keys pos = op.key ∧ m.findPos? op.key = some (.entry pos) := by
  rcases op with (⟨key, val⟩ | key) | key
  all_goals
    obtain ⟨hlt, hkey⟩ := ModelOver.keys_of_posOr? h
    exact ⟨hlt, hkey, ModelOver.posOr?_entry h⟩

/-- All calls for a key end at its entry. -/
theorem pos?_of_entry {m : ModelOver K SlotAddr} (op : SlotOp K) {pos : ℕ}
    (h : m.findPos? op.key = some (.entry pos)) : op.pos? m = some (.entry pos) := by
  rcases op with (⟨key, val⟩ | key) | key <;> exact ModelOver.posOr?_entry h

/-- In an array whose positions are `int`s, all calls for a key go to the same slot. -/
theorem pos?_eq {m : ModelOver K SlotAddr} (hcap : m.capacity + 1 < 2 ^ 31) (op : SlotOp K) :
    op.pos? m = m.findPos? op.key := by
  rcases op with (⟨key, val⟩ | key) | key
  · exact ModelOver.insertPos?_eq hcap
  · rfl
  · rfl

variable [BoundedOrder K] [Zero K]

/-- A step of a search inside a bin. -/
theorem step_inBin_find {fit : List K → LinearRegressionModel K} {key : K} {pc : BinPc K}
    {pc' : SlotPc K} (hsearch : pc.Searching key)
    (hs : s.step fit (.inBin (.find key) p pc) = some (s', pc')) :
    s' = s ∧ ∃ b, (s.bin p).step pc = some (s.bin p, b) ∧ b.Searching key ∧
      ((∃ k r, b = .ret (.found k r) ∧ pc' = .ret (.found key (.bin r))) ∨
        pc' = .inBin (.find key) p b) := by
  rw [step] at hs
  obtain ⟨⟨b, b'⟩, hb, heq⟩ := Option.map_eq_some_iff.mp hs
  cases heq
  -- the bin is as it was, and so is the slot
  obtain ⟨rfl, hsearch'⟩ := BinMem.step_searching hsearch hb
  exact ⟨by simp [setBin], b', hb, hsearch', afterBin_find p key b'⟩

/-- A search writes nothing. -/
theorem step_finding {fit : List K → LinearRegressionModel K} {pc pc' : SlotPc K}
    (hpc : pc.Finding) (hs : s.step fit pc = some (s', pc')) : s' = s ∧ pc'.Finding := by
  cases pc with
  | ret r => simp [step] at hs
  | load op p =>
    cases op with
    | change c => exact hpc.elim
    | find key =>
      cases hs
      refine ⟨rfl, ?_⟩
      cases s.mobsLf p <;> trivial
  | inBin op p pc =>
    cases op with
    | change c => exact hpc.elim
    | find key =>
      obtain ⟨rfl, b, -, hsearch, ⟨k, r, -, rfl⟩ | rfl⟩ := step_inBin_find hpc hs
      · exact ⟨rfl, trivial⟩
      · exact ⟨rfl, hsearch⟩
  | enterAi op p =>
    cases op with
    | change c => exact hpc.elim
    | find key =>
      rw [step] at hs
      split at hs
      · obtain ⟨pos, -, heq⟩ := Option.map_eq_some_iff.mp hs
        cases pos <;> cases heq <;> exact ⟨rfl, trivial⟩
      · cases hs
  | value op p pos =>
    cases op with
    | change c => exact hpc.elim
    | find key =>
      rw [step] at hs
      split at hs <;> cases hs
      exact ⟨rfl, trivial⟩
  | _ => exact hpc.elim

omit [LinearOrder K] [BoundedOrder K] [Zero K] in
theorem changing_enter (c : Call K) (p : SlotAddr) (w : SlotWord K) :
    (enter (.change c) p w).Changing := by
  cases w <;> cases c <;> trivial

/-- An update does not become a search. -/
theorem step_changing {fit : List K → LinearRegressionModel K} {pc pc' : SlotPc K}
    (hpc : pc.Changing) (hs : s.step fit pc = some (s', pc')) : pc'.Changing := by
  cases pc with
  | ret r => simp [step] at hs
  | load op p =>
    cases op with
    | change c =>
      cases hs
      exact changing_enter c p _
    | find key => exact hpc.elim
  | publishBin key val p =>
    rw [step] at hs
    split at hs <;> cases hs <;> exact changing_enter _ p _
  | inBin op p pc =>
    cases op with
    | change c =>
      rw [step] at hs
      obtain ⟨⟨b, pc'⟩, -, heq⟩ := Option.map_eq_some_iff.mp hs
      cases heq
      -- an insertion that gets false goes on to collect the bin
      rcases afterBin_change p c pc' with ⟨u, r, -, heq⟩ | heq <;> rw [heq]
      · cases c <;> cases r <;> trivial
      · trivial
    | find key => exact hpc.elim
  | collect c p pc =>
    rw [step] at hs
    obtain ⟨⟨b, pc'⟩, -, heq⟩ := Option.map_eq_some_iff.mp hs
    cases heq
    split <;> trivial
  | publishAi c p pairs =>
    rw [step] at hs
    obtain ⟨ai, -, hs⟩ := Option.map_eq_some_iff.mp hs
    split at hs <;> cases hs
    · trivial
    -- the slot has changed: a removal loads its word again
    · cases c with
      | insert key val => exact changing_enter (.insert key val) p _
      | remove key => trivial
  | enterAi op p =>
    cases op with
    | change c =>
      rw [step] at hs
      split at hs
      · obtain ⟨pos, -, heq⟩ := Option.map_eq_some_iff.mp hs
        cases pos <;> cases heq <;> trivial
      · cases hs
    | find key => exact hpc.elim
  | value op p pos =>
    cases op with
    | change c =>
      rw [step] at hs
      split at hs
      · cases c <;> cases hs <;> trivial
      · cases hs
    | find key => exact hpc.elim

end SlotMem

end KanvaImpl
