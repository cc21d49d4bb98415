import Kanva.Impl.Bin.Machine

/-!
# The calls on a bin

A thread inside an update of a bin stays inside that update until it returns, and a thread inside
`collect` stays there.

## Main results

* `BinMem.step_for`, `BinMem.step_collecting`: a call stays the same call.
* `BinMem.step_false`: only the load of a sealed root makes an update return false.
-/

namespace KanvaImpl

/-- The thread is inside the update, or has left it with its `bool`. -/
def BinPc.For {K : Type} (u : Update K) : BinPc K → Prop
  | .ret (.updated v _) | .loadRoot (.update v) | .addCount v _ | .casSplit v _ _ _
  | .casSeal v _ | .offEnd v => v = u
  | .loadCount key value _ => .insert key value = u
  | .listUpdate v _ _ | .splitCollect v _ _ => v = u
  | _ => False

/-- The thread is inside `collect`, or has left it with its vectors. -/
def BinPc.Collecting {K : Type} : BinPc K → Prop
  | .ret (.vectors _ _) | .loadRoot .collect | .collect _ _ _ _ _ => True
  | _ => False

namespace BinMem

variable {K : Type} {b b' : BinMem K} {u : Update K} {pl : Place K}

/-- A child is split, or the bin is sealed. -/
theorem splitOrSeal_cases (u : Update K) (pl : Place K) :
    splitOrSeal u pl = .splitCollect u pl (LinkedList.enter .collect) ∨
      splitOrSeal u pl = .casSeal u pl := by
  unfold splitOrSeal
  split
  · exact .inl rfl
  · split
    · exact .inl rfl
    · exact .inr rfl

/-- After the list's `insert` or `remove`, the update goes on, returns true, or flows off the end of
`remove_internal`. -/
theorem updateReturn_cases (u : Update K) (pl : Place K) (r : ℤ) :
    updateReturn u pl r = splitOrSeal u pl ∨ updateReturn u pl r = .addCount u pl ∨
      updateReturn u pl r = .ret (.updated u true) ∨ updateReturn u pl r = .offEnd u := by
  unfold updateReturn
  generalize (if pl.parent.isNone then boolOfInt r else r) = res
  by_cases hretry : res = -1
  · exact .inl (if_pos hretry)
  · simp only [if_neg hretry]
    cases u <;> simp only <;> split <;> simp

theorem misreadReturn_cases (u : Update K) (pl : Place K) :
    misreadReturn u pl = .addCount u pl ∨ misreadReturn u pl = .offEnd u := by
  unfold misreadReturn
  split
  · exact .inl rfl
  · exact .inr rfl

theorem splitOrSeal_for : (splitOrSeal u pl).For u := by
  rcases splitOrSeal_cases u pl with heq | heq <;> rw [heq] <;> rfl

theorem updateReturn_for (r : ℤ) : (updateReturn u pl r).For u := by
  rcases updateReturn_cases u pl r with heq | heq | heq | heq <;> rw [heq]
  · exact splitOrSeal_for
  · rfl
  · rfl
  · rfl

theorem misreadReturn_for : (misreadReturn u pl).For u := by
  rcases misreadReturn_cases u pl with heq | heq <;> rw [heq] <;> rfl

variable [LinearOrder K] [BoundedOrder K] [Zero K] {pc pc' : BinPc K}

/-- An update stays the same update. -/
theorem step_for (hpc : pc.For u) (hs : b.step pc = some (b', pc')) :
    pc'.For u := by
  cases pc with
  | ret r | offEnd u => simp [step] at hs
  | loadRoot op =>
    cases op with
    | update v =>
      obtain rfl : v = u := hpc
      cases hs
      cases v <;> rw [dispatch] <;> split <;> rfl
    | _ => exact hpc.elim
  | loadCount k value pl =>
    obtain rfl : .insert k value = u := hpc
    rw [step] at hs
    split at hs <;> cases hs
    · rfl
    · exact splitOrSeal_for
  | listUpdate v pl p =>
    obtain rfl : v = u := hpc
    rw [step] at hs
    obtain ⟨⟨l, p'⟩, -, heq⟩ := Option.map_eq_some_iff.mp hs
    cases heq
    split
    · exact updateReturn_for _
    · exact misreadReturn_for
    · rfl
  | addCount v pl =>
    obtain rfl : v = u := hpc
    cases v <;> cases hs <;> rfl
  | splitCollect v pl p =>
    obtain rfl : v = u := hpc
    rw [step] at hs
    obtain ⟨⟨l, p'⟩, -, heq⟩ := Option.map_eq_some_iff.mp hs
    cases heq
    split <;> rfl
  | casSplit v pl keys vals =>
    rw [step] at hs
    split at hs <;> cases hs <;> exact hpc
  | casSeal v pl =>
    rw [step] at hs
    split at hs <;> cases hs <;> exact hpc
  | _ => exact hpc.elim

/-- A collection stays a collection. -/
theorem step_collecting (hpc : pc.Collecting)
    (hs : b.step pc = some (b', pc')) : pc'.Collecting := by
  cases pc with
  | ret r => simp [step] at hs
  | loadRoot op =>
    cases op with
    | collect =>
      cases hs
      rw [dispatch]
      split <;> trivial
    | _ => exact hpc.elim
  | collect rest keys vals child p =>
    rw [step] at hs
    obtain ⟨⟨l, p'⟩, -, heq⟩ := Option.map_eq_some_iff.mp hs
    cases heq
    split <;> trivial
  | _ => exact hpc.elim

/-- Only the load of a sealed root makes an update return false. -/
theorem step_false (hs : b.step pc = some (b', .ret (.updated u false))) :
    pc = .loadRoot (.update u) ∧ b.root.isMarked = true := by
  have hret : ∀ {v : Update K} {pl : Place K} {r : ℤ},
      updateReturn v pl r ≠ .ret (.updated u false) := by
    intro v pl r
    rcases updateReturn_cases v pl r with heq | heq | heq | heq <;> rw [heq]
    · rcases splitOrSeal_cases v pl with heq | heq <;> rw [heq] <;> simp
    · simp
    · simp
    · simp
  cases pc with
  | ret r | offEnd u => simp [step] at hs
  | loadRoot op =>
    rw [step] at hs
    -- the one load that can end an update: the root is sealed
    obtain ⟨-, hd⟩ := Prod.ext_iff.mp (Option.some.inj hs)
    simp only at hd
    cases op with
    | update v =>
      by_cases hm : b.root.isMarked = true
      · simp only [dispatch, if_pos hm] at hd
        cases hd
        exact ⟨rfl, hm⟩
      · cases v <;> simp only [dispatch, if_neg hm] at hd <;> cases hd
    | search k => cases hd
    | collect =>
      rw [dispatch] at hd
      split at hd <;> cases hd
  | loadCount k value pl =>
    rw [step] at hs
    split at hs
    · cases hs
    · rcases splitOrSeal_cases (.insert k value) pl with heq | heq <;> rw [heq] at hs <;> cases hs
  | listUpdate v pl p =>
    rw [step] at hs
    obtain ⟨⟨l, p'⟩, -, heq⟩ := Option.map_eq_some_iff.mp hs
    obtain ⟨-, hpc⟩ := Prod.ext_iff.mp heq
    simp only at hpc
    -- whatever the list returns, the update is tried again or returns true
    split at hpc
    · exact absurd hpc hret
    · rcases misreadReturn_cases v pl with hmis | hmis <;> rw [hmis] at hpc <;> cases hpc
    · cases hpc
  | addCount v pl => cases v <;> cases hs
  | splitCollect v pl p =>
    rw [step] at hs
    obtain ⟨⟨l, p'⟩, -, heq⟩ := Option.map_eq_some_iff.mp hs
    obtain ⟨-, hpc⟩ := Prod.ext_iff.mp heq
    simp only at hpc
    split at hpc <;> cases hpc
  | casSplit v pl keys vals =>
    rw [step] at hs
    split at hs <;> cases hs
  | casSeal v pl =>
    rw [step] at hs
    split at hs <;> cases hs
  | search k child p =>
    rw [step] at hs
    obtain ⟨⟨l, p'⟩, -, heq⟩ := Option.map_eq_some_iff.mp hs
    obtain ⟨-, hpc⟩ := Prod.ext_iff.mp heq
    simp only at hpc
    split at hpc <;> cases hpc
  | collect rest keys vals child p =>
    rw [step] at hs
    obtain ⟨⟨l, p'⟩, -, heq⟩ := Option.map_eq_some_iff.mp hs
    obtain ⟨-, hpc⟩ := Prod.ext_iff.mp heq
    simp only at hpc
    split at hpc <;> cases hpc

end BinMem

end KanvaImpl
