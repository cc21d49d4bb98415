import Mathlib.Data.List.Nodup
import Mathlib.Logic.Function.Basic

/-!
# Interleaving machines and the rely-guarantee rule

A `Machine` is the program every thread of a family runs: one atomic step reads and writes a
shared memory `σ` and the thread's own state `τ`, and takes an external input `χ` (the next call a
client makes, for instance). A `Config` is one shared memory with one local state for each thread,
and a `Run` interleaves the threads' steps in any order.

A run may be restricted to the steps that satisfy a predicate `ok`; the unrestricted runs are
those for `fun _ _ _ => True`.

## Main results

* `RelyGuarantee.run_holds`: an invariant of the shared memory and of each local state, each kept
  by every step, holds along every run. A local assertion only has to be stable under the
  guarantee, so the number of threads never enters a proof.
* `RelyGuarantee.run_guar`: what one step guarantees, a run guarantees.
* `RelyGuarantee.run_thread`: a property of one thread, followed from any point of a run.
* `Ownership.run_exclusive`: what a thread took fresh, no other thread ever owns.
* `Config.exec_run`: a schedule that executes is a run.
-/

namespace Interleaving

/-- The step function of a thread: `none` when the thread cannot move on this input. -/
structure Machine (σ τ χ : Type*) where
  next : σ → τ → χ → Option (σ × τ)

/-- One shared memory, and the local state of every thread. -/
@[ext]
structure Config (ι σ τ : Type*) where
  shared : σ
  thread : ι → τ

variable {ι σ τ χ : Type*} [DecidableEq ι]

namespace Config

/-- Thread `i` takes one step on input `x`; the other threads keep their states. -/
def fire (M : Machine σ τ χ) (c : Config ι σ τ) (i : ι) (x : χ) : Option (Config ι σ τ) :=
  (M.next c.shared (c.thread i) x).map fun r => ⟨r.1, Function.update c.thread i r.2⟩

/-- A step of thread `i` is a step of its program, and every other thread keeps its state. -/
theorem fire_eq_some_iff {M : Machine σ τ χ} {c d : Config ι σ τ} {i : ι} {x : χ} :
    c.fire M i x = some d ↔
      ∃ s' t', M.next c.shared (c.thread i) x = some (s', t') ∧
        d = ⟨s', Function.update c.thread i t'⟩ := by
  constructor
  · intro h
    obtain ⟨⟨s', t'⟩, hn, hd⟩ := Option.map_eq_some_iff.mp h
    exact ⟨s', t', hn, hd.symm⟩
  · rintro ⟨s', t', hn, rfl⟩
    simp [fire, hn]

end Config

/-- `Run M ok c d`: some interleaving of steps that satisfy `ok` leads from `c` to `d`. -/
inductive Run (M : Machine σ τ χ) (ok : σ → τ → χ → Prop) :
    Config ι σ τ → Config ι σ τ → Prop
  | refl (c : Config ι σ τ) : Run M ok c c
  | step {c d e : Config ι σ τ} (i : ι) (x : χ) :
      Run M ok c d → ok d.shared (d.thread i) x → d.fire M i x = some e → Run M ok c e

/-- The predicate of the unrestricted runs. -/
def anyStep (_ : σ) (_ : τ) (_ : χ) : Prop := True

instance (s : σ) (t : τ) (x : χ) : Decidable (anyStep s t x) := .isTrue trivial

namespace Run

variable {M : Machine σ τ χ} {ok ok' : σ → τ → χ → Prop} {c d e : Config ι σ τ}

/-- Runs compose. -/
theorem trans (h : Run M ok c d) (h' : Run M ok d e) : Run M ok c e := by
  induction h' with
  | refl => exact h
  | step i x _ hok hf ih => exact .step i x ih hok hf

/-- A weaker step predicate allows more runs. -/
theorem mono (hle : ∀ s t x, ok s t x → ok' s t x) (h : Run M ok c d) : Run M ok' c d := by
  induction h with
  | refl => exact .refl _
  | step i x _ hok hf ih => exact .step i x ih (hle _ _ _ hok) hf

/-- A property of configurations that every allowed step keeps holds along a run. -/
theorem invariant {P : Config ι σ τ → Prop}
    (hstep : ∀ {c d} (i : ι) (x : χ), P c → ok c.shared (c.thread i) x →
      c.fire M i x = some d → P d)
    (h : Run M ok c d) (hc : P c) : P d := by
  induction h with
  | refl => exact hc
  | step i x _ hok hf ih => exact hstep i x ih hok hf

end Run

section Exec

variable (M : Machine σ τ χ) (ok : σ → τ → χ → Prop) [∀ s t x, Decidable (ok s t x)]

/-- Fire the steps of a schedule in order, as long as they satisfy `ok`. -/
def Config.exec : Config ι σ τ → List (ι × χ) → Option (Config ι σ τ)
  | c, [] => some c
  | c, (i, x) :: rest =>
    if ok c.shared (c.thread i) x then (c.fire M i x).bind fun d => exec d rest else none

variable {M ok}

/-- A schedule that executes gives a run. -/
theorem Config.exec_run :
    ∀ {sched : List (ι × χ)} {c d : Config ι σ τ}, c.exec M ok sched = some d → Run M ok c d
  | [], c, d, h => by
      obtain rfl : c = d := by simpa [Config.exec] using h
      exact .refl c
  | (i, x) :: rest, c, d, h => by
      unfold Config.exec at h
      split at h
      · next hok =>
        obtain ⟨e, he, hd⟩ := Option.bind_eq_some_iff.mp h
        exact (Run.step i x (.refl c) hok he).trans (exec_run hd)
      · cases h

/-- A schedule that executes and ends in a state that passes a test gives a run to such a state. -/
theorem Config.exec_any {sched : List (ι × χ)} {c : Config ι σ τ} {p : Config ι σ τ → Bool}
    (h : (c.exec M ok sched).any p = true) : ∃ d, Run M ok c d ∧ p d = true := by
  obtain ⟨d, hd, hp⟩ := (Option.any_eq_true p _).mp h
  exact ⟨d, exec_run hd, hp⟩

end Exec

/-- A rely-guarantee proof for a machine restricted to the steps `ok`: a shared invariant, an
assertion about each local state, and the effect on the shared memory that each thread guarantees
and every other thread relies on. -/
structure RelyGuarantee (M : Machine σ τ χ) (ok : σ → τ → χ → Prop) where
  inv : σ → Prop
  loc : σ → τ → Prop
  guar : σ → σ → Prop
  guar_refl : ∀ s, guar s s
  guar_trans : ∀ {s s' s''}, guar s s' → guar s' s'' → guar s s''
  /-- A step keeps the invariant and its own assertion, and stays within the guarantee. -/
  step : ∀ {s t x s' t'}, inv s → loc s t → ok s t x → M.next s t x = some (s', t') →
    inv s' ∧ loc s' t' ∧ guar s s'
  /-- The assertion of a thread survives the steps of the others. -/
  stable : ∀ {s s' t}, inv s → loc s t → guar s s' → loc s' t

namespace RelyGuarantee

variable {M : Machine σ τ χ} {ok : σ → τ → χ → Prop} (R : RelyGuarantee M ok)
  {c d : Config ι σ τ}

/-- The shared invariant, and the assertion of every thread. -/
structure Holds (c : Config ι σ τ) : Prop where
  inv : R.inv c.shared
  loc : ∀ i, R.loc c.shared (c.thread i)

/-- One step keeps the invariant and all assertions, and is within the guarantee. -/
theorem fire_holds {i : ι} {x : χ} (h : R.Holds c) (hok : ok c.shared (c.thread i) x)
    (hf : c.fire M i x = some d) : R.Holds d ∧ R.guar c.shared d.shared := by
  obtain ⟨s', t', hn, rfl⟩ := Config.fire_eq_some_iff.mp hf
  obtain ⟨hinv, hloc, hguar⟩ := R.step h.inv (h.loc i) hok hn
  refine ⟨⟨hinv, fun j => ?_⟩, hguar⟩
  by_cases hj : j = i
  · subst hj
    simpa using hloc
  · simpa [hj] using R.stable h.inv (h.loc j) hguar

/-- The invariant and all assertions hold along every run. -/
theorem run_holds (h : Run M ok c d) (hc : R.Holds c) : R.Holds d :=
  h.invariant (P := R.Holds) (fun _ _ hc hok hf => (R.fire_holds hc hok hf).1) hc

/-- A run stays within the guarantee of its steps. -/
theorem run_guar (h : Run M ok c d) (hc : R.Holds c) : R.guar c.shared d.shared := by
  induction h with
  | refl => exact R.guar_refl _
  | step i x hr hok hf ih =>
    exact R.guar_trans ih (R.fire_holds (R.run_holds hr hc) hok hf).2

/-- A property of one thread that its own steps keep, and that survives the steps of the others,
holds along every run. Nothing is asked of the other threads, so that the thread can be followed
from any point of a run. -/
theorem run_thread {P : σ → τ → Prop} {i : ι}
    (hstep : ∀ {s t x s' t'}, R.inv s → R.loc s t → P s t → ok s t x →
      M.next s t x = some (s', t') → P s' t')
    (hstable : ∀ {s s' t}, R.inv s → R.inv s' → P s t → R.guar s s' → P s' t)
    (h : Run M ok c d) (hc : R.Holds c) (hi : P c.shared (c.thread i)) :
    P d.shared (d.thread i) := by
  induction h with
  | refl => exact hi
  | step j x hr hok hf ih =>
    have hd := R.run_holds hr hc
    obtain ⟨he, hguar⟩ := R.fire_holds hd hok hf
    obtain ⟨s', t', hn, rfl⟩ := Config.fire_eq_some_iff.mp hf
    by_cases hij : i = j
    · subst hij
      simpa using hstep hd.inv (hd.loc i) ih hok hn
    · simpa [hij] using hstable hd.inv he.inv ih hguar

end RelyGuarantee

/-- Resources that belong to one thread each: a step keeps the resources of its thread, gives some
up, or takes fresh ones. -/
structure Ownership {M : Machine σ τ χ} {ok : σ → τ → χ → Prop} (R : RelyGuarantee M ok)
    (α : Type*) where
  own : τ → List α
  fresh : σ → α → Prop
  fresh_mono : ∀ {s s' a}, R.guar s s' → fresh s' a → fresh s a
  step : ∀ {s t x s' t'}, R.inv s → R.loc s t → ok s t x → M.next s t x = some (s', t') →
    (own t).Nodup → (∀ a ∈ own t, ¬ fresh s a) →
    (own t').Nodup ∧ ∀ a ∈ own t', (a ∈ own t ∨ fresh s a) ∧ ¬ fresh s' a

namespace Ownership

variable {M : Machine σ τ χ} {ok : σ → τ → χ → Prop} {R : RelyGuarantee M ok} {α : Type*}
  (O : Ownership R α) {c d : Config ι σ τ}

/-- No thread owns a resource twice, no two threads own the same, and none that is owned is
fresh. -/
structure Exclusive (c : Config ι σ τ) : Prop where
  nodup : ∀ i, (O.own (c.thread i)).Nodup
  used : ∀ i, ∀ a ∈ O.own (c.thread i), ¬ O.fresh c.shared a
  disjoint : ∀ i j, i ≠ j → (O.own (c.thread i)).Disjoint (O.own (c.thread j))

/-- One step keeps the ownership exclusive. -/
theorem fire_exclusive {i : ι} {x : χ} (hc : R.Holds c) (h : O.Exclusive c)
    (hok : ok c.shared (c.thread i) x) (hf : c.fire M i x = some d) : O.Exclusive d := by
  have hguar := (R.fire_holds hc hok hf).2
  obtain ⟨s', t', hn, rfl⟩ := Config.fire_eq_some_iff.mp hf
  obtain ⟨hnodup, hown⟩ := O.step hc.inv (hc.loc i) hok hn (h.nodup i) (h.used i)
  -- what the stepping thread owns afterwards is not what another one owns
  have hdisj : ∀ j, j ≠ i → (O.own t').Disjoint (O.own (c.thread j)) := by
    intro j hj a ha haj
    rcases (hown a ha).1 with hold | hfresh
    · exact h.disjoint i j hj.symm hold haj
    · exact h.used j a haj hfresh
  refine ⟨fun j => ?_, fun j a ha => ?_, fun j k hjk => ?_⟩
  · by_cases hj : j = i
    · subst hj
      simpa using hnodup
    · simpa [hj] using h.nodup j
  · by_cases hj : j = i
    · subst hj
      exact (hown a (by simpa using ha)).2
    · intro hfresh
      exact h.used j a (by simpa [hj] using ha) (O.fresh_mono hguar hfresh)
  · by_cases hj : j = i
    · subst hj
      simpa [hjk.symm] using hdisj k hjk.symm
    · by_cases hk : k = i
      · subst hk
        have hji : (O.own (c.thread j)).Disjoint (O.own t') := fun a haj hat => hdisj j hj hat haj
        simpa [hj] using hji
      · simpa [hj, hk] using h.disjoint j k hjk

/-- The ownership stays exclusive along every run. -/
theorem run_exclusive (h : Run M ok c d) (hc : R.Holds c) (ho : O.Exclusive c) : O.Exclusive d := by
  induction h with
  | refl => exact ho
  | step i x hr hok hf ih => exact O.fire_exclusive (R.run_holds hr hc) ih hok hf

end Ownership

end Interleaving
