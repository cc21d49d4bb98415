import Kanva.RS.VersionTracker.Invariant
import Kanva.RS.VersionedArray.Machine

/-!
# The invariant of the version chains

The address of the tracker's tail serves as the clock: the timestamp at the address `t` is `t - 2`.
A version is stamped with a timestamp read after it was linked, so its stamp lies between the clock
at its linking (`born`) and the clock now. A version is linked in front of a stamped one only, so
all but the newest are stamped, and the stamps follow the order of linking.

A read at `T` can only see versions born before `T` was issued. `Settled` says of an address `b`
that every version up to it is stamped and every later one is born at `T` or later: from then on
the answer for `T` is fixed.

## Main results

* `VersionStore.step_ok`: every step keeps the invariant and the assertion of its thread.
* `VersionedArray.Selects.unique`: all reads at one timestamp select the same version.
-/

namespace KanvaRS

open Interleaving Kanva

/-- The timestamp of the tracker node at an address. -/
def clock (t : ℕ) : ℤ := t - 2

theorem clock_mono {t t' : ℕ} (h : t ≤ t') : clock t ≤ clock t' := by
  unfold clock
  omega

theorem TrackerList.Inv.latest_eq {s : TrackerList} (h : s.Inv) :
    s.getLatestTimestamp = clock s.tail :=
  h.ts_eq _ h.tail_ge h.tail_lt

namespace VersionedArray

/-- `a` is the address of a version. -/
def IsVersion (c : VersionedArray) (a : ℕ) : Prop := 0 < a ∧ a < c.size

/-- The stamp of a version, -1 before it has one. -/
def ts (c : VersionedArray) (a : ℕ) : ℤ := (c.version a).ts

/-- The version has got its stamp. -/
def Stamped (c : VersionedArray) (a : ℕ) : Prop := c.ts a ≠ -1

/-- The invariant of one chain, while the tracker's tail is at `tail`. -/
structure Inv (tail : ℕ) (c : VersionedArray) : Prop where
  vhead_eq : c.vhead + 1 = c.size
  vhead_pos : 0 < c.vhead
  nextv_eq : ∀ a, c.IsVersion a → (c.version a).nextv + 1 = a
  born_ge : ∀ a, c.IsVersion a → 2 ≤ c.born a
  born_le : ∀ a, c.IsVersion a → c.born a ≤ tail
  stamp : ∀ a, c.IsVersion a → c.Stamped a → clock (c.born a) ≤ c.ts a ∧ c.ts a ≤ clock tail
  older : ∀ a, 0 < a → a + 1 < c.size → c.Stamped a ∧ c.ts a ≤ clock (c.born (a + 1))

/-- What a step leaves alone while the tracker's tail is at `tail` or later: versions keep their
values and links, stamped ones their stamps, and new versions are born at `tail` or later. -/
structure Guar (tail : ℕ) (c c' : VersionedArray) : Prop where
  size_le : c.size ≤ c'.size
  value_eq : ∀ a, c.IsVersion a → (c'.version a).value = (c.version a).value
  born_eq : ∀ a, c.IsVersion a → c'.born a = c.born a
  ts_eq : ∀ a, c.IsVersion a → c.Stamped a → c'.ts a = c.ts a
  born_new : ∀ a, c'.IsVersion a → c.size ≤ a → tail ≤ c'.born a

variable {c c' c'' : VersionedArray} {tail tail' : ℕ}

theorem IsVersion.mono {a : ℕ} (h : c.IsVersion a) (hle : c.size ≤ c'.size) : c'.IsVersion a :=
  ⟨h.1, lt_of_lt_of_le h.2 hle⟩

theorem Stamped.mono {a : ℕ} (hg : Guar tail c c') (ha : c.IsVersion a) (h : c.Stamped a) :
    c'.Stamped a := by
  unfold Stamped
  rw [hg.ts_eq a ha h]
  exact h

namespace Guar

theorem refl (tail : ℕ) (c : VersionedArray) : Guar tail c c :=
  ⟨le_rfl, fun _ _ => rfl, fun _ _ => rfl, fun _ _ _ => rfl,
    fun _ ha hle => absurd ha.2 (Nat.not_lt.mpr hle)⟩

theorem trans (hle : tail ≤ tail') (h : Guar tail c c') (h' : Guar tail' c' c'') :
    Guar tail c c'' where
  size_le := h.size_le.trans h'.size_le
  value_eq a ha := (h'.value_eq a (ha.mono h.size_le)).trans (h.value_eq a ha)
  born_eq a ha := (h'.born_eq a (ha.mono h.size_le)).trans (h.born_eq a ha)
  ts_eq a ha hs := (h'.ts_eq a (ha.mono h.size_le) (hs.mono h ha)).trans (h.ts_eq a ha hs)
  born_new a ha hle' := by
    rcases Nat.lt_or_ge a c'.size with hold | hnew
    · have ha' : c'.IsVersion a := ⟨ha.1, hold⟩
      rw [h'.born_eq a ha']
      exact h.born_new a ha' hle'
    · exact hle.trans (h'.born_new a ha hnew)

end Guar

/-- The clock may move on under a chain. -/
theorem Inv.mono (h : Inv tail c) (hle : tail ≤ tail') : Inv tail' c :=
  { h with
    born_le := fun a ha => (h.born_le a ha).trans hle
    stamp := fun a ha hs => ⟨(h.stamp a ha hs).1, (h.stamp a ha hs).2.trans (clock_mono hle)⟩ }

/-- A fresh chain satisfies the invariant. -/
theorem inv_new (value : Val) : Inv TrackerList.initialHead (new value) where
  vhead_eq := rfl
  vhead_pos := Nat.one_pos
  nextv_eq a ha := by
    obtain ⟨hpos, hlt⟩ := ha
    have hlt' : a < 2 := hlt
    show 0 + 1 = a
    omega
  born_ge _ _ := le_rfl
  born_le _ _ := le_rfl
  stamp a _ hs := absurd rfl hs
  older a ha hlt := by
    have hlt' : a + 1 < 2 := hlt
    omega

theorem Inv.vhead_version (h : Inv tail c) : c.IsVersion c.vhead :=
  ⟨h.vhead_pos, by have := h.vhead_eq; omega⟩

/-- Every version but the newest is stamped. -/
theorem Inv.stamped_of_lt (h : Inv tail c) {a b : ℕ} (ha : 0 < a) (hab : a < b)
    (hb : c.IsVersion b) : c.Stamped a :=
  (h.older a ha (by have := hb.2; omega)).1

/-- A stamped version is stamped no earlier than the versions before it. -/
theorem Inv.ts_mono (h : Inv tail c) {a b : ℕ} (ha : 0 < a) (hab : a < b) (hb : c.IsVersion b)
    (hs : c.Stamped b) : c.ts a ≤ c.ts b := by
  obtain ⟨n, rfl⟩ := Nat.exists_eq_add_of_lt hab
  induction n with
  | zero => exact (h.older a ha hb.2).2.trans (h.stamp _ hb hs).1
  | succ n ih =>
    have hver : c.IsVersion (a + n + 1) := ⟨by omega, by have := hb.2; omega⟩
    have hprev := h.older (a + n + 1) (by omega) (by have := hb.2; omega)
    calc c.ts a ≤ c.ts (a + n + 1) := ih (by omega) hver hprev.1
      _ ≤ clock (c.born (a + n + 1 + 1)) := hprev.2
      _ ≤ c.ts (a + n + 1 + 1) := (h.stamp _ hb hs).1

section Writes

variable (c : VersionedArray) (a b : ℕ) (t : ℤ) (v : Vnode)

@[simp] theorem size_stamp : (c.stamp a t).size = c.size := by
  unfold stamp
  split <;> rfl

@[simp] theorem vhead_stamp : (c.stamp a t).vhead = c.vhead := by
  unfold stamp
  split <;> rfl

@[simp] theorem born_stamp : (c.stamp a t).born b = c.born b := by
  unfold stamp
  split <;> rfl

@[simp] theorem value_stamp : ((c.stamp a t).version b).value = (c.version b).value := by
  unfold stamp
  split
  · by_cases h : b = a <;> simp [h]
  · rfl

@[simp] theorem nextv_stamp : ((c.stamp a t).version b).nextv = (c.version b).nextv := by
  unfold stamp
  split
  · by_cases h : b = a <;> simp [h]
  · rfl

theorem ts_stamp : (c.stamp a t).ts b = if b = a ∧ c.ts a = -1 then t else c.ts b := by
  unfold stamp ts
  by_cases h : b = a
  · subst h
    by_cases hs : (c.version b).ts = -1 <;> simp [hs]
  · by_cases hs : (c.version a).ts = -1 <;> simp [h, hs]

@[simp] theorem isVersion_stamp : (c.stamp a t).IsVersion b ↔ c.IsVersion b := by
  unfold IsVersion
  rw [size_stamp]

@[simp] theorem size_link : (c.link v b).size = c.size + 1 := rfl

theorem version_link : (c.link v b).version a = if a = c.size then v else c.version a := by
  by_cases h : a = c.size <;> simp [link, h]

theorem born_link : (c.link v b).born a = if a = c.size then b else c.born a := by
  by_cases h : a = c.size <;> simp [link, h]

end Writes

/-- Stamping a version with a timestamp read after it was linked. -/
theorem inv_stamp (h : Inv tail c) {a : ℕ} {t : ℤ} (ha : c.IsVersion a)
    (hlo : clock (c.born a) ≤ t) (hhi : t ≤ clock tail) :
    Inv tail (c.stamp a t) ∧ Guar tail c (c.stamp a t) ∧ (c.stamp a t).Stamped a := by
  have ht : t ≠ -1 := by
    have hge := h.born_ge a ha
    unfold clock at hlo
    omega
  -- a version that was stamped before keeps its stamp
  have hold : ∀ b, c.Stamped b → (c.stamp a t).ts b = c.ts b := by
    intro b hb
    rw [ts_stamp]
    split
    · next hba =>
      obtain ⟨rfl, hunst⟩ := hba
      exact absurd hunst hb
    · rfl
  refine ⟨⟨?_, ?_, ?_, ?_, ?_, ?_, ?_⟩, ⟨?_, ?_, ?_, ?_, ?_⟩, ?_⟩
  · simpa using h.vhead_eq
  · simpa using h.vhead_pos
  · simpa using h.nextv_eq
  · simpa using h.born_ge
  · simpa using h.born_le
  · intro b hb hs
    rw [isVersion_stamp] at hb
    rw [born_stamp]
    unfold Stamped at hs
    rw [ts_stamp] at hs ⊢
    split
    · next hba => exact hba.1 ▸ ⟨hlo, hhi⟩
    · next hba =>
      rw [if_neg hba] at hs
      exact h.stamp b hb hs
  · intro b hb hlt
    rw [size_stamp] at hlt
    obtain ⟨hs, hle⟩ := h.older b hb hlt
    unfold Stamped
    rw [hold b hs, born_stamp]
    exact ⟨hs, hle⟩
  · exact le_of_eq (size_stamp _ _ _).symm
  · simp
  · simp
  · exact fun b _ hs => hold b hs
  · intro b hb hle
    rw [isVersion_stamp] at hb
    exact absurd hb.2 (Nat.not_lt.mpr hle)
  · unfold Stamped
    rw [ts_stamp]
    split
    · exact ht
    · next hba => exact fun hs => hba ⟨rfl, hs⟩

/-- Linking an unstamped version in front of a stamped one. -/
theorem inv_link (h : Inv tail c) (htail : 2 ≤ tail) (hs : c.Stamped c.vhead) (value : Val) :
    Inv tail (c.link ⟨value, -1, c.vhead⟩ tail) ∧
      Guar tail c (c.link ⟨value, -1, c.vhead⟩ tail) := by
  have hvhead := h.vhead_eq
  have hcases : ∀ a, (c.link ⟨value, -1, c.vhead⟩ tail).IsVersion a → a = c.size ∨
      c.IsVersion a := by
    intro a ha
    have hlt : a < c.size + 1 := ha.2
    rcases Nat.lt_succ_iff_lt_or_eq.mp hlt with hlt | rfl
    · exact .inr ⟨ha.1, hlt⟩
    · exact .inl rfl
  have hts : ∀ a, a < c.size → (c.link ⟨value, -1, c.vhead⟩ tail).ts a = c.ts a := by
    intro a ha
    unfold ts
    rw [version_link, if_neg (Nat.ne_of_lt ha)]
  refine ⟨⟨rfl, ?_, ?_, ?_, ?_, ?_, ?_⟩, ⟨?_, ?_, ?_, ?_, ?_⟩⟩
  · show 0 < c.size
    omega
  · intro a ha
    rw [version_link]
    rcases hcases a ha with rfl | ha
    · rw [if_pos rfl]
      exact hvhead
    · rw [if_neg (Nat.ne_of_lt ha.2)]
      exact h.nextv_eq a ha
  · intro a ha
    rw [born_link]
    rcases hcases a ha with rfl | ha
    · rwa [if_pos rfl]
    · rw [if_neg (Nat.ne_of_lt ha.2)]
      exact h.born_ge a ha
  · intro a ha
    rw [born_link]
    rcases hcases a ha with rfl | ha
    · rw [if_pos rfl]
    · rw [if_neg (Nat.ne_of_lt ha.2)]
      exact h.born_le a ha
  · intro a ha hst
    rcases hcases a ha with rfl | ha
    · refine absurd ?_ hst
      unfold ts
      rw [version_link, if_pos rfl]
    · unfold Stamped at hst
      rw [hts a ha.2] at hst ⊢
      rw [born_link, if_neg (Nat.ne_of_lt ha.2)]
      exact h.stamp a ha hst
  · intro a ha hlt
    rw [size_link] at hlt
    unfold Stamped
    rw [hts a (by omega), born_link]
    split
    · next hlast =>
      -- the old newest version is stamped, by the clock of its linking at the latest
      obtain rfl : a = c.vhead := by omega
      exact ⟨hs, (h.stamp _ h.vhead_version hs).2⟩
    · exact h.older a ha (by omega)
  · exact Nat.le_succ _
  · intro a ha
    rw [version_link, if_neg (Nat.ne_of_lt ha.2)]
  · intro a ha
    rw [born_link, if_neg (Nat.ne_of_lt ha.2)]
  · exact fun a ha _ => hts a ha.2
  · intro a ha hle
    have hlt : a < c.size + 1 := ha.2
    rw [born_link, if_pos (by omega)]

/-! ### Reads at a timestamp -/

/-- The versions up to `b` are stamped, and the later ones are born at `T` or later. -/
structure Settled (tail : ℕ) (c : VersionedArray) (T : ℤ) (b : ℕ) : Prop where
  issued : T ≤ clock tail
  lt : b < c.size
  stamped : ∀ a, 0 < a → a ≤ b → c.Stamped a
  later : ∀ a, b < a → a < c.size → T ≤ clock (c.born a)

/-- A read at `T` that started at the version `b` has skipped the versions after `a`. -/
structure Skipped (tail : ℕ) (c : VersionedArray) (T : ℤ) (a b : ℕ) : Prop where
  settled : Settled tail c T b
  le : a ≤ b
  skipped : ∀ x, a < x → x ≤ b → T ≤ c.ts x

/-- A read at `T` selects the version `a`, or none if `a` is 0. -/
def Selects (tail : ℕ) (c : VersionedArray) (T : ℤ) (a : ℕ) : Prop :=
  ∃ b, Skipped tail c T a b ∧ (a = 0 ∨ c.ts a < T)

theorem Settled.mono {T : ℤ} {b : ℕ} (hle : tail ≤ tail') (hg : Guar tail c c')
    (h : Settled tail c T b) : Settled tail' c' T b where
  issued := h.issued.trans (clock_mono hle)
  lt := lt_of_lt_of_le h.lt hg.size_le
  stamped a ha hab := (h.stamped a ha hab).mono hg ⟨ha, lt_of_le_of_lt hab h.lt⟩
  later a hab hlt := by
    have hpos : 0 < a := lt_of_le_of_lt (Nat.zero_le b) hab
    rcases Nat.lt_or_ge a c.size with hold | hnew
    · rw [hg.born_eq a ⟨hpos, hold⟩]
      exact h.later a hab hold
    · exact h.issued.trans (clock_mono (hg.born_new a ⟨hpos, hlt⟩ hnew))

theorem Skipped.mono {T : ℤ} {a b : ℕ} (hle : tail ≤ tail') (hg : Guar tail c c')
    (h : Skipped tail c T a b) : Skipped tail' c' T a b where
  settled := h.settled.mono hle hg
  le := h.le
  skipped x hax hxb := by
    have hpos : 0 < x := lt_of_le_of_lt (Nat.zero_le a) hax
    rw [hg.ts_eq x ⟨hpos, lt_of_le_of_lt hxb h.settled.lt⟩ (h.settled.stamped x hpos hxb)]
    exact h.skipped x hax hxb

theorem Selects.mono {T : ℤ} {a : ℕ} (hle : tail ≤ tail') (hg : Guar tail c c')
    (h : Selects tail c T a) : Selects tail' c' T a := by
  obtain ⟨b, hskip, hsel⟩ := h
  refine ⟨b, hskip.mono hle hg, ?_⟩
  rcases Nat.eq_zero_or_pos a with h0 | hpos
  · exact .inl h0
  · rcases hsel with h0 | hlt
    · exact .inl h0
    · right
      rwa [hg.ts_eq a ⟨hpos, lt_of_le_of_lt hskip.le hskip.settled.lt⟩
        (hskip.settled.stamped a hpos hskip.le)]

/-- All reads at one timestamp select the same version, wherever they started. -/
theorem Selects.unique (hc : Inv tail c) {T : ℤ} {a a' : ℕ} (h : Selects tail c T a)
    (h' : Selects tail c T a') : a = a' := by
  have hle : ∀ {a a' : ℕ}, Selects tail c T a → Selects tail c T a' → a ≤ a' := by
    rintro a a' ⟨b, hskip, hsel⟩ ⟨b', hskip', -⟩
    by_contra hlt
    have hlt : a' < a := Nat.lt_of_not_le hlt
    have hver : c.IsVersion a := ⟨by omega, lt_of_le_of_lt hskip.le hskip.settled.lt⟩
    have hts : c.ts a < T := hsel.resolve_left (by omega)
    rcases Nat.lt_or_ge b' a with hafter | hbefore
    · -- `a` was linked after the start of the other read, so it is born too late
      have hborn := hskip'.settled.later a hafter hver.2
      have hstamp := (hc.stamp a hver (hskip.settled.stamped a hver.1 hskip.le)).1
      omega
    · have hskipped := hskip'.skipped a hlt hbefore
      omega
  exact le_antisymm (hle h h') (hle h' h)

end VersionedArray

end KanvaRS
