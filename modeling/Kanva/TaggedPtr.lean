import Mathlib.Data.Int.Notation
import Mathlib.Data.Nat.Notation

/-!
# Tagged pointers

The lists keep two tag bits in the low bits of a `next` word: `0x01` marks the node that owns the
word as logically deleted, `0x02` freezes the word. Nodes are aligned, so a word is an address with
the two bits. Address `0` is the null pointer.
-/

namespace Kanva

/-- A value stored with a key, `-1` being the tombstone. -/
abbrev Val := ℤ

/-- A `next` word: an address and the two tag bits. -/
structure TaggedPtr where
  addr : ℕ
  /-- Bit `0x01`. -/
  mark : Bool
  /-- Bit `0x02`. -/
  freeze : Bool
deriving DecidableEq, Repr

namespace TaggedPtr

/-- The untagged word of an address. -/
def clean (a : ℕ) : TaggedPtr := ⟨a, false, false⟩

/-- The null word. -/
def null : TaggedPtr := clean 0

/-- `is_freeze` -/
def isFreeze (p : TaggedPtr) : Bool := p.freeze

/-- `is_marked` and `is_marked_ref` -/
def isMarked (p : TaggedPtr) : Bool := p.mark

/-- `set_freeze` -/
def setFreeze (p : TaggedPtr) : TaggedPtr := { p with freeze := true }

/-- `set_mark` -/
def setMark (p : TaggedPtr) : TaggedPtr := { p with mark := true }

/-- `unset_freeze` -/
def unsetFreeze (p : TaggedPtr) : TaggedPtr := { p with freeze := false }

/-- `unset_mark` and `get_unmarked_ref` -/
def getUnmarkedRef (p : TaggedPtr) : TaggedPtr := { p with mark := false }

/-- `unset_freeze_mark` -/
def unsetFreezeMark (p : TaggedPtr) : TaggedPtr := { p with mark := false, freeze := false }

/-- No tag bit is set. -/
def IsClean (p : TaggedPtr) : Prop := p.mark = false ∧ p.freeze = false

@[simp] theorem clean_addr (a : ℕ) : (clean a).addr = a := rfl
@[simp] theorem clean_mark (a : ℕ) : (clean a).mark = false := rfl
@[simp] theorem clean_freeze (a : ℕ) : (clean a).freeze = false := rfl
@[simp] theorem isClean_clean (a : ℕ) : (clean a).IsClean := ⟨rfl, rfl⟩
@[simp] theorem setFreeze_addr (p : TaggedPtr) : p.setFreeze.addr = p.addr := rfl
@[simp] theorem setFreeze_mark (p : TaggedPtr) : p.setFreeze.mark = p.mark := rfl
@[simp] theorem setFreeze_freeze (p : TaggedPtr) : p.setFreeze.freeze = true := rfl
@[simp] theorem setMark_addr (p : TaggedPtr) : p.setMark.addr = p.addr := rfl
@[simp] theorem setMark_mark (p : TaggedPtr) : p.setMark.mark = true := rfl
@[simp] theorem setMark_freeze (p : TaggedPtr) : p.setMark.freeze = p.freeze := rfl
@[simp] theorem unsetFreeze_addr (p : TaggedPtr) : p.unsetFreeze.addr = p.addr := rfl
@[simp] theorem unsetFreeze_mark (p : TaggedPtr) : p.unsetFreeze.mark = p.mark := rfl
@[simp] theorem getUnmarkedRef_addr (p : TaggedPtr) : p.getUnmarkedRef.addr = p.addr := rfl
@[simp] theorem getUnmarkedRef_mark (p : TaggedPtr) : p.getUnmarkedRef.mark = false := rfl
@[simp] theorem getUnmarkedRef_freeze (p : TaggedPtr) : p.getUnmarkedRef.freeze = p.freeze := rfl
@[simp] theorem unsetFreezeMark_addr (p : TaggedPtr) : p.unsetFreezeMark.addr = p.addr := rfl
@[simp] theorem isClean_unsetFreezeMark (p : TaggedPtr) : p.unsetFreezeMark.IsClean := ⟨rfl, rfl⟩

/-- Freezing a frozen word changes nothing. -/
theorem setFreeze_eq_self {p : TaggedPtr} (h : p.freeze = true) : p.setFreeze = p := by
  cases p
  simp_all [setFreeze]

/-- Stripping the mark of an unfrozen word leaves a clean one. -/
theorem isClean_getUnmarkedRef {p : TaggedPtr} (h : p.freeze = false) :
    p.getUnmarkedRef.IsClean := ⟨rfl, h⟩

/-- A clean word is determined by its address. -/
theorem IsClean.eq_clean {p : TaggedPtr} (h : p.IsClean) : p = clean p.addr := by
  cases p
  obtain ⟨hm, hf⟩ := h
  simp_all [clean]

end TaggedPtr

end Kanva
