/-! Font styles as sets of flags. -/

namespace Rasterizer

structure FontStyle where
  bits : UInt32
deriving Repr, DecidableEq, Inhabited

namespace FontStyle

def regular : FontStyle := ⟨0⟩
def bold : FontStyle := ⟨0x0001⟩
def book : FontStyle := ⟨0x0002⟩
def light : FontStyle := ⟨0x0004⟩
def subpixel : FontStyle := ⟨0x0008⟩
def italic : FontStyle := ⟨0x0010⟩
def underline : FontStyle := ⟨0x0020⟩
def struckOut : FontStyle := ⟨0x0040⟩
def flipHorz : FontStyle := ⟨0x0100⟩
def flipVert : FontStyle := ⟨0x0200⟩

def all : FontStyle := ⟨0x037F⟩

/-- The set of the known flags among the bits. -/
def ofBits (bits : UInt32) : FontStyle := ⟨bits &&& all.bits⟩

def union (a b : FontStyle) : FontStyle := ⟨a.bits ||| b.bits⟩

/-- The flags of `a` that `b` does not have. -/
def remove (a b : FontStyle) : FontStyle := ⟨a.bits &&& ~~~b.bits⟩

/-- `b` has flags and `a` has all of them. -/
def contains (a b : FontStyle) : Bool := a.bits &&& b.bits == b.bits && b.bits != 0

/-- The sets share a flag. -/
def intersects (a b : FontStyle) : Bool := a.bits &&& b.bits != 0

theorem union_comm (a b : FontStyle) : a.union b = b.union a := by
  simp only [union, UInt32.or_comm]

theorem intersects_union {s a : FontStyle} (h : s.contains a = true) (b : FontStyle) :
    s.intersects (a.union b) = true := by
  simp only [contains, intersects, union, Bool.and_eq_true, beq_iff_eq, bne_iff_ne] at h ⊢
  obtain ⟨hsub, hne⟩ := h
  intro hzero
  have hbits := congrArg UInt32.toBitVec hzero
  rw [UInt32.toBitVec_and, UInt32.toBitVec_or, BitVec.and_or_distrib_left, ← UInt32.toBitVec_and,
    hsub] at hbits
  exact hne (UInt32.toBitVec_inj.mp (BitVec.or_eq_zero_iff.mp hbits).1)

theorem intersects_union_eq_false {s a b : FontStyle} :
    s.intersects (a.union b) = false ↔ s.intersects a = false ∧ s.intersects b = false := by
  simp only [intersects, union, bne_eq_false_iff_eq, ← UInt32.toBitVec_inj, UInt32.toBitVec_and,
    UInt32.toBitVec_or, BitVec.and_or_distrib_left]
  exact BitVec.or_eq_zero_iff

theorem contains_eq_false {s a : FontStyle} (h : s.intersects a = false) : s.contains a = false := by
  rw [Bool.eq_false_iff]
  intro hcontains
  simp only [intersects, bne_eq_false_iff_eq] at h
  simp only [contains, h, Bool.and_eq_true, beq_iff_eq, bne_iff_ne] at hcontains
  exact hcontains.2 hcontains.1.symm

/-- Any mirroring is asked for. -/
def flips (a : FontStyle) : Bool := a.intersects (flipHorz.union flipVert)

/-- Exactly one of the two mirrorings is asked for. -/
def flipsOnce (a : FontStyle) : Bool := a.contains flipHorz != a.contains flipVert

end FontStyle

end Rasterizer
