/-! Pens: the width, the line style and the shapes at the ends and corners of a stroke. -/

namespace Rasterizer

inductive PenStyle where
  | solid
  /-- Every other dash. -/
  | onOff
  /-- Every other dash in the pen colour, the others in the background colour. -/
  | double
deriving Repr, DecidableEq, Inhabited

inductive LineCap where
  | butt | round | projecting
deriving Repr, DecidableEq, Inhabited

inductive LineJoin where
  | miter | round | bevel
deriving Repr, DecidableEq, Inhabited

structure Pen where
  width : Nat := 0
  style : PenStyle := .solid
  cap : LineCap := .butt
  join : LineJoin := .miter
  /-- The lengths of the dashes; zeros count nothing. -/
  dashes : List UInt8 := [4, 4]
  /-- How far into the dashes a line begins. -/
  dashOffset : Nat := 0
deriving Repr, DecidableEq

namespace Pen

/-- A solid line one pixel wide. -/
def isThin (p : Pen) : Bool := p.width == 0 && p.style == .solid

def strokeWidth (p : Pen) : Nat := max p.width 1

def dashLengths (p : Pen) : List Nat := (p.dashes.map UInt8.toNat).filter (0 < ·)

/-- The nonzero dash lengths, or two fours for want of any. -/
def baseLengths (p : Pen) : List Nat := if p.dashLengths.isEmpty then [4, 4] else p.dashLengths

/-- The dash lengths that a line repeats, an even number of them. -/
def pattern (p : Pen) : List Nat :=
  if p.baseLengths.length % 2 = 1 then p.baseLengths ++ p.baseLengths else p.baseLengths

theorem pos_of_mem_pattern {p : Pen} {n : Nat} (h : n ∈ p.pattern) : 0 < n := by
  have base : ∀ m ∈ p.baseLengths, 0 < m := by
    unfold baseLengths
    split
    · simp
    · intro m hm; simpa using (List.mem_filter.1 hm).2
  unfold pattern at h
  split at h
  · rcases List.mem_append.1 h with h | h <;> exact base n h
  · exact base n h

theorem length_pattern_even (p : Pen) : p.pattern.length % 2 = 0 := by
  unfold pattern
  split
  · rw [List.length_append]; omega
  · omega

end Pen

end Rasterizer
