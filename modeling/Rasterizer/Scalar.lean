import Rasterizer.Fault

/-! Numbers. Coordinates, extents and angles are integers of the range that fits in
32 bits. Real values become integers in three ways: `truncate` cuts the fraction,
`roundHalfOut` rounds a half away from zero, and `wrap32` keeps the low 32 bits of
an exact product. The rounded quotients are the exact ones of the integers. -/

namespace Rasterizer

/-- The integer with the same low 32 bits that lies in the signed 32-bit range. -/
def wrap32 (v : Int) : Int := Int.bmod v 4294967296

theorem wrap32_of_range {v : Int} (lo : -2147483648 ≤ v) (hi : v < 2147483648) : wrap32 v = v := by
  unfold wrap32
  apply Int.bmod_eq_of_le <;> omega

/-- The number fits in 32 bits. -/
def Fits32 (v : Int) : Prop := -2147483648 ≤ v ∧ v < 2147483648

instance (v : Int) : Decidable (Fits32 v) := inferInstanceAs (Decidable (_ ∧ _))

theorem Fits32.wrap {v : Int} (h : Fits32 v) : wrap32 v = v := wrap32_of_range h.1 h.2

def floorDiv (a b : Int) : Int := a.fdiv b

def ceilDiv (a b : Int) : Int := -floorDiv (-a) b

theorem le_floorDiv_iff {a b k : Int} (h : 0 < b) : k ≤ floorDiv a b ↔ k * b ≤ a := by
  rw [floorDiv, Int.fdiv_eq_ediv_of_nonneg _ (Int.le_of_lt h), Int.le_ediv_iff_mul_le h]

theorem ceilDiv_le_iff {a b k : Int} (h : 0 < b) : ceilDiv a b ≤ k ↔ a ≤ k * b := by
  have hneg := le_floorDiv_iff (a := -a) (k := -k) h
  rw [Int.neg_mul] at hneg
  unfold ceilDiv
  omega

/-- The quotient rounded down of numbers of the signed 64-bit range, in which it must lie too. -/
def floorDiv? (a b : Int) : Except Fault Int :=
  if b = 0 then throw .zeroDivisor
  else if 9223372036854775807 < floorDiv a b then throw .quotientTooLarge
  else pure (floorDiv a b)

/-- The quotient rounded up, found by rounding down its negative. -/
def ceilDiv? (a b : Int) : Except Fault Int := (floorDiv? (-a) b).map (- ·)

/-- The integer part, held to the signed 32-bit range; not-a-number gives zero. -/
def truncate (v : Float) : Int := v.toInt32.toInt

/-- The nearest integer, a half away from zero, held to the signed 32-bit range. -/
def roundHalfOut (v : Float) : Int :=
  if v < 0 then truncate (v - 0.5) else truncate (v + 0.5)

/-- The numbers from `lo` to `hi` inclusive, none when `hi < lo`. -/
def irange (lo hi : Int) : List Int :=
  (List.range (hi - lo + 1).toNat).map fun i : Nat => lo + (i : Int)

theorem mem_irange {lo hi k : Int} : k ∈ irange lo hi ↔ lo ≤ k ∧ k ≤ hi := by
  simp only [irange, List.mem_map, List.mem_range]
  constructor
  · rintro ⟨i, hlt, rfl⟩; omega
  · intro h; exact ⟨(k - lo).toNat, by omega, by omega⟩

theorem length_irange (lo hi : Int) : (irange lo hi).length = (hi - lo + 1).toNat := by
  simp [irange]

theorem pairwise_irange (lo hi : Int) : (irange lo hi).Pairwise (· < ·) :=
  List.pairwise_map.mpr (List.pairwise_lt_range.imp fun h => by omega)

theorem map_add_irange (lo hi d : Int) :
    (irange lo hi).map (d + ·) = irange (d + lo) (d + hi) := by
  simp only [irange, List.map_map]
  rw [show d + hi - (d + lo) + 1 = hi - lo + 1 by omega]
  exact List.map_congr_left fun i _ => by simp only [Function.comp_apply]; omega

theorem irange_append {lo mid hi : Int} (h0 : lo ≤ mid + 1) (h1 : mid ≤ hi) :
    irange lo mid ++ irange (mid + 1) hi = irange lo hi := by
  have hlen : (hi - lo + 1).toNat = (mid - lo + 1).toNat + (hi - (mid + 1) + 1).toNat := by omega
  unfold irange
  rw [hlen, List.range_add, List.map_append, List.map_map]
  refine congrArg _ (List.map_congr_left fun i _ => ?_)
  simp only [Function.comp_apply]
  omega

theorem irange_cons {lo hi : Int} (h : lo ≤ hi) : irange lo hi = lo :: irange (lo + 1) hi := by
  rw [← irange_append (by omega : lo ≤ lo + 1) h]
  simp [irange]

theorem irange_eq_nil {lo hi : Int} (h : hi < lo) : irange lo hi = [] := by
  rw [irange, show (hi - lo + 1).toNat = 0 by omega]
  rfl

/-- The numbers of a stretch are what a test for the stretch leaves of a longer one. -/
theorem filter_irange {f : Int → Bool} {lo hi a b : Int} (hlo : lo ≤ a) (hab : a ≤ b) (hhi : b ≤ hi)
    (hf : ∀ k, lo ≤ k → k ≤ hi → (f k = true ↔ a ≤ k ∧ k ≤ b)) :
    (irange lo hi).filter f = irange a b := by
  have houtside : ∀ c d, lo ≤ c → d ≤ hi → (d < a ∨ b < c) → (irange c d).filter f = [] := by
    intro c d hc hd hcd
    refine List.filter_eq_nil_iff.mpr fun k hk => ?_
    rw [mem_irange] at hk
    rw [hf k (by omega) (by omega)]
    omega
  have hinside : (irange a b).filter f = irange a b := by
    refine List.filter_eq_self.mpr fun k hk => ?_
    rw [mem_irange] at hk
    exact (hf k (by omega) (by omega)).mpr hk
  calc (irange lo hi).filter f
      = ((irange lo (a - 1) ++ irange (a - 1 + 1) b) ++ irange (b + 1) hi).filter f := by
        rw [irange_append (by omega) (by omega), irange_append (by omega) hhi]
    _ = irange a b := by
        rw [Int.sub_add_cancel, List.filter_append, List.filter_append, hinside,
          houtside lo (a - 1) (by omega) (by omega) (by omega),
          houtside (b + 1) hi (by omega) (by omega) (by omega), List.nil_append, List.append_nil]

end Rasterizer
