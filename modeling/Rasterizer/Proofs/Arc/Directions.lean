import Rasterizer.Arc.Sweep
import Mathlib.Data.Int.ModEq

/-! # The directions of a sweep

Turning from an angle over a signed extent passes every angle between the two ends. A sweep holds
the directions of these angles and no others, however many turns they make up
(`Sweep.contains_ofSigned_iff`). -/

namespace Rasterizer

/-- Some angle between two others points in the direction of `theta` just when the first one to do so
from the lower end on comes before the upper end. -/
theorem exists_modEq_between {turn lo hi theta : Int} (hturn : 0 < turn) :
    (∃ t, (lo ≤ t ∧ t ≤ hi) ∧ t ≡ theta [ZMOD turn]) ↔ (theta - lo) % turn ≤ hi - lo := by
  constructor
  · intro h
    obtain ⟨t, hbetween, hmod⟩ := h
    have hfirst : (theta - lo) % turn = (t - lo) % turn := (hmod.sub_right lo).symm
    have hle : (t - lo) % turn ≤ t - lo := by
      have hdiv := Int.mul_nonneg (Int.le_of_lt hturn)
        (Int.ediv_nonneg (show 0 ≤ t - lo by omega) (Int.le_of_lt hturn))
      have := Int.emod_add_mul_ediv (t - lo) turn
      omega
    omega
  · intro hle
    have hnonneg := Int.emod_nonneg (theta - lo) (Int.ne_of_gt hturn)
    refine ⟨lo + (theta - lo) % turn, ⟨by omega, by omega⟩, ?_⟩
    have hmod : lo + (theta - lo) % turn ≡ lo + (theta - lo) [ZMOD turn] :=
      Int.ModEq.add_left lo (Int.mod_modEq _ _)
    rwa [add_sub_cancel] at hmod

namespace Sweep

/-- A direction is less than a full turn past the start, so a sweep of a full turn needs no case
of its own. -/
theorem contains_iff (s : Sweep) (theta : Int) :
    s.contains theta = true ↔ (theta - s.start) % Angle.fullTurn ≤ s.extent := by
  have hlt := Int.emod_lt_of_pos (theta - s.start) (show 0 < Angle.fullTurn by decide)
  unfold contains isFull
  rw [Bool.or_eq_true, decide_eq_true_eq, decide_eq_true_eq]
  omega

/-- A sweep starts at the lower of its two ends, and the rest is turned counter-clockwise. -/
theorem ofSigned_eq (angle extent : Int) :
    ofSigned angle extent = ⟨min angle (angle + extent) % Angle.fullTurn,
      max angle (angle + extent) - min angle (angle + extent)⟩ := by
  unfold ofSigned
  split
  · rw [Int.min_eq_right (by omega), Int.max_eq_left (by omega)]
    congr 1
    omega
  · rw [Int.min_eq_left (by omega), Int.max_eq_right (by omega)]
    congr 1
    omega

/-- The sweep from an angle over a signed extent contains a direction exactly when an angle between
the two ends, both included, is that direction up to full turns. -/
theorem contains_ofSigned_iff (angle extent theta : Int) :
    (ofSigned angle extent).contains theta = true ↔
      ∃ t, (min angle (angle + extent) ≤ t ∧ t ≤ max angle (angle + extent)) ∧
        t ≡ theta [ZMOD 23040] := by
  have hturn : Angle.fullTurn = 23040 := rfl
  rw [ofSigned_eq, contains_iff, exists_modEq_between (by decide), hturn, Int.sub_emod_emod]

end Sweep

end Rasterizer
