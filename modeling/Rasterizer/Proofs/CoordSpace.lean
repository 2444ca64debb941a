import Mathlib.Algebra.Order.Ring.Int
import Rasterizer.CoordSpace

/-! # What mappings keep

A mapping scales each axis by itself, by a quotient cut toward zero. Where the quotients fit in 32 bits this keeps the
order along the axis, or reverses it when the extents have different signs (`CoordSpace.onAxis_mono_or_anti`). -/

namespace Rasterizer

theorem scaleBy_of_fits {v num den : Int} (hden : den ≠ 0) (h : Fits32 ((v * num).tdiv den)) :
    scaleBy v num den = (v * num).tdiv den := by
  rw [scaleBy, if_neg hden]
  exact h.wrap

section Order

variable {u v w num den : Int}

theorem tdiv_le_tdiv_of_le (hsigns : 0 < num * den) (huv : u ≤ v) : (u * num).tdiv den ≤ (v * num).tdiv den := by
  rcases Int.lt_or_gt_of_ne (right_ne_zero_of_mul hsigns.ne') with hden | hden
  · have hnum : num < 0 := (neg_iff_neg_of_mul_pos hsigns).mpr hden
    have hle := Int.tdiv_le_tdiv (show 0 < -den by omega) (Int.mul_le_mul_of_nonpos_right huv hnum.le)
    rw [Int.tdiv_neg, Int.tdiv_neg] at hle
    omega
  · have hnum : 0 < num := (pos_iff_pos_of_mul_pos hsigns).mpr hden
    exact Int.tdiv_le_tdiv hden (Int.mul_le_mul_of_nonneg_right huv hnum.le)

theorem tdiv_le_tdiv_of_ge (hsigns : num * den < 0) (huv : u ≤ v) : (v * num).tdiv den ≤ (u * num).tdiv den := by
  have hneg : 0 < -num * den := by
    rw [Int.neg_mul]
    omega
  have hle := tdiv_le_tdiv_of_le hneg huv
  rw [Int.mul_neg, Int.mul_neg, Int.neg_tdiv, Int.neg_tdiv] at hle
  omega

/-- A number between two whose quotients fit has a quotient that fits. -/
theorem fits_tdiv_of_between (huv : u ≤ v) (hvw : v ≤ w) (hu : Fits32 ((u * num).tdiv den))
    (hw : Fits32 ((w * num).tdiv den)) : Fits32 ((v * num).tdiv den) := by
  rcases Int.lt_trichotomy (num * den) 0 with hsigns | hzero | hsigns
  · exact ⟨hw.1.trans (tdiv_le_tdiv_of_ge hsigns hvw), (tdiv_le_tdiv_of_ge hsigns huv).trans_lt hu.2⟩
  · rcases Int.mul_eq_zero.mp hzero with rfl | rfl <;> simp [Fits32]
  · exact ⟨hu.1.trans (tdiv_le_tdiv_of_le hsigns huv), (tdiv_le_tdiv_of_le hsigns hvw).trans_lt hw.2⟩

/-- Scaling keeps the order of numbers when its two factors have one sign. -/
theorem scaleBy_mono (hsigns : 0 ≤ num * den) (huv : u ≤ v) (hu : Fits32 ((u * num).tdiv den))
    (hv : Fits32 ((v * num).tdiv den)) : scaleBy u num den ≤ scaleBy v num den := by
  by_cases hden : den = 0
  · rw [scaleBy, scaleBy, if_pos hden, if_pos hden]
    exact huv
  · rw [scaleBy_of_fits hden hu, scaleBy_of_fits hden hv]
    rcases Int.lt_or_eq_of_le hsigns with hpos | hzero
    · exact tdiv_le_tdiv_of_le hpos huv
    · rw [(Int.mul_eq_zero.mp hzero.symm).resolve_right hden]
      simp

/-- Scaling reverses the order of numbers when its two factors have different signs. -/
theorem scaleBy_anti (hsigns : num * den < 0) (huv : u ≤ v) (hu : Fits32 ((u * num).tdiv den))
    (hv : Fits32 ((v * num).tdiv den)) : scaleBy v num den ≤ scaleBy u num den := by
  have hden : den ≠ 0 := right_ne_zero_of_mul hsigns.ne
  rw [scaleBy_of_fits hden hu, scaleBy_of_fits hden hv]
  exact tdiv_le_tdiv_of_ge hsigns huv

end Order

namespace CoordSpace

/-- The scaled coordinates of a logical point fit in 32 bits. -/
def Fits (s : CoordSpace) (p : Point) : Prop :=
  s.isScreen = false → s.mapping.mode = .anisotropic →
    Fits32 (((p.x - s.mapping.windowOrg.x) * s.mapping.viewportExt.x).tdiv s.mapping.windowExt.x) ∧
    Fits32 (((p.y - s.mapping.windowOrg.y) * s.mapping.viewportExt.y).tdiv s.mapping.windowExt.y)

instance (s : CoordSpace) (p : Point) : Decidable (s.Fits p) := by
  unfold Fits
  infer_instance

/-! ## One axis -/

section Axis

variable (s : CoordSpace) (part : Point → Int) (edge : Rect → Int)

/-- A coordinate on the screen, given those parts of the mapping and that edge of the device which belong to its
axis. -/
def onAxis (v : Int) : Int :=
  if s.isScreen then v
  else
    (match s.mapping.mode with
    | .text => v
    | .anisotropic =>
      scaleBy (v - part s.mapping.windowOrg) (part s.mapping.viewportExt) (part s.mapping.windowExt) +
        part s.mapping.viewportOrg) + edge s.device

/-- The scaled coordinate fits in 32 bits. -/
def FitsAxis (v : Int) : Prop :=
  s.isScreen = false → s.mapping.mode = .anisotropic →
    Fits32 (((v - part s.mapping.windowOrg) * part s.mapping.viewportExt).tdiv (part s.mapping.windowExt))

variable {s part} in
theorem FitsAxis.between {u v w : Int} (hu : s.FitsAxis part u) (hw : s.FitsAxis part w) (huv : u ≤ v) (hvw : v ≤ w) :
    s.FitsAxis part v := fun hscreen hmode =>
  fits_tdiv_of_between (Int.sub_le_sub_right huv _) (Int.sub_le_sub_right hvw _) (hu hscreen hmode)
    (hw hscreen hmode)

/-- The order along an axis is kept or reversed, for all coordinates alike. -/
theorem onAxis_mono_or_anti :
    (∀ u v, s.FitsAxis part u → s.FitsAxis part v → u ≤ v → s.onAxis part edge u ≤ s.onAxis part edge v) ∨
      ∀ u v, s.FitsAxis part u → s.FitsAxis part v → u ≤ v → s.onAxis part edge v ≤ s.onAxis part edge u := by
  simp only [FitsAxis, onAxis]
  cases s.isScreen with
  | true => exact .inl fun u v _ _ h => h
  | false =>
    cases s.mapping.mode with
    | text => exact .inl fun u v _ _ h => Int.add_le_add_right h _
    | anisotropic =>
      rcases Int.lt_or_le (part s.mapping.viewportExt * part s.mapping.windowExt) 0 with hsigns | hsigns
      · refine .inr fun u v hu hv h => Int.add_le_add_right (Int.add_le_add_right ?_ _) _
        exact scaleBy_anti hsigns (Int.sub_le_sub_right h _) (hu rfl rfl) (hv rfl rfl)
      · refine .inl fun u v hu hv h => Int.add_le_add_right (Int.add_le_add_right ?_ _) _
        exact scaleBy_mono hsigns (Int.sub_le_sub_right h _) (hu rfl rfl) (hv rfl rfl)

variable {s part} in
/-- A coordinate between two others stays between them. -/
theorem onAxis_between {u v w : Int} (hu : s.FitsAxis part u) (hw : s.FitsAxis part w) (huv : u ≤ v) (hvw : v ≤ w) :
    s.onAxis part edge u ≤ s.onAxis part edge v ∧ s.onAxis part edge v ≤ s.onAxis part edge w ∨
      s.onAxis part edge w ≤ s.onAxis part edge v ∧ s.onAxis part edge v ≤ s.onAxis part edge u := by
  have hv := hu.between hw huv hvw
  exact (s.onAxis_mono_or_anti part edge).imp (fun h => ⟨h u v hu hv huv, h v w hv hw hvw⟩)
    fun h => ⟨h v w hv hw hvw, h u v hu hv huv⟩

end Axis

variable {s : CoordSpace} {p q : Point}

theorem logicalToScreen_eq (s : CoordSpace) (p : Point) :
    s.logicalToScreen p = ⟨s.onAxis Point.x Rect.left p.x, s.onAxis Point.y Rect.top p.y⟩ := by
  simp only [logicalToScreen, deviceToScreen, logicalToDevice, Mapping.logicalToDevice, onAxis]
  cases s.isScreen with
  | true => rfl
  | false => cases s.mapping.mode <;> rfl

theorem Fits.x (h : s.Fits p) : s.FitsAxis Point.x p.x := fun hscreen hmode => (h hscreen hmode).1

theorem Fits.y (h : s.Fits p) : s.FitsAxis Point.y p.y := fun hscreen hmode => (h hscreen hmode).2

/-- The rows of screen points are in the order of the logical ones, or in the opposite order. -/
theorem rows_logicalToScreen (s : CoordSpace) :
    (∀ p q, s.Fits p → s.Fits q → p.y ≤ q.y → (s.logicalToScreen p).y ≤ (s.logicalToScreen q).y) ∨
      ∀ p q, s.Fits p → s.Fits q → p.y ≤ q.y → (s.logicalToScreen q).y ≤ (s.logicalToScreen p).y := by
  simp only [logicalToScreen_eq]
  exact (s.onAxis_mono_or_anti Point.y Rect.top).imp (fun h p q hp hq => h p.y q.y hp.y hq.y)
    fun h p q hp hq => h p.y q.y hp.y hq.y

end CoordSpace

end Rasterizer
