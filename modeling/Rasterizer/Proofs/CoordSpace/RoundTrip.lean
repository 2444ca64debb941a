import Mathlib.Algebra.Order.Ring.Abs
import Mathlib.Tactic.Linarith
import Mathlib.Tactic.Zify
import Rasterizer.Proofs.CoordSpace

/-! # There and back

A point that is mapped to the device and back does not return to its place, since both quotients are cut
toward zero. Measured from the window's origin it comes back on its own side, no further out, and short of
its place by at most the quotient of the extents rounded up (`Mapping.perform_round_trip`). -/

namespace Rasterizer

/-! ## One axis -/

section Scaled

variable {v num den : Int}

/-- Scaling by a quotient and back, both times cut toward zero. -/
def scaledBack (v num den : Int) : Int := (((v * num).tdiv den) * den).tdiv num

theorem natAbs_scaledBack (v num den : Int) :
    (scaledBack v num den).natAbs = v.natAbs * num.natAbs / den.natAbs * den.natAbs / num.natAbs := by
  rw [scaledBack, Int.natAbs_tdiv, Int.natAbs_mul, Int.natAbs_tdiv, Int.natAbs_mul]
  rfl

theorem natAbs_scaledBack_le (v num den : Int) : (scaledBack v num den).natAbs ≤ v.natAbs := by
  rw [natAbs_scaledBack]
  refine Nat.div_le_of_le_mul ?_
  rw [Nat.mul_comm num.natAbs]
  exact Nat.div_mul_le_self ..

/-- Each of the two cuts loses less than one unit of its own scale. -/
theorem lt_natAbs_scaledBack (hnum : num ≠ 0) (hden : den ≠ 0) :
    v.natAbs * num.natAbs < ((scaledBack v num den).natAbs + 1) * num.natAbs + den.natAbs := by
  rw [natAbs_scaledBack]
  have hthere := Nat.lt_mul_div_succ (v.natAbs * num.natAbs) (Int.natAbs_pos.mpr hden)
  generalize v.natAbs * num.natAbs / den.natAbs = scaled at hthere ⊢
  have hback := Nat.lt_mul_div_succ (scaled * den.natAbs) (Int.natAbs_pos.mpr hnum)
  rw [Nat.mul_succ, Nat.mul_comm den.natAbs] at hthere
  rw [Nat.mul_comm num.natAbs] at hback
  omega

theorem sign_tdiv_cases (a b : Int) : a.tdiv b = 0 ∨ (a.tdiv b).sign = a.sign * b.sign := by
  rw [← Int.sign_eq_zero_iff_zero, Int.sign_tdiv]
  split
  · exact .inl rfl
  · exact .inr rfl

theorem sign_scaledBack (hnum : num ≠ 0) (hden : den ≠ 0) :
    scaledBack v num den = 0 ∨ (scaledBack v num den).sign = v.sign := by
  have hsquare {a : Int} (ha : a ≠ 0) : a.sign * a.sign = 1 := by
    rw [← Int.sign_mul, Int.sign_eq_one_of_pos (mul_self_pos.mpr ha)]
  rcases sign_tdiv_cases (v * num) den with hzero | hthere
  · exact .inl (by rw [scaledBack, hzero, Int.zero_mul, Int.zero_tdiv])
  refine (sign_tdiv_cases ((v * num).tdiv den * den) num).imp id fun hback => ?_
  calc (scaledBack v num den).sign
      = v.sign * (num.sign * num.sign) * (den.sign * den.sign) := by
        rw [scaledBack, hback, Int.sign_mul, hthere, Int.sign_mul]
        ac_rfl
    _ = v.sign := by rw [hsquare hnum, hsquare hden, mul_one, mul_one]

end Scaled

/-- What comes back of a coordinate of a point that was mapped there and back, along an axis with the origin
and the extents. -/
structure Returns (origin windowExt viewportExt p back : Int) : Prop where
  near : |back - p| ≤ ceilDiv |windowExt| |viewportExt|
  near_one : |windowExt| ≤ |viewportExt| → |back - p| ≤ 1
  sign : back - origin = 0 ∨ (back - origin).sign = (p - origin).sign
  magnitude : |back - origin| ≤ |p - origin|

theorem le_ceilDiv_iff {a b k : Int} (h : 0 < b) : k ≤ ceilDiv a b ↔ (k - 1) * b < a := by
  have hle := ceilDiv_le_iff (a := a) (k := k - 1) h
  omega

/-- What comes back on its own side and no further out is off by what its magnitude lost. -/
theorem natAbs_sub_of_sign {v r : Int} (hsign : r = 0 ∨ r.sign = v.sign) (hle : r.natAbs ≤ v.natAbs) :
    (r - v).natAbs = v.natAbs - r.natAbs := by
  rcases hsign with rfl | hsign
  · omega
  · rcases Int.lt_trichotomy v 0 with hv | rfl | hv
    · have := Int.sign_eq_neg_one_iff_neg.mp (hsign.trans (Int.sign_eq_neg_one_of_neg hv))
      omega
    · omega
    · have := Int.sign_eq_one_iff_pos.mp (hsign.trans (Int.sign_eq_one_of_pos hv))
      omega

theorem returns_scaledBack {num den : Int} (hnum : num ≠ 0) (hden : den ≠ 0) (origin p : Int) :
    Returns origin den num p (scaledBack (p - origin) num den + origin) := by
  have hsign := sign_scaledBack (v := p - origin) hnum hden
  have hle := natAbs_scaledBack_le (p - origin) num den
  have hlt := lt_natAbs_scaledBack (v := p - origin) hnum hden
  have hoff := natAbs_sub_of_sign hsign hle
  generalize scaledBack (p - origin) num den = r at hsign hle hlt hoff ⊢
  have hshift : r + origin - p = r - (p - origin) := by omega
  have hpos : 0 < |num| := abs_pos.mpr hnum
  have hnear : |r + origin - p| ≤ ceilDiv |den| |num| := by
    zify [hle] at hoff hlt
    rw [le_ceilDiv_iff hpos, hshift, hoff]
    linarith
  refine ⟨hnear, fun hext => hnear.trans ?_, ?_, ?_⟩
  · rw [ceilDiv_le_iff hpos, Int.one_mul]
    exact hext
  · rwa [Int.add_sub_cancel]
  · rw [Int.add_sub_cancel, Int.abs_eq_natAbs, Int.abs_eq_natAbs]
    exact Int.ofNat_le.mpr hle

/-! ## Mappings in use -/

namespace Mapping

/-- A call that sets a part of a mapping. -/
inductive Setting where
  | mode (mode : MapMode)
  | windowOrg (p : Point)
  | viewportOrg (p : Point)
  | windowExt (ext : Point)
  | viewportExt (ext : Point)

/-- The mapping after a call, as it was when the call is refused. -/
def perform (m : Mapping) : Setting → Mapping
  | .mode mode => { m with mode := mode }
  | .windowOrg p => { m with windowOrg := p }
  | .viewportOrg p => { m with viewportOrg := p }
  | .windowExt ext => (m.withWindowExt ext).toOption.getD m
  | .viewportExt ext => (m.withViewportExt ext).toOption.getD m

/-- No part of an extent is zero. -/
structure NonDegenerate (m : Mapping) : Prop where
  windowX : m.windowExt.x ≠ 0
  windowY : m.windowExt.y ≠ 0
  viewportX : m.viewportExt.x ≠ 0
  viewportY : m.viewportExt.y ≠ 0

theorem NonDegenerate.perform {m : Mapping} (h : m.NonDegenerate) (setting : Setting) :
    (m.perform setting).NonDegenerate := by
  cases setting with
  | mode | windowOrg | viewportOrg => exact ⟨h.windowX, h.windowY, h.viewportX, h.viewportY⟩
  | windowExt ext =>
    rw [Mapping.perform, withWindowExt]
    split
    next => exact h
    next hext => exact ⟨fun hx => hext (.inl hx), fun hy => hext (.inr hy), h.viewportX, h.viewportY⟩
  | viewportExt ext =>
    rw [Mapping.perform, withViewportExt]
    split
    next => exact h
    next hext => exact ⟨h.windowX, h.windowY, fun hx => hext (.inl hx), fun hy => hext (.inr hy)⟩

theorem nonDegenerate_foldl_perform (settings : List Setting) :
    (settings.foldl perform {}).NonDegenerate := by
  suffices h : ∀ m : Mapping, m.NonDegenerate → (settings.foldl perform m).NonDegenerate from
    h {} ⟨by decide, by decide, by decide, by decide⟩
  induction settings with
  | nil => exact fun m hm => hm
  | cons setting settings ih => exact fun m hm => ih _ (hm.perform setting)

/-- The mappings that can be set are those without an extent of zero. -/
theorem exists_settings_iff {m : Mapping} :
    (∃ settings : List Setting, settings.foldl perform {} = m) ↔ m.NonDegenerate := by
  constructor
  · rintro ⟨settings, rfl⟩
    exact nonDegenerate_foldl_perform settings
  · intro h
    refine ⟨[.mode m.mode, .windowOrg m.windowOrg, .viewportOrg m.viewportOrg, .windowExt m.windowExt,
      .viewportExt m.viewportExt], ?_⟩
    simp only [List.foldl, perform, withWindowExt, withViewportExt, h.windowX, h.windowY, h.viewportX,
      h.viewportY, or_self, if_false]
    rfl

/-- What comes back of a point that was mapped there and back. -/
structure Returns (m : Mapping) (p back : Point) : Prop where
  x : Rasterizer.Returns m.windowOrg.x m.windowExt.x m.viewportExt.x p.x back.x
  y : Rasterizer.Returns m.windowOrg.y m.windowExt.y m.viewportExt.y p.y back.y

/-- The way back of a number that fits needs no more room than the number. -/
theorem scaleBy_scaleBy {v num den : Int} (hnum : num ≠ 0) (hden : den ≠ 0) (hv : Fits32 v)
    (hscaled : Fits32 ((v * num).tdiv den)) : scaleBy (scaleBy v num den) den num = scaledBack v num den := by
  have hle := natAbs_scaledBack_le v num den
  have hsign := sign_scaledBack (v := v) hnum hden
  have hoff := natAbs_sub_of_sign hsign hle
  rw [scaleBy_of_fits hden hscaled]
  refine scaleBy_of_fits hnum ?_
  change Fits32 (scaledBack v num den)
  rw [Fits32] at hv ⊢
  omega

variable {m : Mapping} {p : Point}

theorem deviceToLogical_logicalToDevice (hm : m.NonDegenerate) (hmode : m.mode = .anisotropic)
    (hx : Fits32 (p.x - m.windowOrg.x)) (hy : Fits32 (p.y - m.windowOrg.y))
    (hscaled : Fits32 (((p.x - m.windowOrg.x) * m.viewportExt.x).tdiv m.windowExt.x) ∧
      Fits32 (((p.y - m.windowOrg.y) * m.viewportExt.y).tdiv m.windowExt.y)) :
    m.deviceToLogical (m.logicalToDevice p) =
      ⟨scaledBack (p.x - m.windowOrg.x) m.viewportExt.x m.windowExt.x + m.windowOrg.x,
        scaledBack (p.y - m.windowOrg.y) m.viewportExt.y m.windowExt.y + m.windowOrg.y⟩ := by
  simp only [deviceToLogical, logicalToDevice, hmode, Int.add_sub_cancel]
  rw [scaleBy_scaleBy hm.viewportX hm.windowX hx hscaled.1,
    scaleBy_scaleBy hm.viewportY hm.windowY hy hscaled.2]

/-- The shift to the screen is undone. -/
theorem screenToLogical_logicalToScreen (s : CoordSpace) (p : Point) :
    s.screenToLogical (s.logicalToScreen p) = s.deviceToLogical (s.logicalToDevice p) := by
  simp only [CoordSpace.screenToLogical, CoordSpace.logicalToScreen, CoordSpace.screenToDevice,
    CoordSpace.deviceToScreen]
  split
  · rfl
  · simp only [Int.add_sub_cancel]

/-- Along one axis of some mapping the quotient of the extents rounds up to `n`, and a point comes back that
far off its place. -/
def Attained (n : Int) : Prop :=
  ∃ (settings : List Setting) (p : Point),
    let m := settings.foldl perform {}
    m.mode = .anisotropic ∧ (∀ v ∈ [p.x, m.windowExt.x, m.viewportExt.x], Fits32 v) ∧
      ceilDiv |m.windowExt.x| |m.viewportExt.x| = n ∧
      |(m.deviceToLogical (m.logicalToDevice p)).x - p.x| = n

/-- A window of `3 * n - 1` units on a viewport of 3, and the point at `2 * n - 1`. -/
theorem attained_of_pos {n : Int} (hn : 0 < n) (hfits : Fits32 (3 * n)) : Attained n := by
  have hm : NonDegenerate ⟨.anisotropic, ⟨0, 0⟩, ⟨3 * n - 1, 1⟩, ⟨0, 0⟩, ⟨3, 1⟩⟩ :=
    ⟨show 3 * n - 1 ≠ 0 by omega, Int.one_ne_zero, show (3 : Int) ≠ 0 by decide, Int.one_ne_zero⟩
  obtain ⟨settings, hsettings⟩ := exists_settings_iff.mpr hm
  have hthere : ((2 * n - 1) * 3).tdiv (3 * n - 1) = 1 := by
    rw [Int.tdiv_eq_ediv_of_nonneg (by omega), Int.ediv_eq_iff_of_pos (by omega)]
    omega
  have hback : scaledBack (2 * n - 1) 3 (3 * n - 1) = n - 1 := by
    rw [scaledBack, hthere, Int.tdiv_eq_ediv_of_nonneg (by omega)]
    omega
  rw [Fits32] at hfits
  have hp : Fits32 (2 * n - 1) ∧ Fits32 (3 * n - 1) := by
    rw [Fits32, Fits32]
    omega
  refine ⟨settings, ⟨2 * n - 1, 0⟩, ?_⟩
  rw [hsettings]
  refine ⟨rfl, by simp [hp, show Fits32 3 by decide], ?_, ?_⟩
  · rw [abs_of_pos (show (0 : Int) < 3 * n - 1 by omega), abs_of_pos (show (0 : Int) < 3 by decide)]
    have hle := (ceilDiv_le_iff (a := 3 * n - 1) (k := n) (show (0 : Int) < 3 by decide)).mpr (by omega)
    have hge := (le_ceilDiv_iff (a := 3 * n - 1) (k := n) (show (0 : Int) < 3 by decide)).mpr (by omega)
    omega
  · have hoffset : Fits32 (2 * n - 1 - 0) := by rw [Int.sub_zero]; exact hp.1
    have hscaled : Fits32 (((2 * n - 1 - 0) * 3).tdiv (3 * n - 1)) := by rw [Int.sub_zero, hthere]; decide
    rw [deviceToLogical_logicalToDevice hm rfl hoffset (show Fits32 (0 - 0) by decide)
      ⟨hscaled, show Fits32 (((0 - 0 : Int) * 1).tdiv 1) by decide⟩]
    simp only [Int.sub_zero, Int.add_zero, hback]
    rw [abs_of_nonpos (by omega)]
    omega

/-- Whatever has been set, a point whose scaled coordinates fit in 32 bits comes back from the device, and
from the screen, on its own side of the window's origin, no further out, and off by at most the quotient of
the extents rounded up: by one at most where the viewport's extent is not the smaller one. Each such bound is
attained. -/
theorem perform_round_trip :
    (∀ (settings : List Setting) (device : Rect) (p : Point),
      let m := settings.foldl perform {}
      let s : CoordSpace := { CoordSpace.window device with mapping := m }
      m.mode = .anisotropic → Fits32 (p.x - m.windowOrg.x) → Fits32 (p.y - m.windowOrg.y) → s.Fits p →
        m.Returns p (m.deviceToLogical (m.logicalToDevice p)) ∧
          m.Returns p (s.screenToLogical (s.logicalToScreen p))) ∧
      ∀ n, 0 < n → Fits32 (3 * n) → Attained n := by
  refine ⟨fun settings device p => ?_, fun n hn hfits => attained_of_pos hn hfits⟩
  intro m s hmode hx hy hfits
  have hm : m.NonDegenerate := nonDegenerate_foldl_perform settings
  have hback : m.Returns p (m.deviceToLogical (m.logicalToDevice p)) := by
    rw [deviceToLogical_logicalToDevice hm hmode hx hy (hfits rfl hmode)]
    exact ⟨returns_scaledBack hm.viewportX hm.windowX _ _, returns_scaledBack hm.viewportY hm.windowY _ _⟩
  refine ⟨hback, ?_⟩
  rw [screenToLogical_logicalToScreen]
  exact hback

/-- A mirrored mapping onto fewer columns, set in the presence of a refused call: the point comes back two
columns off. -/
theorem perform_round_trip_mirrored :
    let settings : List Setting := [.mode .anisotropic, .windowOrg ⟨-5, 3⟩, .windowExt ⟨-7, 4⟩,
      .windowExt ⟨0, 1⟩, .viewportExt ⟨4, -8⟩, .viewportOrg ⟨2, -9⟩]
    let m := settings.foldl perform {}
    let s : CoordSpace := { CoordSpace.window ⟨7, 11, 207, 211⟩ with mapping := m }
    s.Fits ⟨0, 5⟩ ∧ s.screenToLogical (s.logicalToScreen ⟨0, 5⟩) = ⟨-2, 5⟩ ∧ m.Returns ⟨0, 5⟩ ⟨-2, 5⟩ ∧
      Attained 2 := by
  intro settings m s
  have hfits : s.Fits ⟨0, 5⟩ := by decide
  have hback : s.screenToLogical (s.logicalToScreen ⟨0, 5⟩) = ⟨-2, 5⟩ := by decide
  obtain ⟨-, hreturns⟩ := perform_round_trip.1 settings ⟨7, 11, 207, 211⟩ ⟨0, 5⟩ rfl (by decide) (by decide) hfits
  exact ⟨hfits, hback, hback ▸ hreturns, perform_round_trip.2 2 (by decide) (by decide)⟩

end Mapping

end Rasterizer
