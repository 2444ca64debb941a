import Rasterizer.Proofs.Canvas.Figures
import Rasterizer.Proofs.CoordSpace.RoundTrip

/-! # Ellipses in scaled spaces

The radii of an ellipse are scaled with the signs of the extents, as coordinates are. Where the extents of both axes
have the same sign the radii on the screen are the lengths of the scaled ones, and the ellipse of these radii is drawn.
Along a mirrored axis the radius comes out negative or zero, and no more than the centre is left
(`Canvas.draw_ellipse_scaled`). -/

namespace Rasterizer

section Lengths

variable {v num den : Int}

theorem scaleBy_eq_abs (hsigns : 0 < num * den) (hv : 0 ≤ v) (hfits : Fits32 ((v * num).tdiv den)) :
    scaleBy v num den = |(v * num).tdiv den| := by
  have hle := tdiv_le_tdiv_of_le hsigns hv
  rw [Int.zero_mul, Int.zero_tdiv] at hle
  rw [scaleBy_of_fits (right_ne_zero_of_mul hsigns.ne') hfits, abs_of_nonneg hle]

theorem scaleBy_nonpos (hsigns : num * den < 0) (hv : 0 ≤ v) (hfits : Fits32 ((v * num).tdiv den)) :
    scaleBy v num den ≤ 0 := by
  have hle := tdiv_le_tdiv_of_ge hsigns hv
  rw [Int.zero_mul, Int.zero_tdiv] at hle
  rwa [scaleBy_of_fits (right_ne_zero_of_mul hsigns.ne) hfits]

end Lengths

namespace CoordSpace

variable {s : CoordSpace}

theorem keepsLengths_eq_false (hwindow : s.isScreen = false) (hmode : s.mapping.mode = .anisotropic) :
    s.keepsLengths = false := by
  rw [keepsLengths, hwindow, hmode]
  rfl

theorem widthToScreen_eq (hwindow : s.isScreen = false) (hmode : s.mapping.mode = .anisotropic) (e : Int) :
    s.widthToScreen e = scaleBy e s.mapping.viewportExt.x s.mapping.windowExt.x := by
  rw [widthToScreen, keepsLengths_eq_false hwindow hmode]
  rfl

theorem heightToScreen_eq (hwindow : s.isScreen = false) (hmode : s.mapping.mode = .anisotropic) (e : Int) :
    s.heightToScreen e = scaleBy e s.mapping.viewportExt.y s.mapping.windowExt.y := by
  rw [heightToScreen, keepsLengths_eq_false hwindow hmode]
  rfl

end CoordSpace

namespace Mapping

variable {m : Mapping}

/-- The extents of an axis have different signs. -/
def Mirrors (m : Mapping) : Prop :=
  m.viewportExt.x * m.windowExt.x < 0 ∨ m.viewportExt.y * m.windowExt.y < 0

instance (m : Mapping) : Decidable m.Mirrors := inferInstanceAs (Decidable (_ ∨ _))

theorem NonDegenerate.pos_of_not_mirrors (hm : m.NonDegenerate) (h : ¬m.Mirrors) :
    0 < m.viewportExt.x * m.windowExt.x ∧ 0 < m.viewportExt.y * m.windowExt.y := by
  have hx := Int.mul_ne_zero hm.viewportX hm.windowX
  have hy := Int.mul_ne_zero hm.viewportY hm.windowY
  rw [Mirrors] at h
  omega

/-- The two lengths, scaled and cut toward zero along their axes. -/
def scaledLengths (m : Mapping) (p : Point) : Point :=
  ⟨(p.x * m.viewportExt.x).tdiv m.windowExt.x, (p.y * m.viewportExt.y).tdiv m.windowExt.y⟩

end Mapping

namespace Canvas

variable {c : Canvas} {rx ry : Int}

/-- The runs of the ellipse with the magnitudes of the scaled radii. -/
def scaledRuns (c : Canvas) (x y rx ry : Int) : List Run :=
  let r := c.space.mapping.scaledLengths ⟨rx, ry⟩
  Ellipse.runs (c.toScreen x y) |r.x| |r.y|

/-- The scaled radii of a call fit in 32 bits. -/
def FitRadii (c : Canvas) (rx ry : Int) : Prop :=
  let r := c.space.mapping.scaledLengths ⟨rx, ry⟩
  Fits32 r.x ∧ Fits32 r.y

instance (c : Canvas) (rx ry : Int) : Decidable (c.FitRadii rx ry) := inferInstanceAs (Decidable (_ ∧ _))

theorem ellipseRuns_of_not_mirrors (hwindow : c.space.isScreen = false)
    (hmode : c.space.mapping.mode = .anisotropic) (hm : c.space.mapping.NonDegenerate) (hrx : 0 ≤ rx) (hry : 0 ≤ ry)
    (hfits : c.FitRadii rx ry) (hsigns : ¬c.space.mapping.Mirrors) (x y : Int) :
    c.ellipseRuns x y rx ry = c.scaledRuns x y rx ry := by
  obtain ⟨hx, hy⟩ := hm.pos_of_not_mirrors hsigns
  rw [ellipseRuns, CoordSpace.widthToScreen_eq hwindow hmode, CoordSpace.heightToScreen_eq hwindow hmode,
    scaleBy_eq_abs hx hrx hfits.1, scaleBy_eq_abs hy hry hfits.2]
  rfl

theorem ellipseRuns_of_mirrors (hwindow : c.space.isScreen = false)
    (hmode : c.space.mapping.mode = .anisotropic) (hrx : 0 ≤ rx) (hry : 0 ≤ ry) (hfits : c.FitRadii rx ry)
    (hsigns : c.space.mapping.Mirrors) (x y : Int) :
    c.ellipseRuns x y rx ry = [⟨(c.toScreen x y).x, (c.toScreen x y).x, (c.toScreen x y).y⟩] := by
  rw [ellipseRuns, CoordSpace.widthToScreen_eq hwindow hmode, CoordSpace.heightToScreen_eq hwindow hmode]
  -- one radius below one is enough to leave the centre alone
  refine if_pos (hsigns.imp (fun hx => ?_) fun hy => ?_)
  · exact Int.lt_add_one_of_le (scaleBy_nonpos hx hrx hfits.1)
  · exact Int.lt_add_one_of_le (scaleBy_nonpos hy hry hfits.2)

/-- Whatever was done before, in a window of any scale without an extent of zero a call draws the ellipse around the
image of its centre whose radii are the magnitudes of the scaled ones, if the mapping mirrors neither axis. If it
mirrors one, the call draws the pixel at the centre alone. -/
theorem draw_ellipse_scaled (surface : Surface) (space : CoordSpace) (commands : List Command) (x y rx ry : Int) :
    let c := commands.foldl perform (create surface space)
    let centre := c.toScreen x y
    c.space.isScreen = false → c.space.mapping.mode = .anisotropic → c.space.mapping.NonDegenerate → 0 < rx → 0 < ry →
      c.FitRadii rx ry →
        (¬c.space.mapping.Mirrors →
          Touches c.rop (c.inkedPoints ((c.scaledRuns x y rx ry).flatMap Run.ends)).value c (c.ellipse x y rx ry) ∧
          Touches c.rop (c.brushed (c.scaledRuns x y rx ry)).value c (c.fillEllipse x y rx ry)) ∧
        (c.space.mapping.Mirrors →
          Touches c.rop (c.inkedPoints [centre]).value c (c.ellipse x y rx ry) ∧
          Touches c.rop (c.brushed [⟨centre.x, centre.x, centre.y⟩]).value c (c.fillEllipse x y rx ry)) := by
  intro c centre hwindow hmode hm hrx hry hfits
  have hclip : c.clip.Banded := (limited_foldl_perform surface space commands).banded
  have hedge := touches_draw (d := .ellipse x y rx ry) hclip trivial rfl
  have hinner := touches_draw (d := .fillEllipse x y rx ry) hclip trivial rfl
  constructor
  · intro hsigns
    rw [ellipseRuns_of_not_mirrors hwindow hmode hm hrx.le hry.le hfits hsigns] at hedge hinner
    exact ⟨hedge, hinner⟩
  · intro hsigns
    rw [ellipseRuns_of_mirrors hwindow hmode hrx.le hry.le hfits hsigns] at hedge hinner
    refine ⟨hedge.congr fun x' y' _ _ => if_congr ?_ rfl rfl, hinner⟩
    change ⟨x', y'⟩ ∈ [centre, centre] ↔ ⟨x', y'⟩ ∈ [centre]
    simp

/-- A window of seven columns and rows with a mapping, a blue pen and a red brush. -/
def ellipseCommands (mapping : Mapping) : List Command :=
  let page := greyPage 7 7 .regular barGlyph
  [.setAttributes mapping .set 0x0000FF page.pen { color := 0xFF0000 } page.text]

/-- With both extents of the columns reversed an ellipse has seven columns and three rows, with one of them a
single pixel. -/
theorem draw_ellipse_scaled_turned :
    let surface := (greyPage 7 7 .regular barGlyph).surface
    let both := ellipseCommands ⟨.anisotropic, ⟨0, 0⟩, ⟨-2, 1⟩, ⟨0, 0⟩, ⟨-3, 1⟩⟩
    let one := ellipseCommands ⟨.anisotropic, ⟨0, 0⟩, ⟨2, 1⟩, ⟨0, 0⟩, ⟨-3, 1⟩⟩
    let c := both.foldl perform (create surface (.window surface.rect))
    let c' := one.foldl perform (create surface (.window surface.rect))
    ((c.ellipse 2 3 2 1).surface.get? 0 3 = some 0x0000FF ∧
      (c.fillEllipse 2 3 2 1).surface.get? 1 3 = some 0xFF0000) ∧
      (c'.ellipse (-2) 3 2 1).surface.get? 3 3 = some 0x0000FF ∧
      (c'.fillEllipse (-2) 3 2 1).surface.get? 2 3 = some 0x000080 := by
  intro surface both one c c'
  dsimp only [c, c']
  obtain ⟨hturned, -⟩ := draw_ellipse_scaled surface (.window surface.rect) both 2 3 2 1 rfl rfl
    ⟨by decide, by decide, by decide, by decide⟩ (by decide) (by decide) (by decide)
  obtain ⟨-, hmirrored⟩ := draw_ellipse_scaled surface (.window surface.rect) one (-2) 3 2 1 rfl rfl
    ⟨by decide, by decide, by decide, by decide⟩ (by decide) (by decide) (by decide)
  obtain ⟨hedge, hinner⟩ := hturned (by decide)
  obtain ⟨hedge', hinner'⟩ := hmirrored (by decide)
  exact ⟨⟨(hedge.get? 0 3).trans (by decide), (hinner.get? 1 3).trans (by decide)⟩,
    (hedge'.get? 3 3).trans (by decide), (hinner'.get? 2 3).trans (by decide +kernel)⟩

/-- In a mirrored window the pixels to the left of the centre lie in the ellipse, but are not painted. -/
theorem draw_ellipse_collapses :
    let surface := (greyPage 7 7 .regular barGlyph).surface
    let commands := ellipseCommands ⟨.anisotropic, ⟨0, 0⟩, ⟨1, 1⟩, ⟨0, 0⟩, ⟨-1, 1⟩⟩
    let c := commands.foldl perform (create surface (.window surface.rect))
    (c.space.isScreen = false ∧ c.space.mapping.mode = .anisotropic ∧ c.space.mapping.NonDegenerate ∧
      c.FitRadii 2 2 ∧ c.clip.contains 1 3 = true ∧ ⟨1, 3⟩ ∈ (c.scaledRuns (-3) 3 2 2).flatMap Run.ends ∧
      Spanned (c.scaledRuns (-3) 3 2 2) 1 3) ∧
      (c.ellipse (-3) 3 2 2).surface.get? 1 3 = some 0x000080 ∧
      (c.fillEllipse (-3) 3 2 2).surface.get? 1 3 = some 0x000080 := by
  intro surface commands c
  have hclip : c.clip.Banded := (limited_foldl_perform surface (.window surface.rect) commands).banded
  have hedge := touches_draw (d := .ellipse (-3) 3 2 2) hclip trivial rfl
  have hinner := touches_draw (d := .fillEllipse (-3) 3 2 2) hclip trivial rfl
  exact ⟨⟨rfl, rfl, ⟨by decide, by decide, by decide, by decide⟩, by decide, by decide, by decide, by decide⟩,
    (hedge.get? 1 3).trans (by decide +kernel), (hinner.get? 1 3).trans (by decide +kernel)⟩

end Canvas

end Rasterizer
