import Rasterizer.Proofs.Canvas.Commands
import Rasterizer.Proofs.Painter.Masked

/-! # The ground behind a text

Behind a text along a row each row of the ground is as wide as the text (`BackArea.fill_behind`). The rows of a slanted
ground are drawn from their first to their last column, and which of the two comes first does not matter to a painter.
So there is no row without columns: behind a text of no width each row has the two columns around its place. -/

namespace Rasterizer.BackArea

open Painter (Draws)

/-- The rows of an area, as they are before they are moved sideways. -/
def box : BackArea → Rect
  | .upright rc => rc.normalized
  | .leaning rc _ => rc
  | area => area.bound

/-- How far a row is moved to the right. -/
def shift : BackArea → Int → Int
  | .leaning rc reversed, y => if reversed then (y - rc.top) / 2 else (rc.height - (y - rc.top)) / 2
  | _, _ => 0

/-- A value for `n` columns of each row of an area, beginning `lead` columns ahead of the row's place. -/
def strip (area : BackArea) (lead n : Int) (value : Pixel) : Layer := fun x y _ =>
  let start := area.box.left + area.shift y - lead
  if area.box.top ≤ y ∧ y < area.box.bottom ∧ start ≤ x ∧ x < start + n then some value else none

variable {p : Painter} {rc : Rect}

theorem draws_upright (hp : p.frame.Sound) (hrc : rc.left ≤ rc.right) :
    Draws ((upright rc).strip 0 rc.width p.ink) p ((upright rc).fill p) := by
  refine (Painter.draws_box hp rc).congr fun x y v _ => if_congr ?_ rfl rfl
  simp only [Rect.contains_iff, box, shift, Rect.normalized, Rect.width]
  omega

/-- The rows of a slanted box, which are those asked for or, if none are, the two columns that end before they begin. -/
theorem draws_leaning (hp : p.frame.Sound) (hstep : p.step = 1) {lead n : Int}
    (hn : 0 < rc.width ∧ lead = 0 ∧ n = rc.width ∨ rc.width = 0 ∧ lead = 1 ∧ n = 2) (reversed : Bool) :
    Draws ((leaning rc reversed).strip lead n p.ink) p ((leaning rc reversed).fill p) := by
  refine (Painter.draws_rows hp hstep ?_ fun x y => ?_).congr fun x y v _ => rfl
  · -- a pixel of two rows would lie at two heights
    refine List.pairwise_map.mpr ((pairwise_irange _ _).imp fun {i j} hij c hi hj => ?_)
    have := hi.1.symm.trans hj.1
    simp only [Run.ordered] at this
    omega
  · simp only [runs, List.mem_map, mem_irange, box, shift]
    constructor
    · rintro ⟨htop, hbottom, hleft, hright⟩
      refine ⟨_, ⟨y - rc.top, ⟨by omega, by simp only [Rect.height]; omega⟩, rfl⟩, ?_⟩
      simp only [Run.Covers, Run.ordered]
      omega
    · rintro ⟨r, ⟨i, hi, rfl⟩, hcov⟩
      simp only [Run.Covers, Run.ordered, Rect.height] at hi hcov ⊢
      obtain ⟨hy, hx⟩ := hcov
      obtain rfl : i = y - rc.top := by omega
      omega

theorem exists_behind {f : LogicalFont} (hf : f.rotation = 0) (a b : Point) (halo : Bool) :
    ∃ rc : Rect, behind f a b halo = (if f.slants then .leaning rc f.style.flipsOnce else .upright rc) ∧
      rc.width = b.x - a.x + if halo then 2 else 0 := by
  refine ⟨_, if_neg (not_not_intro hf), ?_⟩
  cases halo with
  | false => simp only [Bool.false_eq_true, if_false, Rect.ofSize, Rect.width]; omega
  | true => simp only [if_true, Rect.ofSize, Rect.inflate, Rect.width]; omega

/-- In each row of the area behind a text along a row, a painter that draws every dot combines its ink with as many
columns as the text is wide, and with nothing else. Only behind a text that is slanted, of no width and without a halo
it does so with two columns of each row. -/
theorem fill_behind {f : LogicalFont} (hf : f.rotation = 0) {a b : Point} (hab : a.x ≤ b.x) (halo : Bool)
    (hp : p.frame.Sound) (hstep : p.step = 1) :
    let area := behind f a b halo
    let width := b.x - a.x + if halo then 2 else 0
    (f.slants = false ∨ 0 < width → Draws (area.strip 0 width p.ink) p (area.fill p)) ∧
      (f.slants = true → width = 0 → Draws (area.strip 1 2 p.ink) p (area.fill p)) := by
  intro area width
  obtain ⟨rc, harea, hwidth⟩ : ∃ rc : Rect, area = _ ∧ rc.width = width := exists_behind hf a b halo
  have hnonneg : 0 ≤ width := Int.add_nonneg (Int.sub_nonneg_of_le hab) (by split <;> decide)
  rw [harea, ← hwidth]
  rw [← hwidth, Rect.width] at hnonneg
  cases f.slants with
  | false => exact ⟨fun _ => draws_upright hp (by omega), fun hslants => absurd hslants Bool.false_ne_true⟩
  | true =>
    constructor
    · intro hpos
      exact draws_leaning hp hstep (.inl ⟨hpos.resolve_left Bool.true_eq_false.mp, rfl, rfl⟩) _
    · intro _ hzero
      exact draws_leaning hp hstep (.inr ⟨hzero, rfl, rfl⟩) _

/-- A font of two rows above the baseline. -/
def groundFont (style : FontStyle) : LogicalFont :=
  (LogicalFont.ofSource (.ofList "ground" .regular .mono 2 2 0 1 [])).withStyle style

/-- The painter of all of a small page. -/
def groundPainter : Painter :=
  let page := Canvas.greyPage 4 4 .regular Canvas.barGlyph
  ⟨page.surface, page.clip, page.surface.rect, 0xFF, .set, 1, Nat.one_pos, true, none⟩

theorem sound_groundPainter : groundPainter.frame.Sound := by
  let page := Canvas.greyPage 4 4 .regular Canvas.barGlyph
  have hopen : Painter.open? page.surface page.clip page.surface.rect = some { groundPainter with ink := 0 } := rfl
  exact (Painter.opened_of_some (Canvas.banded_wholeClip page.surface page.space) hopen).sound

/-- A slanted text of one column, which has one column in the upper row, and one of no width, which has two columns
there with a halo and without it. -/
theorem fill_behind_slanted :
    let drawn (b : Point) (halo : Bool) : Surface :=
      ((behind (groundFont .italic) ⟨1, 3⟩ b halo).fill groundPainter).surface
    ((drawn ⟨2, 3⟩ false).get? 2 1 = some 0xFF ∧ (drawn ⟨2, 3⟩ false).get? 1 1 = some 0x80) ∧
      ((drawn ⟨1, 3⟩ true).get? 1 1 = some 0xFF ∧ (drawn ⟨1, 3⟩ true).get? 2 1 = some 0xFF) ∧
      (drawn ⟨1, 3⟩ false).get? 1 1 = some 0xFF ∧ (drawn ⟨1, 3⟩ false).get? 2 1 = some 0xFF := by
  intro drawn
  obtain ⟨hone, -⟩ := fill_behind (f := groundFont .italic) (a := ⟨1, 3⟩) (b := ⟨2, 3⟩) rfl (by decide) false
    sound_groundPainter rfl
  obtain ⟨hhalo, -⟩ := fill_behind (f := groundFont .italic) (a := ⟨1, 3⟩) (b := ⟨1, 3⟩) rfl (by decide) true
    sound_groundPainter rfl
  obtain ⟨-, hnone⟩ := fill_behind (f := groundFont .italic) (a := ⟨1, 3⟩) (b := ⟨1, 3⟩) rfl (by decide) false
    sound_groundPainter rfl
  have hone := (hone (.inr (by decide))).get?
  have hhalo := (hhalo (.inr (by decide))).get?
  have hnone := (hnone rfl rfl).get?
  exact ⟨⟨(hone 2 1).trans (by decide), (hone 1 1).trans (by decide)⟩,
    ⟨(hhalo 1 1).trans (by decide), (hhalo 2 1).trans (by decide)⟩,
    (hnone 1 1).trans (by decide), (hnone 2 1).trans (by decide)⟩

/-- Behind a slanted text of no width two columns of a row are painted, where an upright one paints none. -/
theorem fill_behind_nothing :
    let area (style : FontStyle) := behind (groundFont style) ⟨1, 3⟩ ⟨1, 3⟩ false
    ((groundFont .italic).rotation = 0 ∧ ∀ x y : Fin 4, groundPainter.frame.reaches x y = true) ∧
      (groundPainter.surface.get? 1 1 = some 0x80 ∧ groundPainter.surface.get? 2 1 = some 0x80) ∧
      ((area .italic).fill groundPainter).surface.get? 1 1 = some 0xFF ∧
      ((area .italic).fill groundPainter).surface.get? 2 1 = some 0xFF ∧
      (area .regular).fill groundPainter = groundPainter := by
  refine ⟨⟨rfl, by decide⟩, ⟨by decide, by decide⟩, by decide, by decide, rfl⟩

end Rasterizer.BackArea
