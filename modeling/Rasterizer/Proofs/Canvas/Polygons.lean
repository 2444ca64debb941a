import Rasterizer.Proofs.Canvas.Figures
import Rasterizer.Proofs.CoordSpace
import Rasterizer.Proofs.Polygon.Chains
import Rasterizer.Proofs.Polygon.Relisted
import Rasterizer.Proofs.Polygon.Ties

/-! # Filled polygons

A canvas tells by the logical points whether a polygon has one run a row, and fills it on the screen. No mapping adds
turns, so the polygon still has one run a row there (`isMonotone_logicalToScreen`). The pixels of such a polygon are
told by its sides alone (`covers_monotoneRuns`), and those of any other one by its edges, as long as edges that tie on
a row are alike. So it makes no difference where the list of the vertices begins, and which way it goes round
(`fillPolygon_relisted`). It makes one when a turn closes a list and the polygon then passes for one with one run a
row, whose ends are rounded in another way, and when edges tie that are not alike (`fillPolygon_differs`). -/

namespace Rasterizer

open Rasterizer.Polygon

/-! ## The box of a polygon -/

section Box

theorem Rect.ofPoints_cons (p : Point) (ps : List Point) :
    Rect.ofPoints (p :: ps) = ⟨least p.x (ps.map Point.x), least p.y (ps.map Point.y),
      greatest p.x (ps.map Point.x) + 1, greatest p.y (ps.map Point.y) + 1⟩ := by
  have hfold : ∀ (ps : List Point) (rc : Rect),
      ps.foldl (fun rc q => ⟨min rc.left q.x, min rc.top q.y, max rc.right q.x, max rc.bottom q.y⟩) rc =
        (⟨least rc.left (ps.map Point.x), least rc.top (ps.map Point.y), greatest rc.right (ps.map Point.x),
          greatest rc.bottom (ps.map Point.y)⟩ : Rect) := by
    intro ps
    induction ps with
    | nil => exact fun rc => rfl
    | cons q ps ih => exact fun rc => (List.foldl_cons ..).trans (ih _)
  rw [Rect.ofPoints, hfold]

/-- Lists of the same points have one box. -/
theorem Rect.ofPoints_congr {pts qts : List Point} (h : ∀ p, p ∈ pts ↔ p ∈ qts) :
    Rect.ofPoints pts = Rect.ofPoints qts := by
  have hmap : ∀ (f : Point → Int) (x : Int), x ∈ pts.map f ↔ x ∈ qts.map f := fun f x => by
    simp only [List.mem_map, h]
  match pts, qts with
  | [], [] => rfl
  | [], q :: qs => exact absurd ((h q).mpr List.mem_cons_self) List.not_mem_nil
  | p :: ps, [] => exact absurd ((h p).mp List.mem_cons_self) List.not_mem_nil
  | p :: ps, q :: qs =>
    rw [Rect.ofPoints_cons, Rect.ofPoints_cons, least_congr (hmap Point.x), least_congr (hmap Point.y),
      greatest_congr (hmap Point.x), greatest_congr (hmap Point.y)]

theorem Rect.top_ofPoints_le {pts : List Point} {p : Point} (hp : p ∈ pts) : (Rect.ofPoints pts).top ≤ p.y := by
  cases pts with
  | nil => cases hp
  | cons q qs =>
    have hle := List.forall_mem_cons.mpr (least_le q.y (qs.map Point.y))
    rw [← List.map_cons] at hle
    rw [Rect.ofPoints_cons]
    exact hle p.y (List.mem_map_of_mem hp)

end Box

/-! ## The pixels of a polygon -/

theorem exists_crossing_iff {pts : List Point} {y : Int} {d e : Point × Point}
    (h : ((sides pts).filter (Crosses y)).Perm [d, e]) (f : Point × Point → Prop) :
    (∃ s ∈ sides pts, Crosses y s ∧ f s) ↔ f d ∨ f e := by
  have hmem : ∀ s, (s ∈ sides pts ∧ Crosses y s) ↔ s = d ∨ s = e := by
    intro s
    have hs := h.mem_iff (a := s)
    rw [List.mem_filter, decide_eq_true_eq] at hs
    simpa using hs
  simp only [← and_assoc, hmem, or_and_right, exists_or, exists_eq_left]

/-- Of runs on rows of their own only the one on its row covers a pixel. -/
theorem exists_mem_map_covers {rows : List Int} {f : Int → Run} (hf : ∀ y, (f y).y = y) {p : Point} :
    (∃ r ∈ rows.map f, r.ordered.Covers p) ↔ p.y ∈ rows ∧ (f p.y).ordered.Covers p := by
  constructor
  · rintro ⟨r, hr, hcovers⟩
    obtain ⟨y, hy, rfl⟩ := List.mem_map.mp hr
    have hrow : p.y = y := hcovers.1.trans (hf y)
    rw [hrow]
    exact ⟨hy, hcovers⟩
  · exact fun ⟨hy, hcovers⟩ => ⟨_, List.mem_map_of_mem hy, hcovers⟩

/-- The pixels of a polygon that turns only twice lie between those of its sides that cross their row. -/
theorem covers_monotoneRuns {pts : List Point} (hpts : 3 ≤ pts.length) (h : isMonotone pts = true)
    (hfits : ∀ s ∈ sides pts, SideFits s) {p : Point} :
    (∃ r ∈ monotoneRuns pts, r.ordered.Covers p) ↔
      (∃ s ∈ sides pts, Crosses p.y s ∧ column p.y s ≤ p.x) ∧ ∃ s ∈ sides pts, Crosses p.y s ∧ p.x ≤ column p.y s := by
  obtain ⟨top, bottom, left, right, hchains, hruns⟩ := monotoneRuns_eq_chains hpts h
  rw [hruns hfits, exists_mem_map_covers fun _ => rfl]
  by_cases hy : p.y ∈ irange top.y (bottom.y - 1)
  · obtain ⟨htop, hbottom⟩ := mem_irange.mp hy
    obtain ⟨d, e, hperm, hd, he⟩ := hchains.perm_pair htop (by omega)
    rw [and_iff_right hy, exists_crossing_iff hperm, exists_crossing_iff hperm]
    simp only [Run.Covers, Run.ordered, hd, he, true_and]
    omega
  · refine iff_of_false (fun hcovers => hy hcovers.1) ?_
    rintro ⟨⟨s, hs, hcross, -⟩, -⟩
    obtain ⟨htop, hbottom⟩ := hchains.row_of_crosses hs hcross
    exact hy (mem_irange.mpr ⟨htop, by omega⟩)

theorem RowSpans.covering_congr {rs rs' : List Run}
    (h : ∀ p, (∃ r ∈ rs, r.ordered.Covers p) ↔ ∃ r ∈ rs', r.ordered.Covers p) : covering rs = covering rs' := by
  refine congrArg RowSpans.mk (eq_of_covers_iff (gapped_covering rs) (nonempty_covering rs) (gapped_covering rs')
    (nonempty_covering rs') fun p => ?_)
  exact covers_covering_ordered.trans ((h p).trans covers_covering_ordered.symm)

namespace Canvas

/-- Two lists of the same points with the same sides have the same pixels. -/
theorem polygonSpans_congr {pts qts : List Point} {monotone : Bool} (hpts : 3 ≤ pts.length) (hqts : 3 ≤ qts.length)
    (hmem : ∀ p, p ∈ pts ↔ p ∈ qts) (hsides : (sides pts).Perm (sides qts))
    (hmonotone : monotone = true → isMonotone pts = true ∧ isMonotone qts = true ∧ ∀ s ∈ sides pts, SideFits s)
    (hties : monotone = false → TiesAlike (edges pts)) : polygonSpans pts monotone = polygonSpans qts monotone := by
  simp only [polygonSpans, Rect.ofPoints_congr hmem]
  split
  · rfl
  · cases monotone with
    | true =>
      obtain ⟨hp, hq, hfits⟩ := hmonotone rfl
      refine RowSpans.covering_congr fun p => ?_
      rw [covers_monotoneRuns hpts hp hfits,
        covers_monotoneRuns hqts hq fun s hs => hfits s (hsides.mem_iff.mpr hs)]
      simp only [hsides.mem_iff]
    | false =>
      have hedges : (edges pts).Perm (edges qts) :=
        (perm_edges pts).trans ((hsides.map _).trans (perm_edges qts).symm)
      refine congrArg RowSpans.covering (evenOddRuns_perm hpts hqts hedges (hties rfl) fun e he => ?_)
      refine max_le (topmost_le he) ?_
      obtain ⟨s, hs, rfl⟩ := List.mem_map.mp ((perm_edges pts).mem_iff.mp he)
      rw [← Rect.ofPoints_congr hmem]
      exact Rect.top_ofPoints_le (mem_of_mem_sides hs).1

/-! ## On the screen -/

theorem fillPolygon_eq (c : Canvas) (pts : List Point) :
    c.fillPolygon pts =
      if pts.length < 3 then c
      else c.brushSpans (polygonSpans (pts.map c.space.logicalToScreen) (isMonotone pts)) := rfl

theorem isMonotone_map_logicalToScreen (s : CoordSpace) {pts : List Point} (hfits : ∀ p ∈ pts, s.Fits p)
    (h : isMonotone pts = true) : isMonotone (pts.map s.logicalToScreen) = true := by
  refine isMonotone_map h (s.rows_logicalToScreen.imp (fun hrows p hp q hq => ?_) fun hrows p hp q hq => ?_)
  · exact hrows p q (hfits p hp) (hfits q hq)
  · exact hrows p q (hfits p hp) (hfits q hq)

/-- The images of logical points that pass for a polygon with one run a row do so too: no row crosses more than two of
their sides, and a canvas fills them as the test on the screen would have it. -/
theorem isMonotone_logicalToScreen (s : CoordSpace) {pts : List Point} (hfits : ∀ p ∈ pts, s.Fits p)
    (h : isMonotone pts = true) :
    let screen := pts.map s.logicalToScreen
    isMonotone screen = true ∧ (∀ y, (sides screen).countP (Crosses y) ≤ 2) ∧
      ∀ c : Canvas, c.space = s →
        c.fillPolygon pts = if pts.length < 3 then c else c.brushSpans (polygonSpans screen (isMonotone screen)) := by
  intro screen
  have hscreen := isMonotone_map_logicalToScreen s hfits h
  refine ⟨hscreen, countP_crosses_le_two hscreen, fun c hspace => ?_⟩
  rw [fillPolygon_eq, hspace, h, hscreen]

/-- A mapping that turns a polygon over, with its vertices nearer to each other. -/
theorem isMonotone_logicalToScreen_mirrored :
    let s : CoordSpace :=
      { mapping := ⟨.anisotropic, ⟨1, 2⟩, ⟨3, -2⟩, ⟨4, 9⟩, ⟨2, 1⟩⟩, device := ⟨7, 1, 40, 40⟩, isScreen := false }
    let pts : List Point := [⟨0, 5⟩, ⟨0, 2⟩, ⟨4, 0⟩, ⟨9, 0⟩, ⟨9, 0⟩, ⟨7, 6⟩, ⟨0, 5⟩]
    (∀ p ∈ pts, s.Fits p) ∧ isMonotone pts = true ∧ isMonotone (pts.map s.logicalToScreen) = true := by
  intro s pts
  have hfits : ∀ p ∈ pts, s.Fits p := by decide
  have h : isMonotone pts = true := by decide
  exact ⟨hfits, h, (isMonotone_logicalToScreen s hfits h).1⟩

/-! ## Listing the vertices in another way -/

/-- The vertices, and the sides between their images on the screen, fit in 32 bits. -/
def PolygonFits (c : Canvas) (pts : List Point) : Prop :=
  (∀ p ∈ pts, c.space.Fits p) ∧ ∀ s ∈ sides (pts.map c.space.logicalToScreen), SideFits s

theorem fillPolygon_congr (c : Canvas) {pts qts : List Point} (hpts : 3 ≤ pts.length)
    (hlength : qts.length = pts.length) (hmem : ∀ p, p ∈ qts ↔ p ∈ pts)
    (hsides : (sides (qts.map c.space.logicalToScreen)).Perm (sides (pts.map c.space.logicalToScreen)))
    (hmonotone : isMonotone qts = isMonotone pts)
    (hfits : isMonotone pts = true → c.PolygonFits pts)
    (hties : isMonotone pts = false → TiesAlike (edges (pts.map c.space.logicalToScreen))) :
    c.fillPolygon qts = c.fillPolygon pts := by
  rw [fillPolygon_eq, fillPolygon_eq, if_neg (by omega), if_neg (by omega), hmonotone]
  refine congrArg c.brushSpans (polygonSpans_congr ?_ ?_ (fun p => ?_) hsides.symm (fun h => ?_) hties).symm
  · rwa [List.length_map]
  · rwa [List.length_map, hlength]
  · simp only [List.mem_map, hmem]
  · exact ⟨isMonotone_map_logicalToScreen c.space (hfits h).1 h,
      isMonotone_map_logicalToScreen c.space (fun p hp => (hfits h).1 p ((hmem p).mp hp)) (hmonotone.trans h),
      (hfits h).2⟩

/-- A polygon is filled alike wherever the list of its vertices begins, and whichever way it goes round, if it fits in
32 bits, its edges that tie on a row are alike and the turn does not close the list. -/
theorem fillPolygon_relisted (c : Canvas) {pts : List Point} (hpts : 3 ≤ pts.length)
    (hfits : isMonotone pts = true → c.PolygonFits pts)
    (hties : isMonotone pts = false → TiesAlike (edges (pts.map c.space.logicalToScreen))) :
    c.fillPolygon pts.reverse = c.fillPolygon pts ∧
      ∀ k, (Closed (turned pts k) → Closed pts ∨ pts.length < 4) →
        c.fillPolygon (turned pts k) = c.fillPolygon pts := by
  refine ⟨?_, fun k hopen => ?_⟩
  · refine fillPolygon_congr c hpts List.length_reverse (fun p => List.mem_reverse) ?_ (isMonotone_reverse pts) hfits
      hties
    rw [List.map_reverse]
    exact perm_sides_reverse _
  · exact fillPolygon_congr c hpts (length_turned hpts k) (fun p => mem_turned hpts k) (perm_sides_turned hpts k _)
      (isMonotone_turned hpts hopen) hfits hties

/-- Two sides of this polygon cross in the middle of a row. -/
theorem fillPolygon_relisted_crossed :
    let c := greyPage 5 5 .regular barGlyph
    let crossed : List Point := [⟨0, 0⟩, ⟨4, 4⟩, ⟨4, 0⟩, ⟨0, 4⟩]
    isMonotone crossed = false ∧ TiesAlike (edges (crossed.map c.space.logicalToScreen)) ∧
      c.fillPolygon crossed.reverse = c.fillPolygon crossed ∧
      c.fillPolygon (turned crossed 3) = c.fillPolygon crossed := by
  intro c crossed
  have hmonotone : isMonotone crossed = false := by decide
  have hties : TiesAlike (edges (crossed.map c.space.logicalToScreen)) := by decide
  have hlength : 3 ≤ crossed.length := by decide
  obtain ⟨hreverse, hturned⟩ := fillPolygon_relisted c hlength
    (fun h => absurd (hmonotone.symm.trans h) (by decide)) fun _ => hties
  exact ⟨hmonotone, hties, hreverse, hturned 3 (by decide)⟩

/-- The pixels that a canvas fills, one by one. -/
theorem get?_fillPolygon {c : Canvas} (hclip : c.clip.Banded) {pts : List Point} (hpts : 3 ≤ pts.length) (x y : Int) :
    (c.fillPolygon pts).surface.get? x y = (c.surface.get? x y).map fun v =>
      if c.clip.contains x y then
        Layer.on (fun x y _ =>
          (c.brushed (polygonRuns (pts.map c.space.logicalToScreen) (isMonotone pts))).value x y) c.rop
          c.surface.format x y v
      else v :=
  (touches_draw hclip (d := .fillPolygon pts) trivial (if_neg (by omega))).get? x y

theorem get?_fillPolygon_greyPage {width height : Nat} {pts : List Point} {monotone : Bool} {rs : List Run}
    (hpts : 3 ≤ pts.length) (hmonotone : isMonotone pts = monotone) (hruns : polygonRuns pts monotone = rs)
    (x y : Int) :
    let c := greyPage width height .regular barGlyph
    (c.fillPolygon pts).surface.get? x y = (c.surface.get? x y).map fun v =>
      if c.clip.contains x y then Layer.on (fun x y _ => (c.brushed rs).value x y) c.rop c.surface.format x y v
      else v := by
  intro c
  have hclip : c.clip.Banded := banded_wholeClip _ _
  have hscreen : pts.map c.space.logicalToScreen = pts := List.map_id pts
  rw [get?_fillPolygon hclip hpts, hscreen, hmonotone, hruns]

/-- A turn that closes a triangle with a vertex named twice adds a pixel, since the ends of its runs are then rounded
up. In a parallelogram two edges that start on a row tie without being alike, and the list says which goes first. -/
theorem fillPolygon_differs :
    let c := greyPage 2 2 .regular barGlyph
    let wedge : List Point := [⟨0, 0⟩, ⟨0, 1⟩, ⟨0, 1⟩, ⟨1, 2⟩]
    let slant : List Point := [⟨0, 0⟩, ⟨0, 1⟩, ⟨2, 2⟩, ⟨1, 1⟩]
    (TiesAlike (edges wedge) ∧ Closed (turned wedge 2) ∧ ¬Closed wedge ∧
      (c.fillPolygon (turned wedge 2)).surface.get? 1 1 ≠ (c.fillPolygon wedge).surface.get? 1 1) ∧
    (¬TiesAlike (edges slant) ∧
      (c.fillPolygon slant.reverse).surface.get? 0 1 ≠ (c.fillPolygon slant).surface.get? 0 1) := by
  intro c wedge slant
  have hclosed : polygonRuns (turned wedge 2) true = [⟨0, 0, 0⟩, ⟨1, 0, 1⟩] := by decide
  have hwedge : polygonRuns wedge false = [⟨0, 0, 0⟩, ⟨0, 0, 1⟩] := by cbv
  have hslant : polygonRuns slant false = [⟨0, 0, 0⟩, ⟨1, 1, 1⟩] := by cbv
  have hreverse : polygonRuns slant.reverse false = [⟨0, 0, 0⟩, ⟨0, 1, 1⟩] := by cbv
  refine ⟨⟨by decide, by decide, by decide, ?_⟩, by decide, ?_⟩
  · rw [get?_fillPolygon_greyPage (by decide) (by decide) hclosed,
      get?_fillPolygon_greyPage (by decide) (by decide) hwedge]
    decide
  · rw [get?_fillPolygon_greyPage (by decide) (by decide) hreverse,
      get?_fillPolygon_greyPage (by decide) (by decide) hslant]
    decide

end Canvas

end Rasterizer
