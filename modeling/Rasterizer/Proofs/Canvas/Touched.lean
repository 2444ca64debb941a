import Rasterizer.Proofs.Canvas.Masked

/-! # Touching pixels once

A call touches a figure once when it combines each pixel in the clip that the figure has a value for
with that value, in some order and none of them twice, and changes nothing else (`Canvas.Touches`).
Two such calls one after another are one when no pixel has a value in both (`Canvas.Touches.trans`).
Under the exclusive or a call that is made twice leaves the surface as it was
(`Canvas.Touches.restores`). -/

namespace Rasterizer

namespace Surface

/-- The surface with a value combined with one of its pixels. -/
def combine (rop : RasterOp) (s : Surface) (d : Plot) : Surface :=
  s.put d.x d.y (rop.apply ((s.get? d.x d.y).getD 0) d.value)

/-- The surface with values combined with its pixels, one after another. -/
def combineAll (s : Surface) (rop : RasterOp) (ds : List Plot) : Surface := ds.foldl (combine rop) s

theorem sameShape_combineAll (s : Surface) (rop : RasterOp) (ds : List Plot) :
    s.SameShape (s.combineAll rop ds) := by
  induction ds generalizing s with
  | nil => exact .refl s
  | cons d ds ih => exact (sameShape_put ..).trans (ih _)

end Surface

theorem Painter.surface_plotAll (p : Painter) (ds : List Plot) :
    (p.plotAll ds).surface = p.surface.combineAll p.rop ds := by
  induction ds generalizing p with
  | nil => rfl
  | cons d ds ih => exact ih (p.plot d)

namespace Surface

variable {s : Surface} {rop : RasterOp} {ds : List Plot}

/-- Any surface is that of some painter, wherever that may draw. -/
theorem exists_painter (s : Surface) (rop : RasterOp) : ∃ p : Painter, p.surface = s ∧ p.rop = rop :=
  ⟨⟨s, .empty, s.rect, 0, rop, 1, by decide, false, none⟩, rfl, rfl⟩

theorem get?_combineAll_of_not_mem {x y : Int} (h : ⟨x, y⟩ ∉ ds.map Plot.pos) :
    (s.combineAll rop ds).get? x y = s.get? x y := by
  obtain ⟨p, rfl, rfl⟩ := exists_painter s rop
  rw [← Painter.surface_plotAll, Painter.get?_plotAll_of_not_mem h]

theorem get?_combineAll_of_mem (hnodup : (ds.map Plot.pos).Nodup) {d : Plot} (hd : d ∈ ds) :
    (s.combineAll rop ds).get? d.x d.y =
      (s.get? d.x d.y).map fun v => s.format.kept (rop.apply v d.value) := by
  obtain ⟨p, rfl, rfl⟩ := exists_painter s rop
  rw [← Painter.surface_plotAll, Painter.get?_plotAll_of_mem hnodup hd]

end Surface

namespace Canvas

/-- What a figure has for the pixels of the plane, if anything. -/
abbrev Values := Int → Int → Option Pixel

/-- The pixels in the clip that the values are for are combined with them, each once, and nothing
else changes. -/
structure Touches (rop : RasterOp) (value : Values) (c c' : Canvas) : Prop where
  kept : c' = { c with surface := c'.surface }
  plots : ∃ ds : List Plot, (ds.map Plot.pos).Nodup ∧
    (∀ d, d ∈ ds ↔ c.clip.contains d.x d.y = true ∧ c.surface.inside d.x d.y = true ∧
      value d.x d.y = some d.value) ∧
    c'.surface = c.surface.combineAll rop ds

variable {c c' c'' : Canvas} {rop : RasterOp} {value other : Values}

theorem Touches.clip (h : Touches rop value c c') : c'.clip = c.clip := by rw [h.kept]

theorem Touches.shape (h : Touches rop value c c') : c.surface.SameShape c'.surface := by
  obtain ⟨ds, -, -, hs⟩ := h.plots
  exact hs ▸ Surface.sameShape_combineAll c.surface rop ds

theorem Touches.get? (h : Touches rop value c c') (x y : Int) :
    c'.surface.get? x y = (c.surface.get? x y).map fun v =>
      if c.clip.contains x y then Layer.on (fun x y _ => value x y) rop c.surface.format x y v else v := by
  obtain ⟨ds, hnodup, hmem, hs⟩ := h.plots
  rw [hs]
  by_cases hplot : c.clip.contains x y = true ∧ c.surface.inside x y = true ∧ ∃ p, value x y = some p
  · obtain ⟨hclip, hin, p, hp⟩ := hplot
    have hd : (⟨x, y, p⟩ : Plot) ∈ ds := (hmem _).mpr ⟨hclip, hin, hp⟩
    simpa only [Layer.on, hclip, hp, if_true] using Surface.get?_combineAll_of_mem hnodup hd
  · rw [Surface.get?_combineAll_of_not_mem]
    · cases hv : c.surface.get? x y with
      | none => rfl
      | some v =>
        have hin := Surface.inside_of_get? hv
        rw [Option.map_some]
        split
        next hclip =>
          cases hp : value x y with
          | none => simp only [Layer.on, hp]
          | some p => exact absurd ⟨hclip, hin, p, hp⟩ hplot
        next => rfl
    · intro hpos
      obtain ⟨d, hd, hpos⟩ := List.mem_map.mp hpos
      obtain ⟨hclip, hin, hvalue⟩ := (hmem d).mp hd
      injection hpos with hx hy
      rw [hx, hy] at hclip hin hvalue
      exact hplot ⟨hclip, hin, _, hvalue⟩

theorem touches_none (h : ∀ x y, value x y = none) : Touches rop value c c :=
  ⟨rfl, [], List.nodup_nil, fun d => by simp [h], rfl⟩

/-- Outside the clip the values do not matter. -/
theorem Touches.congr (h : Touches rop value c c')
    (heq : ∀ x y, c.clip.contains x y = true → c.surface.inside x y = true → value x y = other x y) :
    Touches rop other c c' := by
  obtain ⟨ds, hnodup, hmem, hs⟩ := h.plots
  refine ⟨h.kept, ds, hnodup, fun d => ?_, hs⟩
  rw [hmem]
  refine and_congr_right fun hclip => and_congr_right fun hin => ?_
  rw [heq d.x d.y hclip hin]

theorem Touches.trans (h : Touches rop value c c') (h' : Touches rop other c' c'')
    (hapart : ∀ x y, value x y ≠ none → other x y = none) :
    Touches rop (fun x y => (value x y).or (other x y)) c c'' := by
  obtain ⟨ds, hnodup, hmem, hs⟩ := h.plots
  obtain ⟨es, hnodup', hmem', hs'⟩ := h'.plots
  refine ⟨by rw [h'.kept, h.kept], ds ++ es, ?_, fun d => ?_, ?_⟩
  · rw [List.map_append, List.nodup_append]
    refine ⟨hnodup, hnodup', fun a ha b hb hab => ?_⟩
    obtain ⟨d, hd, rfl⟩ := List.mem_map.mp ha
    obtain ⟨e, he, rfl⟩ := List.mem_map.mp hb
    obtain ⟨-, -, hvalue⟩ := (hmem d).mp hd
    obtain ⟨-, -, hother⟩ := (hmem' e).mp he
    injection hab with hx hy
    rw [← hx, ← hy, hapart _ _ (by rw [hvalue]; exact Option.some_ne_none _)] at hother
    cases hother
  · rw [List.mem_append, hmem, hmem', h.clip, h.shape.inside, ← and_or_left, ← and_or_left]
    refine and_congr_right fun _ => and_congr_right fun _ => ?_
    cases hvalue : value d.x d.y with
    | none => simp
    | some p => simp [hapart d.x d.y (by rw [hvalue]; exact Option.some_ne_none _)]
  · rw [hs', hs, Surface.combineAll, Surface.combineAll, Surface.combineAll, List.foldl_append]

/-- Combining a figure with the surface by the exclusive or twice takes it away again. -/
theorem Touches.restores (h : Touches .xor value c c') (h' : Touches .xor value c' c'') :
    c''.surface.data = c.surface.data := by
  refine Array.ext_getElem? fun i => Surface.getElem?_data_eq (h.shape.trans h'.shape) ?_
  generalize (c.surface.pixelOfByte i).x = x
  generalize (c.surface.pixelOfByte i).y = y
  rw [h'.get?, h.get?, h.clip, h.shape.format]
  cases hv : c.surface.get? x y with
  | none => rfl
  | some v =>
    have hkept := Surface.kept_of_get? hv
    rw [Option.map_some, Option.map_some]
    by_cases hclip : c.clip.contains x y = true
    · cases hp : value x y with
      | none => simp only [Layer.on, hp, hclip, if_true]
      | some p => simp only [Layer.on, hp, hclip, if_true, PixelFormat.kept_xor_xor hkept]
    · simp only [hclip, if_false, Bool.false_eq_true]

/-! ## Painting -/

/-- Opening the canvas around a figure and plotting it touches the figure once. -/
theorem touches_paint (hclip : c.clip.Banded) (rc : Rect) {draw : Painter → Painter}
    (hrc : ∀ x y, value x y ≠ none → rc.normalized.contains x y = true)
    (hdraw : ∀ p : Painter, p.surface = c.surface → p.frame.Sound → p.tool = ⟨0, rop, 1⟩ →
      ∃ ds, Painter.Lists (fun x y _ => value x y) p ds ∧ (draw p).surface = (p.plotAll ds).surface) :
    Touches rop value c (c.paint rc rop draw) := by
  have hvisible : ∀ x y, value x y ≠ none → (Painter.visible c.surface c.clip rc x y = true ↔
      c.clip.contains x y = true ∧ c.surface.inside x y = true) := by
    intro x y hxy
    rw [Painter.visible, hrc x y hxy, Bool.true_and, Bool.and_eq_true, and_comm]
  rw [paint]
  cases hopen : Painter.open? c.surface c.clip rc with
  | none =>
    refine ⟨rfl, [], List.nodup_nil, fun d => ?_, rfl⟩
    refine iff_of_false List.not_mem_nil ?_
    rintro ⟨hin, hsurface, hd⟩
    have hnot := Painter.visible_of_none hclip hopen d.x d.y
    rw [(hvisible _ _ (by rw [hd]; exact Option.some_ne_none _)).mpr ⟨hin, hsurface⟩] at hnot
    cases hnot
  | some p =>
    have hopened := Painter.opened_of_some hclip hopen
    have hsurface : (p.withRop rop).surface = c.surface := hopened.surface
    obtain ⟨ds, hds, hs⟩ := hdraw (p.withRop rop) hsurface hopened.sound (hopened.tool_withRop rop)
    refine ⟨rfl, ds, hds.nodup, fun d => ?_, ?_⟩
    · have hreaches : (p.withRop rop).frame.reaches d.x d.y =
          Painter.visible c.surface c.clip rc d.x d.y := hopened.reaches d.x d.y
      rw [hds.mem_iff, hreaches, hsurface]
      constructor
      · rintro ⟨hseen, v, -, hd⟩
        obtain ⟨hin, hon⟩ := (hvisible _ _ (by rw [hd]; exact Option.some_ne_none _)).mp hseen
        exact ⟨hin, hon, hd⟩
      · rintro ⟨hin, hon, hd⟩
        exact ⟨(hvisible _ _ (by rw [hd]; exact Option.some_ne_none _)).mpr ⟨hin, hon⟩,
          _, Surface.get?_eq_some hon, hd⟩
    · change (draw (p.withRop rop)).surface = _
      rw [hs, Painter.surface_plotAll, hsurface]
      rfl

/-- Spans that stand apart, painted one after another. -/
theorem touches_spans (hclip : c.clip.Banded) (value : Values) {spans : RowSpans}
    (hne : ∀ r ∈ spans.runs, r.x1 ≤ r.x2) (hapart : spans.runs.Pairwise Run.Apart)
    {paint : Painter → Run → Painter}
    (hpaint : ∀ q : Painter, q.frame.Sound → ∀ r,
      Painter.Draws (.row r.y (stretch r.x1 r.x2 fun x => value x r.y)) q (paint q r))
    {covered : Int → Int → Prop} [∀ x y, Decidable (covered x y)]
    (hcovered : ∀ x y, spans.Covers ⟨x, y⟩ ↔ covered x y) :
    Touches c.rop (fun x y => if covered x y then value x y else none) c
      (match spans.bound? with
        | none => c
        | some rc => c.paint rc c.rop fun p => spans.toList.foldl paint p) := by
  have hbound : ∀ x y, (if covered x y then value x y else none) ≠ none →
      ∃ rc, spans.bound? = some rc ∧ rc.normalized.contains x y = true := by
    intro x y hxy
    by_cases hcov : covered x y
    · obtain ⟨rc, hrc, hin⟩ := RowSpans.contains_bound ((hcovered x y).mpr hcov)
      exact ⟨rc, hrc, Rect.contains_normalized hin⟩
    · rw [if_neg hcov] at hxy
      exact absurd rfl hxy
  cases hspans : spans.bound? with
  | none =>
    refine touches_none fun x y => ?_
    by_contra hxy
    obtain ⟨rc, hrc, -⟩ := hbound x y hxy
    rw [hspans] at hrc
    cases hrc
  | some rc =>
    refine touches_paint hclip rc (fun x y hxy => ?_) fun p _ hp _ => ?_
    · obtain ⟨rc', hrc', hin⟩ := hbound x y hxy
      rw [hspans, Option.some.injEq] at hrc'
      rw [hrc']
      exact hin
    · refine (Painter.draws_runs (fun q hq _ r _ => hpaint q (hq ▸ hp) r)
        (fun r hr => hne r (RowSpans.mem_toList.mp hr)) (RowSpans.apart_toList hapart)
        fun x y => ?_).plots
      rw [← hcovered]
      simp only [RowSpans.Covers, RowSpans.mem_toList]

theorem touches_paintSpans (hclip : c.clip.Banded) {spans : RowSpans}
    (hne : ∀ r ∈ spans.runs, r.x1 ≤ r.x2) (hapart : spans.runs.Pairwise Run.Apart) (color : Pixel)
    {covered : Int → Int → Prop} [∀ x y, Decidable (covered x y)]
    (hcovered : ∀ x y, spans.Covers ⟨x, y⟩ ↔ covered x y) :
    Touches c.rop (fun x y => if covered x y then some color else none) c (c.paintSpans spans color) :=
  touches_spans hclip (fun _ _ => some color) hne hapart
    (fun _ hq r => Painter.draws_spanOf hq r.x1 r.x2 r.y color) hcovered

theorem touches_brushSpans (hclip : c.clip.Banded) {spans : RowSpans}
    (hne : ∀ r ∈ spans.runs, r.x1 ≤ r.x2) (hapart : spans.runs.Pairwise Run.Apart)
    {covered : Int → Int → Prop} [∀ x y, Decidable (covered x y)]
    (hcovered : ∀ x y, spans.Covers ⟨x, y⟩ ↔ covered x y) :
    Touches c.rop (fun x y => if covered x y then c.screenBrush.pixelAt c.text.background x y else none) c
      (c.brushSpans spans) :=
  touches_spans hclip (c.screenBrush.pixelAt c.text.background) hne hapart
    (fun _ hq r => Painter.draws_brushRow hq r.x1 r.x2 r.y c.screenBrush c.text.background) hcovered

end Canvas

end Rasterizer
