import Rasterizer.Proofs.Painter.Masked

/-! # Masked calls

A call on a canvas is masked when the clip region cuts its picture out of one that is there
without it: whatever the surface holds and whatever the clip is, the call moves the pen to the
same place and maps the pixels of the clip in the same way. Calls one after another are masked
when each of them is (`Masked.comp`). -/

namespace Rasterizer.Canvas

/-- The canvas with another picture under another clip. -/
def onto (c : Canvas) (s : Surface) (clip : Region) (back : Scratch) : Canvas :=
  { c with surface := s, clip := clip, scratch := back }

/-- The pen moves, the pixels of the clip are mapped, each by itself, and nothing else changes. -/
structure Maps (pos : Point) (g : Int → Int → Pixel → Pixel) (c c' : Canvas) : Prop where
  kept : c' = { c with surface := c'.surface, penPos := pos }
  shape : c.surface.SameShape c'.surface
  get? : ∀ x y, c'.surface.get? x y = (c.surface.get? x y).map fun v =>
    if c.clip.contains x y then g x y v else v

/-- What the call does with the attributes of the canvas, and where it moves the pen, is the same for each
picture and clip. -/
def MaskedTo (pos : Point) (f : Canvas → Canvas) (c : Canvas) : Prop :=
  ∃ g, ∀ s clip back, c.surface.SameShape s → clip.Banded →
    Maps pos g (c.onto s clip back) (f (c.onto s clip back))

def MaskedAt (f : Canvas → Canvas) (c : Canvas) : Prop := ∃ pos, MaskedTo pos f c

def Masked (f : Canvas → Canvas) : Prop := ∀ c, MaskedAt f c

variable {c c' : Canvas} {f f' : Canvas → Canvas} {pos pos' : Point} {g h : Int → Int → Pixel → Pixel}

theorem maps_id (c : Canvas) : Maps c.penPos (fun _ _ v => v) c c :=
  ⟨rfl, .refl _, fun x y => by simp⟩

theorem Maps.clip (hm : Maps pos g c c') : c'.clip = c.clip := by rw [hm.kept]

theorem Maps.trans {c'' : Canvas} (hm : Maps pos g c c') (hm' : Maps pos' h c' c'') :
    Maps pos' (fun x y v => h x y (g x y v)) c c'' where
  kept := by rw [hm'.kept, hm.kept]
  shape := hm.shape.trans hm'.shape
  get? x y := by
    rw [hm'.get?, hm.get?, hm.clip, Option.map_map]
    congr 1
    funext v
    by_cases hclip : c.clip.contains x y = true <;> simp [hclip]

/-- Outside the clip the map does not matter. -/
theorem Maps.congr (hm : Maps pos g c c')
    (hgh : ∀ x y v, c.clip.contains x y = true → g x y v = h x y v) : Maps pos h c c' where
  kept := hm.kept
  shape := hm.shape
  get? x y := by
    rw [hm.get?]
    congr 1
    funext v
    by_cases hclip : c.clip.contains x y = true
    · simp [hclip, hgh x y v hclip]
    · simp [hclip]

theorem MaskedTo.congr (hf : MaskedTo pos f c) (hff' : ∀ s clip back, c.surface.SameShape s →
    f' (c.onto s clip back) = f (c.onto s clip back)) : MaskedTo pos f' c := by
  obtain ⟨g, hg⟩ := hf
  refine ⟨g, fun s clip back hs hclip => ?_⟩
  rw [hff' s clip back hs]
  exact hg s clip back hs hclip

theorem MaskedAt.congr (hf : MaskedAt f c) (hff' : ∀ s clip back, c.surface.SameShape s →
    f' (c.onto s clip back) = f (c.onto s clip back)) : MaskedAt f' c := by
  obtain ⟨pos, hf⟩ := hf
  exact ⟨pos, hf.congr hff'⟩

theorem masked_id : Masked fun c => c := fun c =>
  ⟨c.penPos, fun _ _ v => v, fun s clip back _ _ => maps_id (c.onto s clip back)⟩

theorem MaskedTo.trans (hf : MaskedTo pos f c) (hf' : MaskedTo pos' f' { c with penPos := pos }) :
    MaskedTo pos' (fun c => f' (f c)) c := by
  obtain ⟨g, hg⟩ := hf
  obtain ⟨h, hh⟩ := hf'
  refine ⟨fun x y v => h x y (g x y v), fun s clip back hs hclip => ?_⟩
  have hm := hg s clip back hs hclip
  have hm' := hh (f (c.onto s clip back)).surface clip back (hs.trans hm.shape) hclip
  have honto : Canvas.onto { c with penPos := pos } (f (c.onto s clip back)).surface clip back =
      f (c.onto s clip back) := hm.kept.symm
  rw [honto] at hm'
  exact hm.trans hm'

theorem MaskedTo.comp (hf : MaskedTo pos f c) (hf' : MaskedAt f' { c with penPos := pos }) :
    MaskedAt (fun c => f' (f c)) c := by
  obtain ⟨pos', hf'⟩ := hf'
  exact ⟨pos', hf.trans hf'⟩

theorem Masked.comp (hf : Masked f) (hf' : Masked f') : Masked fun c => f' (f c) := by
  intro c
  obtain ⟨pos, hf⟩ := hf c
  exact hf.comp (hf' { c with penPos := pos })

theorem Masked.foldl {α : Type} {f : Canvas → α → Canvas} (hf : ∀ a, Masked fun c => f c a)
    (as : List α) : Masked fun c => as.foldl f c := by
  induction as with
  | nil => exact masked_id
  | cons a as ih => exact (hf a).comp ih

theorem Masked.ite (P : Prop) [Decidable P] (hf : Masked f) (hf' : Masked f') :
    Masked fun c => if P then f c else f' c := by
  by_cases hP : P
  · simpa [hP] using hf
  · simpa [hP] using hf'

theorem maskedTo_moveTo (x y : Int) (c : Canvas) : MaskedTo ⟨x, y⟩ (fun c => c.moveTo x y) c :=
  ⟨fun _ _ v => v, fun _ _ _ _ _ => ⟨rfl, .refl _, fun _ _ => by simp [moveTo]⟩⟩

theorem masked_moveTo (x y : Int) : Masked fun c => c.moveTo x y := fun c => ⟨_, maskedTo_moveTo x y c⟩

/-! ## One canvas -/

/-- On each canvas with its clip the call maps the pixels, whatever else the buffers hold. -/
def Mapped (f : Canvas → Canvas) : Prop := ∀ c : Canvas, c.clip.Banded →
  ∃ pos g, ∀ back, Maps pos g { c with scratch := back } (f { c with scratch := back })

theorem Masked.mapped (hf : Masked f) : Mapped f := by
  intro c hclip
  obtain ⟨pos, g, hg⟩ := hf c
  exact ⟨pos, g, fun back => hg c.surface c.clip back (.refl _) hclip⟩

theorem Mapped.maps (hf : Mapped f) (hclip : c.clip.Banded) : ∃ pos g, Maps pos g c (f c) := by
  obtain ⟨pos, g, hg⟩ := hf c hclip
  exact ⟨pos, g, hg c.scratch⟩

/-- The buffers are not looked at. -/
theorem Mapped.scratch (hf : Mapped f) (hclip : c.clip.Banded) (back : Scratch) :
    f { c with scratch := back } = { f c with scratch := back } := by
  obtain ⟨pos, g, hg⟩ := hf c hclip
  have hmaps : Maps pos g c (f c) := hg c.scratch
  have hmaps' := hg back
  have hsurface : (f { c with scratch := back }).surface = (f c).surface :=
    Surface.eq_of_get? (hmaps.shape.symm.trans hmaps'.shape) fun x y => by rw [hmaps'.get?, hmaps.get?]
  rw [hmaps'.kept, hsurface, hmaps.kept]

theorem Mapped.comp (hf : Mapped f) (hf' : Mapped f') : Mapped fun c => f' (f c) := by
  intro c hclip
  obtain ⟨pos, g, hg⟩ := hf c hclip
  have hm : Maps pos g c (f c) := hg c.scratch
  obtain ⟨pos', h, hh⟩ := hf' (f c) (hm.clip ▸ hclip)
  refine ⟨pos', fun x y v => h x y (g x y v), fun back => ?_⟩
  have hm' := hh back
  rw [← hf.scratch hclip back] at hm'
  exact (hg back).trans hm'

theorem Mapped.foldl {α : Type} {f : Canvas → α → Canvas} (hf : ∀ a, Mapped fun c => f c a)
    (as : List α) : Mapped fun c => as.foldl f c := by
  induction as with
  | nil => exact masked_id.mapped
  | cons a as ih => exact (hf a).comp ih

theorem Mapped.ite (P : Canvas → Prop) [DecidablePred P] (hP : ∀ (c : Canvas) back, P { c with scratch := back } ↔ P c)
    (hf : Mapped f) (hf' : Mapped f') : Mapped fun c => if P c then f c else f' c := by
  intro c hclip
  by_cases h : P c
  · simpa only [hP, h, if_true] using hf c hclip
  · simpa only [hP, h, if_false] using hf' c hclip

/-! ## Painting -/

theorem visible_of_get? {s : Surface} {clip : Region} {rc : Rect} {x y : Int} {v : Pixel} (hv : s.get? x y = some v) :
    Painter.visible s clip rc x y = (rc.normalized.contains x y && clip.contains x y) := by
  rw [Painter.visible, Surface.inside_of_get? hv, Bool.and_true]

variable {rc : Rect} {rop : RasterOp} {draw : Painter → Painter} {p : Painter}

theorem paint_of_none (hopen : Painter.open? c.surface c.clip rc = none) : c.paint rc rop draw = c := by
  rw [paint, hopen]

theorem maps_paint_of_open (hclip : c.clip.Banded) (hopen : Painter.open? c.surface c.clip rc = some p)
    (hdraw : Painter.Maps g (p.withRop rop) (draw (p.withRop rop))) :
    Maps c.penPos (fun x y v => if rc.normalized.contains x y then g x y v else v) c
      (c.paint rc rop draw) := by
  have hopened := Painter.opened_of_some hclip hopen
  have hsurface : (p.withRop rop).surface = c.surface := hopened.surface
  have hpaint : c.paint rc rop draw = { c with surface := (draw (p.withRop rop)).surface } := by
    rw [paint, hopen]
  rw [hpaint]
  refine ⟨rfl, ?_, fun x y => ?_⟩
  · rw [← hsurface]
    exact Painter.sameShape_of_frame hdraw.frame
  · have hreaches : (p.withRop rop).frame.reaches x y = Painter.visible c.surface c.clip rc x y :=
      hopened.reaches x y
    change (draw (p.withRop rop)).surface.get? x y = _
    rw [hdraw.get?, hreaches, hsurface]
    cases hv : c.surface.get? x y with
    | none => rfl
    | some v =>
      rw [visible_of_get? hv]
      cases hrc : rc.normalized.contains x y <;> cases hc : c.clip.contains x y <;> simp

theorem maps_paint (hclip : c.clip.Banded) (rc : Rect) (hdraw : ∀ p : Painter, p.surface = c.surface →
      p.frame.Sound → p.tool = ⟨0, rop, 1⟩ → Painter.Maps g p (draw p)) :
    Maps c.penPos (fun x y v => if rc.normalized.contains x y then g x y v else v) c
      (c.paint rc rop draw) := by
  cases hopen : Painter.open? c.surface c.clip rc with
  | none =>
    rw [paint_of_none hopen]
    refine ⟨rfl, .refl _, fun x y => ?_⟩
    cases hv : c.surface.get? x y with
    | none => rfl
    | some v =>
      have := Painter.visible_of_none hclip hopen x y
      rw [visible_of_get? hv] at this
      cases hrc : rc.normalized.contains x y <;> simp_all
  | some p =>
    have hopened := Painter.opened_of_some hclip hopen
    exact maps_paint_of_open hclip hopen
      (hdraw (p.withRop rop) hopened.surface hopened.sound (hopened.tool_withRop rop))

/-- Whatever the drawing depends on, it is done with one painter. -/
theorem exists_maps_paint (hclip : c.clip.Banded) (rc : Rect) (rop : RasterOp)
    (hdraw : ∀ p : Painter, p.frame.Sound → ∃ g, Painter.Maps g p (draw p)) :
    ∃ g, ∀ back, Maps c.penPos g { c with scratch := back } (paint { c with scratch := back } rc rop draw) := by
  cases hopen : Painter.open? c.surface c.clip rc with
  | none =>
    refine ⟨fun _ _ v => v, fun back => ?_⟩
    rw [paint_of_none (c := { c with scratch := back }) hopen]
    exact maps_id { c with scratch := back }
  | some p =>
    obtain ⟨g, hg⟩ := hdraw (p.withRop rop) (Painter.opened_of_some hclip hopen).sound
    exact ⟨_, fun back => maps_paint_of_open (c := { c with scratch := back }) hclip hopen hg⟩

theorem maskedTo_paint (hdraw : Painter.Masked draw) (rc : Rect) (rop : RasterOp) :
    MaskedTo c.penPos (fun c => c.paint rc rop draw) c := by
  obtain ⟨g, _, hg⟩ := hdraw ⟨0, rop, 1⟩ c.surface.format
  refine ⟨fun x y v => if rc.normalized.contains x y then g x y v else v, ?_⟩
  intro s clip back hs hclip
  refine maps_paint (c := c.onto s clip back) hclip rc fun p hsurface hp htool => ?_
  exact (hg p hp htool ((congrArg Surface.format hsurface).trans hs.format)).1

theorem maskedAt_paint (hdraw : Painter.Masked draw) (rc : Rect) (rop : RasterOp) :
    MaskedAt (fun c => c.paint rc rop draw) c := ⟨_, maskedTo_paint hdraw rc rop⟩

theorem masked_paintSpans (spans : RowSpans) (color : Pixel) :
    Masked fun c => c.paintSpans spans color := by
  intro c
  simp only [paintSpans]
  cases spans.bound? with
  | none => exact masked_id c
  | some rc =>
    have hdraw := Painter.Masked.foldl
      (fun r : Run => Painter.masked_spanOf r.x1 r.x2 r.y color) spans.toList
    exact (maskedAt_paint hdraw rc c.rop).congr fun _ _ _ _ => rfl

theorem masked_brushSpans (spans : RowSpans) : Masked fun c => c.brushSpans spans := by
  intro c
  simp only [brushSpans]
  cases spans.bound? with
  | none => exact masked_id c
  | some rc =>
    have hdraw := Painter.Masked.foldl (fun r : Run =>
      Painter.masked_brushRow r.x1 r.x2 r.y c.screenBrush c.text.background) spans.toList
    exact (maskedAt_paint hdraw rc c.rop).congr fun _ _ _ _ => rfl

end Rasterizer.Canvas
