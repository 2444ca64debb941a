import Rasterizer.Proofs.Text.Subpixel

/-! # Drawing seen from one pixel

A painter that replaces what pixels hold turns the value of each one by a function that is known from
the drawing alone (`Painter.Turns`). Drawings one after another turn it one after another
(`Painter.Turns.foldl`), and so marks do (`Painter.turns_markAll`); where only one of them touches the
pixel, that one settles what it holds (`foldl_of_one`). -/

namespace Rasterizer

/-! ## Steps of which one counts -/

section Steps

variable {α β : Type} {as : List α} {e : α → β → β} {a : α}

theorem foldl_of_none (h : ∀ a ∈ as, ∀ v, e a v = v) (v : β) : as.foldl (fun v a => e a v) v = v := by
  induction as generalizing v with
  | nil => rfl
  | cons a as ih =>
    obtain ⟨ha, has⟩ := List.forall_mem_cons.mp h
    rw [List.foldl_cons, ha, ih has]

theorem foldl_of_one (hnodup : as.Nodup) (ha : a ∈ as) (h : ∀ b ∈ as, b ≠ a → ∀ v, e b v = v) (v : β) :
    as.foldl (fun v a => e a v) v = e a v := by
  induction as generalizing v with
  | nil => cases ha
  | cons b as ih =>
    obtain ⟨hb, has⟩ := List.forall_mem_cons.mp h
    obtain ⟨hnot, hnodup⟩ := List.nodup_cons.mp hnodup
    rw [List.foldl_cons]
    rcases List.mem_cons.mp ha with rfl | ha
    · exact foldl_of_none (fun c hc => has c hc fun h => hnot (h ▸ hc)) _
    · rw [hb fun h => hnot (h ▸ ha), ih hnodup ha has]

end Steps

theorem nodup_irange (a b : Int) : (irange a b).Nodup :=
  (pairwise_irange a b).imp fun h => Int.ne_of_lt h

/-! ## Painters that replace -/

namespace Painter

/-- The painter replaces what the pixel holds. -/
structure SetsAt (p : Painter) (x y : Int) : Prop where
  sound : p.frame.Sound
  rop : p.rop = .set
  reaches : p.frame.reaches x y = true

/-- In a format, drawing turns what a pixel holds into `e` of it, whatever else the surface holds. -/
def Turns (f : PixelFormat) (x y : Int) (draw : Painter → Painter) (e : Pixel → Pixel) : Prop :=
  ∀ p : Painter, p.SetsAt x y → p.surface.format = f → (draw p).frame = p.frame ∧
    (draw p).tool = p.tool ∧ ∀ v, p.surface.get? x y = some v → (draw p).surface.get? x y = some (e v)

variable {f : PixelFormat} {x y : Int} {draw : Painter → Painter} {e : Pixel → Pixel}

theorem SetsAt.congr {p q : Painter} (h : p.SetsAt x y) (hframe : q.frame = p.frame)
    (htool : q.tool = p.tool) : q.SetsAt x y :=
  ⟨hframe ▸ h.sound, (congrArg Tool.rop htool).trans h.rop, hframe ▸ h.reaches⟩

/-- A layer turns the pixel by what it has for it. -/
theorem turns_of_draws {L : PixelFormat → Layer}
    (hdraws : ∀ p : Painter, p.frame.Sound → Draws (L p.surface.format) p (draw p))
    (he : ∀ v, f.kept v = v → (L f).on .set f x y v = e v) : Turns f x y draw e := by
  rintro p hp rfl
  have h := hdraws p hp.sound
  refine ⟨h.frame, h.tool, fun v hv => ?_⟩
  rw [h.get?, hv, Option.map_some, if_pos hp.reaches, hp.rop, he v (Surface.kept_of_get? hv)]

/-- A layer of one pixel turns that pixel and leaves the others alone. -/
theorem turns_of_dot {x' y' : Int} {g : PixelFormat → Pixel → Option Pixel}
    (hdraws : ∀ p : Painter, p.frame.Sound → Draws (.dot x' y' (g p.surface.format)) p (draw p))
    (hin : x = x' ∧ y = y' → ∀ v, f.kept v = v →
      (match g f v with | some c => f.kept c | none => v) = e v)
    (hout : ¬(x = x' ∧ y = y') → ∀ v, e v = v) : Turns f x y draw e := by
  refine turns_of_draws (L := fun f => .dot x' y' (g f)) hdraws fun v hv => ?_
  by_cases h : x = x' ∧ y = y'
  · rw [← hin h v hv, Layer.on, Layer.dot, if_pos h]
    rfl
  · rw [hout h, Layer.on, Layer.dot, if_neg h]

theorem turns_id (f : PixelFormat) (x y : Int) : Turns f x y (fun p => p) (fun v => v) :=
  fun _ _ _ => ⟨rfl, rfl, fun _ h => h⟩

theorem Turns.congr {e' : Pixel → Pixel} (h : Turns f x y draw e) (he : ∀ v, e v = e' v) :
    Turns f x y draw e' := funext he ▸ h

theorem Turns.foldl {α : Type} {step : Painter → α → Painter} {e : α → Pixel → Pixel} {as : List α}
    (h : ∀ a ∈ as, Turns f x y (fun p => step p a) (e a)) :
    Turns f x y (fun p => as.foldl step p) (fun v => as.foldl (fun v a => e a v) v) := by
  induction as with
  | nil => exact turns_id f x y
  | cons a as ih =>
    obtain ⟨ha, has⟩ := List.forall_mem_cons.mp h
    rintro p hp rfl
    obtain ⟨hframe, htool, hget⟩ := ha p hp rfl
    obtain ⟨hframe', htool', hget'⟩ :=
      ih has (step p a) (hp.congr hframe htool) (sameShape_of_frame hframe).format
    exact ⟨hframe'.trans hframe, htool'.trans htool, fun v hv => hget' _ (hget v hv)⟩

end Painter

/-! ## Marks -/

namespace Mark

instance decidableTouches : ∀ (m : Mark) (x y : Int), Decidable (m.Touches x y)
  | .span .., _, _ => inferInstanceAs (Decidable (_ ∧ _ ∧ _))
  | .pixel .., _, _ => inferInstanceAs (Decidable (_ ∧ _))
  | .blend .., _, _ => inferInstanceAs (Decidable (_ ∧ _))

/-- What a colour laid over a pixel leaves of it. -/
def laid (f : PixelFormat) (c : Color) (v : Pixel) : Pixel :=
  if c.a = 0 then v else f.kept (f.overlaid c v)

/-- What a mark leaves on a pixel that it touches. -/
def value (f : PixelFormat) : Mark → Pixel → Pixel
  | .span _ _ _ value, _ => f.kept value
  | .pixel _ _ value, _ => f.kept value
  | .blend _ _ c, v => laid f c v

/-- What a mark leaves on a pixel. -/
def on (f : PixelFormat) (x y : Int) (m : Mark) (v : Pixel) : Pixel :=
  if m.Touches x y then m.value f v else v

variable {f : PixelFormat} {x y : Int} {m : Mark} {ms : List Mark}

theorem on_of_touches (h : m.Touches x y) (v : Pixel) : m.on f x y v = m.value f v := if_pos h

theorem on_of_not_touches (h : ¬m.Touches x y) (v : Pixel) : m.on f x y v = v := if_neg h

/-- What marks leave on a pixel one after another. -/
def onAll (f : PixelFormat) (x y : Int) (ms : List Mark) (v : Pixel) : Pixel :=
  ms.foldl (fun v m => m.on f x y v) v

theorem onAll_of_not_touches (h : ∀ m ∈ ms, ¬m.Touches x y) (v : Pixel) : onAll f x y ms v = v :=
  foldl_of_none (fun m hm v => on_of_not_touches (h m hm) v) v

section Lists

variable {α : Type} {as : List α} {a : α}

theorem onAll_flatMap_eq_foldl (f : PixelFormat) (x y : Int) (as : List α) (marks : α → List Mark)
    (v : Pixel) :
    onAll f x y (as.flatMap marks) v = as.foldl (fun v a => onAll f x y (marks a) v) v :=
  List.foldl_flatMap ..

theorem onAll_flatMap {marks : α → List Mark} (hnodup : as.Nodup) (ha : a ∈ as)
    (h : ∀ b ∈ as, b ≠ a → ∀ m ∈ marks b, ¬m.Touches x y) (v : Pixel) :
    onAll f x y (as.flatMap marks) v = onAll f x y (marks a) v := by
  rw [onAll_flatMap_eq_foldl]
  exact foldl_of_one (e := fun b => onAll f x y (marks b)) hnodup ha
    (fun b hb hne => onAll_of_not_touches (h b hb hne)) v

theorem onAll_filterMap {mark? : α → Option Mark} (hnodup : as.Nodup) (ha : a ∈ as)
    (h : ∀ b ∈ as, b ≠ a → ∀ m ∈ mark? b, ¬m.Touches x y) (v : Pixel) :
    onAll f x y (as.filterMap mark?) v = onAll f x y (mark? a).toList v := by
  rw [List.filterMap_eq_flatMap_toList]
  exact onAll_flatMap hnodup ha (fun b hb hne m hm => h b hb hne m (Option.mem_toList.mp hm)) v

end Lists

end Mark

namespace Painter

theorem turns_mark (f : PixelFormat) (x y : Int) (m : Mark) :
    Turns f x y (fun p => p.mark m) (m.on f x y) := by
  cases m with
  | span x1 x2 y' value =>
    refine turns_of_draws (L := fun _ => .row y' (stretch x1 x2 fun _ => some value))
      (fun p hp => draws_spanOf hp x1 x2 y' value) fun v _ => ?_
    by_cases h : (Mark.span x1 x2 y' value).Touches x y
    · rw [Mark.on_of_touches h, Layer.on, Layer.row, if_pos h.1, stretch, if_pos h.2]
      rfl
    · rw [Mark.on_of_not_touches h, Layer.on, Layer.row]
      by_cases hy : y = y'
      · rw [if_pos hy, stretch, if_neg fun hx => h ⟨hy, hx⟩]
      · rw [if_neg hy]
  | pixel x' y' value =>
    exact turns_of_dot (g := fun _ _ => some value) (fun p hp => draws_pixelOf hp x' y' value)
      (fun h v _ => (Mark.on_of_touches (m := .pixel x' y' value) h v).symm)
      fun h => Mark.on_of_not_touches (m := .pixel x' y' value) h
  | blend x' y' c =>
    refine turns_of_dot (g := fun f v => if c.a = 0 then none else some (f.overlaid c v))
      (fun p hp => draws_blend hp x' y' c) (fun h v _ => ?_)
      fun h => Mark.on_of_not_touches (m := .blend x' y' c) h
    rw [Mark.on_of_touches (m := .blend x' y' c) h, Mark.value, Mark.laid]
    by_cases ha : c.a = 0
    · simp only [if_pos ha]
    · simp only [if_neg ha]

theorem turns_markAll (f : PixelFormat) (x y : Int) (ms : List Mark) :
    Turns f x y (fun p => p.markAll ms) (Mark.onAll f x y ms) :=
  .foldl fun m _ => turns_mark f x y m

end Painter

end Rasterizer
