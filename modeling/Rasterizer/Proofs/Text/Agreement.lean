import Rasterizer.Proofs.Text.Ink

/-! # One text under two clips

A text is drawn on one picture under a clip and under a larger one. The pages agree at first where
the clips agree, and each glyph of the subpixel weight takes from that what lies within the reach of
its filter; other glyphs take nothing (`TextPage.alike_drawText`). -/

namespace Rasterizer

open Painter (Twins Confined)

/-- How far a picture looks around each pixel of its ink. -/
def GlyphImage.sight (slant : Slant) : GlyphImage → Nat
  | .bits _ .subpixel _ => SubpixelWeight.sight slant
  | _ => 0

namespace TextPage

variable {st : TextStyle} {g : Glyph} {A B : Int → Int → Prop} {p q : Painter}

theorem twins_drawImage (st : TextStyle) (h : Twins A p q) (hB : Surface.AgreeOn B p.surface q.surface)
    (ink : InkBox) {image : GlyphImage} {back back' : Scratch} (hroom : image.HasRoom back)
    (hroom' : image.HasRoom back') : Twins (fun x y => A x y ∧ inner (image.sight ink.slant) B x y)
      (st.drawImage p back ink image).1 (st.drawImage q back' ink image).1 := by
  have hmasked {f : Painter → Painter} (hf : Painter.Masked f) : Twins (fun x y => A x y ∧
      inner (image.sight ink.slant) B x y) (f p) (f q) :=
    (hf.twins h).mono fun x y hxy => hxy.1
  cases image with
  | bits b weight scale =>
    cases weight with
    | regular => exact hmasked (Painter.masked_markAll _)
    | book =>
      simp only [TextStyle.drawImage]
      cases st.ramps.book with
      | none => exact hmasked Painter.masked_id
      | some ramp => exact hmasked (Painter.masked_markAll _)
    | light => exact hmasked (Painter.masked_markAll _)
    | subpixel =>
      simp only [TextStyle.drawImage, h.shape.format]
      exact SubpixelWeight.twins_draw b _ _ _ _ h hB hroom hroom'
  | grey c scale => exact hmasked (Painter.masked_markAll _)
  | channels c =>
    simp only [TextStyle.drawImage, h.shape.format]
    exact hmasked (Painter.masked_drawChannels c _ _)
  | colors px =>
    simp only [TextStyle.drawImage, h.shape.format]
    generalize px.marks p.surface.format ink.origin = ms
    exact hmasked (Painter.masked_markAll ms)

/-! ## One glyph -/

/-- How far the filter looks that a glyph is drawn with, if any. -/
def reach (st : TextStyle) (g : Glyph) : Nat :=
  let s := st.font.sourceOf g
  if g = Glyph.invalid ∨ s.kind ≠ .mono ∨ st.inkWeight ≠ .subpixel then 0
  else if leanWidth st.font s = 0 then 1
  else 2

theorem sight_le_reach (hg : g ≠ Glyph.invalid) {x y : Int} {image : GlyphImage}
    (h : st.image? g (plan st g x y).ink = .ok (some image)) :
    image.sight (plan st g x y).ink.slant ≤ reach st g := by
  cases TextStyle.pictured_of_image? h with
  | bits data hkind hrows =>
    cases hweight : st.inkWeight with
    | subpixel => simp [GlyphImage.sight, SubpixelWeight.sight, reach, hg, hkind, hweight, plan]
    | _ => exact Nat.zero_le _
  | _ => exact Nat.zero_le _

/-- Ink that only the larger clip shows stays outside of the smaller one. -/
theorem twins_skipped {pl : GlyphPlan} {image : GlyphImage} (h : Twins A p q)
    (hskip : (pl.rc.intersect? p.window).isSome = false) (hstays : InkStays st g pl)
    (himage : st.image? g pl.ink = .ok (some image)) (back : Scratch) :
    Twins A p (st.drawImage q back pl.ink image).1 := by
  have hconfined := Painter.confined_drawImage st h.sound' back pl.ink image
  refine ⟨h.sound, hconfined.frame ▸ h.sound', ?_, ?_, fun x y hxy => ?_, fun x y hxy => ?_⟩
  · rw [Painter.tool_drawImage st h.sound', h.tool]
  · exact h.shape.trans (Painter.sameShape_of_frame hconfined.frame)
  · rw [hconfined.frame, h.reaches x y hxy]
  · rw [← h.agree x y hxy]
    by_cases hrc : pl.rc.contains x y = true
    · refine hconfined.get? x y ?_
      rw [h.reaches x y hxy]
      by_contra hreach
      have hwindow := (Painter.Frame.reaches_iff.mp (by simpa using hreach)).1
      have hmeet := pl.rc.contains_intersect? p.window x y
      rw [hrc, Bool.true_and] at hmeet
      rw [Option.isSome_eq_false_iff, Option.isNone_iff_eq_none] at hskip
      rw [hskip, Option.any_none] at hmeet
      exact absurd (hmeet.trans hwindow) Bool.false_ne_true
    · exact hstays image himage q h.sound' back x y (by simpa using hrc)

/-- The larger clip shows ink wherever the other one does. -/
theorem isSome_intersect?_mono {rc a b : Rect}
    (hab : ∀ x y, a.contains x y = true → b.contains x y = true) (h : (rc.intersect? a).isSome = true) :
    (rc.intersect? b).isSome = true := by
  obtain ⟨w, hw⟩ := Option.isSome_iff_exists.mp h
  have hne := Rect.isEmpty_eq_false_iff.mp (Rect.isEmpty_of_intersect? hw)
  have hmeet := rc.contains_intersect? a w.left w.top
  rw [hw, Option.any_some, Rect.contains_iff.mpr (by omega), eq_comm, Bool.and_eq_true] at hmeet
  obtain ⟨w', hw', -⟩ := Rect.intersect?_of_contains hmeet.1 (hab _ _ hmeet.2)
  exact Option.isSome_iff_exists.mpr ⟨w', hw'⟩

theorem twins_drawInk {pl : GlyphPlan} {d : Nat} (h : Twins A p q)
    (hB : Surface.AgreeOn B p.surface q.surface)
    (hwindow : ∀ x y, p.window.contains x y = true → q.window.contains x y = true)
    (hstays : InkStays st g pl)
    (hsight : ∀ image, st.image? g pl.ink = .ok (some image) → image.sight pl.ink.slant ≤ d)
    (back back' : Scratch) (hok : (drawInk st g pl.rc pl.ink q back').2 = .ok ()) :
    (drawInk st g pl.rc pl.ink p back).2 = .ok () ∧
      Twins (fun x y => A x y ∧ inner d B x y) (drawInk st g pl.rc pl.ink p back).1.1
        (drawInk st g pl.rc pl.ink q back').1.1 := by
  have hblank : Twins (fun x y => A x y ∧ inner d B x y) p q := h.mono fun x y hxy => hxy.1
  obtain ⟨loaded, hroom, hdraw⟩ := exists_drawInk_eq st g pl.rc pl.ink p back
  obtain ⟨loaded', hroom', hdraw'⟩ := exists_drawInk_eq st g pl.rc pl.ink q back'
  rw [hdraw'] at hok ⊢
  rw [hdraw]
  cases hp : (pl.rc.intersect? p.window).isSome with
  | true =>
    have hq := isSome_intersect?_mono hwindow hp
    simp only [hq, if_true] at hok ⊢
    rcases himage : st.image? g pl.ink with e | (_ | image)
    · rw [himage] at hok
      cases hok
    · exact ⟨rfl, hblank⟩
    · have htwins := twins_drawImage st h hB pl.ink (hroom image himage) (hroom' image himage)
      exact ⟨rfl, htwins.mono fun x y hxy => ⟨hxy.1, inner_mono (hsight image himage) hxy.2⟩⟩
  | false =>
    cases hq : (pl.rc.intersect? q.window).isSome with
    | true =>
      simp only [hq, if_true, Bool.false_eq_true, if_false] at hok ⊢
      rcases himage : st.image? g pl.ink with e | (_ | image)
      · rw [himage] at hok
        cases hok
      · exact ⟨trivial, hblank⟩
      · exact ⟨trivial, twins_skipped hblank hp hstays himage loaded'⟩
    | false =>
      simp only [Bool.false_eq_true, if_false]
      exact ⟨trivial, hblank⟩

theorem twins_drawPlanned {pl : GlyphPlan} {d : Nat} (h : Twins A p q)
    (hB : Surface.AgreeOn B p.surface q.surface)
    (hground : st.transparent = false → ∀ x y, B x y → A x y)
    (hwindow : ∀ x y, p.window.contains x y = true → q.window.contains x y = true)
    (hstays : InkStays st g pl)
    (hsight : ∀ image, st.image? g pl.ink = .ok (some image) → image.sight pl.ink.slant ≤ d)
    (back back' : Scratch) {a : Advance} (hok : (drawPlanned st g pl q back').2 = .ok a) :
    (drawPlanned st g pl p back).2 = .ok a ∧
      Twins (fun x y => A x y ∧ inner d B x y) (drawPlanned st g pl p back).1.1
        (drawPlanned st g pl q back').1.1 := by
  have hfilled := (masked_drawGround st pl.area).twins h
  have hB' : Surface.AgreeOn B (drawGround st pl.area p).surface (drawGround st pl.area q).surface := by
    cases htransparent : st.transparent with
    | true => simpa only [drawGround, htransparent] using hB
    | false => exact fun x y hxy => hfilled.agree x y (hground htransparent x y hxy)
  have hwindow' : ∀ x y, (drawGround st pl.area p).window.contains x y = true →
      (drawGround st pl.area q).window.contains x y = true := by
    have hp := congrArg Painter.Frame.window ((masked_drawGround st pl.area).confined h.sound).frame
    have hq := congrArg Painter.Frame.window ((masked_drawGround st pl.area).confined h.sound').frame
    simp only [Painter.frame] at hp hq
    rw [hp, hq]
    exact hwindow
  have hink := twins_drawInk hfilled hB' hwindow' hstays hsight back back'
  rw [drawPlanned] at hok ⊢
  rw [drawPlanned]
  rcases hq : drawInk st g pl.rc pl.ink (drawGround st pl.area q) back' with ⟨⟨q', b'⟩, e | _⟩
  · rw [hq] at hok
    cases hok
  · rw [hq] at hok hink
    obtain ⟨hokp, htwins⟩ := hink rfl
    rcases hp : drawInk st g pl.rc pl.ink (drawGround st pl.area p) back with ⟨⟨p', b⟩, result⟩
    rw [hp] at hokp htwins
    cases hokp
    cases hok
    exact ⟨rfl, (masked_drawLines st pl.lines).twins htwins⟩

theorem advance_drawPlanned {pl : GlyphPlan} {back : Scratch} {a : Advance}
    (hok : (drawPlanned st g pl p back).2 = .ok a) : a = pl.advance := by
  rw [drawPlanned] at hok
  rcases hink : drawInk st g pl.rc pl.ink (drawGround st pl.area p) back with ⟨_, e | _⟩
  · rw [hink] at hok
    cases hok
  · rw [hink] at hok
    cases hok
    rfl

/-! ## Pages -/

/-- Two pages of which the second has the larger clip, and which agree on a set of places: on what
they hold there and on whether they may be touched. -/
structure Alike (A : Int → Int → Prop) (page page' : TextPage) : Prop where
  banded : page.clip.Banded
  banded' : page'.clip.Banded
  bound : page'.bound = page.bound
  shape : page.surface.SameShape page'.surface
  inside : ∀ x y, page.clip.contains x y = true → page'.clip.contains x y = true
  clips : ∀ x y, A x y → page'.clip.contains x y = page.clip.contains x y
  agree : Surface.AgreeOn A page.surface page'.surface

variable {page page' : TextPage}

theorem Alike.mono (h : Alike A page page') (hBA : ∀ x y, B x y → A x y) : Alike B page page' :=
  { h with
    clips := fun x y hxy => h.clips x y (hBA x y hxy)
    agree := fun x y hxy => h.agree x y (hBA x y hxy) }

theorem Alike.visible (h : Alike A page page') (rc : Rect) {x y : Int} (hxy : A x y) :
    Painter.visible page'.surface page'.clip rc x y = Painter.visible page.surface page.clip rc x y := by
  rw [Painter.visible, Painter.visible, h.shape.inside, h.clips x y hxy]

theorem Alike.twins (h : Alike A page page') {rc : Rect}
    (hp : Painter.open? page.surface page.clip rc = some p)
    (hq : Painter.open? page'.surface page'.clip rc = some q) : Twins A p q := by
  have hopened := Painter.opened_of_some h.banded hp
  have hopened' := Painter.opened_of_some h.banded' hq
  refine ⟨hopened.sound, hopened'.sound, hopened'.tool.trans hopened.tool.symm, ?_, fun x y hxy => ?_, ?_⟩
  · rw [hopened.surface, hopened'.surface]
    exact h.shape
  · rw [hopened.reaches, hopened'.reaches, h.visible rc hxy]
  · rw [hopened.surface, hopened'.surface]
    exact h.agree

/-- A page that is opened under the larger clip alone changes outside of the smaller one. -/
theorem Alike.skipped (h : Alike A page page') {rc : Rect} {q' : Painter}
    (hp : Painter.open? page.surface page.clip rc = none)
    (hq : Painter.open? page'.surface page'.clip rc = some q) (hqq' : Confined q q') (back : Scratch) :
    Alike A page { page' with surface := q'.surface, scratch := back } := by
  have hopened := Painter.opened_of_some h.banded' hq
  have hframe := Painter.sameShape_of_frame hqq'.frame
  rw [hopened.surface] at hframe
  refine { h with shape := h.shape.trans hframe, agree := fun x y hxy => ?_ }
  rw [← h.agree x y hxy, ← hopened.surface]
  refine hqq'.get? x y ?_
  rw [hopened.reaches, h.visible rc hxy, Painter.visible_of_none h.banded hp]

theorem alike_drawGlyph (h : Alike A page page') (hB : Surface.AgreeOn B page.surface page'.surface)
    (hground : st.transparent = false → ∀ x y, B x y → A x y) (hfits : InkFits st g) {x y : Int}
    {a : Advance} (hok : (page'.drawGlyph st g x y).2 = .ok a) :
    (page.drawGlyph st g x y).2 = .ok a ∧ Alike (fun x y => A x y ∧ inner (reach st g) B x y)
      (page.drawGlyph st g x y).1 (page'.drawGlyph st g x y).1 := by
  have hless : Alike (fun x y => A x y ∧ inner (reach st g) B x y) page page' :=
    h.mono fun x y hxy => hxy.1
  rw [drawGlyph] at hok ⊢
  rw [drawGlyph]
  by_cases hg : g = Glyph.invalid
  · rw [if_pos hg] at hok ⊢
    rw [if_pos hg]
    exact ⟨hok, hless⟩
  rw [if_neg hg] at hok ⊢
  rw [if_neg hg]
  have hstays := hfits x (y + st.lineExtra)
  have hsight : ∀ image, st.image? g (plan st g x (y + st.lineExtra)).ink = .ok (some image) →
      image.sight (plan st g x (y + st.lineExtra)).ink.slant ≤ reach st g :=
    fun image himage => sight_le_reach hg himage
  generalize plan st g x (y + st.lineExtra) = pl at *
  have hbound : pl.window.intersect? page'.bound = pl.window.intersect? page.bound := by rw [h.bound]
  cases hwindow : pl.window.intersect? page.bound with
  | none =>
    simp only [hbound, hwindow, Option.bind_none] at hok ⊢
    exact ⟨hok, hless⟩
  | some rc =>
    simp only [hbound, hwindow, Option.bind_some] at hok ⊢
    cases hp : Painter.open? page.surface page.clip rc with
    | some p =>
      obtain ⟨q, hq, hlarger⟩ := Painter.open?_mono h.banded h.banded' h.shape h.inside hp
      have htwins := h.twins hp hq
      have hBpq : Surface.AgreeOn B p.surface q.surface := by
        rw [(Painter.opened_of_some h.banded hp).surface, (Painter.opened_of_some h.banded' hq).surface]
        exact hB
      simp only [hq] at hok ⊢
      obtain ⟨hokp, hdrawn⟩ :=
        twins_drawPlanned htwins hBpq hground hlarger hstays hsight page.scratch page'.scratch hok
      exact ⟨hokp, { hless with shape := hdrawn.shape, agree := hdrawn.agree }⟩
    | none =>
      cases hq : Painter.open? page'.surface page'.clip rc with
      | none =>
        simp only [hq] at hok ⊢
        exact ⟨hok, hless⟩
      | some q =>
        have hsound := (Painter.opened_of_some h.banded' hq).sound
        simp only [hq] at hok ⊢
        exact ⟨congrArg Except.ok (advance_drawPlanned hok).symm,
          hless.skipped hp hq (confined_drawPlanned st g pl hsound page'.scratch) _⟩

theorem alike_drawFrom_cons {C D : Int → Int → Prop} {gs : List Glyph} {x y : Int} {total a : Advance}
    (hglyph : ∀ {b}, (page'.drawGlyph st g (x + total.dx) (y + total.dy)).2 = .ok b →
      (page.drawGlyph st g (x + total.dx) (y + total.dy)).2 = .ok b ∧
        Alike C (page.drawGlyph st g (x + total.dx) (y + total.dy)).1
          (page'.drawGlyph st g (x + total.dx) (y + total.dy)).1)
    (hrest : ∀ {page page' : TextPage} (total : Advance), Alike C page page' →
      (drawFrom st x y gs total page').2 = .ok a →
        (drawFrom st x y gs total page).2 = .ok a ∧
          Alike D (drawFrom st x y gs total page).1 (drawFrom st x y gs total page').1)
    (hok : (drawFrom st x y (g :: gs) total page').2 = .ok a) :
    (drawFrom st x y (g :: gs) total page).2 = .ok a ∧
      Alike D (drawFrom st x y (g :: gs) total page).1 (drawFrom st x y (g :: gs) total page').1 := by
  rw [drawFrom] at hok ⊢
  rw [drawFrom]
  rcases hq : page'.drawGlyph st g (x + total.dx) (y + total.dy) with ⟨page'₁, e | b⟩
  · rw [hq] at hok
    cases hok
  · rw [hq] at hok hglyph
    obtain ⟨hokp, halike⟩ := hglyph rfl
    rcases hp : page.drawGlyph st g (x + total.dx) (y + total.dy) with ⟨page₁, result⟩
    rw [hp] at hokp halike
    cases hokp
    exact hrest (addAdvance total b) halike hok

theorem alike_drawFrom (h : Alike A page page') {x y : Int} {glyphs : List Glyph}
    (hfits : ∀ g ∈ glyphs, InkFits st g) (total : Advance) {a : Advance}
    (hok : (drawFrom st x y glyphs total page').2 = .ok a) :
    (drawFrom st x y glyphs total page).2 = .ok a ∧
      Alike (inner (glyphs.map (reach st)).sum A) (drawFrom st x y glyphs total page).1
        (drawFrom st x y glyphs total page').1 := by
  induction glyphs generalizing page page' total A with
  | nil => exact ⟨hok, h.mono fun x y => inner_self⟩
  | cons g gs ih =>
    obtain ⟨hg, hgs⟩ := List.forall_mem_cons.mp hfits
    have hrest {page page' : TextPage} (total : Advance)
        (h : Alike (fun x y => A x y ∧ inner (reach st g) A x y) page page')
        (hok : (drawFrom st x y gs total page').2 = .ok a) := ih h hgs total hok
    obtain ⟨hok, halike⟩ := alike_drawFrom_cons (alike_drawGlyph h h.agree (fun _ _ _ hxy => hxy) hg)
      hrest hok
    refine ⟨hok, halike.mono fun x y hxy => ?_⟩
    rw [List.map_cons, List.sum_cons] at hxy
    intro x' y' hx hx' hy hy'
    have hin := inner_inner hxy x' y' hx hx' hy hy'
    exact ⟨inner_self hin, hin⟩

/-- How far the glyphs of a text reach without the first one that is drawn. -/
def laterReach (st : TextStyle) : List Glyph → Nat
  | [] => 0
  | g :: gs => if g = Glyph.invalid then laterReach st gs else (gs.map (reach st)).sum

/-- How far from where two clips differ the pictures of a text may differ. On a background that is
left alone, the first glyph sees what was there before the text. -/
def textReach (st : TextStyle) (glyphs : List Glyph) : Nat :=
  if st.transparent then laterReach st glyphs else (glyphs.map (reach st)).sum

theorem alike_drawFrom_transparent (htransparent : st.transparent = true) (h : Alike A page page')
    (hsame : page'.surface = page.surface) {x y : Int} {glyphs : List Glyph}
    (hfits : ∀ g ∈ glyphs, InkFits st g) (total : Advance) {a : Advance}
    (hok : (drawFrom st x y glyphs total page').2 = .ok a) :
    (drawFrom st x y glyphs total page).2 = .ok a ∧
      Alike (inner (laterReach st glyphs) A) (drawFrom st x y glyphs total page).1
        (drawFrom st x y glyphs total page').1 := by
  induction glyphs generalizing total with
  | nil => exact ⟨hok, h.mono fun x y => inner_self⟩
  | cons g gs ih =>
    obtain ⟨hg, hgs⟩ := List.forall_mem_cons.mp hfits
    by_cases hinvalid : g = Glyph.invalid
    · have hskip (page : TextPage) : drawFrom st x y (g :: gs) total page =
          drawFrom st x y gs (addAdvance total {}) page := by
        rw [drawFrom, drawGlyph, if_pos hinvalid]
      rw [hskip] at hok ⊢
      rw [hskip, laterReach, if_pos hinvalid]
      exact ih hgs _ hok
    · have hglyph {b : Advance}
          (hok : (page'.drawGlyph st g (x + total.dx) (y + total.dy)).2 = .ok b) :=
        alike_drawGlyph (B := fun _ _ => True) h (fun _ _ _ => by rw [hsame])
          (fun hfilled => by rw [htransparent] at hfilled; cases hfilled) hg hok
      rw [laterReach, if_neg hinvalid]
      exact alike_drawFrom_cons hglyph (fun total h hok => alike_drawFrom
        (h.mono fun x y hxy => ⟨hxy, fun _ _ _ _ _ _ => trivial⟩) hgs total hok) hok

/-- Drawn under two clips of which the second is the larger one, a text ends on both pages if it
ends on the second, and the pages agree where they did, up to the reach of the text. -/
theorem alike_drawText (h : Alike A page page') (hsame : page'.surface = page.surface) {x y : Int}
    {glyphs : List Glyph} (hfits : ∀ g ∈ glyphs, InkFits st g) {a : Advance}
    (hok : (page'.drawText st glyphs x y).2 = .ok a) :
    (page.drawText st glyphs x y).2 = .ok a ∧
      Alike (inner (textReach st glyphs) A) (page.drawText st glyphs x y).1
        (page'.drawText st glyphs x y).1 := by
  rw [textReach]
  cases htransparent : st.transparent with
  | true => exact alike_drawFrom_transparent htransparent h hsame hfits {} hok
  | false => exact alike_drawFrom h hfits {} hok

end TextPage

end Rasterizer
