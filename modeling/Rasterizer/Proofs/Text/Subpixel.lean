import Rasterizer.Proofs.Painter.Twins
import Rasterizer.Proofs.Text.Confined

/-! # The subpixel weight as marks

The filter reads the surface while it draws on it, but a row at a time and always one that it has
not drawn on; so its marks are those that the surface has before the glyph
(`SubpixelWeight.draw_eq_markAll`). What a mark holds depends on the pixels near it alone
(`SubpixelWeight.inkAt?_congr`). -/

namespace Rasterizer

namespace Scratch

variable {row source : Array Color} {n : Nat}

@[simp] theorem size_overwrite (row : Array Color) (n : Nat) (color : Nat → Color) :
    (overwrite row n color).size = row.size := by
  unfold overwrite
  induction n with
  | zero => rfl
  | succ n ih => rw [List.range_succ, List.foldl_append, List.foldl_cons, List.foldl_nil,
      Array.size_setIfInBounds, ih]

@[simp] theorem size_readRow (s : Surface) (n : Nat) (x y : Int) (outside : Color) (row : Array Color) :
    (readRow s n x y outside row).size = row.size := size_overwrite ..

@[simp] theorem size_copyRow (n : Nat) (source row : Array Color) : (copyRow n source row).size = row.size :=
  size_overwrite ..

theorem getElem?_overwrite (row : Array Color) (n : Nat) (color : Nat → Color) {i : Nat}
    (hi : i < row.size) : (overwrite row n color)[i]? = if i < n then some (color i) else row[i]? := by
  induction n with
  | zero => rfl
  | succ n ih =>
    have hsize := size_overwrite row n color
    unfold overwrite at ih hsize ⊢
    rw [List.range_succ, List.foldl_append, List.foldl_cons, List.foldl_nil,
      Array.getElem?_setIfInBounds, ih, hsize]
    by_cases hni : n = i
    · simp [hni, hi]
    · have : i < n + 1 ↔ i < n := by omega
      simp [hni, this]

theorem take_overwrite (h : n ≤ row.size) (color : Nat → Color) :
    (overwrite row n color).take n = Array.ofFn fun i : Fin n => color i := by
  refine Array.ext_getElem? fun i => ?_
  by_cases hi : i < n
  · have hrow : i < min n (overwrite row n color).size - 0 := by
      rw [size_overwrite]
      omega
    rw [Array.take_eq_extract, Array.getElem?_extract, if_pos hrow, Nat.zero_add,
      getElem?_overwrite row n color (by omega), if_pos hi]
    simp [hi]
  · simp [hi]

theorem take_readRow {s t : Surface} (h : n ≤ row.size) (hformat : t.format = s.format) {x y : Int}
    (hst : ∀ x', t.get? x' y = s.get? x' y) (outside : Color) :
    (readRow t n x y outside row).take n =
      Array.ofFn fun i : Fin n => colorAt s outside (x + (i : Nat)) y := by
  rw [readRow, take_overwrite h]
  simp only [colorAt, hst, hformat]

theorem take_copyRow (h : n ≤ row.size) (hsource : n ≤ source.size) :
    (copyRow n source row).take n = source.take n := by
  rw [copyRow, take_overwrite h]
  refine Array.ext_getElem? fun i => ?_
  by_cases hi : i < n
  · simp [hi, Array.getD, show i < source.size by omega]
  · simp [hi]

end Scratch

/-! ## Marks apart from a pixel -/

/-- The mark may change the pixel. -/
def Mark.Touches : Mark → Int → Int → Prop
  | .span x1 x2 y _, x', y' => y' = y ∧ min x1 x2 ≤ x' ∧ x' ≤ max x1 x2
  | .pixel x y _, x', y' => x' = x ∧ y' = y
  | .blend x y _, x', y' => x' = x ∧ y' = y

namespace Painter

theorem markAll_append (p : Painter) (ms ms' : List Mark) :
    p.markAll (ms ++ ms') = (p.markAll ms).markAll ms' := by
  rw [markAll, markAll, markAll, List.foldl_append]

theorem frame_markAll {p : Painter} (hp : p.frame.Sound) (ms : List Mark) :
    (p.markAll ms).frame = p.frame := ((masked_markAll ms).confined hp).frame

theorem get?_mark_of_not_touches {p : Painter} (hp : p.frame.Sound) {m : Mark} {x y : Int}
    (h : ¬m.Touches x y) : (p.mark m).surface.get? x y = p.surface.get? x y := by
  cases m with
  | span x1 x2 y' v =>
    refine (draws_spanOf hp x1 x2 y' v).get?_of_none fun w => ?_
    simp only [Mark.Touches, not_and, not_le] at h
    simp only [Layer.row, stretch]
    split
    next hy => exact if_neg fun hx => by have := h hy hx.1; omega
    next => rfl
  | pixel x' y' v => exact (draws_pixelOf hp x' y' v).get?_of_none fun w => if_neg h
  | blend x' y' c => exact (draws_blend hp x' y' c).get?_of_none fun w => if_neg h

/-- Steps that leave a pixel alone leave it alone one after another. -/
theorem get?_foldl {α : Type} {f : Painter → α → Painter} (hf : ∀ a, Masked fun p => f p a)
    {as : List α} {x y : Int} (hsame : ∀ p : Painter, p.frame.Sound → ∀ a ∈ as,
      (f p a).surface.get? x y = p.surface.get? x y) {p : Painter} (hp : p.frame.Sound) :
    (as.foldl f p).surface.get? x y = p.surface.get? x y := by
  induction as generalizing p with
  | nil => rfl
  | cons a as ih =>
    have hrest := ih (fun p hp b hb => hsame p hp b (List.mem_cons_of_mem a hb))
      (((hf a).confined hp).frame ▸ hp : (f p a).frame.Sound)
    exact hrest.trans (hsame p hp a List.mem_cons_self)

theorem get?_markAll_of_not_touches {p : Painter} (hp : p.frame.Sound) {ms : List Mark} {x y : Int}
    (h : ∀ m ∈ ms, ¬m.Touches x y) : (p.markAll ms).surface.get? x y = p.surface.get? x y :=
  get?_foldl masked_mark (fun _ hq m hm => get?_mark_of_not_touches hq (h m hm)) hp

end Painter

namespace SubpixelWeight

variable (b : BitPicture) (origin : Point) (slant : Slant) (text outside : Color)

/-! ## What the filter sees -/

/-- The colours that the filter has of the row `i`. They are read one row ahead, and so as far to
the side as the row above is drawn. -/
def rowSeen (s : Surface) (i : Int) : Array Color :=
  Array.ofFn fun k : Fin b.w.toNat =>
    Scratch.colorAt s outside (origin.x + slant.shift (max (i - 1) 0) + (k : Nat)) (origin.y + i)

/-- The row beside the row `i` of a picture of height `h`, beyond the edges the row itself. -/
def rowBeside (h i d : Int) : Int :=
  if d < 0 then max (i - 1) 0 else if d = 0 then i else if i = h - 1 then i else i + 1

def seenAround (s : Surface) (i : Int) : Triple (Array Color) :=
  ⟨rowSeen b origin slant outside s (rowBeside b.h i (-1)), rowSeen b origin slant outside s i,
    rowSeen b origin slant outside s (rowBeside b.h i 1)⟩

/-- The marks of a row on a surface that the glyph has not been drawn on. -/
def marksOn (s : Surface) (i : Int) : List Mark :=
  rowMarks s.format b.w (origin.x + slant.shift i) (origin.y + i) (linesAround b i)
    (seenAround b origin slant outside s i) text

/-- The rows kept between glyph rows have room, and hold what has been read of the surface before
the row `i` is drawn. -/
structure Ready (s : Surface) (i : Int) (back : Scratch) : Prop where
  above : b.w.toNat ≤ back.above.size
  here : b.w.toNat ≤ back.here.size
  below : b.w.toNat ≤ back.below.size
  kept : 0 < i → i < b.h → back.here.take b.w.toNat = rowSeen b origin slant outside s (i - 1) ∧
    back.below.take b.w.toNat = rowSeen b origin slant outside s i

variable {b origin slant text outside}

theorem ready_zero (s : Surface) {back : Scratch} (hroom : back.hasRoom b.w.toNat = true) :
    Ready b origin slant outside s 0 back :=
  have hsizes := Scratch.hasRoom_iff.mp hroom
  ⟨hsizes.1, hsizes.2.1, hsizes.2.2, fun h => by omega⟩

/-- A row that has not been drawn on is read as it was. -/
theorem take_readRow (slant : Slant) (outside : Color) {s t : Surface} {i j : Int} {row : Array Color}
    (hrow : b.w.toNat ≤ row.size)
    (hformat : t.format = s.format) (hst : ∀ x, t.get? x (origin.y + i) = s.get? x (origin.y + i))
    (hj : j = max (i - 1) 0) :
    (Scratch.readRow t b.w.toNat (origin.x + slant.shift j) (origin.y + i) outside row).take b.w.toNat =
      rowSeen b origin slant outside s i := by
  rw [Scratch.take_readRow hrow hformat hst, hj]
  rfl

theorem moveOn_spec {s t : Surface} {i : Int} {back : Scratch}
    (hready : Ready b origin slant outside s i back) (hi : 0 ≤ i) (hih : i < b.h)
    (hformat : t.format = s.format) (hst : ∀ x, t.get? x (origin.y + i) = s.get? x (origin.y + i)) :
    let back' := moveOn t b.w.toNat i (origin.x + slant.shift i) (origin.y + i) outside back
    back'.above.take b.w.toNat = rowSeen b origin slant outside s (rowBeside b.h i (-1)) ∧
      back'.here.take b.w.toNat = rowSeen b origin slant outside s i ∧
      b.w.toNat ≤ back'.above.size ∧ b.w.toNat ≤ back'.here.size ∧ b.w.toNat ≤ back'.below.size := by
  have hbeside : rowBeside b.h i (-1) = max (i - 1) 0 := if_pos (by omega)
  by_cases hfirst : i = 0
  · have hread := take_readRow slant outside (j := i) hready.here hformat hst (by omega)
    have hsize : b.w.toNat ≤ (Scratch.readRow t b.w.toNat (origin.x + slant.shift i) (origin.y + i)
        outside back.here).size := by
      rw [Scratch.size_readRow]
      exact hready.here
    simp only [moveOn, if_pos hfirst]
    refine ⟨?_, hread, ?_, hsize, hready.below⟩
    · rw [Scratch.take_copyRow hready.above hsize, hread, hbeside, hfirst]
      rfl
    · rw [Scratch.size_copyRow]
      exact hready.above
  · obtain ⟨hhere, hbelow⟩ := hready.kept (by omega) hih
    simp only [moveOn, if_neg hfirst]
    refine ⟨?_, hbelow, hready.here, hready.below, hready.above⟩
    rw [hhere, hbeside, show max (i - 1) 0 = i - 1 by omega]

theorem readAround_spec {s t : Surface} {i : Int} {back : Scratch}
    (hready : Ready b origin slant outside s i back) (hi : 0 ≤ i) (hih : i < b.h)
    (hformat : t.format = s.format)
    (hst : ∀ x y, origin.y + i ≤ y → t.get? x y = s.get? x y) :
    let back' := readAround t b.w.toNat b.h i (origin.x + slant.shift i) (origin.y + i) outside back
    (⟨back'.above.take b.w.toNat, back'.here.take b.w.toNat, back'.below.take b.w.toNat⟩ : Triple _) =
      seenAround b origin slant outside s i ∧ Ready b origin slant outside s (i + 1) back' := by
  obtain ⟨habove, hhere, hsizes⟩ := moveOn_spec hready hi hih hformat fun x => hst x _ (by omega)
  simp only [readAround, seenAround]
  generalize moveOn t b.w.toNat i (origin.x + slant.shift i) (origin.y + i) outside back = back₁ at *
  obtain ⟨hsizeAbove, hsizeHere, hsizeBelow⟩ := hsizes
  by_cases hlast : i = b.h - 1
  · have hcopy := Scratch.take_copyRow hsizeBelow hsizeHere
    have hbeside : rowBeside b.h i 1 = i := by simp [rowBeside, hlast]
    rw [if_pos hlast]
    refine ⟨?_, hsizeAbove, hsizeHere, ?_, fun _ h => by omega⟩
    · rw [habove, hhere, hcopy, hhere, hbeside]
    · rw [Scratch.size_copyRow]
      exact hsizeBelow
  · have hread := take_readRow slant outside (i := i + 1) (j := i) hsizeBelow hformat
      (fun x => hst x (origin.y + (i + 1)) (by omega)) (by omega)
    have hbeside : rowBeside b.h i 1 = i + 1 := by simp [rowBeside, hlast]
    rw [if_neg hlast, Int.add_assoc]
    refine ⟨?_, hsizeAbove, hsizeHere, ?_, fun _ _ => ⟨?_, hread⟩⟩
    · rw [habove, hhere, hread, hbeside]
    · rw [Scratch.size_readRow]
      exact hsizeBelow
    · rw [hhere, Int.add_sub_cancel]

/-! ## The marks of a picture -/

theorem touches_of_mem_marksOn {s : Surface} {i x y : Int} {m : Mark}
    (hm : m ∈ marksOn b origin slant text outside s i) (htouch : m.Touches x y) :
    y = origin.y + i ∧ origin.x + slant.shift i ≤ x ∧ x < origin.x + slant.shift i + b.w := by
  obtain ⟨k, hk, hm⟩ := List.mem_filterMap.mp hm
  obtain ⟨v, -, rfl⟩ := Option.map_eq_some_iff.mp hm
  obtain ⟨rfl, rfl⟩ := htouch
  rw [mem_irange] at hk
  omega

theorem foldl_drawRow {s : Surface} {i : Int} {p : Painter} {back : Scratch} (hi : 0 ≤ i)
    (hp : p.frame.Sound) (hshape : s.SameShape p.surface)
    (hsame : ∀ x y, origin.y + i ≤ y → p.surface.get? x y = s.get? x y)
    (hready : Ready b origin slant outside s i back) :
    ((irange i (b.h - 1)).foldl (drawRow b origin slant text outside) (p, back)).1 =
      p.markAll ((irange i (b.h - 1)).flatMap (marksOn b origin slant text outside s)) := by
  induction hn : (b.h - i).toNat generalizing i p back with
  | zero =>
    rw [irange_eq_nil (by omega)]
    rfl
  | succ n ih =>
    have hih : i < b.h := by omega
    obtain ⟨hseen, hready'⟩ := readAround_spec hready hi hih hshape.format hsame
    rw [irange_cons (by omega), List.foldl_cons, List.flatMap_cons, Painter.markAll_append]
    have hmarks : (drawRow b origin slant text outside (p, back) i).1 =
        p.markAll (marksOn b origin slant text outside s i) := by
      simp only [drawRow, hseen, hshape.format]
      rfl
    have hframe := Painter.frame_markAll hp (marksOn b origin slant text outside s i)
    rw [← ih (by omega) (hframe ▸ hp) (hshape.trans (Painter.sameShape_of_frame hframe)) ?_ hready'
      (by omega), ← hmarks]
    · rfl
    · intro x y hy
      rw [Painter.get?_markAll_of_not_touches hp, hsame x y (by omega)]
      intro m hm htouch
      have := (touches_of_mem_marksOn hm htouch).1
      omega

/-- The filter is a list of marks, settled by the surface before the glyph is drawn. -/
theorem draw_eq_markAll (b : BitPicture) (origin : Point) (slant : Slant) (text outside : Color)
    {p : Painter} (hp : p.frame.Sound) {back : Scratch} (hroom : back.hasRoom b.w.toNat = true) :
    (draw b origin slant text outside p back).1 =
      p.markAll (b.rowNumbers.flatMap (marksOn b origin slant text outside p.surface)) := by
  rw [draw, if_pos hroom]
  exact foldl_drawRow (by omega) hp (.refl _) (fun _ _ _ => rfl) (ready_zero p.surface hroom)

/-! ## How far the filter looks -/

/-- The rows that are read for a slanted row are up to one pixel aside. -/
def sight (slant : Slant) : Nat := if slant.leans then 2 else 1

theorem shift_near (slant : Slant) {i j : Int} (hij : i - 2 ≤ j) (hji : j ≤ i) :
    slant.shift i + 1 - sight slant ≤ slant.shift j ∧
      slant.shift j ≤ slant.shift i + sight slant - 1 := by
  simp only [Slant.shift, sight]
  cases slant.leans with
  | false => simp
  | true =>
    cases slant.mirrored with
    | false => simp; omega
    | true => simp; omega

theorem seenAround_at (s : Surface) (i d : Int) :
    (seenAround b origin slant outside s i).at d = rowSeen b origin slant outside s (rowBeside b.h i d) := by
  rw [Triple.at]
  by_cases hneg : d < 0
  · simp [hneg, seenAround, rowBeside]
  · by_cases hzero : d = 0
    · simp [hzero, seenAround, rowBeside]
    · simp [hneg, hzero, seenAround, rowBeside]

theorem rowBeside_near {h i d : Int} (hi : 0 ≤ i) :
    i - 1 ≤ rowBeside h i d ∧ rowBeside h i d ≤ i + 1 := by
  unfold rowBeside
  split
  · omega
  · split
    · omega
    · split <;> omega

/-- Surfaces that agree near a pixel look alike from there. -/
theorem getD_seenAround (outside : Color) {s t : Surface} (hshape : s.SameShape t) {i k e d : Int} (hi : 0 ≤ i)
    (hnear : inner (sight slant) (fun x y => t.get? x y = s.get? x y) (origin.x + slant.shift i + k)
      (origin.y + i)) (he : -1 ≤ e ∧ e ≤ 1) (hk : 0 ≤ k + e) (hkw : k + e < b.w) :
    ((seenAround b origin slant outside t i).at d).getD (k + e).toNat default =
      ((seenAround b origin slant outside s i).at d).getD (k + e).toNat default := by
  obtain ⟨hj, hj'⟩ := rowBeside_near (h := b.h) (d := d) hi
  obtain ⟨hx, hx'⟩ := shift_near slant (i := i) (j := max (rowBeside b.h i d - 1) 0) (by omega) (by omega)
  have hsight : 1 ≤ sight slant := by unfold sight; split <;> omega
  have hcolor (u : Surface) : (rowSeen b origin slant outside u (rowBeside b.h i d)).getD (k + e).toNat default =
      Scratch.colorAt u outside (origin.x + slant.shift (max (rowBeside b.h i d - 1) 0) + (k + e))
        (origin.y + rowBeside b.h i d) := by
    have hlt : (k + e).toNat < b.w.toNat := by omega
    simp only [rowSeen, Array.getD, Array.size_ofFn, dif_pos hlt, Array.getInternal_eq_getElem,
      Array.getElem_ofFn]
    rw [Int.toNat_of_nonneg hk]
  rw [seenAround_at, seenAround_at, hcolor, hcolor, Scratch.colorAt, Scratch.colorAt, hshape.format,
    hnear _ _ (by omega) (by omega) (by omega) (by omega)]

theorem inkColor_congr {lines : Triple BitRow} {back back' : Triple (Array Color)} {w k : Int}
    (h : ∀ e d, -1 ≤ e ∧ e ≤ 1 → 0 ≤ k + e → k + e < w →
      (back'.at d).getD (k + e).toNat default = (back.at d).getD (k + e).toNat default) (text : Color) :
    inkColor lines back' w text k = inkColor lines back w text k := by
  have hkernel : ∀ a ∈ kernel, -1 ≤ a.1 ∧ a.1 ≤ 1 := by decide
  rw [inkColor, inkColor]
  generalize kernel = taps at hkernel ⊢
  refine congrArg (fun acc : Sums × Nat => (acc.1.add text acc.2).color)
    (List.foldl_ext _ _ _ fun acc a ha => ?_)
  obtain ⟨dx, dy, wt⟩ := a
  by_cases hout : k + dx < 0 ∨ w ≤ k + dx
  · simp only [hout, if_true]
  · have := hkernel _ ha
    simp only [hout, if_false, h dx dy this (by omega) (by omega)]

/-- What a mark holds depends on the pixels near it alone. -/
theorem inkAt?_congr (text outside : Color) {s t : Surface} (hshape : s.SameShape t) {i k : Int}
    (hi : 0 ≤ i) (hk : 0 ≤ k) (hkw : k < b.w) (hnear : inner (sight slant) (fun x y => t.get? x y = s.get? x y)
      (origin.x + slant.shift i + k) (origin.y + i)) (format : PixelFormat) (lines : Triple BitRow) :
    inkAt? format b.w lines (seenAround b origin slant outside t i) text k =
      inkAt? format b.w lines (seenAround b origin slant outside s i) text k := by
  have hseen := fun e d he => getD_seenAround outside (b := b) (e := e) (d := d) hshape hi hnear he
  have hhere : (seenAround b origin slant outside t i).here.getD k.toNat default =
      (seenAround b origin slant outside s i).here.getD k.toNat default := by
    simpa [Triple.at] using hseen 0 0 (by omega) (by omega) (by omega)
  rw [inkAt?, inkAt?, inkColor_congr hseen, hhere]

/-- Whether there is a mark does not depend on the surface. -/
theorem isSome_inkAt? (format : PixelFormat) (w : Int) (lines : Triple BitRow)
    (back back' : Triple (Array Color)) (text : Color) (k : Int) :
    (inkAt? format w lines back' text k).isSome = (inkAt? format w lines back text k).isSome := by
  cases hset : lines.here.get k with
  | true => simp only [inkAt?, hset, if_true, Option.isSome_some]
  | false =>
    simp only [inkAt?, hset, Bool.false_eq_true, if_false]
    by_cases hclear : inkAround lines k = 0
    · simp only [hclear, if_true]
    · simp only [hclear, if_false, Option.isSome_some]

/-- Two painters that see the same in `B` draw the same where the filter does not look out of it. -/
theorem twins_draw (b : BitPicture) (origin : Point) (slant : Slant) (text outside : Color)
    {A B : Int → Int → Prop} {p q : Painter} (h : Painter.Twins A p q)
    (hB : Surface.AgreeOn B p.surface q.surface) {back back' : Scratch}
    (hroom : back.hasRoom b.w.toNat = true) (hroom' : back'.hasRoom b.w.toNat = true) :
    Painter.Twins (fun x y => A x y ∧ inner (sight slant) B x y)
      (draw b origin slant text outside p back).1 (draw b origin slant text outside q back').1 := by
  rw [draw_eq_markAll b origin slant text outside h.sound hroom,
    draw_eq_markAll b origin slant text outside h.sound' hroom', Painter.markAll, Painter.markAll,
    List.foldl_flatMap, List.foldl_flatMap]
  refine Painter.Twins.foldl (fun p' q' h' i hi => ?_) (h.mono fun x y hxy => hxy.1)
  rw [BitPicture.rowNumbers, mem_irange] at hi
  rw [marksOn, marksOn, rowMarks, rowMarks, List.foldl_filterMap, List.foldl_filterMap]
  refine Painter.Twins.foldl (fun p'' q'' h'' k hk => ?_) h'
  rw [mem_irange] at hk
  have hsome := isSome_inkAt? p.surface.format b.w (linesAround b i)
    (seenAround b origin slant outside p.surface i) (seenAround b origin slant outside q.surface i) text k
  have hsame (hnear : inner (sight slant) B (origin.x + slant.shift i + k) (origin.y + i)) :=
    inkAt?_congr text outside (b := b) h.shape hi.1 hk.1 (by omega)
      (fun x y hx hx' hy hy' => hB x y (hnear x y hx hx' hy hy')) p.surface.format (linesAround b i)
  rw [h.shape.format]
  cases hp : inkAt? p.surface.format b.w (linesAround b i)
      (seenAround b origin slant outside p.surface i) text k with
  | none =>
    rw [hp, Option.isSome_none, Option.isSome_eq_false_iff, Option.isNone_iff_eq_none] at hsome
    rw [hsome]
    exact h''
  | some v =>
    rw [hp, Option.isSome_some, Option.isSome_iff_exists] at hsome
    obtain ⟨w, hq⟩ := hsome
    rw [hq]
    refine h''.pixelOf fun hxy => ?_
    have := hsame hxy.2
    rwa [hp, hq, Option.some.injEq] at this

end SubpixelWeight

end Rasterizer
