import Mathlib.Algebra.Order.BigOperators.Group.List
import Rasterizer.Proofs.CoordSpace
import Rasterizer.Proofs.Painter.Primitives

/-! # Walking along a span

Along a span a brush reads its tile chunk by chunk and its stipple bit by bit. No access fails and no pixel depends on
where the chunks, or the span, begin (`Brush.walk_pixels`), unless the tile is one of those that are accepted without
all their pixels (`Brush.walk_short`). -/

namespace Rasterizer

namespace Brush

/-- Walks along pieces of the given widths, each from where the one before ended. -/
def walkPieces (b : Brush) (background : Pixel) (y : Int) : Int → List Int → Except Fault (List (Int × Pixel))
  | _, [] => pure []
  | x, w :: ws => do
    let ds ← b.walk background x y w
    let rest ← walkPieces b background y (x + w) ws
    return ds ++ rest

end Brush

/-- Paints the parts of a run that may be touched, each by a walk of its own. -/
def Painter.walkRow (p : Painter) (x1 x2 y : Int) (b : Brush) (background : Pixel) : Except Fault Painter :=
  let (q, runs) := p.visibleRuns x1 x2 y
  runs.foldlM (fun q r => do
    let ds ← b.walk background r.1 y (r.2 - r.1 + 1)
    return q.plotAll (ds.map fun d => ⟨d.1, y, d.2⟩)) q

/-! ## Places in a pattern -/

section Wrapped

variable {v origin : Int} {period : Nat}

theorem wrapped_eq (h : Fits32 period) (v origin : Int) :
    wrapped v origin period = ((v - origin) % period).toNat := by
  rw [wrapped, h.wrap]

theorem toNat_emod_lt (hpos : 0 < period) (v : Int) : (v % period).toNat < period := by
  have := Int.emod_lt_of_pos v (show (0 : Int) < period by omega)
  omega

theorem wrapped_lt (h : Fits32 period) (hpos : 0 < period) (v origin : Int) : wrapped v origin period < period :=
  wrapped_eq h v origin ▸ toNat_emod_lt hpos _

/-- Up to the end of the pattern the places follow each other. -/
theorem wrapped_add (h : Fits32 period) {i : Nat} (hi : wrapped v origin period + i < period) :
    wrapped (v + i) origin period = wrapped v origin period + i := by
  have hnonneg := Int.emod_nonneg (v - origin) (show (period : Int) ≠ 0 by omega)
  rw [wrapped_eq h] at hi ⊢
  rw [wrapped_eq h, show v + i - origin = (v - origin) + i by omega, ← Int.emod_add_emod,
    Int.emod_eq_of_lt (by omega) (by omega)]
  omega

end Wrapped

theorem slice_eq {α : Type} {xs : Array α} {start n : Nat} (h : start + n ≤ xs.size) :
    slice xs start n = .ok (xs.extract start (start + n)) := if_pos h

/-! ## Tiles -/

theorem toList_extract_mapIdx {row : Array Pixel} {width n : Nat} {origin x : Int} (hfit : Fits32 width)
    (hrow : row.size = width) (hn : wrapped x origin width + n ≤ width) :
    (row.extract (wrapped x origin width) (wrapped x origin width + n)).toList.mapIdx (fun i p => (x + i, p)) =
      (irange x (x + n - 1)).map fun cx => (cx, row.getD (wrapped cx origin width) 0) := by
  refine List.ext_getElem ?_ fun i hi hi' => ?_
  · rw [List.length_mapIdx, Array.length_toList, Array.size_extract, List.length_map, length_irange]
    omega
  · rw [List.length_map, length_irange] at hi'
    have hlt : wrapped x origin width + i < width := by omega
    simp only [List.getElem_mapIdx, Array.getElem_toList, Array.getElem_extract, List.getElem_map, irange,
      List.getElem_range, wrapped_add hfit hlt, Array.getD, hrow, hlt, dite_true, Array.getInternal_eq_getElem]

/-- Whatever the chunks, each column gets the pixel of its place in the row. -/
theorem chunksFrom_eq {row : Array Pixel} {width : Nat} (hfit : Fits32 width) (hpos : 0 < width)
    (hrow : row.size = width) (origin x : Int) (left : Nat) :
    chunksFrom row width origin x left =
      .ok ((irange x (x + left - 1)).map fun cx => (cx, row.getD (wrapped cx origin width) 0)) := by
  have hlt := fun v => wrapped_lt hfit hpos v origin
  fun_induction chunksFrom row width origin x left with
  | case1 x =>
    rw [irange_eq_nil (by omega)]
    rfl
  | case2 x left hleft hend => exact absurd (hlt x) (Nat.not_lt.mpr hend)
  | case3 x left hleft hend n ih =>
    obtain ⟨hn, hchunk⟩ : n ≤ left ∧ wrapped x origin width + n ≤ width := by
      have := hlt x
      omega
    clear_value n
    have hjoin : irange x (x + n - 1) ++ irange (x + n - 1 + 1) (x + left - 1) = irange x (x + left - 1) :=
      irange_append (by omega) (by omega)
    rw [Int.sub_add_cancel] at hjoin
    rw [slice_eq (hchunk.trans_eq hrow.symm), ih]
    refine congrArg Except.ok ?_
    rw [toList_extract_mapIdx hfit hrow hchunk, ← List.map_append,
      show x + n + ((left - n : Nat) : Int) - 1 = x + left - 1 by omega, hjoin]

theorem Tile.Whole.row_le {t : Tile} (ht : t.Whole) {y : Nat} (hy : y < t.height) :
    y * t.width + t.width ≤ t.pixels.size := by
  have := Nat.mul_le_mul_right t.width (Nat.succ_le_of_lt hy)
  rw [ht, Nat.mul_comm t.width]
  rwa [Nat.succ_mul] at this

theorem Tile.getD_row {t : Tile} (ht : t.Whole) (hwidth : Fits32 t.width) (hheight : Fits32 t.height) (x y : Int)
    (origin : Point) :
    (t.pixels.extract (wrapped y origin.y t.height * t.width)
      (wrapped y origin.y t.height * t.width + t.width)).getD (wrapped x origin.x t.width) 0 =
      t.pixelAt (x - origin.x) (y - origin.y) := by
  have hplace := wrapped_lt hwidth t.width_pos x origin.x
  have hrow := ht.row_le (wrapped_lt hheight t.height_pos y origin.y)
  rw [Tile.pixelAt, ← wrapped_eq hwidth, ← wrapped_eq hheight, Array.getD_eq_getD_getElem?,
    Array.getD_eq_getD_getElem?, Array.getElem?_extract, if_pos (by omega)]

/-! ## Stipples -/

/-- The byte of a wrapped place is there. -/
theorem Stipple.byte_lt (s : Stipple) {x y : Nat} (hx : x < s.width) (hy : y < s.height) :
    x / 8 + s.pitch * y < s.bits.size := by
  have hrow := Nat.mul_le_mul_left s.pitch (Nat.succ_le_of_lt hy)
  have := s.width_le_pitch
  have := s.pitch_le_bits
  rw [Nat.mul_succ] at hrow
  omega

theorem Stipple.bit?_wrapped {s : Stipple} (hwidth : Fits32 s.width) (hheight : Fits32 s.height)
    (x y : Int) (origin : Point) :
    s.bit? (wrapped x origin.x s.width) (wrapped y origin.y s.height) =
      .ok (s.bitAt (x - origin.x) (y - origin.y)) := by
  have hbyte := s.byte_lt (wrapped_lt hwidth s.width_pos x origin.x) (wrapped_lt hheight s.height_pos y origin.y)
  rw [bit?, Array.getElem?_eq_getElem hbyte]
  rw [wrapped_eq hwidth, wrapped_eq hheight] at hbyte
  simp only [bitAt, wrapped_eq hwidth, wrapped_eq hheight, Array.getD, hbyte, dite_true,
    Array.getInternal_eq_getElem]
  rfl

namespace Brush

variable {b : Brush} {s : Stipple} {background : Pixel} {x y : Int}

theorem bitsFrom_eq (hwidth : Fits32 s.width) (hheight : Fits32 s.height) (clear : Option Pixel) (y x : Int)
    (n : Nat) :
    b.bitsFrom s clear (wrapped y b.origin.y s.height) x n =
      .ok ((irange x (x + n - 1)).filterMap fun cx =>
        (if s.bitAt (cx - b.origin.x) (y - b.origin.y) then some b.color else clear).map (cx, ·)) := by
  induction n generalizing x with
  | zero =>
    rw [irange_eq_nil (by omega)]
    rfl
  | succ n ih =>
    rw [irange_cons (by omega), List.filterMap_cons, bitsFrom, Stipple.bit?_wrapped hwidth hheight, ih,
      show x + 1 + (n : Int) - 1 = x + ((n + 1 : Nat) : Int) - 1 by omega]
    refine congrArg Except.ok ?_
    cases (if s.bitAt (x - b.origin.x) (y - b.origin.y) then some b.color else clear) <;> rfl

/-- The tile is whole, and the extents of the brush's patterns are kept by the cast to signed numbers of 32 bits. -/
structure PatternsFit (b : Brush) : Prop where
  tile : ∀ t ∈ b.tile, t.Whole ∧ Fits32 t.width ∧ Fits32 t.height
  stipple : ∀ s ∈ b.stipple, Fits32 s.width ∧ Fits32 s.height

theorem spanPixels_eq_filterMap (b : Brush) (background : Pixel) (y x : Int) (n : Nat) :
    b.spanPixels background y x n =
      (irange x (x + n - 1)).filterMap fun cx => (b.pixelAt background cx y).map (cx, ·) := by
  have hspan := b.spanPixels_eq background y x (x + n - 1)
  rwa [show (x + n - 1 - x + 1).toNat = n by omega] at hspan

/-- The walk reads nothing outside the pattern and paints the span as the painter does. -/
theorem walk_eq (hb : b.PatternsFit) (background : Pixel) (x y w : Int) :
    b.walk background x y w = .ok (b.spanPixels background y x w.toNat) := by
  rw [walk, spanPixels_eq_filterMap]
  by_cases hw : w ≤ 0
  · rw [if_pos hw, irange_eq_nil (by omega)]
    rfl
  rw [if_neg hw]
  cases hkind : b.kind with
  | solid =>
    simp only [pixelAt, hkind, Option.map_some, List.filterMap_eq_map', Int.toNat_of_nonneg (show 0 ≤ w by omega)]
    rfl
  | tiled =>
    cases htile : b.tile with
    | none => simp [pixelAt, hkind, htile]; rfl
    | some t =>
      obtain ⟨hwhole, hwidth, hheight⟩ := hb.tile t htile
      have hrow := hwhole.row_le (wrapped_lt hheight t.height_pos y b.origin.y)
      simp only [slice_eq hrow]
      refine (chunksFrom_eq hwidth t.width_pos (by rw [Array.size_extract]; omega) b.origin.x x w.toNat).trans ?_
      simp only [Tile.getD_row hwhole hwidth hheight, pixelAt, hkind, htile, Option.map_some, List.filterMap_eq_map']
  | stippled =>
    cases hstipple : b.stipple with
    | none => simp [pixelAt, hkind, hstipple]; rfl
    | some s =>
      obtain ⟨hwidth, hheight⟩ := hb.stipple s hstipple
      simp only [bitsFrom_eq hwidth hheight, pixelAt, hkind, hstipple, Option.bind_some]
  | opaqueStippled =>
    cases hstipple : b.stipple with
    | none => simp [pixelAt, hkind, hstipple]; rfl
    | some s =>
      obtain ⟨hwidth, hheight⟩ := hb.stipple s hstipple
      simp only [bitsFrom_eq hwidth hheight, pixelAt, hkind, hstipple, Option.map_some, ← apply_ite]

/-! ## What is painted -/

/-- What a brush paints at a pixel: its colour, or what its pattern has there when it is repeated from the
origin. -/
inductive Paints (b : Brush) (background : Pixel) (x y : Int) : Pixel → Prop
  | solid : b.kind = .solid → Paints b background x y b.color
  | tile {t : Tile} {p : Pixel} : b.kind = .tiled → b.tile = some t →
      t.pixels[((y - b.origin.y) % t.height).toNat * t.width + ((x - b.origin.x) % t.width).toNat]? = some p →
      Paints b background x y p
  | set {s : Stipple} : b.kind = .stippled ∨ b.kind = .opaqueStippled → b.stipple = some s →
      s.bitAt (x - b.origin.x) (y - b.origin.y) = true → Paints b background x y b.color
  | clear {s : Stipple} : b.kind = .opaqueStippled → b.stipple = some s →
      s.bitAt (x - b.origin.x) (y - b.origin.y) = false → Paints b background x y background

theorem getElem?_tile {t : Tile} (ht : t.Whole) (x y : Int) :
    t.pixels[(y % t.height).toNat * t.width + (x % t.width).toNat]? = some (t.pixelAt x y) := by
  have hx := toNat_emod_lt t.width_pos x
  have hrow := ht.row_le (toNat_emod_lt t.height_pos y)
  rw [Tile.pixelAt, Array.getD_eq_getD_getElem?, Array.getElem?_eq_getElem (by omega)]
  rfl

theorem paints_iff (hb : b.PatternsFit) {p : Pixel} : b.Paints background x y p ↔ b.pixelAt background x y = some p := by
  constructor
  · rintro (hkind | ⟨hkind, htile, hp⟩ | ⟨hkind | hkind, hstipple, hbit⟩ | ⟨hkind, hstipple, hbit⟩)
    · simp [pixelAt, hkind]
    · rw [getElem?_tile (hb.tile _ htile).1] at hp
      simp [pixelAt, hkind, htile, Option.some.inj hp]
    all_goals simp [pixelAt, hkind, hstipple, hbit]
  · intro hp
    cases hkind : b.kind with
    | solid =>
      simp only [pixelAt, hkind, Option.some.injEq] at hp
      exact hp ▸ .solid hkind
    | tiled =>
      simp only [pixelAt, hkind, Option.map_eq_some_iff] at hp
      obtain ⟨t, htile, rfl⟩ := hp
      exact .tile hkind htile (getElem?_tile (hb.tile t htile).1 _ _)
    | stippled =>
      simp only [pixelAt, hkind, Option.bind_eq_some_iff, Option.ite_none_right_eq_some] at hp
      obtain ⟨s, hstipple, hbit, hp⟩ := hp
      exact Option.some.inj hp ▸ .set (.inl hkind) hstipple hbit
    | opaqueStippled =>
      simp only [pixelAt, hkind, Option.map_eq_some_iff] at hp
      obtain ⟨s, hstipple, rfl⟩ := hp
      split
      next hbit => exact .set (.inr hkind) hstipple hbit
      next hbit => exact .clear hkind hstipple (Bool.eq_false_iff.mpr hbit)

theorem mem_spanPixels {n : Nat} {d : Int × Pixel} :
    d ∈ b.spanPixels background y x n ↔ (x ≤ d.1 ∧ d.1 < x + n) ∧ b.pixelAt background d.1 y = some d.2 := by
  simp only [spanPixels_eq_filterMap, List.mem_filterMap, mem_irange, Option.map_eq_some_iff]
  constructor
  · rintro ⟨cx, hcx, p, hp, rfl⟩
    exact ⟨by omega, hp⟩
  · rintro ⟨hcx, hp⟩
    exact ⟨d.1, by omega, d.2, hp, rfl⟩

theorem pairwise_spanPixels (b : Brush) (background : Pixel) (y x : Int) (n : Nat) :
    (b.spanPixels background y x n).Pairwise (·.1 < ·.1) := by
  rw [spanPixels_eq_filterMap]
  refine (pairwise_irange _ _).filterMap _ fun cx cx' hlt d hd d' hd' => ?_
  obtain ⟨p, -, rfl⟩ := Option.map_eq_some_iff.mp hd
  obtain ⟨p', -, rfl⟩ := Option.map_eq_some_iff.mp hd'
  exact hlt

theorem lookup_spanPixels (b : Brush) (background : Pixel) (y x : Int) (n : Nat) (cx : Int) :
    (b.spanPixels background y x n).lookup cx =
      if x ≤ cx ∧ cx < x + n then b.pixelAt background cx y else none := by
  induction n generalizing x with
  | zero => rw [if_neg (by omega)]; rfl
  | succ n ih =>
    by_cases hcx : cx = x
    · subst hcx
      cases hp : b.pixelAt background cx y with
      | some p => simp [spanPixels, hp]
      | none =>
        rw [ite_self]
        simp only [spanPixels, hp, ih]
        rw [if_neg (by omega)]
    · have hrest : (b.spanPixels background y x (n + 1)).lookup cx =
          (b.spanPixels background y (x + 1) n).lookup cx := by
        rw [spanPixels]
        split
        next => rw [List.lookup_cons, beq_false_of_ne hcx]
        next => rfl
      rw [hrest, ih]
      exact if_congr (by omega) rfl rfl

theorem walkPieces_eq (hb : b.PatternsFit) (background : Pixel) (y : Int) {ws : List Int} (hws : ∀ w ∈ ws, 0 ≤ w)
    (x : Int) : b.walkPieces background y x ws = .ok (b.spanPixels background y x ws.sum.toNat) := by
  induction ws generalizing x with
  | nil => rfl
  | cons w ws ih =>
    obtain ⟨hw, hws⟩ := List.forall_mem_cons.mp hws
    have hsum : (w + ws.sum).toNat = w.toNat + ws.sum.toNat := Int.toNat_add hw (List.sum_nonneg hws)
    rw [walkPieces, walk_eq hb, ih hws, List.sum_cons, hsum, spanPixels_add, Int.toNat_of_nonneg hw]
    rfl

end Brush

theorem Painter.walkRow_eq {b : Brush} (hb : b.PatternsFit) (p : Painter) (x1 x2 y : Int) (background : Pixel) :
    p.walkRow x1 x2 y b background = .ok (p.brushRow x1 x2 y b background) := by
  have hruns : ∀ (runs : List (Int × Int)) (q : Painter),
      runs.foldlM (fun q r => do
        let ds ← b.walk background r.1 y (r.2 - r.1 + 1)
        return q.plotAll (ds.map fun d => ⟨d.1, y, d.2⟩)) q =
      Except.ok (q.plotAll (runs.flatMap fun r =>
        (b.spanPixels background y r.1 (r.2 - r.1 + 1).toNat).map fun d => ⟨d.1, y, d.2⟩)) := by
    intro runs
    induction runs with
    | nil => exact fun q => rfl
    | cons r runs ih =>
      intro q
      rw [List.foldlM_cons, Brush.walk_eq hb, List.flatMap_cons, plotAll, List.foldl_append]
      exact ih _
  exact hruns _ _

/-- A tile of 65536 rows as long is accepted without pixels, and then any walk leaves it. -/
theorem Brush.walk_short :
    ∃ t, Tile.ofPixels? 65536 65536 #[] = some t ∧ ¬t.Whole ∧
      Brush.walk { kind := .tiled, tile := some t } 0 0 0 1 = .error .outOfRange :=
  ⟨_, dif_pos (by decide), by decide, rfl⟩

/-- A walk never leaves the brush's pattern. It paints, from left to right, exactly the pixels of the span at which
the pattern, repeated from its origin, has something to paint. Walks along the pieces of a span paint the same, and a
painter that walks along what its clip region leaves of the span plots what of these pixels may be touched. -/
theorem Brush.walk_pixels {b : Brush} (hb : b.PatternsFit) (background : Pixel) (x y w : Int) :
    ∃ ds, b.walk background x y w = .ok ds ∧ b.spanPixels background y x w.toNat = ds ∧
      ds.Pairwise (·.1 < ·.1) ∧
      (∀ cx v, (cx, v) ∈ ds ↔ (x ≤ cx ∧ cx < x + w) ∧ b.Paints background cx y v) ∧
      (∀ ws : List Int, (∀ n ∈ ws, 0 ≤ n) → ws.sum = w → b.walkPieces background y x ws = .ok ds) ∧
      ∀ p : Painter, p.frame.Sound → 0 < w →
        p.walkRow x (x + w - 1) y b background = .ok (p.brushRow x (x + w - 1) y b background) ∧
          p.Draws (.row y fun cx => ds.lookup cx) (p.brushRow x (x + w - 1) y b background) := by
  refine ⟨_, walk_eq hb background x y w, rfl, pairwise_spanPixels b background y x _, ?_, ?_, ?_⟩
  · intro cx v
    rw [mem_spanPixels, paints_iff hb]
    refine and_congr_left fun _ => ?_
    omega
  · rintro ws hws rfl
    exact walkPieces_eq hb background y hws x
  · intro p hp hw
    refine ⟨p.walkRow_eq hb x (x + w - 1) y background,
      (Painter.draws_brushRow hp x (x + w - 1) y b background).congr fun cx cy _ _ => ?_⟩
    simp only [Layer.row, stretch, lookup_spanPixels]
    refine if_congr Iff.rfl (if_congr ?_ rfl rfl) rfl
    omega

/-- A row of three pixels that begins at the second column. -/
def rowBrush : Brush :=
  { kind := .tiled, origin := ⟨1, 0⟩, tile := Tile.ofPixels? 3 1 #[10, 11, 12] }

/-- From the left of the tile's origin on, and through a clip region of two parts. -/
theorem walk_pixels_rowBrush :
    rowBrush.PatternsFit ∧
      rowBrush.walk 7 (-1) 5 6 = .ok [(-1, 11), (0, 12), (1, 10), (2, 11), (3, 12), (4, 10)] ∧
      rowBrush.walkPieces 7 5 (-1) [2, 0, 4] = .ok [(-1, 11), (0, 12), (1, 10), (2, 11), (3, 12), (4, 10)] ∧
      ∃ s p, Surface.create 5 6 .rgb888 = .ok s ∧
        Painter.open? s (Region.Term.rects [⟨0, 5, 2, 6⟩, ⟨3, 5, 5, 6⟩]).eval ⟨0, 0, 5, 6⟩ = some p ∧
        ∃ q, p.walkRow (-1) 4 5 rowBrush 7 = .ok q ∧
          (irange 0 4).map (q.surface.get? · 5) = [some 12, some 10, some 0, some 12, some 10] := by
  have hfit : rowBrush.PatternsFit := by
    constructor
    · rintro t ⟨⟩
      decide
    · rintro s ⟨⟩
  obtain ⟨ds, hwalk, rfl, -, -, hpieces, hpainter⟩ := Brush.walk_pixels hfit 7 (-1) 5 6
  obtain ⟨s, p, hs, hopen, hcells⟩ : ∃ s p, Surface.create 5 6 .rgb888 = .ok s ∧
      Painter.open? s (Region.Term.rects [⟨0, 5, 2, 6⟩, ⟨3, 5, 5, 6⟩]).eval ⟨0, 0, 5, 6⟩ = some p ∧
      (irange 0 4).map (fun cx => (p.surface.get? cx 5).map fun v =>
        if p.frame.reaches cx 5 then
          Layer.on (.row 5 fun cx => (rowBrush.spanPixels 7 5 (-1) 6).lookup cx) p.rop p.surface.format cx 5 v
        else v) = [some 12, some 10, some 0, some 12, some 10] := ⟨_, _, rfl, rfl, by decide⟩
  have hsound := (Painter.opened_of_some (Region.Term.banded_eval _) hopen).sound
  obtain ⟨hrow, hdraws⟩ := hpainter p hsound (by decide)
  refine ⟨hfit, hwalk, hpieces [2, 0, 4] (by decide) rfl, s, p, hs, hopen, _, hrow, ?_⟩
  simp only [hdraws.get?]
  exact hcells

end Rasterizer
