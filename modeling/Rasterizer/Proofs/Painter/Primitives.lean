import Rasterizer.Proofs.Painter.Visible
import Mathlib.Data.List.Sort

/-! # The layers of the operations

Each operation of a painter draws a layer that is known from its arguments alone
(`draws_pixelOf`, `draws_row`, `draws_box` and so on). Along a row or a column the plots are the
values at the places of the visible stretches, left to right. -/

namespace Rasterizer

/-! ## Shapes -/

namespace Layer

/-- One pixel, given what it holds. -/
def dot (x y : Int) (g : Pixel → Option Pixel) : Layer :=
  fun x' y' v => if x' = x ∧ y' = y then g v else none

def row (y : Int) (g : Int → Option Pixel) : Layer := fun x' y' _ => if y' = y then g x' else none

def column (x : Int) (g : Int → Option Pixel) : Layer := fun x' y' _ => if x' = x then g y' else none

def box (rc : Rect) (value : Pixel) : Layer := fun x y _ => if rc.contains x y then some value else none

end Layer

/-- The values between two places given in any order. -/
def stretch (a b : Int) (g : Int → Option Pixel) (k : Int) : Option Pixel :=
  if min a b ≤ k ∧ k ≤ max a b then g k else none

/-- One value at each `step`th place from the origin on. -/
def dotted (step : Nat) (origin : Int) (value : Pixel) (k : Int) : Option Pixel :=
  if (k - origin) % step = 0 then some value else none

theorem dotted_one (origin : Int) (value : Pixel) (k : Int) : dotted 1 origin value k = some value := by
  simp [dotted]

/-- What a brush paints of a stretch, place by place. -/
theorem Brush.spanPixels_eq (b : Brush) (background : Pixel) (y lo hi : Int) :
    b.spanPixels background y lo (hi - lo + 1).toNat =
      (irange lo hi).filterMap fun x => (b.pixelAt background x y).map (x, ·) := by
  rw [irange]
  generalize (hi - lo + 1).toNat = n
  induction n generalizing lo with
  | zero => rfl
  | succ n ih =>
    have hshift : (List.range (n + 1)).map (fun i : Nat => lo + (i : Int)) =
        lo :: (List.range n).map fun i : Nat => lo + 1 + (i : Int) := by
      rw [List.range_succ_eq_map, List.map_cons, List.map_map]
      simp [Function.comp_def, Int.add_assoc, Int.add_comm 1]
    rw [hshift, Brush.spanPixels, List.filterMap_cons]
    cases b.pixelAt background lo y <;> simp [ih]

namespace Painter

/-! ## Dots -/

theorem firstDot_spec {step : Nat} (hstep : 0 < step) (origin a : Int) :
    a ≤ firstDot step origin a ∧ firstDot step origin a < a + step ∧
      (step : Int) ∣ firstDot step origin a - origin := by
  have hpos : (0 : Int) < step := by omega
  generalize hrest : (a - origin) % step = m
  have hnonneg := Int.emod_nonneg (a - origin) (Int.ne_of_gt hpos)
  have hlt := Int.emod_lt_of_pos (a - origin) hpos
  have hdvd : (step : Int) ∣ (a - origin) - m := hrest ▸ Int.dvd_self_sub_emod
  rw [hrest] at hnonneg hlt
  rw [firstDot, hrest]
  rcases Int.lt_or_eq_of_le hnonneg with hm | rfl
  · rw [Int.emod_eq_of_lt (by omega) (by omega)]
    refine ⟨by omega, by omega, ?_⟩
    have := Int.dvd_add hdvd (Int.dvd_refl _)
    rwa [show a - origin - m + step = a + (step - m) - origin by omega] at this
  · rw [Int.sub_zero] at hdvd ⊢
    rw [Int.emod_self, Int.add_zero]
    exact ⟨Int.le_refl a, by omega, hdvd⟩

/-- From `a` on, the places a whole number of steps from the origin are those from the first. -/
theorem firstDot_add {step : Nat} (hstep : 0 < step) (origin a k : Int) :
    (a ≤ k ∧ (k - origin) % step = 0) ↔ ∃ n : Int, 0 ≤ n ∧ k = firstDot step origin a + n * step := by
  obtain ⟨hle, hlt, hdvd⟩ := firstDot_spec hstep origin a
  rw [← Int.dvd_iff_emod_eq_zero]
  constructor
  · rintro ⟨hk, hdot⟩
    obtain ⟨n, hn⟩ := Int.dvd_sub hdot hdvd
    refine ⟨n, ?_, by rw [Int.mul_comm]; omega⟩
    by_contra hneg
    have : step * n ≤ step * (-1) := Int.mul_le_mul_of_nonneg_left (by omega) (by omega)
    omega
  · rintro ⟨n, hn, rfl⟩
    have := Int.mul_nonneg hn (Int.natCast_nonneg step)
    refine ⟨by omega, ?_⟩
    rw [show firstDot step origin a + n * step - origin =
      firstDot step origin a - origin + n * step by omega]
    exact Int.dvd_add hdvd (Int.dvd_mul_left _ _)

/-- Clipping a stretch does not shift its dots. -/
theorem dots_eq {step : Nat} (hstep : 0 < step) (origin a b : Int) :
    dots step origin a b = (irange a b).filter fun k => (k - origin) % step = 0 := by
  have hpos : (0 : Int) < step := by omega
  refine List.Pairwise.eq_of_mem_iff (r := (· < ·)) (List.pairwise_map.mpr ?_)
    ((pairwise_irange a b).sublist List.filter_sublist) fun k => ?_
  · refine (pairwise_irange _ _).imp fun {m n} h => ?_
    have := Int.mul_lt_mul_of_pos_right h hpos
    omega
  · have hdot := firstDot_add hstep origin a k
    simp only [dots, List.mem_map, List.mem_filter, mem_irange, decide_eq_true_eq]
    constructor
    · rintro ⟨n, ⟨hn, hlast⟩, rfl⟩
      have := (Int.le_ediv_iff_mul_le hpos).mp hlast
      obtain ⟨ha, hmod⟩ := hdot.mpr ⟨n, hn, rfl⟩
      exact ⟨⟨ha, by omega⟩, hmod⟩
    · rintro ⟨⟨ha, hb⟩, hmod⟩
      obtain ⟨n, hn, hk⟩ := hdot.mp ⟨ha, hmod⟩
      exact ⟨n, ⟨hn, (Int.le_ediv_iff_mul_le hpos).mpr (by omega)⟩, hk.symm⟩

/-! ## Plots along a row or a column -/

variable {p : Painter} {L : Layer} {runs : List (Int × Int)} {seen : Int → Prop}

/-- The places of some stretches. -/
def places (runs : List (Int × Int)) : List Int := runs.flatMap fun r => irange r.1 r.2

theorem mem_places (h : Stretches seen runs) {k : Int} : k ∈ places runs ↔ seen k := by
  simp only [places, List.mem_flatMap, mem_irange]
  exact h.mem_iff k

theorem nodup_places (h : Stretches seen runs) : (places runs).Nodup := by
  refine List.nodup_flatMap.mpr ⟨fun r _ => (pairwise_irange _ _).imp Int.ne_of_lt, ?_⟩
  refine h.apart.imp fun {r s} hrs k hr hs => ?_
  have := mem_irange.mp hr
  have := mem_irange.mp hs
  omega

/-- The values at the places seen, each put where `at` says. -/
def plotsAlong (put : Int → Point) (g : Int → Option Pixel) (ks : List Int) : List Plot :=
  ks.filterMap fun k => (g k).map fun v => ⟨(put k).x, (put k).y, v⟩

theorem lists_plotsAlong (hp : p.frame.Sound) {put : Int → Point} (hput : put.Injective)
    (hruns : Stretches seen runs) {g : Int → Option Pixel}
    (hseen : ∀ k, seen k → p.frame.reaches (put k).x (put k).y = true)
    (hL : ∀ x y v c, p.frame.reaches x y = true →
      (L x y v = some c ↔ ∃ k, seen k ∧ put k = ⟨x, y⟩ ∧ g k = some c)) :
    Lists L p (plotsAlong put g (places runs)) where
  nodup := by
    rw [plotsAlong, List.map_filterMap]
    refine (nodup_places hruns).filterMap fun k l d hk hl => hput ?_
    simp only [Option.map_map, Option.mem_def, Option.map_eq_some_iff] at hk hl
    obtain ⟨_, _, hk⟩ := hk
    obtain ⟨_, _, hl⟩ := hl
    exact hk.trans hl.symm
  mem_iff d := by
    simp only [plotsAlong, List.mem_filterMap, Option.map_eq_some_iff, mem_places hruns]
    constructor
    · rintro ⟨k, hk, c, hc, rfl⟩
      have hreach := hseen k hk
      obtain ⟨v, hv⟩ := exists_get?_of_reaches hp hreach
      exact ⟨hreach, v, hv, (hL _ _ _ _ hreach).mpr ⟨k, hk, rfl, hc⟩⟩
    · rintro ⟨hreach, v, -, hc⟩
      obtain ⟨k, hk, hput, hc⟩ := (hL _ _ _ _ hreach).mp hc
      exact ⟨k, hk, d.value, hc, by rw [hput]⟩

/-- A row is drawn by plotting the visible part of a stretch of it. -/
theorem draws_visibleRuns (hp : p.frame.Sound) (x1 x2 y : Int) (g : Int → Option Pixel) :
    Draws (.row y (stretch x1 x2 g)) p ((p.visibleRuns x1 x2 y).1.plotAll
      (plotsAlong (fun x => ⟨x, y⟩) g (places (p.visibleRuns x1 x2 y).2))) := by
  obtain ⟨b, runs, hruns, hseen⟩ := visibleRuns_spec hp x1 x2 y
  rw [hruns]
  refine .of_lists (lists_plotsAlong hp (fun k l h => (Point.mk.inj h).1) hseen (fun k h => h.2) ?_) b
  intro x' y' v c hreach
  simp only [Layer.row, stretch, Point.mk.injEq]
  constructor
  · intro h
    split at h
    next hy =>
      split at h
      next hx => exact ⟨x', ⟨hx, hy ▸ hreach⟩, ⟨rfl, hy.symm⟩, h⟩
      next => cases h
    next => cases h
  · rintro ⟨k, ⟨hk, -⟩, ⟨rfl, rfl⟩, hc⟩
    simp [hk, hc]

theorem draws_visibleRowRuns (hp : p.frame.Sound) (y1 y2 x : Int) (g : Int → Option Pixel) :
    Draws (.column x (stretch y1 y2 g)) p
      (p.plotAll (plotsAlong (fun y => ⟨x, y⟩) g (places (p.visibleRowRuns y1 y2 x)))) := by
  refine .of_lists (lists_plotsAlong hp (fun k l h => (Point.mk.inj h).2) (visibleRowRuns_spec hp y1 y2 x)
    (fun k h => h.2) ?_) p.lastBand
  intro x' y' v c hreach
  simp only [Layer.column, stretch, Point.mk.injEq]
  constructor
  · intro h
    split at h
    next hx =>
      split at h
      next hy => exact ⟨y', ⟨hy, hx ▸ hreach⟩, ⟨hx.symm, rfl⟩, h⟩
      next => cases h
    next => cases h
  · rintro ⟨k, ⟨hk, -⟩, ⟨rfl, rfl⟩, hc⟩
    simp [hk, hc]

theorem plots_dots {step : Nat} (hstep : 0 < step) (put : Int → Point) (origin : Int) (value : Pixel)
    (runs : List (Int × Int)) :
    (runs.flatMap fun r => (dots step origin r.1 r.2).map fun k =>
      (⟨(put k).x, (put k).y, value⟩ : Plot)) =
      plotsAlong put (dotted step origin value) (places runs) := by
  simp only [plotsAlong, places, List.filterMap_flatMap, dots_eq hstep]
  refine List.flatMap_congr fun r _ => ?_
  induction irange r.1 r.2 with
  | nil => rfl
  | cons k ks ih =>
    rw [List.filterMap_cons, ← ih, dotted]
    by_cases hk : (k - origin) % step = 0
    · simp only [List.filter_cons, hk, decide_true, if_true, List.map_cons, Option.map_some]
    · simp only [List.filter_cons, hk, decide_false, Bool.false_eq_true, if_false, Option.map_none]

/-! ## The operations -/

theorem draws_look (hp : p.frame.Sound) (x y : Int) (g : Pixel → Option Pixel) (value : Pixel)
    (hg : ∀ v, p.surface.get? x y = some v → g v = some value) :
    Draws (.dot x y g) p
      (if (p.look x y).2 then (p.look x y).1.plot ⟨x, y, value⟩ else (p.look x y).1) := by
  obtain ⟨b, hb⟩ := look_eq hp x y
  simp only [hb]
  cases hreach : p.frame.reaches x y with
  | true =>
    obtain ⟨v, hv⟩ := exists_get?_of_reaches hp hreach
    refine .of_lists (?_ : Lists _ p [⟨x, y, value⟩]) b
    refine ⟨List.nodup_singleton _, fun d => ?_⟩
    simp only [List.mem_singleton, Layer.dot]
    constructor
    · rintro rfl
      exact ⟨hreach, v, hv, by simp [hg v hv]⟩
    · rintro ⟨-, w, hw, hd⟩
      split at hd
      next hxy =>
        rw [hxy.1, hxy.2] at hw
        rw [hg w hw, Option.some.injEq] at hd
        rw [hd, ← hxy.1, ← hxy.2]
      next => cases hd
  | false =>
    refine .of_lists (?_ : Lists _ p []) b
    refine ⟨List.nodup_nil, fun d => ?_⟩
    simp only [List.not_mem_nil, false_iff, not_and, Layer.dot]
    rintro hd ⟨v, -, h⟩
    split at h
    next hxy => rw [hxy.1, hxy.2, hreach] at hd; cases hd
    next => cases h

theorem draws_pixelOf (hp : p.frame.Sound) (x y : Int) (value : Pixel) :
    Draws (.dot x y fun _ => some value) p (p.pixelOf x y value) :=
  draws_look hp x y _ value fun _ _ => rfl

theorem draws_pixel (hp : p.frame.Sound) (x y : Int) :
    Draws (.dot x y fun _ => some p.ink) p (p.pixel x y) :=
  draws_pixelOf hp x y p.ink

theorem draws_runEnds (hp : p.frame.Sound) (r : Run) :
    Draws (.row r.y fun x => if x = r.x1 ∨ x = r.x2 then some p.ink else none) p (p.runEnds r) := by
  have hfirst := draws_pixel hp r.x1 r.y
  rw [runEnds]
  by_cases hends : r.x1 = r.x2
  · rw [if_pos hends]
    refine hfirst.congr fun x y v _ => ?_
    by_cases hy : y = r.y <;> simp [Layer.dot, Layer.row, hy, hends]
  · rw [if_neg hends]
    have hink : (p.pixel r.x1 r.y).ink = p.ink := congrArg Tool.ink hfirst.tool
    have hsecond := draws_pixel (hfirst.frame ▸ hp) r.x2 r.y
    refine (hfirst.trans hsecond fun x y v w h => ?_).congr fun x y v _ => ?_
    · simp only [Layer.dot] at h ⊢
      rw [if_neg]
      rintro ⟨rfl, rfl⟩
      simp [Ne.symm hends] at h
    · by_cases hy : y = r.y <;> by_cases hx : x = r.x1 <;> simp [Layer.dot, Layer.row, hy, hx, hink]

theorem draws_row (hp : p.frame.Sound) (x1 x2 y : Int) :
    Draws (.row y (stretch x1 x2 (dotted p.step (min x1 x2) p.ink))) p (p.row x1 x2 y) := by
  rw [row]
  by_cases hone : x1 = x2
  · subst hone
    rw [if_pos rfl]
    refine (draws_pixel hp x1 y).congr fun x y' v _ => ?_
    by_cases hy : y' = y <;> by_cases hx : x = x1 <;>
      simp [Layer.dot, Layer.row, stretch, dotted, hy, hx]
    omega
  · rw [if_neg hone]
    simp only [plots_dots p.step_pos fun x => ⟨x, y⟩]
    exact draws_visibleRuns hp x1 x2 y _

/-- It does not matter which end comes first. -/
theorem row_comm (p : Painter) (x1 x2 y : Int) : p.row x1 x2 y = p.row x2 x1 y := by
  by_cases hone : x1 = x2
  · rw [hone]
  · rw [row, row, if_neg hone, if_neg (Ne.symm hone), Int.min_comm]
    simp only [visibleRuns, Int.min_comm x1, Int.max_comm x1]

theorem draws_column (hp : p.frame.Sound) (y1 y2 x : Int) :
    Draws (.column x (stretch y1 y2 (dotted p.step (min y1 y2) p.ink))) p (p.column y1 y2 x) := by
  rw [column]
  by_cases hone : y1 = y2
  · subst hone
    rw [if_pos rfl]
    refine (draws_pixel hp x y1).congr fun x' y v _ => ?_
    by_cases hx : x' = x <;> by_cases hy : y = y1 <;>
      simp [Layer.dot, Layer.column, stretch, dotted, hx, hy]
    omega
  · rw [if_neg hone]
    simp only [plots_dots p.step_pos fun y => ⟨x, y⟩]
    exact draws_visibleRowRuns hp y1 y2 x _

theorem draws_spanOf (hp : p.frame.Sound) (x1 x2 y : Int) (value : Pixel) :
    Draws (.row y (stretch x1 x2 fun _ => some value)) p (p.spanOf x1 x2 y value) := by
  have hplots : ∀ runs : List (Int × Int),
      (runs.flatMap fun r => (irange r.1 r.2).map fun x => (⟨x, y, value⟩ : Plot)) =
        plotsAlong (fun x => ⟨x, y⟩) (fun _ => some value) (places runs) := fun runs => by
    simp [plotsAlong, places, List.map_flatMap]
  simp only [spanOf, hplots]
  exact draws_visibleRuns hp x1 x2 y _

theorem draws_box (hp : p.frame.Sound) (rc : Rect) :
    Draws (.box rc.normalized p.ink) p (p.box rc) := by
  rw [box]
  have hmeet := rc.normalized.contains_intersect? p.window
  have hwindow : ∀ x y, p.frame.reaches x y = true → p.window.contains x y = true := fun x y h =>
    (Frame.reaches_iff.mp h).1
  cases hrc : rc.normalized.intersect? p.window with
  | none =>
    refine (draws_blank p).congr fun x y v hreach => ?_
    have := hmeet x y
    rw [hrc, hwindow x y hreach] at this
    simp_all [Layer.blank, Layer.box]
  | some w =>
    have hstep : ∀ q : Painter, q.frame = p.frame → q.tool = p.tool → ∀ y' ∈ irange w.top (w.bottom - 1),
        Draws (fun x y _ => if y = y' ∧ w.left ≤ x ∧ x < w.right then some p.ink else none) q
          (q.spanOf w.left (w.right - 1) y' q.ink) := by
      intro q hframe htool y' _
      have hink : q.ink = p.ink := congrArg Tool.ink htool
      have := Rect.isEmpty_eq_false_iff.mp (Rect.isEmpty_of_intersect? hrc)
      refine (draws_spanOf (hframe ▸ hp) _ _ _ _).congr fun x y v _ => ?_
      rw [Layer.row, stretch, ← ite_and, hink]
      exact if_congr (by omega) rfl rfl
    refine Draws.foldl_shapes hstep ((pairwise_irange _ _).imp fun hlt x z h h' => by omega) fun x y hreach => ?_
    have hin := hmeet x y
    rw [hrc, hwindow x y hreach, Bool.and_true, Option.any_some] at hin
    simp only [← hin, Rect.contains_iff, mem_irange]
    constructor
    · intro h
      exact ⟨y, by omega, rfl, by omega⟩
    · rintro ⟨y', hy', rfl, hx⟩
      omega

theorem draws_blend (hp : p.frame.Sound) (x y : Int) (c : Color) :
    Draws (.dot x y fun v => if c.a = 0 then none else some (p.surface.format.overlaid c v)) p
      (p.blend x y c) := by
  rw [blend]
  by_cases ha : c.a = 0
  · rw [if_pos ha]
    refine (draws_blank p).congr fun x' y' v _ => ?_
    simp [Layer.blank, Layer.dot, ha]
  · rw [if_neg ha]
    refine draws_look hp x y _ _ fun v hv => ?_
    rw [hv, if_neg ha]
    rfl

theorem draws_source (hp : p.frame.Sound) (x y : Int) (src : Array Pixel) (transparent : Option Pixel) :
    Draws (.row y (stretch x (x + src.size - 1) fun cx => sourceAt? src transparent (cx - x).toNat)) p
      (p.source x y src transparent) := by
  rw [source]
  by_cases hempty : src.isEmpty = true
  · rw [if_pos hempty]
    refine (draws_blank p).congr fun x' y' v _ => ?_
    rw [Array.isEmpty_iff] at hempty
    subst hempty
    simp [Layer.blank, Layer.row, stretch, sourceAt?]
  · rw [if_neg hempty]
    have hplots : ∀ runs : List (Int × Int),
        (runs.flatMap fun r => (irange r.1 r.2).filterMap fun cx =>
          (sourceAt? src transparent (cx - x).toNat).map fun v => (⟨cx, y, v⟩ : Plot)) =
        plotsAlong (fun x => ⟨x, y⟩) (fun cx => sourceAt? src transparent (cx - x).toNat) (places runs) :=
      fun runs => by simp [plotsAlong, places, List.filterMap_flatMap]
    simp only [hplots]
    exact draws_visibleRuns hp _ _ y _

theorem draws_brushRow (hp : p.frame.Sound) (x1 x2 y : Int) (brush : Brush) (background : Pixel) :
    Draws (.row y (stretch x1 x2 fun x => brush.pixelAt background x y)) p
      (p.brushRow x1 x2 y brush background) := by
  have hplots : ∀ runs : List (Int × Int),
      (runs.flatMap fun r => (brush.spanPixels background y r.1 (r.2 - r.1 + 1).toNat).map
        fun d => (⟨d.1, y, d.2⟩ : Plot)) =
      plotsAlong (fun x => ⟨x, y⟩) (fun x => brush.pixelAt background x y) (places runs) := fun runs => by
    simp [plotsAlong, places, List.filterMap_flatMap, Brush.spanPixels_eq, List.map_filterMap,
      Function.comp_def]
  simp only [brushRow, hplots]
  exact draws_visibleRuns hp x1 x2 y _

end Painter

end Rasterizer
