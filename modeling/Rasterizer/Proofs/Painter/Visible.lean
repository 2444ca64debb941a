import Rasterizer.Proofs.Painter.Layer
import Rasterizer.Proofs.Region.Algebra

/-! # What may be touched

The three ways of finding what may be touched agree with the frame: a single pixel is looked up
in the band of its row (`look_eq`), a row is cut into the rectangles of its band
(`visibleRuns_spec`), and a column into those of all rectangles that meet it
(`visibleRowRuns_spec`), where the search may end early. The shortcut of a covered window and the
remembered band make no difference to any of them. -/

namespace Rasterizer

open Region (anyContains anyContains_iff)

/-! ## Opening -/

theorem Rect.contains_intersect? (a b : Rect) (x y : Int) :
    ((a.intersect? b).any fun rc => rc.contains x y) = (a.contains x y && b.contains x y) := by
  rw [← contains_meet, intersect?]
  split
  next hempty =>
    rw [Option.any_none, eq_comm, Bool.eq_false_iff]
    intro h
    have := contains_iff.mp h
    simp only [isEmpty, Bool.or_eq_true, decide_eq_true_eq] at hempty
    omega
  next => rfl

/-- Rectangles that share a pixel meet in a rectangle with that pixel. -/
theorem Rect.intersect?_of_contains {a b : Rect} {x y : Int} (ha : a.contains x y = true)
    (hb : b.contains x y = true) : ∃ rc, a.intersect? b = some rc ∧ rc.contains x y = true := by
  have hmeet := a.contains_intersect? b x y
  rw [ha, hb] at hmeet
  cases hrc : a.intersect? b with
  | none => rw [hrc] at hmeet; cases hmeet
  | some rc => exact ⟨rc, rfl, by rwa [hrc] at hmeet⟩

theorem Rect.contains_normalized {rc : Rect} {x y : Int} (h : rc.contains x y = true) :
    rc.normalized.contains x y = true := by
  rw [contains_iff] at h ⊢
  simp only [normalized]
  omega

theorem Rect.isEmpty_of_intersect? {a b c : Rect} (h : a.intersect? b = some c) : c.isEmpty = false := by
  rw [intersect?] at h
  split at h
  · cases h
  next hne =>
    cases h
    simpa using hne

/-- The bound of a banded region holds all of its pixels. -/
theorem Region.Banded.contains_bound {a : Region} (h : a.Banded) {x y : Int}
    (hxy : a.contains x y = true) : a.bound.contains x y = true := by
  rw [h.contains_eq, anyContains_iff] at hxy
  obtain ⟨r, hr, hxy⟩ := hxy
  exact Rect.contains_of_covers (h.bound_covers r hr) hxy

/-- The bound of a larger region is larger. -/
theorem Region.Banded.contains_bound_mono {a b : Region} (ha : a.Banded) (hb : b.Banded)
    (hab : ∀ x y, a.contains x y = true → b.contains x y = true) {x y : Int}
    (h : a.bound.contains x y = true) : b.bound.contains x y = true := by
  have hne : a.rects ≠ [] := by
    intro hnil
    rw [ha.bound_empty hnil, Rect.contains_iff, Rect.zero] at h
    dsimp only at h
    omega
  refine Rect.contains_of_covers (ha.bound_least hne b.bound fun r hr => ?_) h
  have hrect := ha.nonempty r hr
  have hmem : ∀ x y, r.contains x y = true → b.bound.contains x y = true := fun x y hxy => by
    refine hb.contains_bound (hab x y ?_)
    rw [ha.contains_eq, anyContains_iff]
    exact ⟨r, hr, hxy⟩
  have hfirst := hmem r.left r.top (Rect.contains_iff.mpr (by omega))
  have hlast := hmem (r.right - 1) (r.bottom - 1) (Rect.contains_iff.mpr (by omega))
  rw [Rect.contains_iff] at hfirst hlast
  exact Rect.covers_iff.mpr (by omega)

namespace Painter

section Open

variable {s : Surface} {clip : Region} {rc : Rect} {p : Painter}

/-- What may be touched of a surface that is opened in a rectangle. -/
def visible (s : Surface) (clip : Region) (rc : Rect) (x y : Int) : Bool :=
  rc.normalized.contains x y && s.inside x y && clip.contains x y

theorem window_any (hclip : clip.Banded) (x y : Int) :
    ((((rc.normalized.intersect? s.rect).bind fun w => w.intersect? clip.bound).any
      fun w => w.contains x y) && clip.contains x y) = visible s clip rc x y := by
  have hmeet := rc.normalized.contains_intersect? s.rect x y
  rw [Surface.rect_contains] at hmeet
  rw [visible, ← hmeet]
  cases hw : rc.normalized.intersect? s.rect with
  | none => rfl
  | some w =>
    rw [Option.bind_some, Rect.contains_intersect?, Option.any_some, Bool.and_assoc]
    cases hc : clip.contains x y with
    | false => simp
    | true => rw [hclip.contains_bound hc]; simp

theorem open?_eq (s : Surface) (clip : Region) (rc : Rect) :
    open? s clip rc = ((rc.normalized.intersect? s.rect).bind fun w => w.intersect? clip.bound).map
      fun w => ⟨s, clip, w, 0, .set, 1, by decide, clip.rects.any fun rc => rc.covers w, none⟩ := by
  rw [open?]
  cases rc.normalized.intersect? s.rect with
  | none => rfl
  | some w => cases h : w.intersect? clip.bound <;> simp [h]

/-- Nothing opens only where nothing may be touched. -/
theorem visible_of_none (hclip : clip.Banded) (h : open? s clip rc = none) (x y : Int) :
    visible s clip rc x y = false := by
  rw [open?_eq, Option.map_eq_none_iff] at h
  rw [← window_any hclip, h]
  rfl

structure Opened (s : Surface) (clip : Region) (rc : Rect) (p : Painter) : Prop where
  surface : p.surface = s
  tool : p.tool = ⟨0, .set, 1⟩
  sound : p.frame.Sound
  reaches : ∀ x y, p.frame.reaches x y = visible s clip rc x y

theorem opened_of_some (hclip : clip.Banded) (h : open? s clip rc = some p) :
    Opened s clip rc p := by
  rw [open?_eq, Option.map_eq_some_iff] at h
  obtain ⟨w, hw, rfl⟩ := h
  have hany : ∀ x y, (w.contains x y && clip.contains x y) = visible s clip rc x y := by
    intro x y
    rw [← window_any hclip, hw]
    rfl
  refine ⟨rfl, rfl, ⟨hclip, ?_, ?_⟩, hany⟩
  · intro x y hxy
    obtain ⟨v, hv, hw⟩ := Option.bind_eq_some_iff.mp hw
    have hv' := rc.normalized.contains_intersect? s.rect x y
    have hw' := v.contains_intersect? clip.bound x y
    rw [hv, Option.any_some] at hv'
    rw [hw, Option.any_some, hv'] at hw'
    rw [frame] at hxy
    rw [hxy, eq_comm, Bool.and_eq_true, Bool.and_eq_true, Surface.rect_contains] at hw'
    exact Surface.inside_iff.mp hw'.1.2
  · intro hcovered x y hxy
    obtain ⟨r, hr, hcovers⟩ := List.any_eq_true.mp hcovered
    change clip.contains x y = true
    rw [hclip.contains_eq, anyContains_iff]
    exact ⟨r, hr, Rect.contains_of_covers hcovers hxy⟩

theorem Opened.tool_withRop (h : Opened s clip rc p) (rop : RasterOp) :
    (p.withRop rop).tool = ⟨0, rop, 1⟩ := by
  change ({ p.tool with rop := rop } : Tool) = _
  rw [h.tool]

/-- Under a larger clip a rectangle opens as well, and the window is larger. -/
theorem open?_mono {t : Surface} {clip' : Region} (hclip : clip.Banded) (hclip' : clip'.Banded)
    (hshape : s.SameShape t) (hinside : ∀ x y, clip.contains x y = true → clip'.contains x y = true)
    (h : open? s clip rc = some p) :
    ∃ q, open? t clip' rc = some q ∧
      ∀ x y, p.window.contains x y = true → q.window.contains x y = true := by
  rw [open?_eq, Option.map_eq_some_iff] at h
  obtain ⟨w, hw, rfl⟩ := h
  obtain ⟨v, hv, hw⟩ := Option.bind_eq_some_iff.mp hw
  have hcontains : ∀ x y, w.contains x y = true →
      ((v.intersect? clip'.bound).any fun rc => rc.contains x y) = true := by
    intro x y hxy
    have hmeet := v.contains_intersect? clip.bound x y
    rw [hw, Option.any_some, hxy, eq_comm, Bool.and_eq_true] at hmeet
    rw [Rect.contains_intersect?, hmeet.1, hclip.contains_bound_mono hclip' hinside hmeet.2]
    rfl
  have hne := Rect.isEmpty_eq_false_iff.mp (Rect.isEmpty_of_intersect? hw)
  cases hw' : v.intersect? clip'.bound with
  | none =>
    have := hcontains w.left w.top (Rect.contains_iff.mpr (by omega))
    rw [hw'] at this
    cases this
  | some w' =>
    rw [open?_eq, hshape.rect, hv, Option.bind_some, hw', Option.map_some]
    refine ⟨_, rfl, fun x y hxy => ?_⟩
    have := hcontains x y hxy
    rwa [hw', Option.any_some] at this

end Open

/-! ## One pixel -/

variable {p : Painter} (hp : p.frame.Sound)

theorem findBand_eq (hclip : p.clip.Banded) (y : Int) :
    ∃ b, p.findBand y = (p.withBand b, p.clip.rowRects y) := by
  rw [← hclip.bandAt_bandOf? p.lastBand]
  unfold findBand
  cases p.clip.bandOf? y p.lastBand with
  | some start => exact ⟨some start, rfl⟩
  | none => exact ⟨p.lastBand, rfl⟩

theorem any_rowRects (hclip : p.clip.Banded) (x y : Int) :
    ((p.clip.rowRects y).any fun rc => rc.contains x y) = p.clip.contains x y := by
  rw [hclip.contains_eq, Bool.eq_iff_iff, List.any_eq_true, anyContains_iff]
  refine exists_congr fun r => ?_
  rw [Region.mem_rowRects, and_assoc]
  refine and_congr_right fun _ => and_iff_right_of_imp fun h => ?_
  exact Rect.reaches_iff.mpr (Rect.contains_iff.mp h).2.2

include hp in
theorem look_eq (x y : Int) : ∃ b, p.look x y = (p.withBand b, p.frame.reaches x y) := by
  have hreaches : p.frame.reaches x y = (p.window.contains x y && p.clip.contains x y) := rfl
  rw [look]
  by_cases hwindow : p.window.contains x y = true
  · by_cases hcovered : p.unclipped = true
    · have hclip : p.clip.contains x y = true := hp.unclipped hcovered x y hwindow
      exact ⟨p.lastBand, by simp [hreaches, hwindow, hcovered, hclip]; rfl⟩
    · obtain ⟨b, hb⟩ := findBand_eq hp.banded y
      refine ⟨b, ?_⟩
      simp only [hwindow, hcovered, hb, any_rowRects hp.banded, hreaches, Bool.true_and]
      simp
  · exact ⟨p.lastBand, by simp [hreaches, hwindow]; rfl⟩

/-! ## Rows and columns -/

/-- Stretches of places, one behind another, that hold just the places seen. -/
structure Stretches (seen : Int → Prop) (runs : List (Int × Int)) : Prop where
  apart : runs.Pairwise fun r s => r.2 < s.1
  mem_iff : ∀ k, (∃ r ∈ runs, r.1 ≤ k ∧ k ≤ r.2) ↔ seen k

theorem stretches_nil {seen : Int → Prop} (h : ∀ k, ¬seen k) : Stretches seen [] :=
  ⟨.nil, fun k => by simp [h k]⟩

theorem stretches_singleton {seen : Int → Prop} {a b : Int} (h : ∀ k, a ≤ k ∧ k ≤ b ↔ seen k) :
    Stretches seen [(a, b)] :=
  ⟨List.pairwise_singleton .., fun k => by simp [h k]⟩

theorem mem_runIn? {x1 x2 k : Int} {rc : Rect} :
    (∃ r, runIn? x1 x2 rc = some r ∧ r.1 ≤ k ∧ k ≤ r.2) ↔
      (x1 ≤ k ∧ k ≤ x2) ∧ rc.left ≤ k ∧ k < rc.right := by
  rw [runIn?]
  split <;> simp <;> omega

theorem within_of_runIn? {x1 x2 : Int} {rc : Rect} {r : Int × Int} (h : runIn? x1 x2 rc = some r) :
    rc.left ≤ r.1 ∧ r.2 < rc.right := by
  rw [runIn?] at h
  split at h <;> cases h
  simp only
  omega

theorem within_of_intersect? {a b c : Rect} (h : a.intersect? b = some c) :
    a.left ≤ c.left ∧ c.right ≤ a.right := by
  rw [Rect.intersect?] at h
  split at h
  · cases h
  · cases h
    simp only [Rect.meet]
    omega

/-- What is left of a rectangle over the row, cut to the window. -/
theorem mem_part {rc w : Rect} {x1 x2 y k : Int} (hrc : rc.reaches y = true)
    (hw : w.top ≤ y ∧ y < w.bottom) :
    (∃ r, (rc.intersect? w).bind (runIn? x1 x2) = some r ∧ r.1 ≤ k ∧ k ≤ r.2) ↔
      (x1 ≤ k ∧ k ≤ x2) ∧ rc.contains k y = true ∧ w.contains k y = true := by
  have hrow := Rect.reaches_iff.mp hrc
  have hmeet := rc.contains_intersect? w k y
  rw [← Bool.and_eq_true, ← hmeet]
  cases hv : rc.intersect? w with
  | none => simp
  | some v =>
    have hrows : v.top ≤ y ∧ y < v.bottom := by
      rw [Rect.intersect?] at hv
      split at hv <;> cases hv
      simp only [Rect.meet]
      omega
    rw [Option.bind_some, mem_runIn?, Option.any_some, Rect.contains_iff]
    omega

/-- The rectangles of one band stand apart. -/
theorem pairwise_rowRects {a : Region} (h : a.Banded) (y : Int) :
    (a.rowRects y).Pairwise fun r s => r.right < s.left := by
  refine ((h.band.and h.stacked).sublist List.filter_sublist).imp_of_mem fun {r s} hr hs hrs => ?_
  have hr := Rect.reaches_iff.mp (Region.mem_rowRects.mp hr).2
  have hs := Rect.reaches_iff.mp (Region.mem_rowRects.mp hs).2
  by_cases htop : r.top = s.top
  · exact (hrs.1 htop).2
  · have := hrs.2 htop
    omega

include hp in
theorem visibleRuns_spec (x1 x2 y : Int) :
    ∃ b runs, p.visibleRuns x1 x2 y = (p.withBand b, runs) ∧
      Stretches (fun x => (min x1 x2 ≤ x ∧ x ≤ max x1 x2) ∧ p.frame.reaches x y = true) runs := by
  have hreaches : ∀ x, p.frame.reaches x y = true ↔
      p.window.contains x y = true ∧ p.clip.contains x y = true := fun x => Frame.reaches_iff
  have hbanded : p.clip.Banded := hp.banded
  rw [visibleRuns]
  by_cases hrow : y < p.window.top ∨ p.window.bottom ≤ y
  · refine ⟨p.lastBand, [], by simp only [hrow, if_true]; rfl, stretches_nil fun x hx => ?_⟩
    have := Rect.contains_iff.mp ((hreaches x).mp hx.2).1
    omega
  by_cases hcovered : p.unclipped = true
  · refine ⟨p.lastBand, _, by simp only [hrow, hcovered, if_false, if_true]; rfl, ?_, fun k => ?_⟩
    · cases runIn? (min x1 x2) (max x1 x2) p.window <;> simp
    · have hclip : p.window.contains k y = true → p.clip.contains k y = true :=
        hp.unclipped hcovered k y
      have hseen : p.frame.reaches k y = true ↔ p.window.left ≤ k ∧ k < p.window.right := by
        rw [hreaches, and_iff_left_of_imp hclip, Rect.contains_iff]
        omega
      rw [hseen, ← mem_runIn?]
      simp
  · obtain ⟨b, hb⟩ := findBand_eq hbanded y
    refine ⟨b, _, by simp only [hrow, hcovered, if_false, hb]; rfl, ?_, fun k => ?_⟩
    · rw [List.filterMap_filterMap]
      refine List.pairwise_filterMap.mpr ((pairwise_rowRects hbanded y).imp fun {r s} hrs => ?_)
      intro a ha b hb
      obtain ⟨v, hv, ha⟩ := Option.bind_eq_some_iff.mp ha
      obtain ⟨w, hw, hb⟩ := Option.bind_eq_some_iff.mp hb
      have := within_of_intersect? hv
      have := within_of_intersect? hw
      have := within_of_runIn? ha
      have := within_of_runIn? hb
      omega
    · have hpart : ∀ r ∈ p.clip.rowRects y, (∃ a, (r.intersect? p.window).bind
          (runIn? (min x1 x2) (max x1 x2)) = some a ∧ a.1 ≤ k ∧ k ≤ a.2) ↔
          (min x1 x2 ≤ k ∧ k ≤ max x1 x2) ∧ r.contains k y = true ∧ p.window.contains k y = true :=
        fun r hr => mem_part (Region.mem_rowRects.mp hr).2 (by omega)
      rw [hreaches, ← any_rowRects hbanded, List.any_eq_true, List.filterMap_filterMap]
      simp only [List.mem_filterMap]
      constructor
      · rintro ⟨a, ⟨r, hr, ha⟩, hk⟩
        obtain ⟨hx, hrc, hw⟩ := (hpart r hr).mp ⟨a, ha, hk⟩
        exact ⟨hx, hw, r, hr, hrc⟩
      · rintro ⟨hx, hw, r, hr, hrc⟩
        obtain ⟨a, ha, hk⟩ := (hpart r hr).mpr ⟨hx, hrc, hw⟩
        exact ⟨a, ⟨r, hr, ha⟩, hk⟩

/-- The rectangles after the one where the search ends begin below, too. -/
theorem columnRects_eq_filter {rects : List Rect} (h : rects.Pairwise fun r s => r.top ≤ s.top)
    {lo hi : Int} (x : Int) :
    columnRects lo hi x rects =
      rects.filter fun rc => lo < rc.bottom && rc.top ≤ hi && rc.left ≤ x && x < rc.right := by
  induction rects with
  | nil => rfl
  | cons rc rest ih =>
    obtain ⟨hrc, hrest⟩ := List.pairwise_cons.mp h
    rw [columnRects, ih hrest]
    by_cases hbottom : rc.bottom ≤ lo
    · simp [hbottom, show ¬lo < rc.bottom by omega]
    · by_cases htop : hi < rc.top
      · rw [if_neg hbottom, if_pos htop, eq_comm, List.filter_eq_nil_iff]
        intro s hs
        rcases List.mem_cons.mp hs with rfl | hs
        · simp; omega
        · have := hrc s hs
          simp; omega
      · by_cases hx : x < rc.left ∨ rc.right ≤ x
        · rw [if_neg hbottom, if_neg htop, if_pos hx, List.filter_cons_of_neg]
          simp; omega
        · rw [if_neg hbottom, if_neg htop, if_neg hx, List.filter_cons_of_pos]
          simp; omega

theorem pairwise_tops {a : Region} (h : a.Banded) : a.rects.Pairwise fun r s => r.top ≤ s.top :=
  List.pairwise_iff_getElem.mpr fun _ _ hi hj hij =>
    h.top_le (Nat.le_of_lt hij) (List.getElem?_eq_getElem hi) (List.getElem?_eq_getElem hj)

include hp in
theorem visibleRowRuns_spec (y1 y2 x : Int) :
    Stretches (fun y => (min y1 y2 ≤ y ∧ y ≤ max y1 y2) ∧ p.frame.reaches x y = true)
      (p.visibleRowRuns y1 y2 x) := by
  have hreaches : ∀ y, p.frame.reaches x y = true ↔
      p.window.contains x y = true ∧ p.clip.contains x y = true := fun y => Frame.reaches_iff
  have hbanded : p.clip.Banded := hp.banded
  rw [visibleRowRuns]
  generalize hlo : max (min y1 y2) p.window.top = lo
  generalize hhi : min (max y1 y2) (p.window.bottom - 1) = hi
  by_cases hcolumn : x < p.window.left ∨ p.window.right ≤ x ∨ hi < lo
  · simp only [hcolumn, if_true]
    refine stretches_nil fun y hy => ?_
    have := Rect.contains_iff.mp ((hreaches y).mp hy.2).1
    omega
  have hwindow : ∀ y, (lo ≤ y ∧ y ≤ hi) ↔
      (min y1 y2 ≤ y ∧ y ≤ max y1 y2) ∧ p.window.contains x y = true := by
    intro y
    rw [Rect.contains_iff]
    omega
  simp only [hcolumn, if_false]
  by_cases hcovered : p.unclipped = true
  · simp only [hcovered, if_true]
    refine stretches_singleton fun y => ?_
    have hclip : p.window.contains x y = true → p.clip.contains x y = true :=
      hp.unclipped hcovered x y
    rw [hwindow, hreaches, and_iff_left_of_imp hclip]
  · simp only [hcovered]
    rw [if_neg Bool.false_ne_true, columnRects_eq_filter (pairwise_tops hbanded)]
    refine ⟨?_, fun y => ?_⟩
    · -- of two rectangles that meet a column one ends above the other
      have hpairs := hbanded.band.and hbanded.stacked
      refine List.pairwise_map.mpr ((hpairs.sublist List.filter_sublist).imp_of_mem ?_)
      intro r s hr hs hrs
      have hr := (List.mem_filter.mp hr).2
      have hs := (List.mem_filter.mp hs).2
      simp only [Bool.and_eq_true, decide_eq_true_eq] at hr hs
      by_cases htop : r.top = s.top
      · have := hrs.1 htop
        omega
      · have := hrs.2 htop
        simp only
        omega
    · rw [hreaches, ← and_assoc, ← hwindow, hbanded.contains_eq, anyContains_iff]
      constructor
      · rintro ⟨a, ha, hy⟩
        obtain ⟨r, hr, rfl⟩ := List.mem_map.mp ha
        obtain ⟨hr, hmeets⟩ := List.mem_filter.mp hr
        simp only [Bool.and_eq_true, decide_eq_true_eq] at hmeets hy
        exact ⟨by omega, r, hr, Rect.contains_iff.mpr (by omega)⟩
      · rintro ⟨hy, r, hr, hxy⟩
        have hxy := Rect.contains_iff.mp hxy
        refine ⟨_, List.mem_map_of_mem (List.mem_filter.mpr ⟨hr, ?_⟩), ?_⟩
        · simp only [Bool.and_eq_true, decide_eq_true_eq]
          omega
        · simp only
          omega

end Painter

end Rasterizer
