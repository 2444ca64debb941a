import Rasterizer.Proofs.Region.Bands
import Rasterizer.Proofs.Region.Term
import Mathlib.Data.List.Basic

/-! # Banded regions

Every operation of the algebra lists the rectangles of stacked bands with their bound
(`Built`); a single rectangle and a move do so without a sweep. The law of the
representation follows from that alone (`Built.banded`). Edges that fit in 32 bits are kept
by the operations that have no more bits than these (`Term.run_eq_eval`). -/

namespace Rasterizer

namespace Rect

theorem isEmpty_eq_false_iff {rc : Rect} :
    rc.isEmpty = false ↔ rc.left < rc.right ∧ rc.top < rc.bottom := by
  simp [isEmpty]

theorem zero_bound (rc : Rect) : zero.bound rc = rc := rfl

theorem shift_bound (a b : Rect) (dx dy : Int) :
    (a.shift dx dy).bound (b.shift dx dy) = (a.bound b).shift dx dy := by
  have hempty : ∀ rc : Rect, (rc.shift dx dy).isEmpty = rc.isEmpty := fun rc => by
    simp [isEmpty, shift]
  simp only [bound, hempty]
  split
  · rfl
  · split
    · rfl
    · simp only [shift, mk.injEq]
      omega

theorem foldl_shift_bound (rects : List Rect) (acc : Rect) (dx dy : Int) :
    (rects.map fun rc => rc.shift dx dy).foldl bound (acc.shift dx dy) =
      (rects.foldl bound acc).shift dx dy := by
  induction rects generalizing acc with
  | nil => rfl
  | cons rc rects ih =>
    rw [List.map_cons, List.foldl_cons, List.foldl_cons, shift_bound, ih]

theorem covers_iff {rc inner : Rect} :
    rc.covers inner = true ↔ (inner.left < inner.right ∧ inner.top < inner.bottom) ∧
      rc.left ≤ inner.left ∧ inner.right ≤ rc.right ∧ rc.top ≤ inner.top ∧
        inner.bottom ≤ rc.bottom := by
  simp [covers, isEmpty, and_assoc]

/-- A rectangle covers the bound of two exactly when it covers both. -/
theorem covers_bound_iff {rc a b : Rect} (ha : a.isEmpty = false) (hb : b.isEmpty = false) :
    rc.covers (a.bound b) = true ↔ rc.covers a = true ∧ rc.covers b = true := by
  simp only [bound, ha, hb, Bool.false_eq_true, if_false, covers_iff]
  rw [isEmpty_eq_false_iff] at ha hb
  omega

theorem isEmpty_bound {a b : Rect} (ha : a.isEmpty = false) (hb : b.isEmpty = false) :
    (a.bound b).isEmpty = false := by
  simp only [bound, ha, hb, Bool.false_eq_true, if_false, isEmpty_eq_false_iff]
  rw [isEmpty_eq_false_iff] at ha hb
  omega

theorem isEmpty_foldl_bound {acc : Rect} {rects : List Rect} (hacc : acc.isEmpty = false)
    (hne : ∀ r ∈ rects, r.isEmpty = false) : (rects.foldl bound acc).isEmpty = false := by
  induction rects generalizing acc with
  | nil => exact hacc
  | cons r rects ih =>
    obtain ⟨hr, hrects⟩ := List.forall_mem_cons.mp hne
    exact ih (isEmpty_bound hacc hr) hrects

theorem covers_foldl_bound_iff {rc acc : Rect} {rects : List Rect} (hacc : acc.isEmpty = false)
    (hne : ∀ r ∈ rects, r.isEmpty = false) :
    rc.covers (rects.foldl bound acc) = true ↔
      rc.covers acc = true ∧ ∀ r ∈ rects, rc.covers r = true := by
  induction rects generalizing acc with
  | nil => simp
  | cons r rects ih =>
    obtain ⟨hr, hrects⟩ := List.forall_mem_cons.mp hne
    rw [List.foldl_cons, ih (isEmpty_bound hacc hr) hrects, covers_bound_iff hacc hr,
      List.forall_mem_cons, and_assoc]

/-- Around rectangles with pixels the bound is the least rectangle. -/
theorem covers_foldl_zero_iff {rc : Rect} {rects : List Rect} (h : rects ≠ [])
    (hne : ∀ r ∈ rects, r.isEmpty = false) :
    rc.covers (rects.foldl bound zero) = true ↔ ∀ r ∈ rects, rc.covers r = true := by
  cases rects with
  | nil => exact absurd rfl h
  | cons r rects =>
    obtain ⟨hr, hrects⟩ := List.forall_mem_cons.mp hne
    rw [List.foldl_cons, zero_bound, covers_foldl_bound_iff hr hrects, List.forall_mem_cons]

theorem covers_of_mem {r : Rect} {rects : List Rect} (hr : r ∈ rects)
    (hne : ∀ r ∈ rects, r.isEmpty = false) : (rects.foldl bound zero).covers r = true := by
  have hnil : rects ≠ [] := List.ne_nil_of_mem hr
  refine (covers_foldl_zero_iff hnil hne).mp ?_ r hr
  cases rects with
  | nil => exact absurd rfl hnil
  | cons r rects =>
    obtain ⟨hr, hrects⟩ := List.forall_mem_cons.mp hne
    have hbound := isEmpty_eq_false_iff.mp (isEmpty_foldl_bound hr hrects)
    exact covers_iff.mpr ⟨hbound, Int.le_refl _, Int.le_refl _, Int.le_refl _, Int.le_refl _⟩

end Rect

namespace Region

/-! ## Regions made of stacked bands -/

def Built (a : Region) : Prop :=
  ∃ bands, Stacked bands ∧ a = ofBandRects (bands.flatMap Band.rects)

theorem built_empty : Built empty := ⟨[], ⟨fun _ h => (nomatch h), List.Pairwise.nil⟩, rfl⟩

theorem built_combine (op : SetOp) (a : Region) (other : List Rect) : Built (combine op a other) :=
  ⟨_, (combineBands_spec op _ _).1, rfl⟩

theorem built_ofRect (rc : Rect) : Built (ofRect rc) := by
  unfold ofRect
  split
  · exact built_empty
  next hne =>
    rw [Bool.not_eq_true, Rect.isEmpty_eq_false_iff] at hne
    let b : Band := ⟨rc.normalized.top, rc.normalized.bottom,
      [(rc.normalized.left, rc.normalized.right)]⟩
    have hb : b.Sound := ⟨hne.2, List.cons_ne_nil _ _,
      ⟨by simpa [b] using hne.1, List.pairwise_singleton _ _⟩⟩
    exact ⟨[b], ⟨by simpa using hb, List.pairwise_singleton _ _⟩, rfl⟩

theorem built_foldl_unionRect {a : Region} (h : Built a) (rcs : List Rect) :
    Built (rcs.foldl unionRect a) := by
  induction rcs generalizing a with
  | nil => exact h
  | cons rc rcs ih => exact ih (built_combine _ _ _)

def Band.shift (b : Band) (dx dy : Int) : Band :=
  ⟨b.top + dy, b.bottom + dy, b.row.map fun iv => (iv.1 + dx, iv.2 + dx)⟩

theorem Band.Sound.shift {b : Band} (h : b.Sound) (dx dy : Int) : (b.shift dx dy).Sound where
  rows := by
    have := h.rows
    simp only [Band.shift]
    omega
  columns := by simpa [Band.shift] using h.columns
  gapped := by
    refine ⟨?_, List.pairwise_map.mpr (h.gapped.sorted.imp ?_)⟩
    · intro iv hiv
      obtain ⟨iv', hiv', rfl⟩ := List.mem_map.mp hiv
      have := h.gapped.nonempty iv' hiv'
      dsimp only
      omega
    · intro iv iv' hgap
      dsimp only
      omega

theorem Stacked.shift {bands : List Band} (h : Stacked bands) (dx dy : Int) :
    Stacked (bands.map fun b => b.shift dx dy) := by
  refine ⟨?_, List.pairwise_map.mpr (h.sorted.imp ?_)⟩
  · intro d hd
    obtain ⟨b, hb, rfl⟩ := List.mem_map.mp hd
    exact (h.sound b hb).shift dx dy
  · intro b c hbc
    have hinj : Function.Injective fun iv : Interval => (iv.1 + dx, iv.2 + dx) := by
      intro u v huv
      simp only [Prod.mk.injEq] at huv
      exact Prod.ext (by omega) (by omega)
    refine ⟨by simp only [Band.shift]; omega, ?_⟩
    intro htouch hrow
    simp only [Band.shift] at htouch hrow
    exact hbc.2 (by omega) (List.map_injective_iff.mpr hinj hrow)

theorem rects_shift (b : Band) (dx dy : Int) :
    (b.shift dx dy).rects = b.rects.map fun rc => rc.shift dx dy := by
  simp [Band.rects, Band.shift, Rect.shift]

theorem built_shift {a : Region} (h : Built a) (dx dy : Int) : Built (a.shift dx dy) := by
  obtain ⟨bands, hbands, rfl⟩ := h
  refine ⟨bands.map fun b => b.shift dx dy, hbands.shift dx dy, ?_⟩
  have hrects : (bands.map fun b => b.shift dx dy).flatMap Band.rects =
      (bands.flatMap Band.rects).map fun rc => rc.shift dx dy := by
    rw [List.flatMap_map, List.map_flatMap]
    exact List.flatMap_congr fun b _ => rects_shift b dx dy
  rw [hrects]
  cases hall : bands.flatMap Band.rects with
  | nil => rfl
  | cons rc rects =>
    -- the first rectangle replaces the zero bound before anything is moved
    have hbound := Rect.foldl_shift_bound rects rc dx dy
    simp only [shift, ofBandRects, List.map_cons, List.foldl_cons, Rect.zero_bound,
      List.isEmpty_cons, Bool.false_eq_true, if_false, hbound]

theorem Term.built_eval (e : Term) : Built e.eval := by
  cases e with
  | empty => exact built_empty
  | rect rc => exact built_ofRect rc
  | rects rcs => exact built_foldl_unionRect built_empty rcs
  | unionRect e rc => exact built_combine ..
  | intersectRect e rc => exact built_combine ..
  | subtractRect e rc => exact built_combine ..
  | union e f => exact built_combine ..
  | intersect e f => exact built_combine ..
  | offset e dx dy => exact built_shift (built_eval e) dx dy

/-! ## The law of the representation -/

/-- The columns of the rectangles that begin at the row. -/
def rowFrom (a : Region) (top : Int) : List Interval :=
  (a.rects.filter fun rc => rc.top = top).map fun rc => (rc.left, rc.right)

structure Banded (a : Region) : Prop where
  nonempty : ∀ r ∈ a.rects, r.left < r.right ∧ r.top < r.bottom
  /-- Within a band, left to right with gaps. -/
  band : a.rects.Pairwise fun r s => r.top = s.top → r.bottom = s.bottom ∧ r.right < s.left
  /-- From band to band, downwards. -/
  stacked : a.rects.Pairwise fun r s => r.top ≠ s.top → r.bottom ≤ s.top
  /-- Bands that touch differ. -/
  distinct : ∀ r ∈ a.rects, ∀ s ∈ a.rects, r.bottom = s.top → a.rowFrom r.top ≠ a.rowFrom s.top
  bound_empty : a.rects = [] → a.bound = .zero
  bound_covers : ∀ r ∈ a.rects, a.bound.covers r = true
  bound_least : a.rects ≠ [] →
    ∀ rc : Rect, (∀ r ∈ a.rects, rc.covers r = true) → rc.covers a.bound = true

/-- The rectangles that begin at the top of a band are those of the band. -/
theorem Stacked.filter_top {bands : List Band} (h : Stacked bands) {b : Band} (hb : b ∈ bands) :
    (bands.flatMap Band.rects).filter (fun rc => rc.top = b.top) = b.rects := by
  induction bands with
  | nil => cases hb
  | cons c bands ih =>
    obtain ⟨hc, hsorted⟩ := List.pairwise_cons.mp h.sorted
    have hrows := (h.sound c (List.mem_cons_self ..)).rows
    rw [List.flatMap_cons, List.filter_append]
    rcases List.mem_cons.mp hb with rfl | hb
    · have hself : b.rects.filter (fun rc => rc.top = b.top) = b.rects := by
        apply List.filter_eq_self.mpr
        intro r hr
        obtain ⟨iv, -, rfl⟩ := List.mem_map.mp hr
        exact decide_eq_true rfl
      have hrest : (bands.flatMap Band.rects).filter (fun rc => rc.top = b.top) = [] := by
        apply List.filter_eq_nil_iff.mpr
        intro r hr
        obtain ⟨d, hd, hr⟩ := List.mem_flatMap.mp hr
        obtain ⟨iv, -, rfl⟩ := List.mem_map.mp hr
        have := (hc d hd).1
        rw [decide_eq_true_eq]
        dsimp only
        omega
      rw [hself, hrest, List.append_nil]
    · have hnone : c.rects.filter (fun rc => rc.top = b.top) = [] := by
        apply List.filter_eq_nil_iff.mpr
        intro r hr
        obtain ⟨iv, -, rfl⟩ := List.mem_map.mp hr
        have := (hc b hb).1
        rw [decide_eq_true_eq]
        dsimp only
        omega
      rw [hnone, List.nil_append]
      exact ih ⟨fun d hd => h.sound d (List.mem_cons_of_mem _ hd), hsorted⟩ hb

theorem rowFrom_top {bands : List Band} (h : Stacked bands) {b : Band} (hb : b ∈ bands) :
    (ofBandRects (bands.flatMap Band.rects)).rowFrom b.top = b.row := by
  rw [rowFrom, ofBandRects, h.filter_top hb, Band.rects, List.map_map]
  exact List.map_id _

section Stacked

variable {bands : List Band} (h : Stacked bands)
include h

theorem Stacked.rect_nonempty {r : Rect} (hr : r ∈ bands.flatMap Band.rects) :
    r.left < r.right ∧ r.top < r.bottom := by
  obtain ⟨b, hb, hr⟩ := List.mem_flatMap.mp hr
  obtain ⟨iv, hiv, rfl⟩ := List.mem_map.mp hr
  exact ⟨(h.sound b hb).gapped.nonempty iv hiv, (h.sound b hb).rows⟩

theorem Stacked.pairwise_rects : (bands.flatMap Band.rects).Pairwise fun r s =>
    (r.top = s.top ∧ r.bottom = s.bottom ∧ r.right < s.left) ∨ r.bottom ≤ s.top := by
  refine List.pairwise_flatMap.mpr ⟨?_, h.sorted.imp ?_⟩
  · intro b hb
    exact List.pairwise_map.mpr ((h.sound b hb).gapped.sorted.imp fun hgap => .inl ⟨rfl, rfl, hgap⟩)
  · intro b c hbc r hr s hs
    obtain ⟨iv, -, rfl⟩ := List.mem_map.mp hr
    obtain ⟨iv', -, rfl⟩ := List.mem_map.mp hs
    exact .inr hbc.1

theorem Stacked.row_ne {b c : Band} (hb : b ∈ bands) (hc : c ∈ bands) (htouch : b.bottom = c.top) :
    b.row ≠ c.row := by
  have hself : ∀ d ∈ bands, d.bottom = d.top → d.row ≠ d.row := fun d hd he => by
    have := (h.sound d hd).rows
    omega
  have hup : bands.Pairwise fun c b => b.bottom = c.top → b.row ≠ c.row :=
    h.sorted.imp_of_mem fun hc hb hcb he => by
      have := (h.sound _ hc).rows
      have := (h.sound _ hb).rows
      omega
  exact List.Pairwise.forall_of_forall_of_flip hself (h.sorted.imp fun hbc => hbc.2) hup hb hc htouch

theorem Stacked.banded : (ofBandRects (bands.flatMap Band.rects)).Banded := by
  have hempty : ∀ r ∈ bands.flatMap Band.rects, r.isEmpty = false := fun r hr =>
    Rect.isEmpty_eq_false_iff.mpr (h.rect_nonempty hr)
  refine ⟨fun r hr => h.rect_nonempty hr, ?_, ?_, ?_, ?_, ?_, ?_⟩
  · refine h.pairwise_rects.imp_of_mem ?_
    intro r s hr _ hrs htop
    have := (h.rect_nonempty hr).2
    omega
  · refine h.pairwise_rects.imp ?_
    intro r s hrs htop
    omega
  · intro r hr s hs htouch
    obtain ⟨b, hb, hr⟩ := List.mem_flatMap.mp hr
    obtain ⟨c, hc, hs⟩ := List.mem_flatMap.mp hs
    obtain ⟨iv, -, rfl⟩ := List.mem_map.mp hr
    obtain ⟨iv', -, rfl⟩ := List.mem_map.mp hs
    rw [rowFrom_top h hb, rowFrom_top h hc]
    exact h.row_ne hb hc htouch
  · intro hnil
    exact congrArg (List.foldl Rect.bound .zero) hnil
  · exact fun r hr => Rect.covers_of_mem hr hempty
  · exact fun hnil rc => (Rect.covers_foldl_zero_iff hnil hempty).mpr

end Stacked

theorem Built.banded {a : Region} (h : Built a) : a.Banded := by
  obtain ⟨bands, hbands, rfl⟩ := h
  exact hbands.banded

/-- However a region was made, its rectangles lie in bands within the least bound. -/
theorem Term.banded_eval (e : Term) : e.eval.Banded := e.built_eval.banded

/-! ## Edges of 32 bits -/

theorem Banded.fits_bound {a : Region} (h : a.Banded) (hfits : ∀ rc ∈ a.rects, rc.Fits) : a.bound.Fits := by
  by_cases hnil : a.rects = []
  · rw [h.bound_empty hnil]
    decide
  · have hcovers := h.bound_least hnil ⟨-2147483648, -2147483648, 2147483647, 2147483647⟩ fun r hr => by
      have hr' := hfits r hr
      simp only [Rect.Fits, Fits32] at hr'
      refine Rect.covers_iff.mpr ⟨h.nonempty r hr, ?_⟩
      dsimp only
      omega
    rw [Rect.covers_iff] at hcovers
    simp only [Rect.Fits, Fits32] at hcovers ⊢
    omega

theorem offset_eq_shift {a : Region} {dx dy : Int} (h : (a.shift dx dy).Banded)
    (hfits : ∀ rc ∈ (a.shift dx dy).rects, rc.Fits) : a.offset dx dy = a.shift dx dy := by
  have hrects : (a.rects.map fun rc => rc.offset dx dy) = a.rects.map fun rc => rc.shift dx dy :=
    List.map_congr_left fun rc hrc => (hfits _ (List.mem_map_of_mem hrc)).wrap
  have hbound := h.fits_bound hfits
  rw [offset, shift, hrects]
  rw [shift] at hbound
  split
  next => rfl
  next hsome =>
    rw [if_neg hsome] at hbound
    rw [Rect.offset, hbound.wrap]

/-- The operations make the region that the term stands for, if its moves keep edges in 32 bits. -/
theorem Term.run_eq_eval {e : Term} (h : e.Fits) : e.run = e.eval := by
  induction e with
  | empty | rect | rects => rfl
  | unionRect e rc ih | intersectRect e rc ih | subtractRect e rc ih => rw [run, eval, ih h]
  | union e f ihe ihf | intersect e f ihe ihf => rw [run, eval, ihe h.1, ihf h.2]
  | offset e dx dy ih => rw [run, eval, ih h.1, offset_eq_shift (Term.offset e dx dy).banded_eval h.2]

/-- A rectangle ten pixels wide that is moved to the last six columns. -/
def beyondRight : Term := .offset (.rect ⟨0, 0, 10, 10⟩) 2147483642 0

/-- Two rectangles that are joined and moved. -/
def movedPair : Term := .offset (.unionRect (.rect ⟨0, 0, 2, 1⟩) ⟨1, 1, 4, 3⟩) (-1) 5

end Region

end Rasterizer
