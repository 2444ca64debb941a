import Rasterizer.Proofs.Region.Banded
import Rasterizer.Proofs.RowSpans
import Rasterizer.Stroke.Polyline
import Mathlib.Data.Int.Interval
import Mathlib.Data.Set.Card

/-! # Runs as sets of pixels

A collection in normal form stands for a set of pixels (`RowSpans.Represents`): its runs come row by row
with gaps between them, and number and bound are those of the set. Collecting runs and normalizing makes
the union of their pixels, and cutting away another collection makes the difference. Nothing is asked of
the runs, so a stroke is a pair of such sets whatever its raw runs are (`RowSpans.represents_ops`). -/

namespace Rasterizer

/-- The rectangle holds the pixels of the set, and any other that does covers it. -/
structure Rect.Bounds (rc : Rect) (S : Set Point) : Prop where
  subset : S ⊆ rc.pixels
  least : ∀ outer : Rect, S ⊆ outer.pixels → outer.covers rc = true

def Run.pixels (r : Run) : Set Point := {p | r.Covers p}

namespace Rect.Bounds

variable {rc rc' : Rect} {S : Set Point}

theorem unique (h : rc.Bounds S) (h' : rc'.Bounds S) : rc = rc' := by
  have hle := covers_iff.mp (h.least rc' h'.subset)
  have hge := covers_iff.mp (h'.least rc h.subset)
  cases rc
  cases rc'
  simp only [Rect.mk.injEq] at *
  omega

theorem nonempty (h : rc.Bounds S) : S.Nonempty := by
  -- a rectangle without pixels would hold the empty set, but it covers nothing
  refine Set.nonempty_iff_ne_empty.mpr fun hempty => ?_
  have := covers_iff.mp (h.least Rect.zero (hempty ▸ Set.empty_subset _))
  simp only [Rect.zero] at this
  omega

theorem run {r : Run} (hr : r.x1 ≤ r.x2) : (⟨r.x1, r.y, r.x2 + 1, r.y + 1⟩ : Rect).Bounds r.pixels where
  subset p hp := by
    obtain ⟨hy, hx1, hx2⟩ := hp
    refine contains_iff.mpr ?_
    dsimp only
    omega
  least outer houter := by
    have hfirst := contains_iff.mp (houter (show r.Covers ⟨r.x1, r.y⟩ from ⟨rfl, Int.le_refl _, hr⟩))
    have hlast := contains_iff.mp (houter (show r.Covers ⟨r.x2, r.y⟩ from ⟨rfl, hr, Int.le_refl _⟩))
    refine covers_iff.mpr ?_
    dsimp only at *
    omega

theorem extend {r : Run} (h : rc.Bounds S) (hr : r.x1 ≤ r.x2) :
    (RowSpans.extend rc r).Bounds (S ∪ r.pixels) where
  subset p hp := by
    refine contains_iff.mpr ?_
    have hcases : rc.contains p.x p.y = true ∨ r.Covers p := hp.imp_left (h.subset ·)
    simp only [contains_iff, Run.Covers] at hcases
    simp only [RowSpans.extend]
    omega
  least outer houter := by
    obtain ⟨hS, hr'⟩ := Set.union_subset_iff.mp houter
    have hrc := covers_iff.mp (h.least outer hS)
    have hrun := covers_iff.mp ((run hr).least outer hr')
    refine covers_iff.mpr ?_
    simp only [RowSpans.extend] at *
    omega

end Rect.Bounds

namespace RowSpans

variable {s other : RowSpans} {S T : Set Point} {r : Run} {rs : List Run}

/-- The pixels of a list of runs. -/
def pixelsOf (rs : List Run) : Set Point := {p | ∃ r ∈ rs, r.Covers p}

theorem pixelsOf_cons : pixelsOf (r :: rs) = r.pixels ∪ pixelsOf rs := by
  ext p
  simp only [pixelsOf, Run.pixels, List.mem_cons, exists_eq_or_imp, Set.mem_ofPred_eq, Set.mem_union]

/-! ## Number and bound -/

theorem encard_pixels (hr : r.x1 ≤ r.x2) : r.pixels.encard = (r.x2 - r.x1 + 1).toNat := by
  have himage : r.pixels = (fun x => (⟨x, r.y⟩ : Point)) '' Set.Icc r.x1 r.x2 := by
    ext ⟨x, y⟩
    simp only [Run.pixels, Run.Covers, Set.mem_ofPred_eq, Set.mem_image, Set.mem_Icc, Point.mk.injEq]
    constructor
    · intro hp
      exact ⟨x, hp.2, rfl, hp.1.symm⟩
    · rintro ⟨_, hx, rfl, hy⟩
      exact ⟨hy.symm, hx⟩
  have hinj : Function.Injective fun x => (⟨x, r.y⟩ : Point) := fun _ _ h => (Point.mk.inj h).1
  rw [himage, hinj.encard_image, ← Finset.coe_Icc, Set.encard_coe_eq_coe_finsetCard, Int.card_Icc]
  congr 1
  omega

/-- Runs without a common pixel have as many pixels as they are long together. -/
theorem encard_pixelsOf (hne : ∀ r ∈ rs, r.x1 ≤ r.x2) (hapart : rs.Pairwise Run.Apart) :
    (pixelsOf rs).encard = (rs.map fun r => (r.x2 - r.x1 + 1).toNat).sum := by
  induction rs with
  | nil => simp [pixelsOf]
  | cons r rs ih =>
    obtain ⟨hr, hne⟩ := List.forall_mem_cons.mp hne
    obtain ⟨hfirst, hapart⟩ := List.pairwise_cons.mp hapart
    have hdisjoint : Disjoint r.pixels (pixelsOf rs) := by
      refine Set.disjoint_left.mpr ?_
      intro p hp hrest
      obtain ⟨r', hr', hp'⟩ := hrest
      exact hfirst r' hr' p hp hp'
    rw [pixelsOf_cons, Set.encard_union_eq hdisjoint, encard_pixels hr, ih hne hapart, List.map_cons,
      List.sum_cons, Nat.cast_add]

theorem sum_lengths (hne : ∀ r ∈ rs, r.x1 ≤ r.x2) (hfit : ∀ r ∈ rs, Fits32 (r.x2 - r.x1 + 1)) :
    rs.foldl (fun n r => n + wrap32 (r.x2 - r.x1 + 1)) 0 =
      ((rs.map fun r => (r.x2 - r.x1 + 1).toNat).sum : Nat) := by
  rw [← List.foldl_map, ← List.sum_eq_foldl]
  induction rs with
  | nil => rfl
  | cons r rs ih =>
    obtain ⟨hr, hne⟩ := List.forall_mem_cons.mp hne
    obtain ⟨hfirst, hfit⟩ := List.forall_mem_cons.mp hfit
    simp only [List.map_cons, List.sum_cons, ih hne hfit, hfirst.wrap, Nat.cast_add]
    omega

theorem bounds_foldl_extend {rc : Rect} (h : rc.Bounds S) (hne : ∀ r ∈ rs, r.x1 ≤ r.x2) :
    (rs.foldl extend rc).Bounds (S ∪ pixelsOf rs) := by
  induction rs generalizing rc S with
  | nil => simpa [pixelsOf] using h
  | cons r rs ih =>
    obtain ⟨hr, hne⟩ := List.forall_mem_cons.mp hne
    rw [List.foldl_cons, pixelsOf_cons, ← Set.union_assoc]
    exact ih (h.extend hr) hne

theorem bound?_spec (hne : ∀ r ∈ s.runs, r.x1 ≤ r.x2) :
    (s.bound? = none ∧ s.runs = []) ∨ ∃ rc, s.bound? = some rc ∧ rc.Bounds (pixelsOf s.runs) := by
  unfold bound?
  cases hruns : s.runs with
  | nil => exact .inl ⟨rfl, rfl⟩
  | cons r rest =>
    rw [hruns] at hne
    obtain ⟨hr, hrest⟩ := List.forall_mem_cons.mp hne
    refine .inr ⟨_, rfl, ?_⟩
    rw [pixelsOf_cons]
    exact bounds_foldl_extend (.run hr) hrest

/-! ## Sets -/

/-- The collection is the set of pixels in normal form: runs with pixels, row by row, on each row from
left to right with a pixel of the gap between any two. They are listed as they stand. A collection of no
pixels has no runs, so there are no rows without pixels either. The number is that of the set as far as
lengths fit in 32 bits and their sum in 64. -/
structure Represents (s : RowSpans) (S : Set Point) : Prop where
  covers : ∀ p, s.Covers p ↔ p ∈ S
  nonempty : ∀ r ∈ s.runs, r.x1 ≤ r.x2
  gapped : s.runs.Pairwise Run.Gapped
  toList : s.toList = s.runs
  isEmpty : s.isEmpty = true ↔ S = ∅
  pixelCount : (∀ r ∈ s.runs, Fits32 (r.x2 - r.x1 + 1)) → S.encard < 18446744073709551616 →
    S.encard = s.pixelCount
  bound_none : s.bound? = none ↔ S = ∅
  bound_some : ∀ rc, s.bound? = some rc ↔ rc.Bounds S

theorem pixelsOf_eq_empty (hne : ∀ r ∈ rs, r.x1 ≤ r.x2) : pixelsOf rs = ∅ ↔ rs = [] := by
  constructor
  · intro hempty
    refine List.eq_nil_iff_forall_not_mem.mpr fun r hr => ?_
    have hfirst : (⟨r.x1, r.y⟩ : Point) ∈ pixelsOf rs := ⟨r, hr, rfl, Int.le_refl _, hne r hr⟩
    rw [hempty] at hfirst
    exact hfirst
  · intro hnil
    simp [pixelsOf, hnil]

theorem Represents.of_gapped (hne : ∀ r ∈ s.runs, r.x1 ≤ r.x2) (hgapped : s.runs.Pairwise Run.Gapped)
    (hcovers : ∀ p, s.Covers p ↔ p ∈ S) : s.Represents S := by
  obtain rfl : pixelsOf s.runs = S := Set.ext hcovers
  have hempty := pixelsOf_eq_empty hne
  refine ⟨hcovers, hne, hgapped, ?_, ?_, ?_, ?_, ?_⟩
  · refine List.mergeSort_of_pairwise (hgapped.imp ?_)
    intro a b hab
    unfold Run.Gapped at hab
    rw [decide_eq_true_eq]
    omega
  · rw [hempty]
    exact List.isEmpty_iff
  · intro hfit hsum
    rw [encard_pixelsOf hne (hgapped.imp fun h => h.before.apart)] at hsum ⊢
    have hsum : (s.runs.map fun r => (r.x2 - r.x1 + 1).toNat).sum < 18446744073709551616 := by
      exact_mod_cast hsum
    rw [RowSpans.pixelCount, sum_lengths hne hfit]
    congr 1
    omega
  · rw [hempty]
    rcases bound?_spec hne with ⟨hnone, hnil⟩ | ⟨rc, hsome, hbounds⟩
    · exact iff_of_true hnone hnil
    · refine iff_of_false (by simp [hsome]) fun hnil => ?_
      exact hbounds.nonempty.ne_empty (hempty.mpr hnil)
  · intro rc
    rcases bound?_spec hne with ⟨hnone, hnil⟩ | ⟨rc', hsome, hbounds⟩
    · refine iff_of_false (by simp [hnone]) fun hbounds => ?_
      exact hbounds.nonempty.ne_empty (hempty.mpr hnil)
    · rw [hsome, Option.some.injEq]
      exact ⟨fun heq => heq ▸ hbounds, hbounds.unique⟩

/-- Runs are collected one after another, those without pixels left out. -/
theorem foldl_add (rs : List Run) : rs.foldl add empty = ofRuns rs := by
  have happend : ∀ s : RowSpans, rs.foldl add s = ⟨s.runs ++ (ofRuns rs).runs⟩ := by
    induction rs with
    | nil => simp [ofRuns]
    | cons r rs ih =>
      intro s
      rw [List.foldl_cons, ih]
      unfold add ofRuns
      by_cases hr : r.x1 ≤ r.x2
      · simp [hr, show ¬r.x2 < r.x1 by omega]
      · simp [hr, show r.x2 < r.x1 by omega]
  exact happend empty

theorem represents_normalize (rs : List Run) : (ofRuns rs).normalize.Represents (pixelsOf rs) :=
  .of_gapped (nonempty_normalize (nonempty_ofRuns rs)) (gapped_normalize _) fun _ =>
    (covers_normalize _).trans covers_ofRuns

theorem Represents.subtract (h : s.Represents S) (h' : other.Represents T) :
    (s.subtract other).Represents (S \ T) := by
  refine .of_gapped (nonempty_subtract s other) (gapped_subtract h'.nonempty h.gapped) fun p => ?_
  rw [covers_subtract h'.nonempty (h'.gapped.imp Run.Gapped.before), h.covers, h'.covers]
  exact Iff.rfl

end RowSpans

end Rasterizer
