import Rasterizer.Proofs.Region.Row
import Rasterizer.Region.Basic

/-! # Bands

The sweep over the rows works as the one along a row: between neighbouring tops and
bottoms of all rectangles every row holds the same columns, so the bands hold the pixels
that the operation keeps, and joining the bands that touch and agree leaves none that do
(`combineBands_spec`). Nothing is assumed of the rectangles that are combined. -/

namespace Rasterizer.Region

/-- Some rectangle holds the pixel. -/
def anyContains (rects : List Rect) (x y : Int) : Bool := rects.any fun rc => rc.contains x y

theorem anyContains_iff {rects : List Rect} {x y : Int} :
    anyContains rects x y = true ↔ ∃ rc ∈ rects, rc.contains x y = true := by
  simp [anyContains]

def Band.Holds (b : Band) (x y : Int) : Prop := (b.top ≤ y ∧ y < b.bottom) ∧ covered b.row x = true

theorem anyContains_rects {b : Band} {x y : Int} :
    anyContains b.rects x y = true ↔ b.Holds x y := by
  rw [anyContains_iff, Band.Holds, covered_iff]
  constructor
  · rintro ⟨rc, hrc, hx⟩
    obtain ⟨iv, hiv, rfl⟩ := List.mem_map.mp hrc
    obtain ⟨hl, hr, ht, hb⟩ := Rect.contains_iff.mp hx
    exact ⟨⟨ht, hb⟩, iv, hiv, hl, hr⟩
  · rintro ⟨⟨ht, hb⟩, iv, hiv, hl, hr⟩
    exact ⟨_, List.mem_map.mpr ⟨iv, hiv, rfl⟩, Rect.contains_iff.mpr ⟨hl, hr, ht, hb⟩⟩

theorem anyContains_flatMap_rects {bands : List Band} {x y : Int} :
    anyContains (bands.flatMap Band.rects) x y = true ↔ ∃ b ∈ bands, b.Holds x y := by
  simp only [← anyContains_rects, anyContains_iff, List.mem_flatMap]
  constructor
  · rintro ⟨rc, ⟨b, hb, hrc⟩, hx⟩
    exact ⟨b, hb, rc, hrc, hx⟩
  · rintro ⟨b, hb, rc, hrc, hx⟩
    exact ⟨rc, ⟨b, hb, hrc⟩, hx⟩

/-- A band with rows and columns, and gaps between these. -/
structure Band.Sound (b : Band) : Prop where
  rows : b.top < b.bottom
  columns : b.row ≠ []
  gapped : Gapped b.row

/-- Bands downwards, of which two that touch differ in their columns. -/
structure Stacked (bands : List Band) : Prop where
  sound : ∀ b ∈ bands, b.Sound
  sorted : bands.Pairwise fun b c => b.bottom ≤ c.top ∧ (b.bottom = c.top → b.row ≠ c.row)

/-! ## Joining bands -/

theorem top_of_mem_joinOnto {b d : Band} {bands : List Band} (h : d ∈ b.joinOnto bands) :
    d.top = b.top ∨ d ∈ bands := by
  cases bands with
  | nil => exact .inl (congrArg Band.top (List.mem_singleton.mp h))
  | cons c more =>
    simp only [Band.joinOnto] at h
    split at h
    · rcases List.mem_cons.mp h with rfl | h
      · exact .inl rfl
      · exact .inr (List.mem_cons_of_mem _ h)
    · rcases List.mem_cons.mp h with rfl | h
      · exact .inl rfl
      · exact .inr h

theorem stacked_joinOnto {b : Band} {bands : List Band} (hb : b.Sound) (h : Stacked bands)
    (hbelow : ∀ c ∈ bands, b.bottom ≤ c.top) : Stacked (b.joinOnto bands) := by
  cases bands with
  | nil => exact ⟨by simpa [Band.joinOnto] using hb, List.pairwise_singleton _ _⟩
  | cons c more =>
    have hc : c.Sound := h.sound c (List.mem_cons_self ..)
    have hbc := hbelow c (List.mem_cons_self ..)
    have hrows := hb.rows
    have hrows' := hc.rows
    obtain ⟨hmore, hsorted⟩ := List.pairwise_cons.mp h.sorted
    simp only [Band.joinOnto]
    split
    next hjoin =>
      refine ⟨?_, List.pairwise_cons.mpr ⟨?_, hsorted⟩⟩
      · intro d hd
        rcases List.mem_cons.mp hd with rfl | hd
        · exact ⟨by dsimp only; omega, hb.columns, hb.gapped⟩
        · exact h.sound d (List.mem_cons_of_mem _ hd)
      · intro d hd
        rw [hjoin.2]
        exact hmore d hd
    next hapart =>
      refine ⟨?_, List.pairwise_cons.mpr ⟨?_, h.sorted⟩⟩
      · intro d hd
        rcases List.mem_cons.mp hd with rfl | hd
        · exact hb
        · exact h.sound d hd
      · intro d hd
        rcases List.mem_cons.mp hd with rfl | hd
        · exact ⟨hbc, fun htouch hrow => hapart ⟨htouch, hrow⟩⟩
        · -- a band further down does not touch
          have := (hmore d hd).1
          exact ⟨by omega, fun htouch => by omega⟩

theorem holds_joinOnto {b : Band} {bands : List Band} (hb : b.Sound)
    (h : ∀ c ∈ bands, c.Sound) (x y : Int) :
    (∃ d ∈ b.joinOnto bands, d.Holds x y) ↔ b.Holds x y ∨ ∃ d ∈ bands, d.Holds x y := by
  cases bands with
  | nil => simp [Band.joinOnto]
  | cons c more =>
    have hrows := hb.rows
    have hrows' := (h c (List.mem_cons_self ..)).rows
    simp only [Band.joinOnto]
    split
    next hjoin =>
      simp only [List.mem_cons, exists_eq_or_imp, ← or_assoc]
      refine or_congr ?_ Iff.rfl
      simp only [Band.Holds, ← hjoin.2, ← or_and_right]
      refine and_congr_left ?_
      intro _
      omega
    next => simp only [List.mem_cons, exists_eq_or_imp]

theorem joinBands_cons (b : Band) (bands : List Band) :
    joinBands (b :: bands) = b.joinOnto (joinBands bands) := rfl

theorem exists_of_mem_joinBands {bands : List Band} {d : Band} (h : d ∈ joinBands bands) :
    ∃ b ∈ bands, b.top = d.top := by
  induction bands with
  | nil => cases h
  | cons b bands ih =>
    rcases top_of_mem_joinOnto h with he | h
    · exact ⟨b, List.mem_cons_self .., he.symm⟩
    · obtain ⟨c, hc, he⟩ := ih h
      exact ⟨c, List.mem_cons_of_mem _ hc, he⟩

theorem joinBands_spec {bands : List Band} (hsound : ∀ b ∈ bands, b.Sound)
    (hs : bands.Pairwise fun b c => b.bottom ≤ c.top) :
    Stacked (joinBands bands) ∧
      ∀ x y, (∃ d ∈ joinBands bands, d.Holds x y) ↔ ∃ d ∈ bands, d.Holds x y := by
  induction bands with
  | nil => exact ⟨⟨fun _ h => (nomatch h), List.Pairwise.nil⟩, fun _ _ => Iff.rfl⟩
  | cons b bands ih =>
    obtain ⟨hhead, hbands⟩ := List.pairwise_cons.mp hs
    have hb := hsound b (List.mem_cons_self ..)
    obtain ⟨hstacked, hholds⟩ := ih (fun c h => hsound c (List.mem_cons_of_mem _ h)) hbands
    have hbelow : ∀ d ∈ joinBands bands, b.bottom ≤ d.top := fun d hd => by
      obtain ⟨c, hc, he⟩ := exists_of_mem_joinBands hd
      exact he ▸ hhead c hc
    rw [joinBands_cons]
    refine ⟨stacked_joinOnto hb hstacked hbelow, ?_⟩
    intro x y
    rw [holds_joinOnto hb hstacked.sound, hholds]
    simp only [List.mem_cons, exists_eq_or_imp]

/-! ## The sweep -/

/-- All rows of a strip hold the columns of the rectangles that reach over it. -/
theorem covered_columnsAt {rects : List Rect} {vs : List Int} (hvs : vs.Pairwise (· < ·))
    (hends : ∀ v ∈ rowEnds rects, v ∈ vs) {c : Int × Int} (hc : c ∈ cells vs) {y : Int}
    (hy : c.1 ≤ y ∧ y < c.2) (x : Int) :
    covered (columnsAt rects c.1 c.2) x = anyContains rects x y := by
  obtain ⟨-, -, -, hall⟩ := cell_spec hvs hc
  have hcut : ∀ rc ∈ rects, (rc.top ≤ c.1 ∨ c.2 ≤ rc.top) ∧ (rc.bottom ≤ c.1 ∨ c.2 ≤ rc.bottom) :=
    fun rc hrc => ⟨hall _ (hends _ (List.mem_flatMap.mpr ⟨rc, hrc, by simp⟩)),
      hall _ (hends _ (List.mem_flatMap.mpr ⟨rc, hrc, by simp⟩))⟩
  rw [columnsAt, covered_merged, Bool.eq_iff_iff, covered_iff, anyContains_iff]
  constructor
  · rintro ⟨iv, hiv, hx⟩
    obtain ⟨rc, hrc, rfl⟩ := List.mem_map.mp hiv
    obtain ⟨hrc, hover⟩ := List.mem_filter.mp hrc
    rw [Bool.and_eq_true, decide_eq_true_eq, decide_eq_true_eq] at hover
    exact ⟨rc, hrc, Rect.contains_iff.mpr ⟨hx.1, hx.2, by omega, by omega⟩⟩
  · rintro ⟨rc, hrc, hx⟩
    obtain ⟨hl, hr, ht, hb⟩ := Rect.contains_iff.mp hx
    have hover : (decide (rc.top ≤ c.1) && decide (c.2 ≤ rc.bottom)) = true := by
      have := hcut rc hrc
      rw [Bool.and_eq_true, decide_eq_true_eq, decide_eq_true_eq]
      omega
    exact ⟨_, List.mem_map.mpr ⟨rc, List.mem_filter.mpr ⟨hrc, hover⟩, rfl⟩, hl, hr⟩

theorem exists_strip_of_contains {rects : List Rect} {vs : List Int} (hvs : vs.Pairwise (· < ·))
    (hends : ∀ v ∈ rowEnds rects, v ∈ vs) {x y : Int} (h : anyContains rects x y = true) :
    ∃ c ∈ cells vs, c.1 ≤ y ∧ y < c.2 := by
  obtain ⟨rc, hrc, hx⟩ := anyContains_iff.mp h
  obtain ⟨-, -, ht, hb⟩ := Rect.contains_iff.mp hx
  exact exists_cell hvs (hends _ (List.mem_flatMap.mpr ⟨rc, hrc, by simp⟩))
    (hends _ (List.mem_flatMap.mpr ⟨rc, hrc, by simp⟩)) ⟨ht, hb⟩

theorem strips_sorted (op : SetOp) (a b : List Rect) :
    (strips op a b).Pairwise fun c d => c.bottom ≤ d.top :=
  List.pairwise_map.mpr (cells_sorted (cuts_sorted _))

theorem strip_sound {op : SetOp} {a b : List Rect} {d : Band} (hd : d ∈ strips op a b) :
    d.top < d.bottom ∧ Gapped d.row := by
  obtain ⟨c, hc, rfl⟩ := List.mem_map.mp hd
  exact ⟨(cell_spec (cuts_sorted _) hc).1, (combineRows_spec op _ _).1⟩

/-- The strips hold the pixels that the operation keeps. -/
theorem holds_strips (op : SetOp) (a b : List Rect) (x y : Int) :
    (∃ d ∈ strips op a b, d.Holds x y) ↔
      op.keep (anyContains a x y) (anyContains b x y) = true := by
  have hvs := cuts_sorted (rowEnds a ++ rowEnds b)
  have ha : ∀ v ∈ rowEnds a, v ∈ cuts (rowEnds a ++ rowEnds b) := fun _ => mem_cuts_left _
  have hb : ∀ v ∈ rowEnds b, v ∈ cuts (rowEnds a ++ rowEnds b) := fun _ => mem_cuts_right _
  have hstrip : ∀ c ∈ cells (cuts (rowEnds a ++ rowEnds b)), c.1 ≤ y ∧ y < c.2 →
      covered (combineRows op (columnsAt a c.1 c.2) (columnsAt b c.1 c.2)) x =
        op.keep (anyContains a x y) (anyContains b x y) := by
    intro c hc hy
    rw [(combineRows_spec op _ _).2, covered_columnsAt hvs ha hc hy, covered_columnsAt hvs hb hc hy]
  constructor
  · intro hx
    obtain ⟨d, hd, hy, hcov⟩ := hx
    obtain ⟨c, hc, rfl⟩ := List.mem_map.mp hd
    rwa [hstrip c hc hy] at hcov
  · intro hkeep
    obtain ⟨c, hc, hy⟩ : ∃ c ∈ cells (cuts (rowEnds a ++ rowEnds b)), c.1 ≤ y ∧ y < c.2 := by
      cases SetOp.or_of_keep hkeep with
      | inl h => exact exists_strip_of_contains hvs ha h
      | inr h => exact exists_strip_of_contains hvs hb h
    exact ⟨_, List.mem_map.mpr ⟨c, hc, rfl⟩, hy, (hstrip c hc hy).trans hkeep⟩

/-- A row that covers a column is not empty. -/
theorem Band.Holds.row_ne {b : Band} {x y : Int} (h : b.Holds x y) : b.row ≠ [] := by
  intro hnil
  obtain ⟨iv, hiv, -⟩ := covered_iff.mp h.2
  rw [hnil] at hiv
  cases hiv

/-- The bands are stacked and hold the pixels that the operation keeps. -/
theorem combineBands_spec (op : SetOp) (a b : List Rect) :
    Stacked (combineBands op a b) ∧ ∀ x y, (∃ d ∈ combineBands op a b, d.Holds x y) ↔
      op.keep (anyContains a x y) (anyContains b x y) = true := by
  have hsound : ∀ d ∈ (strips op a b).filter fun band => !band.row.isEmpty, d.Sound := by
    intro d hd
    obtain ⟨hd, hne⟩ := List.mem_filter.mp hd
    obtain ⟨hrows, hgapped⟩ := strip_sound hd
    exact ⟨hrows, by simpa using hne, hgapped⟩
  obtain ⟨hstacked, hholds⟩ := joinBands_spec hsound ((strips_sorted op a b).filter _)
  refine ⟨hstacked, ?_⟩
  intro x y
  rw [← holds_strips]
  refine (hholds x y).trans (exists_congr fun d => and_congr_left fun hd => ?_)
  simp [List.mem_filter, hd.row_ne]

end Rasterizer.Region
