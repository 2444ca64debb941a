import Rasterizer.Region.Row
import Mathlib.Order.Basic
import Mathlib.Tactic.ByContra

/-! # Rows

Sorting and merging intervals keeps their columns (`covered_merged`). Between neighbouring ends of two
rows each of them is covered throughout or not at all, so the cells kept for their left ends are the columns
that the operation keeps (`covered_combineRows`), and joining those that touch leaves gaps
(`gapped_combineRows`). -/

namespace Rasterizer.Region

/-! ## Cells -/

theorem cells_cons_cons (v w : Int) (vs : List Int) :
    cells (v :: w :: vs) = (v, w) :: cells (w :: vs) := rfl

/-- A cell lies between two of the values and has none of them inside. -/
theorem cell_spec {vs : List Int} (h : vs.Pairwise (· < ·)) {c : Int × Int} (hc : c ∈ cells vs) :
    c.1 < c.2 ∧ c.1 ∈ vs ∧ c.2 ∈ vs ∧ ∀ v ∈ vs, v ≤ c.1 ∨ c.2 ≤ v := by
  induction vs with
  | nil => cases hc
  | cons v ws ih =>
    cases ws with
    | nil => cases hc
    | cons w ws =>
      obtain ⟨hv, hw⟩ := List.pairwise_cons.mp h
      rw [cells_cons_cons, List.mem_cons] at hc
      rcases hc with rfl | hc
      · refine ⟨hv w (by simp), by simp, by simp, ?_⟩
        intro u hu
        rcases List.mem_cons.mp hu with rfl | hu
        · exact .inl (Int.le_refl u)
        · rcases List.mem_cons.mp hu with rfl | hu
          · exact .inr (Int.le_refl u)
          · exact .inr (Int.le_of_lt ((List.pairwise_cons.mp hw).1 u hu))
      · obtain ⟨hlt, h1, h2, hall⟩ := ih hw hc
        refine ⟨hlt, by simp [h1], by simp [h2], ?_⟩
        intro u hu
        rcases List.mem_cons.mp hu with rfl | hu
        · exact .inl (Int.le_of_lt (hv c.1 h1))
        · exact hall u hu

theorem cells_sorted {vs : List Int} (h : vs.Pairwise (· < ·)) :
    (cells vs).Pairwise fun a b => a.2 ≤ b.1 := by
  induction vs with
  | nil => exact .nil
  | cons v ws ih =>
    cases ws with
    | nil => exact .nil
    | cons w ws =>
      obtain ⟨-, hw⟩ := List.pairwise_cons.mp h
      refine List.pairwise_cons.mpr ⟨?_, ih hw⟩
      intro c hc
      rcases List.mem_cons.mp (cell_spec hw hc).2.1 with he | hmem
      · exact Int.le_of_eq he.symm
      · exact Int.le_of_lt ((List.pairwise_cons.mp hw).1 c.1 hmem)

/-- Between two of the values every number lies in a cell. -/
theorem exists_cell {vs : List Int} (h : vs.Pairwise (· < ·)) {v w x : Int} (hv : v ∈ vs)
    (hw : w ∈ vs) (hx : v ≤ x ∧ x < w) : ∃ c ∈ cells vs, c.1 ≤ x ∧ x < c.2 := by
  induction vs generalizing v with
  | nil => cases hv
  | cons u us ih =>
    cases us with
    | nil =>
      rw [List.mem_singleton] at hv hw
      omega
    | cons u' us =>
      obtain ⟨hu, hus⟩ := List.pairwise_cons.mp h
      have hle : u ≤ x := by
        rcases List.mem_cons.mp hv with rfl | hv
        · exact hx.1
        · exact Int.le_trans (Int.le_of_lt (hu v hv)) hx.1
      have hw' : w ∈ u' :: us := by
        rcases List.mem_cons.mp hw with rfl | hw
        · omega
        · exact hw
      rw [cells_cons_cons]
      by_cases hlt : x < u'
      · exact ⟨(u, u'), by simp, hle, hlt⟩
      · obtain ⟨c, hc, hcx⟩ := ih hus (List.mem_cons_self ..) hw' ⟨Int.not_lt.mp hlt, hx.2⟩
        exact ⟨c, List.mem_cons_of_mem _ hc, hcx⟩

/-! ## Columns -/

theorem covered_iff {row : List Interval} {x : Int} :
    covered row x = true ↔ ∃ iv ∈ row, iv.1 ≤ x ∧ x < iv.2 := by
  simp [covered]

theorem covered_cons {iv : Interval} {row : List Interval} {x : Int} :
    covered (iv :: row) x = true ↔ (iv.1 ≤ x ∧ x < iv.2) ∨ covered row x = true := by
  simp [covered]

/-! ## Merging intervals -/

theorem mem_insertInterval {a iv : Interval} {row : List Interval} :
    iv ∈ insertInterval a row ↔ iv = a ∨ iv ∈ row := by
  induction row with
  | nil => simp [insertInterval]
  | cons b more ih =>
    simp only [insertInterval]
    split
    · simp
    · rw [List.mem_cons, ih, List.mem_cons]
      exact or_left_comm

theorem insertInterval_sorted {a : Interval} {row : List Interval}
    (h : row.Pairwise fun b c => b.1 ≤ c.1) :
    (insertInterval a row).Pairwise fun b c => b.1 ≤ c.1 := by
  induction row with
  | nil => exact List.pairwise_singleton _ _
  | cons b more ih =>
    obtain ⟨hb, hmore⟩ := List.pairwise_cons.mp h
    simp only [insertInterval]
    split
    next hab =>
      have hle : a.1 ≤ b.1 := by omega
      refine List.pairwise_cons.mpr ⟨?_, h⟩
      intro c hc
      rcases List.mem_cons.mp hc with rfl | hc
      · exact hle
      · exact Int.le_trans hle (hb c hc)
    next hab =>
      refine List.pairwise_cons.mpr ⟨?_, ih hmore⟩
      intro c hc
      rcases mem_insertInterval.mp hc with rfl | hc
      · omega
      · exact hb c hc

theorem mem_sorted {iv : Interval} {ivs : List Interval} :
    iv ∈ ivs.foldr insertInterval [] ↔ iv ∈ ivs := by
  induction ivs with
  | nil => rfl
  | cons a more ih => rw [List.foldr_cons, mem_insertInterval, ih, List.mem_cons]

theorem sorted_pairwise (ivs : List Interval) :
    (ivs.foldr insertInterval []).Pairwise fun b c => b.1 ≤ c.1 := by
  induction ivs with
  | nil => exact List.Pairwise.nil
  | cons a more ih => exact insertInterval_sorted ih

theorem covered_mergeFrom {a : Interval} {row : List Interval}
    (h : (a :: row).Pairwise fun b c => b.1 ≤ c.1) (x : Int) :
    covered (mergeFrom a row) x = covered (a :: row) x := by
  induction row generalizing a with
  | nil => rfl
  | cons b more ih =>
    obtain ⟨ha, hrow⟩ := List.pairwise_cons.mp h
    have hab : a.1 ≤ b.1 := ha b (List.mem_cons_self ..)
    simp only [mergeFrom]
    split
    next hmeet =>
      have hsorted : ((a.1, max a.2 b.2) :: more).Pairwise fun b c => b.1 ≤ c.1 :=
        List.pairwise_cons.mpr
          ⟨fun c hc => ha c (List.mem_cons_of_mem _ hc), (List.pairwise_cons.mp hrow).2⟩
      rw [ih hsorted, Bool.eq_iff_iff, covered_cons, covered_cons, covered_cons, ← or_assoc]
      refine or_congr ?_ Iff.rfl
      dsimp only
      omega
    next => rw [Bool.eq_iff_iff, covered_cons, ih hrow, ← covered_cons]

/-- Sorting and merging keep the columns, whatever the intervals. -/
theorem covered_merged (ivs : List Interval) (x : Int) : covered (merged ivs) x = covered ivs x := by
  have hsorted := sorted_pairwise ivs
  have hmem : covered (ivs.foldr insertInterval []) x = covered ivs x := by
    rw [Bool.eq_iff_iff, covered_iff, covered_iff]
    exact exists_congr fun iv => and_congr_left fun _ => mem_sorted
  unfold merged
  cases hs : ivs.foldr insertInterval [] with
  | nil => rw [← hmem, hs]
  | cons a more =>
    rw [hs] at hsorted
    rw [← hmem, hs]
    exact covered_mergeFrom hsorted x

/-! ## Joining intervals -/

/-- Intervals with columns, sorted, with gaps between them. -/
structure Gapped (row : List Interval) : Prop where
  nonempty : ∀ iv ∈ row, iv.1 < iv.2
  sorted : row.Pairwise fun a b => a.2 < b.1

/-- Joining moves right ends only. -/
theorem left_of_mem_joinOnto {a iv : Interval} {row : List Interval} (h : iv ∈ joinOnto a row) :
    iv.1 = a.1 ∨ iv ∈ row := by
  cases row with
  | nil => exact .inl (congrArg Prod.fst (List.mem_singleton.mp h))
  | cons b more =>
    simp only [joinOnto] at h
    split at h
    · rcases List.mem_cons.mp h with rfl | h
      · exact .inl rfl
      · exact .inr (List.mem_cons_of_mem _ h)
    · rcases List.mem_cons.mp h with rfl | h
      · exact .inl rfl
      · exact .inr h

theorem gapped_joinOnto {a : Interval} {row : List Interval} (ha : a.1 < a.2) (h : Gapped row)
    (hafter : ∀ iv ∈ row, a.2 ≤ iv.1) : Gapped (joinOnto a row) := by
  cases row with
  | nil => exact ⟨by simpa [joinOnto] using ha, List.pairwise_singleton _ _⟩
  | cons b more =>
    have hb : b.1 < b.2 := h.nonempty b (List.mem_cons_self ..)
    have hab := hafter b (List.mem_cons_self ..)
    obtain ⟨hmore, hsorted⟩ := List.pairwise_cons.mp h.sorted
    simp only [joinOnto]
    split
    · refine ⟨?_, List.pairwise_cons.mpr ⟨hmore, hsorted⟩⟩
      intro iv hiv
      rcases List.mem_cons.mp hiv with rfl | hiv
      · dsimp only
        omega
      · exact h.nonempty iv (List.mem_cons_of_mem _ hiv)
    · refine ⟨?_, List.pairwise_cons.mpr ⟨?_, h.sorted⟩⟩
      · intro iv hiv
        rcases List.mem_cons.mp hiv with rfl | hiv
        · exact ha
        · exact h.nonempty iv hiv
      · intro iv hiv
        rcases List.mem_cons.mp hiv with rfl | hiv
        · omega
        · have := hmore iv hiv
          omega

theorem covered_joinOnto {a : Interval} {row : List Interval} (ha : a.1 < a.2)
    (hne : ∀ iv ∈ row, iv.1 < iv.2) (x : Int) : covered (joinOnto a row) x = covered (a :: row) x := by
  cases row with
  | nil => rfl
  | cons b more =>
    have hb := hne b (List.mem_cons_self ..)
    simp only [joinOnto]
    split
    · rw [Bool.eq_iff_iff, covered_cons, covered_cons, covered_cons, ← or_assoc]
      refine or_congr ?_ Iff.rfl
      dsimp only
      omega
    · rfl

theorem joinTouching_cons (a : Interval) (row : List Interval) :
    joinTouching (a :: row) = joinOnto a (joinTouching row) := rfl

theorem exists_of_mem_joinTouching {row : List Interval} {iv : Interval}
    (h : iv ∈ joinTouching row) : ∃ iv' ∈ row, iv'.1 = iv.1 := by
  induction row with
  | nil => cases h
  | cons a row ih =>
    rcases left_of_mem_joinOnto h with he | h
    · exact ⟨a, List.mem_cons_self .., he.symm⟩
    · obtain ⟨iv', hiv', he⟩ := ih h
      exact ⟨iv', List.mem_cons_of_mem _ hiv', he⟩

/-- Joining sorted intervals leaves gaps and covers the same columns. -/
theorem joinTouching_spec {row : List Interval} (hne : ∀ iv ∈ row, iv.1 < iv.2)
    (hs : row.Pairwise fun a b => a.2 ≤ b.1) :
    Gapped (joinTouching row) ∧ ∀ x, covered (joinTouching row) x = covered row x := by
  induction row with
  | nil => exact ⟨⟨fun _ h => (nomatch h), List.Pairwise.nil⟩, fun _ => rfl⟩
  | cons a row ih =>
    obtain ⟨hhead, hrow⟩ := List.pairwise_cons.mp hs
    have ha : a.1 < a.2 := hne a (List.mem_cons_self ..)
    obtain ⟨hgapped, hcov⟩ := ih (fun iv h => hne iv (List.mem_cons_of_mem _ h)) hrow
    have hafter : ∀ iv ∈ joinTouching row, a.2 ≤ iv.1 := fun iv hiv => by
      obtain ⟨iv', hiv', he⟩ := exists_of_mem_joinTouching hiv
      exact he ▸ hhead iv' hiv'
    rw [joinTouching_cons]
    refine ⟨gapped_joinOnto ha hgapped hafter, ?_⟩
    intro x
    rw [covered_joinOnto ha hgapped.nonempty, Bool.eq_iff_iff, covered_cons, covered_cons, hcov]

/-! ## Combining rows -/

/-- Within a cell between all ends a row is covered throughout or not at all. -/
theorem covered_of_cell {row : List Interval} {vs : List Int} (hvs : vs.Pairwise (· < ·))
    (hends : ∀ v ∈ ends row, v ∈ vs) {c : Int × Int} (hc : c ∈ cells vs) {x : Int}
    (hx : c.1 ≤ x ∧ x < c.2) : covered row x = covered row c.1 := by
  obtain ⟨hlt, -, -, hall⟩ := cell_spec hvs hc
  rw [Bool.eq_iff_iff, covered_iff, covered_iff]
  refine exists_congr fun iv => and_congr_right fun hiv => ?_
  have h1 := hall iv.1 (hends _ (List.mem_flatMap.mpr ⟨iv, hiv, by simp⟩))
  have h2 := hall iv.2 (hends _ (List.mem_flatMap.mpr ⟨iv, hiv, by simp⟩))
  omega

theorem exists_cell_of_covered {row : List Interval} {vs : List Int} (hvs : vs.Pairwise (· < ·))
    (hends : ∀ v ∈ ends row, v ∈ vs) {x : Int} (hx : covered row x = true) :
    ∃ c ∈ cells vs, c.1 ≤ x ∧ x < c.2 := by
  obtain ⟨iv, hiv, hx⟩ := covered_iff.mp hx
  exact exists_cell hvs (hends _ (List.mem_flatMap.mpr ⟨iv, hiv, by simp⟩))
    (hends _ (List.mem_flatMap.mpr ⟨iv, hiv, by simp⟩)) hx

theorem SetOp.or_of_keep {op : SetOp} {a b : Bool} (h : op.keep a b = true) :
    a = true ∨ b = true := by
  cases a
  · cases b
    · rw [op.keep_false] at h
      exact absurd h Bool.false_ne_true
    · exact .inr rfl
  · exact .inl rfl

theorem mem_cuts_left {v : Int} {vs : List Int} (ws : List Int) (h : v ∈ vs) : v ∈ cuts (vs ++ ws) :=
  mem_cuts.mpr (List.mem_append_left _ h)

theorem mem_cuts_right {v : Int} {ws : List Int} (vs : List Int) (h : v ∈ ws) : v ∈ cuts (vs ++ ws) :=
  mem_cuts.mpr (List.mem_append_right _ h)

/-- The combined row has gaps and covers the columns that the operation keeps. -/
theorem combineRows_spec (op : SetOp) (a b : List Interval) :
    Gapped (combineRows op a b) ∧
      ∀ x, covered (combineRows op a b) x = op.keep (covered a x) (covered b x) := by
  have hvs := cuts_sorted (ends a ++ ends b)
  have ha : ∀ v ∈ ends a, v ∈ cuts (ends a ++ ends b) := fun _ => mem_cuts_left _
  have hb : ∀ v ∈ ends b, v ∈ cuts (ends a ++ ends b) := fun _ => mem_cuts_right _
  obtain ⟨hgapped, hcov⟩ : Gapped (combineRows op a b) ∧ ∀ x, covered (combineRows op a b) x = _ :=
    joinTouching_spec (fun iv hiv => (cell_spec hvs (List.mem_filter.mp hiv).1).1)
      ((cells_sorted hvs).filter _)
  refine ⟨hgapped, ?_⟩
  intro x
  rw [hcov, Bool.eq_iff_iff, covered_iff]
  constructor
  · intro hx
    obtain ⟨c, hc, hx⟩ := hx
    obtain ⟨hcell, hkeep⟩ := List.mem_filter.mp hc
    rwa [covered_of_cell hvs ha hcell hx, covered_of_cell hvs hb hcell hx]
  · intro hkeep
    obtain ⟨c, hcell, hx⟩ : ∃ c ∈ cells (cuts (ends a ++ ends b)), c.1 ≤ x ∧ x < c.2 := by
      cases SetOp.or_of_keep hkeep with
      | inl h => exact exists_cell_of_covered hvs ha h
      | inr h => exact exists_cell_of_covered hvs hb h
    refine ⟨c, List.mem_filter.mpr ⟨hcell, ?_⟩, hx⟩
    rwa [← covered_of_cell hvs ha hcell hx, ← covered_of_cell hvs hb hcell hx]

end Rasterizer.Region
