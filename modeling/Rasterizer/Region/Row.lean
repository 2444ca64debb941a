/-! One row of a region: half-open intervals of columns, sorted, with gaps between
them. Two rows are combined cell by cell between their sorted ends; intervals in any
order are sorted and merged first. -/

namespace Rasterizer.Region

inductive SetOp where
  | union | intersect | subtract
deriving Repr, DecidableEq

/-- A pixel is kept, given whether it lies in each of the two sets. -/
def SetOp.keep : SetOp → Bool → Bool → Bool
  | .union, a, b => a || b
  | .intersect, a, b => a && b
  | .subtract, a, b => a && !b

/-- Nothing comes from nothing. -/
theorem SetOp.keep_false (op : SetOp) : op.keep false false = false := by cases op <;> rfl

/-- The sorted list with `v` in its place, unless it is there already. -/
def insertCut (v : Int) : List Int → List Int
  | [] => [v]
  | w :: ws => if v < w then v :: w :: ws else if v = w then w :: ws else w :: insertCut v ws

/-- The distinct values in ascending order. -/
def cuts (vs : List Int) : List Int := vs.foldr insertCut []

theorem mem_insertCut {v w : Int} {ws : List Int} : w ∈ insertCut v ws ↔ w = v ∨ w ∈ ws := by
  induction ws with
  | nil => simp [insertCut]
  | cons u us ih =>
    simp only [insertCut]
    split
    · simp
    · split
      · simp_all
      · simp only [List.mem_cons, ih]; constructor <;> (rintro (h | h | h) <;> simp [h])

theorem mem_cuts {v : Int} {vs : List Int} : v ∈ cuts vs ↔ v ∈ vs := by
  induction vs with
  | nil => simp [cuts]
  | cons u us ih =>
    rw [cuts, List.foldr_cons, mem_insertCut, ← cuts, ih, List.mem_cons]

theorem insertCut_sorted {v : Int} {ws : List Int} (h : ws.Pairwise (· < ·)) :
    (insertCut v ws).Pairwise (· < ·) := by
  induction ws with
  | nil => simp [insertCut]
  | cons u us ih =>
    rw [List.pairwise_cons] at h
    simp only [insertCut]
    split
    next hv =>
      rw [List.pairwise_cons]
      refine ⟨fun a ha => ?_, List.pairwise_cons.2 h⟩
      rcases List.mem_cons.1 ha with rfl | ha
      · exact hv
      · exact Int.lt_trans hv (h.1 a ha)
    next hv =>
      split
      · exact List.pairwise_cons.2 h
      next hne =>
        rw [List.pairwise_cons]
        refine ⟨fun a ha => ?_, ih h.2⟩
        rcases mem_insertCut.1 ha with rfl | ha
        · omega
        · exact h.1 a ha

theorem cuts_sorted (vs : List Int) : (cuts vs).Pairwise (· < ·) := by
  induction vs with
  | nil => simp [cuts]
  | cons u us ih => exact insertCut_sorted ih

/-- The half-open cells between neighbouring values. -/
def cells (vs : List Int) : List (Int × Int) := vs.zip vs.tail

/-- A half-open interval of columns. -/
abbrev Interval := Int × Int

/-- A column lies in one of the intervals. -/
def covered (row : List Interval) (x : Int) : Bool := row.any fun iv => iv.1 ≤ x && x < iv.2

/-- The sorted intervals with one more in its place, by left end and then by right end. -/
def insertInterval (a : Interval) : List Interval → List Interval
  | [] => [a]
  | b :: more =>
    if a.1 < b.1 ∨ (a.1 = b.1 ∧ a.2 ≤ b.2) then a :: b :: more else b :: insertInterval a more

/-- Merges the intervals that meet, the first with those after it. -/
def mergeFrom (a : Interval) : List Interval → List Interval
  | [] => [a]
  | b :: more => if b.1 ≤ a.2 then mergeFrom (a.1, max a.2 b.2) more else a :: mergeFrom b more

/-- The intervals sorted, those that meet merged. -/
def merged (ivs : List Interval) : List Interval :=
  match ivs.foldr insertInterval [] with
  | [] => []
  | a :: more => mergeFrom a more

/-- The row with one more interval in front, joined to the first when they touch. -/
def joinOnto (a : Interval) : List Interval → List Interval
  | [] => [a]
  | b :: more => if a.2 = b.1 then (a.1, b.2) :: more else a :: b :: more

/-- Joins intervals that touch. -/
def joinTouching (row : List Interval) : List Interval := row.foldr joinOnto []

def ends (row : List Interval) : List Int := row.flatMap fun iv => [iv.1, iv.2]

/-- The columns that the operation keeps of two rows. -/
def combineRows (op : SetOp) (a b : List Interval) : List Interval :=
  joinTouching ((cells (cuts (ends a ++ ends b))).filter fun c =>
    op.keep (covered a c.1) (covered b c.1))

end Rasterizer.Region
