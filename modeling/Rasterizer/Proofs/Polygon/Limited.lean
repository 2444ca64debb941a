import Mathlib.Algebra.Module.Submodule.Lattice
import Mathlib.Data.List.Permutation
import Rasterizer.Proofs.Polygon.Scan

/-! # Scanning some rows of a polygon

A scan that begins within the polygon takes up all edges of its first row at once, by the key of edges
that start there, while a scan from above has the edges that come from there in the order of the other key.
Both hold the same edges (`perm_now`), so they have as many runs on each row; where the two keys order the
edges of the first row alike, the runs are the same (`evenOddRuns_limited`). -/

namespace Rasterizer.Polygon

namespace Edge

/-- Either key puts the same edge first, if they are not the same. -/
def SameOrder (a b : Edge) : Prop :=
  a = b ∨ (a.startKey < b.startKey ∧ a.rowKey < b.rowKey) ∨ (b.startKey < a.startKey ∧ b.rowKey < a.rowKey)

instance (a b : Edge) : Decidable (a.SameOrder b) := inferInstanceAs (Decidable (_ ∨ _))

/-- The edge without its first row, which a scan does not look at. -/
def below (e : Edge) : Edge := { e with top := 0 }

theorem SameOrder.below {a b : Edge} (h : a.SameOrder b) : a.below.SameOrder b.below :=
  h.imp_left (congrArg Edge.below)

end Edge

/-- The edges that come into the row `y` from above have one order there, and none of them ties with one that
starts on the row. -/
structure OrderedAt (es : List Edge) (y : Int) : Prop where
  straddling : ∀ a ∈ es, a.Straddles y → ∀ b ∈ es, b.Straddles y → (a.enterAt y).SameOrder (b.enterAt y)
  starting : ∀ a ∈ es, a.Straddles y → ∀ b ∈ es, b.top = y →
    a.enterAt y = b ∨ (a.enterAt y).startKey ≠ b.startKey

/-! ## The order of the edges -/

section Insertion

/-- Insertions commute unless different elements tie. -/
theorem orderedInsert_comm {α : Type} {key : α → Int} {a b : α} (h : a = b ∨ key a ≠ key b) (l : List α) :
    (l.orderedInsert (fun c d => key c ≤ key d) a).orderedInsert (fun c d => key c ≤ key d) b =
      (l.orderedInsert (fun c d => key c ≤ key d) b).orderedInsert (fun c d => key c ≤ key d) a := by
  rcases h with rfl | h
  · rfl
  · induction l with
    | nil =>
      simp only [List.orderedInsert_nil, List.orderedInsert_cons]
      split <;> split <;> first | rfl | omega
    | cons c cs ih =>
      simp only [List.orderedInsert_cons]
      split <;> split <;> simp only [List.orderedInsert_cons] <;> grind

theorem insertEdge_comm {a b : Edge} (h : a = b ∨ a.startKey ≠ b.startKey) (active : List Edge) :
    insertEdge (insertEdge active a) b = insertEdge (insertEdge active b) a := by
  simp only [insertEdge_eq_orderedInsert]
  exact orderedInsert_comm h active

theorem foldl_insertEdge_comm {es : List Edge} {e : Edge} (h : ∀ d ∈ es, d = e ∨ d.startKey ≠ e.startKey)
    (active : List Edge) :
    es.foldl insertEdge (insertEdge active e) = insertEdge (es.foldl insertEdge active) e := by
  induction es generalizing active with
  | nil => rfl
  | cons d ds ih =>
    obtain ⟨hd, hds⟩ := List.forall_mem_cons.mp h
    rw [List.foldl_cons, List.foldl_cons, ← insertEdge_comm hd, ih hds]

/-- Edges without ties to the others may be taken up first. -/
theorem foldl_insertEdge_partition {f : Edge → Edge} {p : Edge → Bool} {es : List Edge}
    (h : ∀ a ∈ es, p a = true → ∀ b ∈ es, p b = false → f a = f b ∨ (f a).startKey ≠ (f b).startKey)
    (active : List Edge) :
    (es.map f).foldl insertEdge active =
      ((es.filter fun e => !p e).map f).foldl insertEdge (((es.filter p).map f).foldl insertEdge active) := by
  induction es generalizing active with
  | nil => rfl
  | cons e es ih =>
    have hrest := ih fun a ha hpa b hb => h a (List.mem_cons_of_mem e ha) hpa b (List.mem_cons_of_mem e hb)
    cases he : p e with
    | true => simpa [he] using hrest (insertEdge active (f e))
    | false =>
      have hlate : ∀ d ∈ (es.filter p).map f, d = f e ∨ d.startKey ≠ (f e).startKey := by
        intro d hd
        obtain ⟨a, ha, rfl⟩ := List.mem_map.mp hd
        obtain ⟨ha, hpa⟩ := List.mem_filter.mp ha
        exact h a (List.mem_cons_of_mem e ha) hpa e List.mem_cons_self he
      simpa [he, foldl_insertEdge_comm hlate] using hrest (insertEdge active (f e))

theorem sorted_activeOn {active : List Edge} (starting : List Edge)
    (h : active.Pairwise fun a b => a.startKey ≤ b.startKey) :
    (activeOn active starting).Pairwise fun a b => a.startKey ≤ b.startKey := by
  induction starting generalizing active with
  | nil => exact h
  | cons e es ih =>
    refine ih ?_
    rw [insertEdge_eq_orderedInsert]
    have : Std.Total fun a b : Edge => a.startKey ≤ b.startKey := ⟨fun a b => Int.le_total _ _⟩
    have : IsTrans Edge fun a b => a.startKey ≤ b.startKey := ⟨fun a b c => Int.le_trans⟩
    exact h.orderedInsert e active

/-- Where the keys agree, taking up edges by the one sorts them by the other. -/
theorem activeOn_eq_of_sorted {active es : List Edge} (hperm : active.Perm es)
    (hsorted : active.Pairwise fun a b => a.rowKey ≤ b.rowKey)
    (horder : ∀ a ∈ es, ∀ b ∈ es, a.SameOrder b) : activeOn [] es = active := by
  have hperm' : (activeOn [] es).Perm es := by simpa using perm_activeOn [] es
  have hsorted' : (activeOn [] es).Pairwise fun a b => a.rowKey ≤ b.rowKey := by
    refine (sorted_activeOn es .nil).imp_of_mem fun {a b} ha hb hab => ?_
    rcases horder a (hperm'.mem_iff.mp ha) b (hperm'.mem_iff.mp hb) with rfl | h | h <;> omega
  refine (hperm'.trans hperm.symm).eq_of_pairwise (fun a b ha hb hab hba => ?_) hsorted' hsorted
  rcases horder a (hperm'.mem_iff.mp ha) b (hperm.mem_iff.mp hb) with h | h | h
  · exact h
  · omega
  · omega

end Insertion

/-! ## Edges below their first row -/

theorem below_onRow_eq_enterAt {e : Edge} {y : Int} (h : e.top ≤ y) :
    (e.enterAt y).below = (e.onRow y).below := by
  rw [Edge.enterAt]
  split
  · rfl
  · rw [Edge.onRow_self (by omega)]

theorem map_below_insertEdge (active : List Edge) (e : Edge) :
    (insertEdge active e).map Edge.below = insertEdge (active.map Edge.below) e.below := by
  simp only [insertEdge, List.map_append, List.map_cons, List.takeWhile_map, List.dropWhile_map]
  rfl

theorem map_below_activeOn (active starting : List Edge) :
    (activeOn active starting).map Edge.below =
      activeOn (active.map Edge.below) (starting.map Edge.below) := by
  induction starting generalizing active with
  | nil => rfl
  | cons e es ih =>
    simp only [List.map_cons, activeOn, List.foldl_cons, ← map_below_insertEdge]
    exact ih _

theorem map_below_nextRow (y : Int) (active : List Edge) :
    (nextRow y active).map Edge.below = nextRow y (active.map Edge.below) := by
  have hsort : ∀ l : List Edge, (l.mergeSort fun a b => a.rowKey ≤ b.rowKey).map Edge.below =
      (l.map Edge.below).mergeSort fun a b => a.rowKey ≤ b.rowKey :=
    fun _ => List.map_mergeSort fun _ _ _ _ => rfl
  rw [nextRow, hsort, nextRow, List.filter_map, List.map_map, List.map_map]
  rfl

theorem pairRuns_map_below (y : Int) (active : List Edge) :
    pairRuns y (active.map Edge.below) = pairRuns y active := by
  fun_induction pairRuns y active with
  | case1 a b rest ih => simp only [List.map_cons, pairRuns, ih]; rfl
  | case2 active h =>
    match active, h with
    | [], _ => rfl
    | [_], _ => rfl
    | a :: b :: rest, h => exact absurd rfl (h a b rest)

theorem sweep_map_below (starts : Int → List Edge) (ys : List Int) (active : List Edge) :
    sweep (fun y => (starts y).map Edge.below) ys (active.map Edge.below) = sweep starts ys active := by
  induction ys generalizing active with
  | nil => rfl
  | cons y ys ih =>
    simp only [sweep, ← map_below_activeOn, pairRuns_map_below, ← map_below_nextRow, ih]

/-! ## Rows without columns -/

theorem map_y_pairRuns (y : Int) (active : List Edge) :
    (pairRuns y active).map Run.y = List.replicate (active.length / 2) y := by
  fun_induction pairRuns y active with
  | case1 a b rest ih =>
    have hlength : (a :: b :: rest).length / 2 = rest.length / 2 + 1 := by
      simp only [List.length_cons]
      omega
    rw [List.map_cons, ih, hlength, List.replicate_succ]
  | case2 active h =>
    match active, h with
    | [], _ => rfl
    | [_], _ => simp
    | a :: b :: rest, h => exact absurd rfl (h a b rest)

/-- How many runs there are on a row depends on the edges alone. -/
theorem map_y_sweep {starts : Int → List Edge} {ys : List Int} {active active' : List Edge}
    (h : active.Perm active') :
    (sweep starts ys active).map Run.y = (sweep starts ys active').map Run.y := by
  induction ys generalizing active active' with
  | nil => rfl
  | cons y ys ih =>
    have hnow : (activeOn active (starts y)).Perm (activeOn active' (starts y)) :=
      (perm_activeOn _ _).trans ((h.append_right _).trans (perm_activeOn _ _).symm)
    have hnext : (nextRow y (activeOn active (starts y))).Perm (nextRow y (activeOn active' (starts y))) :=
      (perm_nextRow y _).trans (((hnow.filter _).map _).trans (perm_nextRow y _).symm)
    simp only [sweep, List.map_append, map_y_pairRuns, hnow.length_eq, ih hnext]

theorem mem_sweep_row {starts : Int → List Edge} {ys : List Int} {active : List Edge} {r : Run}
    (h : r ∈ sweep starts ys active) : r.y ∈ ys := by
  induction ys generalizing active with
  | nil => cases h
  | cons y ys ih =>
    rcases List.mem_append.mp h with h | h
    · have hy := List.mem_map_of_mem (f := Run.y) h
      rw [map_y_pairRuns] at hy
      exact List.eq_of_mem_replicate hy ▸ List.mem_cons_self
    · exact List.mem_cons_of_mem y (ih h)

/-! ## The first row -/

section FirstRow

variable {es active : List Edge} {y : Int}

theorem startingFrom_self (es : List Edge) (y : Int) :
    startingFrom y es y = (es.filter (Edge.Meets y)).map (Edge.enterAt y) := by
  rw [startingFrom, starting, entering, List.filter_map, List.filter_filter]
  refine congrArg _ (List.filter_congr fun e _ => ?_)
  simp only [Function.comp_apply, Edge.enterAt, Edge.Meets]
  split <;> grind

theorem startingFrom_of_lt (hes : ∀ e ∈ es, e.top ≤ e.bottom) {first : Int} (h : first < y) :
    startingFrom first es y = starting es y := by
  have hkept : startingFrom first es y = (starting es y).map (Edge.enterAt first) := by
    rw [startingFrom, starting, entering, List.filter_map, List.filter_filter, starting]
    refine congrArg _ (List.filter_congr fun e he => ?_)
    have := hes e he
    simp only [Function.comp_apply, Edge.enterAt]
    split <;> grind
  refine hkept.trans ((List.map_congr_left fun e he => ?_).trans (List.map_id _))
  have := of_decide_eq_true (List.mem_filter.mp he).2
  exact if_neg (by omega)

theorem map_below_startingFrom : (startingFrom y es y).map Edge.below =
    (es.filter (Edge.Meets y)).map fun e => (e.onRow y).below := by
  rw [startingFrom_self, List.map_map]
  exact List.map_congr_left fun e he => below_onRow_eq_enterAt (of_decide_eq_true (List.mem_filter.mp he).2).1

variable (hes : ∀ e ∈ es, e.top ≤ e.bottom)
include hes

/-- The edges of a row that do not come from above start there. -/
theorem filter_meets_not_straddles :
    (es.filter (Edge.Meets y)).filter (fun e => !decide (e.Straddles y)) = starting es y := by
  rw [List.filter_filter, starting]
  refine List.filter_congr fun e he => ?_
  have := hes e he
  simp only [Edge.Meets, Edge.Straddles]
  grind

theorem perm_map_below_now (hactive : active.Perm ((es.filter (Edge.Straddles y)).map (Edge.onRow y))) :
    ((activeOn [] (startingFrom y es y)).map Edge.below).Perm
      ((activeOn active (starting es y)).map Edge.below) := by
  rw [map_below_activeOn, map_below_startingFrom]
  refine (perm_activeOn _ _).trans ?_
  rw [List.map_nil, List.nil_append, ← Function.comp_def, ← List.map_map]
  exact ((perm_now hes hactive).map Edge.below).symm

/-- Where the keys agree the scan that begins on the row has its edges in the order of the one that comes
from above. -/
theorem map_below_now (hactive : active.Perm ((es.filter (Edge.Straddles y)).map (Edge.onRow y)))
    (hsorted : active.Pairwise fun a b => a.rowKey ≤ b.rowKey) (h : OrderedAt es y) :
    (activeOn [] (startingFrom y es y)).map Edge.below = (activeOn active (starting es y)).map Edge.below := by
  have hentering : activeOn [] ((es.filter (Edge.Straddles y)).map fun e => (e.onRow y).below) =
      active.map Edge.below := by
    refine activeOn_eq_of_sorted ?_ (List.pairwise_map.mpr hsorted) ?_
    · rw [← Function.comp_def, ← List.map_map]
      exact hactive.map Edge.below
    · simp only [List.forall_mem_map, List.mem_filter, decide_eq_true_eq]
      rintro a ⟨ha, hay⟩ b ⟨hb, hby⟩
      have hkeys := (h.straddling a ha hay b hb hby).below
      rwa [below_onRow_eq_enterAt (Int.le_of_lt hay.1), below_onRow_eq_enterAt (Int.le_of_lt hby.1)] at hkeys
  have hstarting : (starting es y).map (fun e => (e.onRow y).below) = (starting es y).map Edge.below :=
    List.map_congr_left fun e he => by rw [Edge.onRow_self (of_decide_eq_true (List.mem_filter.mp he).2)]
  have hstraddling : (es.filter (Edge.Meets y)).filter (fun e => decide (e.Straddles y)) =
      es.filter (Edge.Straddles y) := by
    rw [List.filter_filter]
    refine List.filter_congr fun e _ => ?_
    simp only [Edge.Meets, Edge.Straddles]
    grind
  rw [map_below_activeOn, map_below_activeOn, map_below_startingFrom, List.map_nil, activeOn,
    foldl_insertEdge_partition (p := fun e => decide (e.Straddles y)), filter_meets_not_straddles hes,
    hstraddling, hstarting, ← activeOn, ← activeOn, hentering]
  intro a ha hay b hb hby
  obtain ⟨ha, hameets⟩ := List.mem_filter.mp ha
  obtain ⟨hb, hbmeets⟩ := List.mem_filter.mp hb
  have hay := of_decide_eq_true hay
  have hbtop : b.top = y := by
    have := of_decide_eq_true hbmeets
    have := of_decide_eq_false hby
    simp only [Edge.Meets, Edge.Straddles] at *
    omega
  rw [← below_onRow_eq_enterAt (Int.le_of_lt hay.1), Edge.onRow_self hbtop]
  exact (h.starting a ha hay b hb hbtop).imp_left (congrArg Edge.below)

/-- Where the keys agree on the first row the scan from there on is that of all rows. -/
theorem sweep_startingFrom (hactive : active.Perm ((es.filter (Edge.Straddles y)).map (Edge.onRow y)))
    (hsorted : active.Pairwise fun a b => a.rowKey ≤ b.rowKey) (h : OrderedAt es y) (hi : Int) :
    sweep (startingFrom y es) (irange y hi) [] = sweep (starting es) (irange y hi) active := by
  by_cases hempty : hi < y
  · rw [irange_eq_nil hempty]
    rfl
  · have hnow := map_below_now hes hactive hsorted h
    rw [irange_cons (by omega), sweep, sweep, ← pairRuns_map_below, hnow, pairRuns_map_below,
      sweep_congr (fun z hz => startingFrom_of_lt hes (by have := (mem_irange.mp hz).1; omega)),
      ← sweep_map_below, map_below_nextRow, hnow, ← map_below_nextRow, sweep_map_below]

theorem map_y_sweep_startingFrom (hactive : active.Perm ((es.filter (Edge.Straddles y)).map (Edge.onRow y)))
    (hi : Int) : (sweep (startingFrom y es) (irange y hi) []).map Run.y =
      (sweep (starting es) (irange y hi) active).map Run.y := by
  by_cases hempty : hi < y
  · rw [irange_eq_nil hempty]
    rfl
  · have hnow := perm_map_below_now hes hactive
    have hnext := (perm_nextRow y _).trans (((hnow.filter _).map _).trans (perm_nextRow y _).symm)
    have hlength := hnow.length_eq
    rw [List.length_map, List.length_map] at hlength
    rw [irange_cons (by omega), sweep, sweep, List.map_append, List.map_append, map_y_pairRuns, map_y_pairRuns,
      hlength, sweep_congr (fun z hz => startingFrom_of_lt hes (by have := (mem_irange.mp hz).1; omega)),
      ← sweep_map_below, map_below_nextRow, map_y_sweep hnext, ← map_below_nextRow, sweep_map_below]

end FirstRow

/-! ## The rows of a polygon -/

/-- The runs of some rows are those of the scan that goes on from the first of them. -/
theorem filter_sweep (starts : Int → List Edge) {top bottom t b : Int} (h : max top t ≤ min bottom b) :
    (sweep starts (irange top bottom) []).filter (fun r => t ≤ r.y ∧ r.y ≤ b) =
      sweep starts (irange (max top t) (min bottom b)) (sweepActive starts (irange top (max top t - 1)) []) := by
  have hsplit : irange top bottom =
      irange top (max top t - 1) ++ (irange (max top t) (min bottom b) ++ irange (min bottom b + 1) bottom) := by
    have habove : irange (max top t) bottom = irange (max top t - 1 + 1) bottom := by rw [Int.sub_add_cancel]
    rw [irange_append (by omega) (by omega), habove, irange_append (by omega) (by omega)]
  have hrow : ∀ {lo hi active r}, r ∈ sweep starts (irange lo hi) active → lo ≤ r.y ∧ r.y ≤ hi :=
    fun hr => mem_irange.mp (mem_sweep_row hr)
  rw [hsplit, sweep_append, sweep_append, List.filter_append, List.filter_append,
    List.filter_eq_nil_iff.mpr (fun r hr => ?_), List.nil_append, List.filter_eq_self.mpr (fun r hr => ?_),
    List.filter_eq_nil_iff.mpr (fun r hr => ?_), List.append_nil]
  · have := hrow hr
    simp only [decide_eq_true_eq]
    omega
  · have := hrow hr
    simp only [decide_eq_true_eq]
    omega
  · have := hrow hr
    simp only [decide_eq_true_eq]
    omega

/-- No edge comes into the first row from above. -/
theorem OrderedAt.first {es : List Edge} {top : Int} (h : ∀ e ∈ es, top ≤ e.top) : OrderedAt es top where
  straddling a ha hay := absurd hay.1 (not_lt.mpr (h a ha))
  starting a ha hay := absurd hay.1 (not_lt.mpr (h a ha))

/-- A scan of some rows has as many runs on each of them as the scan of all rows has, and the same ones where
the keys agree on its first row. -/
theorem evenOddRuns_limited (pts : List Point) (t b : Int) :
    (evenOddRuns pts (some (t, b))).map Run.y =
      ((evenOddRuns pts none).filter fun r => t ≤ r.y ∧ r.y ≤ b).map Run.y ∧
    (OrderedAt (edges pts) t →
      evenOddRuns pts (some (t, b)) = (evenOddRuns pts none).filter fun r => t ≤ r.y ∧ r.y ≤ b) := by
  by_cases hpts : pts.length < 3
  · simp [evenOddRuns, hpts]
  by_cases hne : edges pts = []
  · simp [evenOddRuns, hne]
  obtain ⟨top, bottom, hrows, hwithin, hall, hsome⟩ := evenOddRuns_eq_sweep (by omega) hne
  have hes : ∀ e ∈ edges pts, e.top ≤ e.bottom := fun e => top_le_bottom
  rw [hall, hsome]
  by_cases hempty : min bottom b < max top t
  · rw [irange_eq_nil hempty, List.filter_eq_nil_iff.mpr]
    · exact ⟨rfl, fun _ => rfl⟩
    · intro r hr
      have := mem_irange.mp (mem_sweep_row hr)
      simp only [decide_eq_true_eq]
      omega
  · rw [filter_sweep _ (by omega)]
    have habove : (edges pts).filter (Edge.Straddles top) = [] := by
      refine List.filter_eq_nil_iff.mpr fun e he hstraddles => ?_
      have := (of_decide_eq_true hstraddles).1
      have := (hwithin e he).1
      omega
    have hnone : ([] : List Edge).Perm (((edges pts).filter (Edge.Straddles top)).map (Edge.onRow top)) := by
      rw [habove]
      exact .nil
    have hactive := perm_sweepActive hes (show top ≤ max top t - 1 + 1 by omega) hnone
    rw [Int.sub_add_cancel] at hactive
    refine ⟨map_y_sweep_startingFrom hes hactive _, fun hordered => ?_⟩
    refine sweep_startingFrom hes hactive (sorted_sweepActive _ _ .nil) ?_ _
    rcases Int.le_total top t with h | h
    · rwa [Int.max_eq_right h]
    · rw [Int.max_eq_left h]
      exact .first fun e he => (hwithin e he).1

/-- A polygon with a notch from below. -/
theorem evenOddRuns_limited_notch :
    let notch : List Point := [⟨0, 0⟩, ⟨20, 0⟩, ⟨20, 20⟩, ⟨10, 5⟩, ⟨0, 20⟩]
    OrderedAt (edges notch) 6 ∧
      evenOddRuns notch (some (6, 12)) = (evenOddRuns notch none).filter fun r => 6 ≤ r.y ∧ r.y ≤ 12 := by
  intro notch
  have hordered : OrderedAt (edges notch) 6 := by constructor <;> decide
  exact ⟨hordered, (evenOddRuns_limited notch 6 12).2 hordered⟩

/-- On the last row of a triangle the keys put its two edges in different orders: the scan that begins there
pairs them the other way round and leaves a pixel out. -/
theorem evenOddRuns_differs :
    let triangle : List Point := [⟨0, 0⟩, ⟨4, 3⟩, ⟨1, 1⟩]
    evenOddRuns triangle (some (2, 2)) = [⟨3, 3, 2⟩] ∧
      (evenOddRuns triangle none).filter (fun r => 2 ≤ r.y ∧ r.y ≤ 2) = [⟨2, 3, 2⟩] ∧
      evenOddRuns triangle (some (2, 2)) ≠
        (evenOddRuns triangle none).filter fun r => 2 ≤ r.y ∧ r.y ≤ 2 := by
  intro triangle
  have hlimited : evenOddRuns triangle (some (2, 2)) = [⟨3, 3, 2⟩] := by
    cbv
  have hall : (evenOddRuns triangle none).filter (fun r => 2 ≤ r.y ∧ r.y ≤ 2) = [⟨2, 3, 2⟩] := by
    cbv
  refine ⟨hlimited, hall, ?_⟩
  rw [hlimited, hall]
  decide

end Rasterizer.Polygon
