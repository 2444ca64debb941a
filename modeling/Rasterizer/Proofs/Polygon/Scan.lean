import Rasterizer.Polygon.EvenOdd
import Mathlib.Data.List.Sort

/-! # The scan of a polygon

Edges that start on one row keep their order when the edges are sorted by their first rows, so the scan
takes up on each row the edges that start there (`scanHeld_eq_sweepHeld`). With that it holds on each row the
edges that meet the row, each at its column there (`perm_sweepActive`, `perm_activeOn`); those that come
from the row above are in order of their columns (`sorted_sweepActive`). -/

namespace Rasterizer.Polygon

namespace Edge

/-- The edge at its column on the row `y`. -/
def onRow (y : Int) (e : Edge) : Edge := e.advance (y - e.top)

/-- The edge meets the row `y`. -/
def Meets (y : Int) (e : Edge) : Prop := e.top ≤ y ∧ y ≤ e.bottom

/-- The edge meets the row `y` and the one above it. -/
def Straddles (y : Int) (e : Edge) : Prop := e.top < y ∧ y ≤ e.bottom

instance (y : Int) (e : Edge) : Decidable (e.Meets y) := inferInstanceAs (Decidable (_ ∧ _))

instance (y : Int) (e : Edge) : Decidable (e.Straddles y) := inferInstanceAs (Decidable (_ ∧ _))

@[simp] theorem advance_zero (e : Edge) : e.advance 0 = e := by simp [advance]

theorem onRow_self {e : Edge} {y : Int} (h : e.top = y) : e.onRow y = e := by simp [onRow, h]

theorem advance_one_onRow (e : Edge) (y : Int) : (e.onRow y).advance 1 = e.onRow (y + 1) := by
  simp only [onRow, advance, mk.injEq, true_and, and_true]
  rw [show y + 1 - e.top = y - e.top + 1 by omega, Int.mul_add, Int.add_assoc]

theorem down_top_le_bottom {a b : Point} (h : a.y < b.y) : (down a b).top ≤ (down a b).bottom := by
  simp only [down]
  omega

end Edge

theorem top_le_bottom {pts : List Point} {e : Edge} (he : e ∈ edges pts) : e.top ≤ e.bottom := by
  simp only [edges, List.mem_filterMap, id_eq, exists_eq_right] at he
  obtain ⟨a, b, hab⟩ : ∃ a b, Edge.between? a b = some e := by
    rw [← List.map_uncurry_zip_eq_zipWith] at he
    obtain ⟨⟨a, b⟩, -, hab⟩ := List.mem_map.mp he
    exact ⟨a, b, hab⟩
  rw [Edge.between?] at hab
  split at hab
  · cases hab
  · split at hab
    · rw [← Option.some.inj hab]
      exact Edge.down_top_le_bottom ‹_›
    · rw [← Option.some.inj hab]
      exact Edge.down_top_le_bottom (by omega)

/-! ## Sorting by rows -/

theorem sorted_mergeSort (key : Edge → Int) (es : List Edge) :
    (es.mergeSort fun a b => key a ≤ key b).Pairwise fun a b => key a ≤ key b := by
  refine (List.pairwise_mergeSort ?_ ?_ es).imp of_decide_eq_true
  · simp only [decide_eq_true_eq]
    omega
  · simp only [Bool.or_eq_true, decide_eq_true_eq]
    omega

/-- From the first row down. -/
def Descends (es : List Edge) : Prop := es.Pairwise fun a b => a.top ≤ b.top

/-- Sorting keeps the order of the edges of one row. -/
theorem filter_mergeSort_top (es : List Edge) (y : Int) :
    (es.mergeSort fun a b => a.top ≤ b.top).filter (fun e => e.top = y) = es.filter fun e => e.top = y := by
  have hrow : (es.filter fun e => e.top = y).Pairwise fun a b => decide (a.top ≤ b.top) = true := by
    refine List.pairwise_of_forall_mem_list fun a ha b hb => ?_
    simp only [List.mem_filter, decide_eq_true_eq] at ha hb ⊢
    omega
  have hsub : (es.filter fun e => e.top = y).Sublist (es.mergeSort fun a b => a.top ≤ b.top) :=
    List.sublist_mergeSort (by simp only [decide_eq_true_eq]; omega)
      (by simp only [Bool.or_eq_true, decide_eq_true_eq]; omega) hrow List.filter_sublist
  have hsub' := hsub.filter fun e => decide (e.top = y)
  rw [List.filter_filter] at hsub'
  simp only [Bool.and_self] at hsub'
  exact (hsub'.eq_of_length ((List.mergeSort_perm es _).symm.filter _).length_eq).symm

/-- The edges of the first row come first. -/
theorem takeWhile_top {es : List Edge} {y : Int} (h : Descends es) (hy : ∀ e ∈ es, y ≤ e.top) :
    es.takeWhile (fun e => e.top = y) = es.filter (fun e => e.top = y) ∧
      es.dropWhile (fun e => e.top = y) = es.filter fun e => y < e.top := by
  induction es with
  | nil => exact ⟨rfl, rfl⟩
  | cons e es ih =>
    obtain ⟨he, hes⟩ := List.forall_mem_cons.mp hy
    obtain ⟨hbelow, htail⟩ := List.pairwise_cons.mp h
    by_cases hrow : e.top = y
    · obtain ⟨htake, hdrop⟩ := ih htail hes
      simp [hrow, htake, hdrop]
    · have hlt : ∀ a ∈ e :: es, y < a.top := List.forall_mem_cons.mpr
        ⟨by omega, fun a ha => by have := hbelow a ha; omega⟩
      refine ⟨?_, ?_⟩
      · rw [List.takeWhile_cons_of_neg (by simpa using hrow), List.filter_eq_nil_iff.mpr]
        exact fun a ha => by have := hlt a ha; simp; omega
      · rw [List.dropWhile_cons_of_neg (by simpa using hrow), List.filter_eq_self.mpr]
        exact fun a ha => decide_eq_true (hlt a ha)

/-! ## The scan by rows -/

/-- The rows of a scan, each with the edges that are paired off on it. -/
def scanHeld : List Int → List Edge → List Edge → List (Int × List Edge)
  | [], _, _ => []
  | y :: ys, pending, active =>
    let now := activeOn active (pending.takeWhile fun e => e.top = y)
    (y, now) :: scanHeld ys (pending.dropWhile fun e => e.top = y) (nextRow y now)

theorem scanRows_eq (ys : List Int) (pending active : List Edge) :
    scanRows ys pending active = (scanHeld ys pending active).flatMap fun s => pairRuns s.1 s.2 := by
  induction ys generalizing pending active with
  | nil => rfl
  | cons y ys ih => simp only [scanRows, scanHeld, List.flatMap_cons, ih]

/-- The scan with the edges that start on each row. -/
def sweep (starts : Int → List Edge) : List Int → List Edge → List Run
  | [], _ => []
  | y :: ys, active =>
    let now := activeOn active (starts y)
    pairRuns y now ++ sweep starts ys (nextRow y now)

/-- The rows of that scan with the edges that are paired off on them. -/
def sweepHeld (starts : Int → List Edge) : List Int → List Edge → List (Int × List Edge)
  | [], _ => []
  | y :: ys, active =>
    let now := activeOn active (starts y)
    (y, now) :: sweepHeld starts ys (nextRow y now)

theorem sweep_eq (starts : Int → List Edge) (ys : List Int) (active : List Edge) :
    sweep starts ys active = (sweepHeld starts ys active).flatMap fun s => pairRuns s.1 s.2 := by
  induction ys generalizing active with
  | nil => rfl
  | cons y ys ih => simp only [sweep, sweepHeld, List.flatMap_cons, ih]

/-- The edges that go on below the given rows. -/
def sweepActive (starts : Int → List Edge) : List Int → List Edge → List Edge
  | [], active => active
  | y :: ys, active => sweepActive starts ys (nextRow y (activeOn active (starts y)))

/-- The edges that start on a row. -/
def starting (es : List Edge) (y : Int) : List Edge := es.filter fun e => e.top = y

theorem sweep_append {starts : Int → List Edge} (ys zs : List Int) (active : List Edge) :
    sweep starts (ys ++ zs) active = sweep starts ys active ++ sweep starts zs (sweepActive starts ys active) := by
  induction ys generalizing active with
  | nil => rfl
  | cons y ys ih => simp only [List.cons_append, sweep, sweepActive, ih, List.append_assoc]

theorem map_fst_sweepHeld (starts : Int → List Edge) (ys : List Int) (active : List Edge) :
    (sweepHeld starts ys active).map Prod.fst = ys := by
  induction ys generalizing active with
  | nil => rfl
  | cons y ys ih => simp only [sweepHeld, List.map_cons, ih]

theorem sweepHeld_congr {starts starts' : Int → List Edge} {ys : List Int} (h : ∀ y ∈ ys, starts y = starts' y)
    (active : List Edge) : sweepHeld starts ys active = sweepHeld starts' ys active := by
  induction ys generalizing active with
  | nil => rfl
  | cons y ys ih =>
    obtain ⟨hy, hys⟩ := List.forall_mem_cons.mp h
    simp only [sweepHeld, hy, ih hys]

theorem sweep_congr {starts starts' : Int → List Edge} {ys : List Int} (h : ∀ y ∈ ys, starts y = starts' y)
    (active : List Edge) : sweep starts ys active = sweep starts' ys active := by
  rw [sweep_eq, sweepHeld_congr h, ← sweep_eq]

/-- Rows by rows the scan takes what starts there from the sorted edges. -/
theorem scanHeld_eq_sweepHeld {es : List Edge} (lo hi : Int) (h : ∀ e ∈ es, lo ≤ e.top) (active : List Edge) :
    scanHeld (irange lo hi) (es.mergeSort fun a b => a.top ≤ b.top) active =
      sweepHeld (starting es) (irange lo hi) active := by
  have hrows : ∀ (n : Nat) (lo : Int) (pending active : List Edge), hi + 1 - lo ≤ n → Descends pending →
      (∀ e ∈ pending, lo ≤ e.top) →
      scanHeld (irange lo hi) pending active = sweepHeld (starting pending) (irange lo hi) active := by
    intro n
    induction n with
    | zero =>
      intro lo pending active hn _ _
      rw [irange_eq_nil (by omega)]
      rfl
    | succ n ih =>
      intro lo pending active hn hdescends hlo
      by_cases hempty : hi < lo
      · rw [irange_eq_nil hempty]
        rfl
      · obtain ⟨htake, hdrop⟩ := takeWhile_top hdescends hlo
        rw [irange_cons (by omega), scanHeld, sweepHeld, htake, hdrop]
        refine congrArg _ ((ih _ _ _ (by omega) (hdescends.filter _) fun e he => ?_).trans ?_)
        · have := of_decide_eq_true (List.mem_filter.mp he).2
          omega
        · refine sweepHeld_congr (fun y hy => ?_) _
          have := (mem_irange.mp hy).1
          rw [starting, starting, List.filter_filter]
          refine List.filter_congr fun e _ => ?_
          grind
  rw [hrows (hi + 1 - lo).toNat lo _ active (by omega) (sorted_mergeSort Edge.top es)
    fun e he => h e (List.mem_mergeSort.mp he)]
  exact sweepHeld_congr (fun y _ => filter_mergeSort_top es y) active

/-! ## The rows of a polygon -/

/-- The edges as a scan from the row `first` on has them. -/
def entering (first : Int) (es : List Edge) : List Edge :=
  (es.filter fun e => first ≤ e.bottom).map (Edge.enterAt first)

/-- The edges that a scan from the row `first` on takes up on a row. -/
def startingFrom (first : Int) (es : List Edge) (y : Int) : List Edge :=
  starting (entering first es) y

/-- The first row of the edges. -/
def topmost : List Edge → Int
  | [] => 0
  | e :: es => least e.top (es.map Edge.top)

/-- The last row of the edges. -/
def lowest : List Edge → Int
  | [] => -1
  | e :: es => greatest e.bottom (es.map Edge.bottom)

/-- The row on which a scan of the given rows begins. -/
def firstRow (es : List Edge) : Option (Int × Int) → Int
  | some (t, _) => max (topmost es) t
  | none => topmost es

/-- The row on which a scan of the given rows ends. -/
def lastRow (es : List Edge) : Option (Int × Int) → Int
  | some (_, b) => min (lowest es) b
  | none => lowest es

/-- The rows of a polygon's scan, each with the edges that are paired off on it. -/
def evenOddHeld (pts : List Point) (rows : Option (Int × Int)) : List (Int × List Edge) :=
  if pts.length < 3 then []
  else
    let first := firstRow (edges pts) rows
    scanHeld (irange first (lastRow (edges pts) rows))
      ((entering first (edges pts)).mergeSort fun a b => a.top ≤ b.top) []

theorem least_le (v : Int) (vs : List Int) : least v vs ≤ v ∧ ∀ x ∈ vs, least v vs ≤ x := by
  induction vs generalizing v with
  | nil => simp [least]
  | cons x xs ih =>
    obtain ⟨hfirst, hrest⟩ := ih (min v x)
    simp only [least, List.foldl_cons, List.forall_mem_cons] at hfirst hrest ⊢
    exact ⟨by omega, by omega, hrest⟩

theorem le_greatest (v : Int) (vs : List Int) : v ≤ greatest v vs ∧ ∀ x ∈ vs, x ≤ greatest v vs := by
  induction vs generalizing v with
  | nil => simp [greatest]
  | cons x xs ih =>
    obtain ⟨hfirst, hrest⟩ := ih (max v x)
    simp only [greatest, List.foldl_cons, List.forall_mem_cons] at hfirst hrest ⊢
    exact ⟨by omega, by omega, hrest⟩

theorem least_mem (v : Int) (vs : List Int) : least v vs ∈ v :: vs := by
  induction vs generalizing v with
  | nil => simp [least]
  | cons x xs ih =>
    have hmem := ih (min v x)
    simp only [least, List.foldl_cons, List.mem_cons] at hmem ⊢
    rcases hmem with hmem | hmem
    · omega
    · exact .inr (.inr hmem)

theorem greatest_mem (v : Int) (vs : List Int) : greatest v vs ∈ v :: vs := by
  induction vs generalizing v with
  | nil => simp [greatest]
  | cons x xs ih =>
    have hmem := ih (max v x)
    simp only [greatest, List.foldl_cons, List.mem_cons] at hmem ⊢
    rcases hmem with hmem | hmem
    · omega
    · exact .inr (.inr hmem)

theorem least_congr {v w : Int} {vs ws : List Int} (h : ∀ x, x ∈ v :: vs ↔ x ∈ w :: ws) : least v vs = least w ws := by
  have hv : ∀ x ∈ v :: vs, least v vs ≤ x := List.forall_mem_cons.mpr (least_le v vs)
  have hw : ∀ x ∈ w :: ws, least w ws ≤ x := List.forall_mem_cons.mpr (least_le w ws)
  exact Int.le_antisymm (hv _ ((h _).mpr (least_mem w ws))) (hw _ ((h _).mp (least_mem v vs)))

theorem greatest_congr {v w : Int} {vs ws : List Int} (h : ∀ x, x ∈ v :: vs ↔ x ∈ w :: ws) :
    greatest v vs = greatest w ws := by
  have hv : ∀ x ∈ v :: vs, x ≤ greatest v vs := List.forall_mem_cons.mpr (le_greatest v vs)
  have hw : ∀ x ∈ w :: ws, x ≤ greatest w ws := List.forall_mem_cons.mpr (le_greatest w ws)
  exact Int.le_antisymm (hw _ ((h _).mp (greatest_mem v vs))) (hv _ ((h _).mpr (greatest_mem w ws)))

theorem topmost_le {es : List Edge} {e : Edge} (he : e ∈ es) : topmost es ≤ e.top := by
  cases es with
  | nil => cases he
  | cons a es =>
    obtain ⟨hfirst, hrest⟩ := least_le a.top (es.map Edge.top)
    exact (List.forall_mem_cons (p := fun e => topmost (a :: es) ≤ e.top)).mpr
      ⟨hfirst, fun e he => hrest _ (List.mem_map_of_mem he)⟩ e he

theorem le_lowest {es : List Edge} {e : Edge} (he : e ∈ es) : e.bottom ≤ lowest es := by
  cases es with
  | nil => cases he
  | cons a es =>
    obtain ⟨hfirst, hrest⟩ := le_greatest a.bottom (es.map Edge.bottom)
    exact (List.forall_mem_cons (p := fun e => e.bottom ≤ lowest (a :: es))).mpr
      ⟨hfirst, fun e he => hrest _ (List.mem_map_of_mem he)⟩ e he

theorem Edge.top_enterAt (first : Int) (e : Edge) : (e.enterAt first).top = max e.top first := by
  rw [Edge.enterAt]
  split
  · change first = max e.top first
    omega
  · omega

@[simp] theorem Edge.bottom_enterAt (first : Int) (e : Edge) : (e.enterAt first).bottom = e.bottom := by
  rw [Edge.enterAt]
  split <;> rfl

theorem le_top_of_mem_entering {first : Int} {es : List Edge} {e : Edge} (he : e ∈ entering first es) :
    first ≤ e.top := by
  obtain ⟨e, -, rfl⟩ := List.mem_map.mp he
  rw [Edge.top_enterAt]
  exact Int.le_max_right _ _

/-- Edges that start further down enter as they are. -/
theorem entering_of_le {es : List Edge} (hes : ∀ e ∈ es, e.top ≤ e.bottom) {first : Int}
    (hfirst : ∀ e ∈ es, first ≤ e.top) : entering first es = es := by
  rw [entering, List.filter_eq_self.mpr fun e he => decide_eq_true ((hfirst e he).trans (hes e he))]
  exact (List.map_congr_left fun e he => if_neg (not_lt.mpr (hfirst e he))).trans (List.map_id _)

theorem evenOddRuns_eq (pts : List Point) (rows : Option (Int × Int)) :
    evenOddRuns pts rows = (evenOddHeld pts rows).flatMap fun s => pairRuns s.1 s.2 := by
  rw [evenOddRuns, evenOddHeld]
  split
  · rfl
  · rw [← scanRows_eq]
    cases hedges : edges pts with
    | nil =>
      rw [irange_eq_nil]
      · rfl
      · rcases rows with _ | ⟨t, b⟩ <;> simp only [firstRow, lastRow, topmost, lowest] <;> omega
    | cons e es => rcases rows with _ | ⟨t, b⟩ <;> rfl

theorem evenOddHeld_eq_sweepHeld {pts : List Point} (hpts : 3 ≤ pts.length) (rows : Option (Int × Int)) :
    evenOddHeld pts rows = sweepHeld (startingFrom (firstRow (edges pts) rows) (edges pts))
      (irange (firstRow (edges pts) rows) (lastRow (edges pts) rows)) [] := by
  rw [evenOddHeld, if_neg (by omega)]
  exact scanHeld_eq_sweepHeld _ _ (fun e he => le_top_of_mem_entering he) []

/-- A polygon is scanned from the first row of its edges to the last one, within the rows that are given. -/
theorem evenOddRuns_eq_sweep {pts : List Point} (hpts : 3 ≤ pts.length) (hne : edges pts ≠ []) :
    ∃ top bottom, top ≤ bottom ∧ (∀ e ∈ edges pts, top ≤ e.top ∧ e.bottom ≤ bottom) ∧
      evenOddRuns pts none = sweep (starting (edges pts)) (irange top bottom) [] ∧
      ∀ t b, evenOddRuns pts (some (t, b)) =
        sweep (startingFrom (max top t) (edges pts)) (irange (max top t) (min bottom b)) [] := by
  have hlines : ∀ e ∈ edges pts, e.top ≤ e.bottom := fun e => top_le_bottom
  obtain ⟨e, he⟩ := List.exists_mem_of_ne_nil _ hne
  refine ⟨topmost (edges pts), lowest (edges pts), (topmost_le he).trans ((hlines e he).trans (le_lowest he)),
    fun e he => ⟨topmost_le he, le_lowest he⟩, ?_, fun t b => ?_⟩
  · rw [evenOddRuns_eq, evenOddHeld_eq_sweepHeld hpts, ← sweep_eq]
    refine sweep_congr (fun y _ => ?_) []
    rw [startingFrom, firstRow, entering_of_le hlines fun e => topmost_le]
  · rw [evenOddRuns_eq, evenOddHeld_eq_sweepHeld hpts, ← sweep_eq]
    rfl

/-! ## The edges on a row -/

theorem insertEdge_eq_orderedInsert (active : List Edge) (e : Edge) :
    insertEdge active e = active.orderedInsert (fun a b => a.startKey ≤ b.startKey) e := by
  rw [List.orderedInsert_eq_take_drop]
  simp only [not_le]
  rfl

theorem perm_activeOn (active starting : List Edge) : (activeOn active starting).Perm (active ++ starting) := by
  induction starting generalizing active with
  | nil => simp [activeOn]
  | cons e es ih =>
    calc (activeOn (insertEdge active e) es).Perm (insertEdge active e ++ es) := ih _
      _ |>.Perm (e :: active ++ es) := by
        rw [insertEdge_eq_orderedInsert]
        exact (List.perm_orderedInsert _ e active).append_right es
      _ |>.Perm (active ++ e :: es) := List.perm_middle.symm

/-- A scan that begins above all edges has none of them from above. -/
theorem perm_nil_straddling {es : List Edge} {first : Int} (hfirst : ∀ e ∈ es, first ≤ e.top) :
    ([] : List Edge).Perm ((es.filter (Edge.Straddles first)).map (Edge.onRow first)) := by
  rw [List.filter_eq_nil_iff.mpr fun e he h => absurd (of_decide_eq_true h).1 (not_lt.mpr (hfirst e he))]
  exact .nil

theorem perm_nextRow (y : Int) (active : List Edge) :
    (nextRow y active).Perm ((active.filter fun e => y < e.bottom).map (Edge.advance · 1)) :=
  List.mergeSort_perm _ _

theorem sorted_nextRow (y : Int) (active : List Edge) :
    (nextRow y active).Pairwise fun a b => a.rowKey ≤ b.rowKey :=
  sorted_mergeSort Edge.rowKey _

theorem sorted_sweepActive (starts : Int → List Edge) (ys : List Int) {active : List Edge}
    (h : active.Pairwise fun a b => a.rowKey ≤ b.rowKey) :
    (sweepActive starts ys active).Pairwise fun a b => a.rowKey ≤ b.rowKey := by
  induction ys generalizing active with
  | nil => exact h
  | cons y ys ih => exact ih (sorted_nextRow y _)

section Meeting

variable {es active : List Edge}

theorem perm_next {y : Int} (h : active.Perm ((es.filter (Edge.Meets y)).map (Edge.onRow y))) :
    (nextRow y active).Perm ((es.filter (Edge.Straddles (y + 1))).map (Edge.onRow (y + 1))) := by
  have hrest : es.filter (Edge.Straddles (y + 1)) =
      (es.filter (Edge.Meets y)).filter fun e => decide (y < e.bottom) := by
    rw [List.filter_filter]
    refine List.filter_congr fun e he => ?_
    simp only [Edge.Straddles, Edge.Meets]
    grind
  have hmoved : (((es.filter (Edge.Meets y)).map (Edge.onRow y)).filter fun e => decide (y < e.bottom)).map
      (Edge.advance · 1) = (es.filter (Edge.Straddles (y + 1))).map (Edge.onRow (y + 1)) := by
    rw [hrest, List.filter_map, List.map_map]
    exact List.map_congr_left fun e _ => Edge.advance_one_onRow e y
  rw [← hmoved]
  exact (perm_nextRow y active).trans ((h.filter _).map _)

variable (hes : ∀ e ∈ es, e.top ≤ e.bottom)
include hes

theorem perm_filter_meets (y : Int) :
    (es.filter (Edge.Straddles y) ++ starting es y).Perm (es.filter (Edge.Meets y)) := by
  have hsplit := List.filter_append_perm (fun e => decide (e.top < y)) (es.filter (Edge.Meets y))
  rw [List.filter_filter, List.filter_filter] at hsplit
  refine List.Perm.trans (List.Perm.of_eq (congrArg₂ _ ?_ ?_)) hsplit
  · refine List.filter_congr fun e _ => ?_
    simp only [Edge.Straddles, Edge.Meets]
    grind
  · refine List.filter_congr fun e he => ?_
    have := hes e he
    simp only [Edge.Meets]
    grind

/-- On each row the scan holds the edges that meet it, at their columns there. -/
theorem perm_now {y : Int} (h : active.Perm ((es.filter (Edge.Straddles y)).map (Edge.onRow y))) :
    (activeOn active (starting es y)).Perm ((es.filter (Edge.Meets y)).map (Edge.onRow y)) := by
  have hstart : (starting es y).map (Edge.onRow y) = starting es y :=
    (List.map_congr_left fun e he => Edge.onRow_self (of_decide_eq_true (List.mem_filter.mp he).2)).trans
      (List.map_id _)
  calc (activeOn active (starting es y)).Perm (active ++ starting es y) := perm_activeOn _ _
    _ |>.Perm ((es.filter (Edge.Straddles y)).map (Edge.onRow y) ++ (starting es y).map (Edge.onRow y)) := by
      rw [hstart]
      exact h.append_right _
    _ |>.Perm ((es.filter (Edge.Meets y)).map (Edge.onRow y)) := by
      rw [← List.map_append]
      exact (perm_filter_meets hes y).map _

/-- Below some rows the scan goes on with the edges that reach the next one from above. -/
theorem perm_sweepActive {lo hi : Int} (hlohi : lo ≤ hi + 1)
    (h : active.Perm ((es.filter (Edge.Straddles lo)).map (Edge.onRow lo))) :
    (sweepActive (starting es) (irange lo hi) active).Perm
      ((es.filter (Edge.Straddles (hi + 1))).map (Edge.onRow (hi + 1))) := by
  obtain ⟨n, hn⟩ : ∃ n : Nat, hi + 1 = lo + n := ⟨(hi + 1 - lo).toNat, by omega⟩
  induction n generalizing lo active with
  | zero =>
    rw [irange_eq_nil (by omega)]
    obtain rfl : lo = hi + 1 := by omega
    exact h
  | succ n ih =>
    rw [irange_cons (by omega)]
    exact ih (by omega) (perm_next (perm_now hes h)) (by omega)

end Meeting

end Rasterizer.Polygon
