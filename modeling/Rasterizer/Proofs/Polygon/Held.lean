import Rasterizer.Proofs.Polygon.Limited
import Rasterizer.Proofs.Polygon.Sides

/-! # What the scan of a polygon holds

On each row the scan pairs off exactly the sides of the polygon that cross the row, each at its column there
(`perm_evenOddHeld`), whatever the row it began on. They are even in number, so none is left without a partner
(`twice_length_pairRuns`). On its way down an edge stays between the columns of its two ends (`columns_down`), and so
do the runs (`evenOddHeld_sides`). -/

namespace Rasterizer.Polygon

/-! ## The edges held on a row -/

section Held

variable {es : List Edge}

/-- What a row holds, once it holds the edges that come to it from above. -/
theorem perm_of_mem_sweepHeld (hes : ∀ e ∈ es, e.top ≤ e.bottom) {lo hi : Int} {active : List Edge}
    (hactive : active.Perm ((es.filter (Edge.Straddles lo)).map (Edge.onRow lo))) {s : Int × List Edge}
    (hs : s ∈ sweepHeld (starting es) (irange lo hi) active) :
    s.2.Perm ((es.filter (Edge.Meets s.1)).map (Edge.onRow s.1)) := by
  obtain ⟨n, hn⟩ : ∃ n : Nat, hi + 1 - lo ≤ n := ⟨(hi + 1 - lo).toNat, by omega⟩
  induction n generalizing lo active with
  | zero =>
    rw [irange_eq_nil (by omega)] at hs
    cases hs
  | succ n ih =>
    by_cases hempty : hi < lo
    · rw [irange_eq_nil hempty] at hs
      cases hs
    · rw [irange_cons (by omega), sweepHeld] at hs
      have hnow := perm_now hes hactive
      rcases List.mem_cons.mp hs with rfl | hs
      · exact hnow
      · exact ih (perm_next hnow) hs (by omega)

/-- The edges that a scan takes up below their first rows are at their columns. -/
theorem map_below_meets_entering {first y : Int} (hy : first ≤ y) :
    (((entering first es).filter (Edge.Meets y)).map (Edge.onRow y)).map Edge.below =
      ((es.filter (Edge.Meets y)).map (Edge.onRow y)).map Edge.below := by
  rw [entering, List.filter_map, List.filter_filter, List.map_map, List.map_map, List.map_map]
  have hmeets : ∀ e ∈ es, (decide ((e.enterAt first).Meets y) && decide (first ≤ e.bottom)) = decide (e.Meets y) := by
    intro e _
    rw [← Bool.decide_and, decide_eq_decide]
    simp only [Edge.Meets, Edge.top_enterAt, Edge.bottom_enterAt]
    omega
  refine (List.map_congr_left fun e _ => ?_).trans (congrArg _ (List.filter_congr hmeets))
  simp only [Function.comp_apply, Edge.enterAt]
  split
  · simp only [Edge.below, Edge.onRow, Edge.advance, Edge.mk.injEq, true_and, and_true]
    rw [Int.add_assoc, ← Int.mul_add]
    congr 2
    omega
  · rfl

theorem top_le_bottom_of_mem_entering (hes : ∀ e ∈ es, e.top ≤ e.bottom) {first : Int} :
    ∀ e ∈ entering first es, e.top ≤ e.bottom := by
  rw [entering, List.forall_mem_map]
  intro e he
  obtain ⟨he, hfirst⟩ := List.mem_filter.mp he
  have := hes e he
  have := of_decide_eq_true hfirst
  rw [Edge.top_enterAt, Edge.bottom_enterAt]
  omega

end Held

theorem perm_meets (pts : List Point) (y : Int) :
    ((edges pts).filter (Edge.Meets y)).Perm
      (((sides pts).filter (Crosses y)).map fun s => Edge.down s.1 s.2) := by
  refine ((perm_edges pts).filter _).trans (List.Perm.of_eq ?_)
  rw [List.filter_map]
  refine congrArg _ (List.filter_congr fun s _ => ?_)
  rw [Function.comp_apply, decide_eq_decide]
  simp only [Edge.Meets, Crosses, Edge.down]
  omega

/-- On each of its rows the scan holds the sides that cross the row. -/
theorem perm_evenOddHeld {pts : List Point} {rows : Option (Int × Int)} {s : Int × List Edge}
    (hs : s ∈ evenOddHeld pts rows) :
    (s.2.map Edge.below).Perm
      (((sides pts).filter (Crosses s.1)).map fun d => ((Edge.down d.1 d.2).onRow s.1).below) := by
  have hpts : 3 ≤ pts.length := by
    by_contra h
    rw [evenOddHeld, if_pos (by omega)] at hs
    cases hs
  rw [evenOddHeld_eq_sweepHeld hpts] at hs
  generalize firstRow (edges pts) rows = first at hs
  have hrow : first ≤ s.1 := by
    have hmem := List.mem_map_of_mem (f := Prod.fst) hs
    rw [map_fst_sweepHeld] at hmem
    exact (mem_irange.mp hmem).1
  have hheld := perm_of_mem_sweepHeld (top_le_bottom_of_mem_entering fun e => top_le_bottom)
    (perm_nil_straddling fun e => le_top_of_mem_entering) hs
  calc (s.2.map Edge.below).Perm
        ((((entering first (edges pts)).filter (Edge.Meets s.1)).map (Edge.onRow s.1)).map Edge.below) := hheld.map _
    _ |>.Perm ((((edges pts).filter (Edge.Meets s.1)).map (Edge.onRow s.1)).map Edge.below) :=
        List.Perm.of_eq (map_below_meets_entering hrow)
    _ |>.Perm (((sides pts).filter (Crosses s.1)).map fun d => ((Edge.down d.1 d.2).onRow s.1).below) := by
        refine (((perm_meets pts s.1).map _).map _).trans (List.Perm.of_eq ?_)
        rw [List.map_map, List.map_map]
        rfl

theorem even_length_evenOddHeld {pts : List Point} {rows : Option (Int × Int)} {s : Int × List Edge}
    (hs : s ∈ evenOddHeld pts rows) : Even s.2.length := by
  have hlength := (perm_evenOddHeld hs).length_eq
  rw [List.length_map, List.length_map, ← List.countP_eq_length_filter] at hlength
  rw [hlength]
  exact even_crossing pts s.1

/-- Each edge of an even number has its partner. -/
theorem twice_length_pairRuns (y : Int) {active : List Edge} (h : Even active.length) :
    2 * (pairRuns y active).length = active.length := by
  have hlength := congrArg List.length (map_y_pairRuns y active)
  rw [List.length_map, List.length_replicate] at hlength
  rw [Nat.even_iff] at h
  omega

/-! ## Columns -/

/-- Going down, the slope takes an edge at most as far as its lower end. -/
theorem slope_down {p q : Point} {k : Int} (hk : 0 ≤ k) (hlt : k < q.y - p.y) :
    let slope := (Edge.down p q).slope
    (0 ≤ slope ∧ 0 ≤ slope * k ∧ slope * k + slope ≤ (q.x - p.x) * unit) ∨
      (slope ≤ 0 ∧ slope * k ≤ 0 ∧ (q.x - p.x) * unit ≤ slope * k + slope) := by
  intro slope
  let d := (q.x - p.x) * unit
  have hpos : 0 < q.y - p.y := by omega
  rcases Int.le_total 0 d with hd | hd
  · have hslope : slope = d / (q.y - p.y) := Int.tdiv_eq_ediv_of_nonneg hd
    have hnonneg : 0 ≤ slope := hslope ▸ Int.ediv_nonneg hd (by omega)
    have hend : slope * (q.y - p.y) ≤ d := hslope ▸ Int.ediv_mul_le d (by omega)
    have hrow : slope * (k + 1) ≤ slope * (q.y - p.y) := Int.mul_le_mul_of_nonneg_left (by omega) hnonneg
    rw [Int.mul_add, Int.mul_one] at hrow
    exact .inl ⟨hnonneg, Int.mul_nonneg hnonneg hk, by omega⟩
  · have hslope : -slope = -d / (q.y - p.y) := by
      rw [← Int.tdiv_eq_ediv_of_nonneg (by omega), Int.neg_tdiv]
      rfl
    have hnonneg : 0 ≤ -slope := hslope ▸ Int.ediv_nonneg (by omega) (by omega)
    have hend : -slope * (q.y - p.y) ≤ -d := hslope ▸ Int.ediv_mul_le (-d) (by omega)
    have hrow : -slope * (k + 1) ≤ -slope * (q.y - p.y) := Int.mul_le_mul_of_nonneg_left (by omega) hnonneg
    have hbefore : 0 ≤ -slope * k := Int.mul_nonneg hnonneg hk
    rw [Int.neg_mul, Int.neg_mul, Int.mul_add, Int.mul_one] at hrow
    rw [Int.neg_mul] at hend hbefore
    exact .inr ⟨by omega, by omega, by omega⟩

theorem x_down (p q : Point) :
    (Edge.down p q).x = p.x * unit + unit / 2 - 1 + min ((Edge.down p q).slope + unit) 0 := by
  have hunit : unit = 262144 := rfl
  simp only [Edge.down]
  split <;> omega

/-- An edge spreads on each row between the columns of its ends. -/
theorem columns_down {s : Point × Point} {y : Int} (h : Crosses y s) :
    let e := (Edge.down s.1 s.2).onRow y
    min s.1.x s.2.x * unit ≤ e.x ∧ 0 ≤ e.spread ∧ e.x + e.spread < (max s.1.x s.2.x + 1) * unit := by
  obtain ⟨p, q⟩ := s
  obtain ⟨htop, hbottom⟩ : p.y ≤ y ∧ y < q.y := h
  have hslope := slope_down (p := p) (q := q) (k := y - p.y) (by omega) (by omega)
  have hx := x_down p q
  have hspread : (Edge.down p q).spread = max (((Edge.down p q).slope.natAbs : Int) - unit) 0 := rfl
  have hrow : ((Edge.down p q).onRow y).x = (Edge.down p q).x + (Edge.down p q).slope * (y - p.y) := rfl
  simp only [unit] at hslope hx hspread ⊢
  refine ⟨?_, ?_, ?_⟩
  · omega
  · change 0 ≤ (Edge.down p q).spread
    omega
  · change ((Edge.down p q).onRow y).x + (Edge.down p q).spread < _
    omega

/-- Some vertex lies in the column `x` or to its left, and some in it or to its right. -/
def Within (pts : List Point) (x : Int) : Prop := (∃ p ∈ pts, p.x ≤ x) ∧ ∃ p ∈ pts, x ≤ p.x

theorem within_of_bounds {pts : List Point} {p q : Point} (hp : p ∈ pts) (hq : q ∈ pts) {x : Int}
    (hlo : min p.x q.x ≤ x) (hhi : x ≤ max p.x q.x) : Within pts x := by
  refine ⟨?_, ?_⟩
  · rcases Int.le_total p.x q.x with h | h
    · exact ⟨p, hp, by omega⟩
    · exact ⟨q, hq, by omega⟩
  · rcases Int.le_total p.x q.x with h | h
    · exact ⟨q, hq, by omega⟩
    · exact ⟨p, hp, by omega⟩

/-- Both ends of what an edge covers on a row lie within the polygon, and the row does. -/
theorem within_of_mem_evenOddHeld {pts : List Point} {rows : Option (Int × Int)} {s : Int × List Edge}
    (hs : s ∈ evenOddHeld pts rows) {e : Edge} (he : e ∈ s.2) :
    (∃ p ∈ pts, p.y ≤ s.1) ∧ (∃ p ∈ pts, s.1 < p.y) ∧
      Within pts (e.x / unit) ∧ Within pts ((e.x + e.spread) / unit) := by
  obtain ⟨d, hd, hside⟩ := List.mem_map.mp ((perm_evenOddHeld hs).mem_iff.mp (List.mem_map_of_mem he))
  obtain ⟨hd, hcross⟩ := List.mem_filter.mp hd
  have hcross : Crosses s.1 d := of_decide_eq_true hcross
  obtain ⟨hupper, hlower⟩ := mem_of_mem_sides hd
  obtain ⟨hleft, hspread, hright⟩ := columns_down hcross
  obtain ⟨-, -, hx, -, hwide⟩ := Edge.mk.inj hside
  rw [hx] at hleft hright
  rw [hwide] at hspread hright
  simp only [unit] at hleft hright ⊢
  exact ⟨⟨d.1, hupper, hcross.1⟩, ⟨d.2, hlower, hcross.2⟩,
    within_of_bounds hupper hlower (by omega) (by omega), within_of_bounds hupper hlower (by omega) (by omega)⟩

theorem ends_of_mem_pairRuns {y : Int} {active : List Edge} {r : Run} (hr : r ∈ pairRuns y active) :
    r.y = y ∧ ∃ a ∈ active, ∃ b ∈ active, r.x1 = a.x / unit ∧ r.x2 = (b.x + b.spread) / unit := by
  fun_induction pairRuns y active with
  | case1 a b rest ih =>
    rcases List.mem_cons.mp hr with rfl | hr
    · exact ⟨rfl, a, by simp, b, by simp, rfl, rfl⟩
    · obtain ⟨hy, c, hc, d, hd, hends⟩ := ih hr
      exact ⟨hy, c, by simp [hc], d, by simp [hd], hends⟩
  | case2 => cases hr

end Rasterizer.Polygon
