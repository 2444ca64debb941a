import Rasterizer.Proofs.Polygon.Turns

/-! # One polygon, listed in several ways

The list of a polygon's vertices may begin at any of them, and may go round either way. A list that names its first
vertex again at its end is turned as the cycle it is (`turned`). None of this changes the points, the sides or the
test for one run a row (`isMonotone_reverse`, `isMonotone_turned`), unless a turn puts equal neighbours at the two ends
of a list and so closes it. -/

namespace Rasterizer.Polygon

/-- The last vertex is the first one again. -/
def Closed (pts : List Point) : Prop := pts.head? = pts.getLast?

instance (pts : List Point) : Decidable (Closed pts) := inferInstanceAs (Decidable (_ = _))

/-- The polygon listed from its vertex `k` on; a closed list is closed again. -/
def turned (pts : List Point) (k : Nat) : List Point :=
  if Closed pts then around (pts.dropLast.rotate k) else pts.rotate k

/-! ## Closed lists -/

theorem closed_around (pts : List Point) : Closed (around pts) := by
  cases pts with
  | nil => rfl
  | cons p pts => exact (List.getLast?_append_of_ne_nil (p :: pts) (List.cons_ne_nil p [])).symm

theorem around_dropLast {pts : List Point} (hpts : 2 ≤ pts.length) (h : Closed pts) : around pts.dropLast = pts := by
  match pts, hpts with
  | p :: q :: rest, _ =>
    exact List.dropLast_append_getLast? p (h.symm : (p :: q :: rest).getLast? = some p)

theorem length_around {pts : List Point} (h : pts ≠ []) : (around pts).length = pts.length + 1 := by
  obtain ⟨p, rest, rfl⟩ := List.exists_cons_of_ne_nil h
  simp [around]

theorem mem_around {pts : List Point} {p : Point} : p ∈ around pts ↔ p ∈ pts := by
  rw [around, List.mem_append, or_iff_left_of_imp List.mem_of_mem_take]

theorem map_around (f : Point → Point) (pts : List Point) : (around pts).map f = around (pts.map f) := by
  rw [around, around, List.map_append, List.map_take]

/-- A list is turned with a cycle that it may be closed from. -/
theorem turned_eq {pts : List Point} (hpts : 3 ≤ pts.length) (k : Nat) :
    (¬Closed pts ∧ turned pts k = pts.rotate k) ∨
      ∃ cycle : List Point, cycle ≠ [] ∧ pts = around cycle ∧ turned pts k = around (cycle.rotate k) := by
  by_cases h : Closed pts
  · refine .inr ⟨pts.dropLast, fun hnil => ?_, (around_dropLast (by omega) h).symm, if_pos h⟩
    have hlength := congrArg List.length hnil
    rw [List.length_dropLast, List.length_nil] at hlength
    omega
  · exact .inl ⟨h, if_neg h⟩

section Turned

variable {pts : List Point} (hpts : 3 ≤ pts.length) (k : Nat)

include hpts

theorem length_turned : (turned pts k).length = pts.length := by
  rcases turned_eq hpts k with ⟨-, h⟩ | ⟨cycle, hne, rfl, h⟩
  · rw [h, List.length_rotate]
  · rw [h, length_around hne, length_around (by rwa [ne_eq, List.rotate_eq_nil_iff]), List.length_rotate]

theorem mem_turned {p : Point} : p ∈ turned pts k ↔ p ∈ pts := by
  rcases turned_eq hpts k with ⟨-, h⟩ | ⟨cycle, -, rfl, h⟩
  · rw [h, List.mem_rotate]
  · rw [h, mem_around, mem_around, List.mem_rotate]

/-- The images of the vertices have the same sides. -/
theorem perm_sides_turned (f : Point → Point) : (sides ((turned pts k).map f)).Perm (sides (pts.map f)) := by
  rcases turned_eq hpts k with ⟨-, h⟩ | ⟨cycle, -, rfl, h⟩
  · rw [h, List.map_rotate]
    exact perm_sides_rotate _ k
  · rw [h, map_around, map_around, sides_around, sides_around, List.map_rotate]
    exact perm_sides_rotate _ k

end Turned

/-! ## The test for one run a row -/

theorem isMonotone_iff {pts : List Point} :
    isMonotone pts = true ↔ pts.length < 4 ∨ (Closed pts ∧ changes (directions pts) ≤ 2) := by
  rw [isMonotone, Bool.or_eq_true, Bool.and_eq_true, decide_eq_true_eq, decide_eq_true_eq, beq_iff_eq]
  rfl

theorem directions_reverse (pts : List Point) : directions pts.reverse = ((directions pts).map (- ·)).reverse := by
  have hswap : (fun s : Point × Point => (s.2.y - s.1.y).sign) ∘ Prod.swap =
      (- ·) ∘ fun s : Point × Point => (s.2.y - s.1.y).sign := by
    funext s
    rw [Function.comp_apply, Function.comp_apply, ← Int.sign_neg, Int.neg_sub]
    rfl
  have hzero : (fun d : Int => decide (d ≠ 0)) ∘ (- ·) = fun d => decide (d ≠ 0) := by
    funext d
    rw [Function.comp_apply, decide_eq_decide, ne_eq, Int.neg_eq_zero]
  rw [directions_eq, directions_eq, pairs_reverse, List.map_reverse, List.map_map, hswap, ← List.map_map,
    List.filter_reverse, List.filter_map, hzero]

theorem changes_reverse (ds : List Int) : changes ds.reverse = changes ds := by
  rw [changes_eq, changes_eq, pairs_reverse, List.countP_reverse, List.countP_map]
  refine List.countP_congr fun s _ => ?_
  simp only [Function.comp_apply, Prod.fst_swap, Prod.snd_swap, bne_iff_ne]
  exact ne_comm

theorem isMonotone_reverse (pts : List Point) : isMonotone pts.reverse = isMonotone pts := by
  have hclosed : Closed pts.reverse ↔ Closed pts := by
    rw [Closed, List.head?_reverse, List.getLast?_reverse]
    exact eq_comm
  have hturns : changes (directions pts.reverse) = changes (directions pts) := by
    rw [directions_reverse, changes_reverse]
    exact changes_map (fun _ _ => Int.neg_inj.mp) _
  rw [Bool.eq_iff_iff, isMonotone_iff, isMonotone_iff, List.length_reverse, hclosed, hturns]

/-- Turns come in pairs all the way round, so one more turn at the ends of the list does not tell. -/
theorem changes_le_two_iff (pts : List Point) :
    changes (directions (around pts)) ≤ 2 ↔ changes (around (directions (around pts))) ≤ 2 := by
  have hless : changes (directions (around pts)) ≤ changes (around (directions (around pts))) :=
    changes_sublist (List.sublist_append_left _ _)
  have hmore := changes_around_le (directions (around pts))
  obtain ⟨n, hn⟩ := even_changes_around (around pts)
  omega

/-- Where a list begins makes no difference to the test, unless the turn closes the list. -/
theorem isMonotone_turned {pts : List Point} (hpts : 3 ≤ pts.length) {k : Nat}
    (hopen : Closed (turned pts k) → Closed pts ∨ pts.length < 4) : isMonotone (turned pts k) = isMonotone pts := by
  rw [Bool.eq_iff_iff, isMonotone_iff, isMonotone_iff, length_turned hpts]
  rcases turned_eq hpts k with ⟨hpts', -⟩ | ⟨cycle, -, rfl, h⟩
  · tauto
  · rw [h, changes_le_two_iff, changes_le_two_iff, changes_around_rotate]
    simp only [closed_around]

end Rasterizer.Polygon
