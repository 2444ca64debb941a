import Mathlib.Algebra.Group.Nat.Even
import Mathlib.Data.List.Rotate
import Rasterizer.Proofs.Polygon.Scan

/-! # The sides of a closed polygon

A polygon is closed from its last vertex to its first one. Its sides are taken from their upper to their lower
ends, level ones left out. They are the same wherever the list of the vertices begins, whichever way it goes
round (`perm_sides_rotate`, `perm_sides_reverse`) and whether or not it names its first vertex again at its end
(`sides_around`). The edges of the scan are the sides (`perm_edges`), and a row crosses an even number of
them (`even_crossing`), since it is entered as often as it is left. -/

namespace Rasterizer.Polygon

/-! ## Lists that close up -/

section Around

variable {α : Type}

/-- Each element of a list but the last one with the one after it. -/
def pairs (l : List α) : List (α × α) := l.zip l.tail

/-- Each element with the one after it, the last one with the first. -/
def neighbours (l : List α) : List (α × α) := l.zip (l.rotate 1)

/-- The list with its first element once more at its end. -/
def around (l : List α) : List α := l ++ l.take 1

theorem pairs_cons_cons (a b : α) (l : List α) : pairs (a :: b :: l) = (a, b) :: pairs (b :: l) := rfl

theorem pairs_append (l : List α) (b : α) (r : List α) :
    pairs (l ++ b :: r) = pairs (l ++ [b]) ++ pairs (b :: r) := by
  induction l with
  | nil => rfl
  | cons a l ih =>
    cases l with
    | nil => rfl
    | cons c l => simpa only [List.cons_append, pairs_cons_cons, List.cons.injEq, true_and] using ih

theorem pairs_reverse (l : List α) : pairs l.reverse = ((pairs l).map Prod.swap).reverse := by
  induction l with
  | nil => rfl
  | cons a l ih =>
    cases l with
    | nil => rfl
    | cons b l =>
      rw [List.reverse_cons, List.reverse_cons, List.append_assoc, List.singleton_append, pairs_append,
        ← List.reverse_cons, ih, pairs_cons_cons a b l, List.map_cons, List.reverse_cons]
      rfl

theorem mem_of_mem_pairs {l : List α} {s : α × α} (h : s ∈ pairs l) : s.1 ∈ l ∧ s.2 ∈ l :=
  ⟨(List.of_mem_zip h).1, List.mem_of_mem_tail (List.of_mem_zip h).2⟩

theorem pairs_around (l : List α) : pairs (around l) = neighbours l := by
  cases l with
  | nil => rfl
  | cons a l =>
    have hzip : (a :: l ++ [a]).zip (l ++ [a] ++ []) = (a :: l).zip (l ++ [a]) ++ [a].zip [] :=
      List.zip_append (by simp)
    simpa [pairs, around, neighbours] using hzip

theorem length_neighbours (l : List α) : (neighbours l).length = l.length := by simp [neighbours]

theorem neighbours_cons (a : α) (l : List α) :
    neighbours (a :: l) = pairs (a :: l) ++ [((a :: l).getLast (List.cons_ne_nil a l), a)] := by
  rw [← pairs_around, around, List.take_succ_cons, List.take_zero]
  conv => lhs; rw [← List.dropLast_append_getLast (List.cons_ne_nil a l)]
  rw [List.append_assoc, List.singleton_append, pairs_append, List.dropLast_append_getLast]
  rfl

theorem neighbours_around {a : α} {l : List α} :
    neighbours (around (a :: l)) = neighbours (a :: l) ++ [(a, a)] := by
  rw [← pairs_around (a :: l)]
  exact (neighbours_cons a (l ++ [a])).trans (by simp [around])

theorem neighbours_rotate (l : List α) (k : Nat) : neighbours (l.rotate k) = (neighbours l).rotate k := by
  rw [neighbours, neighbours, List.rotate_rotate, Nat.add_comm, ← List.rotate_rotate]
  exact (List.zipWith_rotate_distrib Prod.mk l (l.rotate 1) k (by simp)).symm

theorem isRotated_filter_rotate (f : α → Bool) (l : List α) (k : Nat) :
    (l.filter f).IsRotated ((l.rotate k).filter f) := by
  rw [List.rotate_eq_drop_append_take_mod, List.filter_append]
  conv => lhs; rw [← List.take_append_drop (k % l.length) l, List.filter_append]
  exact List.isRotated_append

/-- The elements the other way round. -/
theorem perm_neighbours_reverse (l : List α) :
    (neighbours l.reverse).Perm ((neighbours l).map Prod.swap) := by
  cases l with
  | nil => exact .nil
  | cons a l =>
    have hback : neighbours (a :: l.reverse) = ((neighbours (a :: l)).map Prod.swap).reverse := by
      rw [← pairs_around, ← pairs_around, ← pairs_reverse]
      simp [around]
    have hturned : (a :: l.reverse).rotate 1 = (a :: l).reverse := by simp
    rw [← hturned, neighbours_rotate, hback]
    exact (List.rotate_perm _ 1).trans (List.reverse_perm _)

theorem countP_zip_changes (f : α → Bool) {l l' : List α} (h : l.length = l'.length) :
    (l.zip l').countP (fun p => f p.1 != f p.2) % 2 = (l.countP f + l'.countP f) % 2 := by
  induction l generalizing l' with
  | nil =>
    obtain rfl := List.eq_nil_of_length_eq_zero h.symm
    rfl
  | cons a l ih =>
    obtain ⟨b, l', rfl⟩ := List.exists_cons_of_length_eq_add_one h.symm
    have hrest := ih (Nat.succ.inj h)
    simp only [List.zip_cons_cons, List.countP_cons]
    cases f a <;> cases f b <;> simp <;> omega

/-- Around a list a property begins to hold as often as it ends. -/
theorem even_changes (f : α → Bool) (l : List α) : Even ((neighbours l).countP fun p => f p.1 != f p.2) := by
  rw [Nat.even_iff, neighbours, countP_zip_changes f (by simp), (List.rotate_perm l 1).countP_eq]
  omega

end Around

/-! ## Sides -/

/-- The side from its upper to its lower end, unless it is level. -/
def downward? (s : Point × Point) : Option (Point × Point) :=
  if s.1.y < s.2.y then some s else if s.2.y < s.1.y then some s.swap else none

/-- The sides of the closed polygon. -/
def sides (pts : List Point) : List (Point × Point) := (neighbours pts).filterMap downward?

/-- The side has pixels on the row `y`: its upper end is on or above the row and its lower end below it. -/
def Crosses (y : Int) (s : Point × Point) : Prop := s.1.y ≤ y ∧ y < s.2.y

instance (y : Int) (s : Point × Point) : Decidable (Crosses y s) := inferInstanceAs (Decidable (_ ∧ _))

theorem downward?_swap (s : Point × Point) : downward? s.swap = downward? s := by
  simp only [downward?, Prod.fst_swap, Prod.snd_swap, Prod.swap_swap]
  split <;> split <;> first | rfl | omega

theorem mem_of_mem_sides {pts : List Point} {s : Point × Point} (h : s ∈ sides pts) : s.1 ∈ pts ∧ s.2 ∈ pts := by
  obtain ⟨⟨p, q⟩, hpq, ht⟩ := List.mem_filterMap.mp h
  obtain ⟨hp, hq⟩ := List.of_mem_zip hpq
  rw [List.mem_rotate] at hq
  simp only [downward?] at ht
  split at ht
  · rw [← Option.some.inj ht]
    exact ⟨hp, hq⟩
  · split at ht
    · rw [← Option.some.inj ht]
      exact ⟨hq, hp⟩
    · cases ht

theorem perm_sides_rotate (pts : List Point) (k : Nat) : (sides (pts.rotate k)).Perm (sides pts) := by
  rw [sides, neighbours_rotate]
  exact (List.rotate_perm _ k).filterMap _

theorem perm_sides_reverse (pts : List Point) : (sides pts.reverse).Perm (sides pts) := by
  have hswap : ((neighbours pts).map Prod.swap).filterMap downward? = sides pts := by
    rw [List.filterMap_map]
    exact List.filterMap_congr fun s _ => downward?_swap s
  rw [← hswap]
  exact (perm_neighbours_reverse pts).filterMap _

theorem sides_around (pts : List Point) : sides (around pts) = sides pts := by
  cases pts with
  | nil => rfl
  | cons a pts =>
    rw [sides, neighbours_around, List.filterMap_append, sides]
    simp [downward?]

theorem even_crossing (pts : List Point) (y : Int) : Even ((sides pts).countP (Crosses y)) := by
  have hcross : (sides pts).countP (Crosses y) =
      (neighbours pts).countP fun s => decide (s.1.y ≤ y) != decide (s.2.y ≤ y) := by
    rw [sides, List.countP_filterMap]
    refine List.countP_congr fun s _ => ?_
    simp only [downward?, bne_iff_ne, ne_eq, decide_eq_decide]
    split
    · rw [Option.map_some, Option.getD_some, decide_eq_true_eq, Crosses]
      omega
    · split
      · rw [Option.map_some, Option.getD_some, decide_eq_true_eq, Crosses, Prod.fst_swap, Prod.snd_swap]
        omega
      · simp only [Option.map_none, Option.getD_none, Bool.false_eq_true, false_iff]
        omega
  rw [hcross]
  exact even_changes (fun p => decide (p.y ≤ y)) pts

/-! ## Edges of the scan -/

theorem between?_eq (a b : Point) : Edge.between? a b = (downward? (a, b)).map fun s => Edge.down s.1 s.2 := by
  simp only [Edge.between?, downward?]
  split
  · rw [if_neg (by omega), if_neg (by omega)]
    rfl
  · split
    · rw [if_neg (by omega)]
      rfl
    · rw [if_pos (by omega)]
      rfl

theorem rotate_rotateRight (pts : List Point) : (pts.rotateRight 1).rotate 1 = pts := by
  rcases Nat.lt_or_ge pts.length 2 with h | h
  · match pts, h with
    | [], _ => rfl
    | [a], _ => simp [List.rotateRight]
  · have hmod := Nat.mod_eq_of_lt (show 1 < pts.length by omega)
    have hright : pts.rotateRight 1 = pts.rotate (pts.length - 1) := by
      rw [List.rotate_eq_drop_append_take (by omega), List.rotateRight, if_neg (by omega), hmod]
    rw [hright, List.rotate_rotate, Nat.sub_add_cancel (by omega), List.rotate_length]

theorem perm_edges (pts : List Point) : (edges pts).Perm ((sides pts).map fun s => Edge.down s.1 s.2) := by
  let qts := pts.rotateRight 1
  have hpts : qts.rotate 1 = pts := rotate_rotateRight pts
  have hedges : edges pts = (sides qts).map fun s => Edge.down s.1 s.2 := by
    have hpair : ∀ l l' : List Point, (List.zipWith Edge.between? l l').filterMap id =
        ((l'.zip l).filterMap downward?).map fun s => Edge.down s.1 s.2 := by
      intro l
      induction l with
      | nil => simp
      | cons a l ih =>
        intro l'
        cases l' with
        | nil => rfl
        | cons b l' =>
          rw [List.zipWith_cons_cons, List.zip_cons_cons, List.filterMap_cons, List.filterMap_cons, id, between?_eq,
            ← Prod.swap_prod_mk, downward?_swap]
          cases downward? (b, a) with
          | none => exact ih l'
          | some s => exact congrArg _ (ih l')
    rw [edges, sides, neighbours, hpts]
    exact hpair _ _
  rw [hedges, ← hpts]
  exact (perm_sides_rotate qts 1).symm.map _

end Rasterizer.Polygon
