import Rasterizer.Proofs.Polygon.Turns

/-! # The two chains of a polygon

A polygon that turns only twice goes down from its topmost vertex to its bottommost one and comes up again
(`Chains`, `chains_of_cycle`). On each row between the two a chain has exactly one edge (`sidesOn_of_downhill`), and the
columns of its edges follow each other without a gap (`chainColumns_eq`), if all sides fit in 32 bits (`SideFits`). So
the polygon has one run on each row, from the one chain to the other (`monotoneRuns_chains`). -/

namespace Rasterizer.Polygon

/-- No point lies above one before it. -/
def Downhill (ps : List Point) : Prop := ps.Pairwise fun p q => p.y ≤ q.y

/-- The points of a chain between its two ends. -/
def chain (top : Point) (inner : List Point) (bottom : Point) : List Point := top :: inner ++ [bottom]

/-- The edges of a chain that have pixels on the row `y`. -/
def sidesOn (ps : List Point) (y : Int) : List (Point × Point) := (pairs ps).filter (Crosses y)

/-- The column of an edge on the row `y`, the next whole one. -/
def column (y : Int) (s : Point × Point) : Int :=
  s.1.x + ceilDiv ((y - s.1.y) * (s.2.x - s.1.x)) (s.2.y - s.1.y)

/-- The ends of a side and the way from one to the other fit in 32 bits. -/
def SideFits (s : Point × Point) : Prop :=
  Fits32 s.1.x ∧ Fits32 s.2.x ∧ Fits32 (s.2.x - s.1.x) ∧ Fits32 (s.2.y - s.1.y)

instance (s : Point × Point) : Decidable (SideFits s) := inferInstanceAs (Decidable (_ ∧ _))

/-- The polygon goes round from its topmost vertex `top` by `right` down to its bottommost vertex `bottom` and by `left`
back up. -/
structure Chains (pts : List Point) (top bottom : Point) (left right : List Point) : Prop where
  cycle : (top :: right ++ bottom :: left.reverse).IsRotated pts
  above : ∀ p ∈ pts, top.y ≤ p.y
  below : ∀ p ∈ pts, p.y ≤ bottom.y
  left_down : Downhill (chain top left bottom)
  right_down : Downhill (chain top right bottom)

/-! ## Columns of an edge -/

theorem le_ceilDiv {a b k : Int} (hb : 0 < b) (h : k * b ≤ a) : k ≤ ceilDiv a b := by
  by_contra hlt
  have hle : a ≤ (k - 1) * b := (ceilDiv_le_iff hb).mp (by omega)
  rw [Int.sub_mul, Int.one_mul] at hle
  omega

/-- The columns of a side lie between those of its ends. -/
theorem column_between {s : Point × Point} {y : Int} (hcross : Crosses y s) :
    min s.1.x s.2.x ≤ column y s ∧ column y s ≤ max s.1.x s.2.x := by
  obtain ⟨hfirst, hlast⟩ := hcross
  have hdy : 0 < s.2.y - s.1.y := by omega
  have hrows : 0 ≤ y - s.1.y ∧ y - s.1.y ≤ s.2.y - s.1.y := by omega
  rw [column]
  rcases Int.le_total 0 (s.2.x - s.1.x) with hdx | hdx
  · have hlow : 0 ≤ ceilDiv ((y - s.1.y) * (s.2.x - s.1.x)) (s.2.y - s.1.y) :=
      le_ceilDiv hdy (by rw [Int.zero_mul]; exact Int.mul_nonneg hrows.1 hdx)
    have hhigh : ceilDiv ((y - s.1.y) * (s.2.x - s.1.x)) (s.2.y - s.1.y) ≤ s.2.x - s.1.x :=
      (ceilDiv_le_iff hdy).mpr (by rw [Int.mul_comm]; exact Int.mul_le_mul_of_nonneg_left hrows.2 hdx)
    omega
  · have hlow : s.2.x - s.1.x ≤ ceilDiv ((y - s.1.y) * (s.2.x - s.1.x)) (s.2.y - s.1.y) :=
      le_ceilDiv hdy (by rw [Int.mul_comm]; exact Int.mul_le_mul_of_nonpos_right hrows.2 hdx)
    have hhigh : ceilDiv ((y - s.1.y) * (s.2.x - s.1.x)) (s.2.y - s.1.y) ≤ 0 :=
      (ceilDiv_le_iff hdy).mpr (by rw [Int.zero_mul]; exact Int.mul_nonpos_of_nonneg_of_nonpos hrows.1 hdx)
    omega

theorem edgeColumns_eq {p q : Point} (hle : p.y ≤ q.y) (hfits : p.y < q.y → SideFits (p, q)) :
    edgeColumns p q = (irange p.y (q.y - 1)).map fun y => column y (p, q) := by
  rcases Int.lt_or_eq_of_le hle with hlt | heq
  · obtain ⟨hp, hq, hdx, hdy⟩ := hfits hlt
    simp only [edgeColumns, hdx.wrap, hdy.wrap, if_neg (show ¬q.y - p.y ≤ 0 by omega)]
    refine List.map_congr_left fun y hy => ?_
    have hcolumn := column_between (s := (p, q)) (y := y) (by rw [mem_irange] at hy; exact ⟨hy.1, by dsimp only; omega⟩)
    refine Fits32.wrap ?_
    simp only [Fits32] at hp hq ⊢
    simp only [column] at hcolumn
    omega
  · rw [edgeColumns, irange_eq_nil (by omega), heq, Int.sub_self]
    rfl

/-! ## Rows of a chain -/

section Rows

variable {p q : Point} {ps : List Point} {y : Int}

theorem sidesOn_eq_nil (h : ∀ p ∈ ps, y < p.y) : sidesOn ps y = [] := by
  refine List.filter_eq_nil_iff.mpr fun s hs hcross => ?_
  have := h _ (mem_of_mem_pairs hs).1
  have := (of_decide_eq_true hcross).1
  omega

theorem sidesOn_cons_of_lt (hdown : Downhill (p :: q :: ps)) (hp : p.y ≤ y) (hy : y < q.y) :
    sidesOn (p :: q :: ps) y = [(p, q)] := by
  have hrest : sidesOn (q :: ps) y = [] := by
    refine sidesOn_eq_nil (List.forall_mem_cons.mpr ⟨hy, fun r hr => ?_⟩)
    have := List.rel_of_pairwise_cons hdown.of_cons hr
    omega
  have hcross : Crosses y (p, q) := ⟨hp, hy⟩
  rw [sidesOn, pairs_cons_cons, List.filter_cons_of_pos (by exact decide_eq_true hcross)]
  exact congrArg _ hrest

theorem sidesOn_cons_of_le (hy : q.y ≤ y) : sidesOn (p :: q :: ps) y = sidesOn (q :: ps) y := by
  rw [sidesOn, pairs_cons_cons, List.filter_cons_of_neg]
  · rfl
  · rw [decide_eq_true_eq]
    exact fun h => not_lt.mpr hy h.2

/-- A chain has one edge on each row from its upper end to just above its lower end. -/
theorem sidesOn_of_downhill (hdown : Downhill (p :: ps)) (hp : p.y ≤ y)
    (hlast : y < ((p :: ps).getLast (List.cons_ne_nil p ps)).y) : ∃ s, sidesOn (p :: ps) y = [s] := by
  induction ps generalizing p with
  | nil => exact absurd hlast (not_lt.mpr hp)
  | cons q ps ih =>
    rcases Int.lt_or_le y q.y with hy | hy
    · exact ⟨_, sidesOn_cons_of_lt hdown hp hy⟩
    · rw [sidesOn_cons_of_le hy]
      exact ih hdown.of_cons hy hlast

/-- The column of the chain on a row. -/
def columnOn (ps : List Point) (y : Int) : Int := ((sidesOn ps y).map (column y)).headD 0

theorem columnOn_of_eq {s : Point × Point} (h : sidesOn ps y = [s]) : columnOn ps y = column y s := by
  rw [columnOn, h]
  rfl

theorem le_of_mem_pairs (hdown : Downhill ps) {s : Point × Point} (hs : s ∈ pairs ps) : s.1.y ≤ s.2.y := by
  induction ps with
  | nil => cases hs
  | cons p ps ih =>
    cases ps with
    | nil => cases hs
    | cons q ps =>
      rcases List.mem_cons.mp hs with rfl | hs
      · exact List.rel_of_pairwise_cons hdown List.mem_cons_self
      · exact ih hdown.of_cons hs

/-- Going down, the sides of a chain are its edges as they are. -/
theorem filter_downward (hdown : Downhill ps) :
    ((pairs ps).filterMap downward?).filter (Crosses y) = sidesOn ps y := by
  rw [sidesOn, List.filter_filterMap, ← List.filterMap_eq_filter]
  refine List.filterMap_congr fun s hs => ?_
  have hle := le_of_mem_pairs hdown hs
  rcases Int.lt_or_eq_of_le hle with h | h
  · rw [downward?, if_pos h]
    rfl
  · have hcross : ¬Crosses y s := fun hcross => by
      have := hcross.1
      have := hcross.2
      omega
    rw [downward?, if_neg (by omega), if_neg (by omega), Option.guard, if_neg (by rwa [decide_eq_true_eq])]
    rfl

/-- The columns of a chain are those of its edges, row by row. -/
theorem chainColumns_eq (hdown : Downhill (p :: ps)) (hfits : ∀ s ∈ pairs (p :: ps), s.1.y < s.2.y → SideFits s) :
    chainColumns (p :: ps) =
      (irange p.y (((p :: ps).getLast (List.cons_ne_nil p ps)).y - 1)).map (columnOn (p :: ps)) := by
  induction ps generalizing p with
  | nil =>
    rw [List.getLast_singleton, irange_eq_nil (by omega)]
    rfl
  | cons q ps ih =>
    have hpq : p.y ≤ q.y := List.rel_of_pairwise_cons hdown List.mem_cons_self
    have hqlast : q.y ≤ ((q :: ps).getLast (List.cons_ne_nil q ps)).y := by
      rcases List.mem_cons.mp (List.getLast_mem (List.cons_ne_nil q ps)) with h | h
      · rw [h]
      · exact List.rel_of_pairwise_cons hdown.of_cons h
    have hfirst : edgeColumns p q = (irange p.y (q.y - 1)).map (columnOn (p :: q :: ps)) := by
      rw [edgeColumns_eq hpq (hfits (p, q) List.mem_cons_self)]
      refine List.map_congr_left fun y hy => ?_
      obtain ⟨hp, hq⟩ := mem_irange.mp hy
      exact (columnOn_of_eq (sidesOn_cons_of_lt hdown hp (by omega))).symm
    have hrest : chainColumns (q :: ps) =
        (irange (q.y - 1 + 1) (((q :: ps).getLast (List.cons_ne_nil q ps)).y - 1)).map
          (columnOn (p :: q :: ps)) := by
      rw [ih hdown.of_cons fun s hs => hfits s (List.mem_cons_of_mem _ hs), Int.sub_add_cancel]
      refine List.map_congr_left fun y hy => ?_
      rw [columnOn, columnOn, sidesOn_cons_of_le (mem_irange.mp hy).1]
    calc chainColumns (p :: q :: ps) = edgeColumns p q ++ chainColumns (q :: ps) := by
          simp only [chainColumns, List.tail_cons, List.zipWith_cons_cons, List.flatten_cons]
      _ = (irange p.y (((p :: q :: ps).getLast (List.cons_ne_nil p (q :: ps))).y - 1)).map
            (columnOn (p :: q :: ps)) := by
          rw [hfirst, hrest, ← List.map_append, irange_append (by omega) (by omega),
            List.getLast_cons (List.cons_ne_nil q ps)]

end Rows

/-! ## Both chains -/

section Cycle

variable {pts : List Point} {top bottom : Point}

theorem getLast_chain (top : Point) (inner : List Point) (bottom : Point) :
    (top :: (inner ++ [bottom])).getLast (List.cons_ne_nil _ _) = bottom :=
  List.getLast_append_singleton (top :: inner)

/-- A way up along a chain leaves out its ends. -/
theorem sublist_inner {inner : List Point} {p q : Point} (hsub : [p, q].Sublist (chain top inner bottom))
    (hup : q.y < p.y) (htop : top.y ≤ q.y) (hbottom : p.y ≤ bottom.y) : [p, q].Sublist inner := by
  have hbelow : [p, q].Sublist (inner ++ [bottom]) := by
    cases hsub with
    | cons _ h => exact h
    | cons_cons _ h => exact absurd hup (not_lt.mpr htop)
  obtain ⟨ps, qs, heq, hps, hqs⟩ := List.sublist_append_iff.mp hbelow
  rcases List.sublist_singleton.mp hqs with rfl | rfl
  · rwa [heq, List.append_nil]
  · have hq : q = bottom := by simpa using congrArg List.getLast? heq
    rw [hq] at hup
    omega

/-- A polygon that turns only twice goes down on one way from its topmost vertex to its bottommost one, and up on
the other. -/
theorem chains_of_cycle {left right : List Point} (h : isMonotone pts = true)
    (hcycle : (top :: right ++ bottom :: left.reverse).IsRotated pts) (habove : ∀ p ∈ pts, top.y ≤ p.y)
    (hbelow : ∀ p ∈ pts, p.y ≤ bottom.y) : Chains pts top bottom left right := by
  have hends : ∀ {inner p q}, (∀ r ∈ inner, r ∈ left ∨ r ∈ right) → [p, q].Sublist (chain top inner bottom) →
      top.y ≤ q.y ∧ p.y ≤ bottom.y := by
    intro inner p q hinner hsub
    have hmem : ∀ r ∈ chain top inner bottom, r ∈ pts := by
      intro r hr
      refine hcycle.mem_iff.mp ?_
      simp only [chain, List.mem_append, List.mem_cons, List.mem_reverse] at hr ⊢
      have := hinner r
      tauto
    exact ⟨habove q (hmem q (hsub.mem (by simp))), hbelow p (hmem p (hsub.mem (by simp)))⟩
  refine ⟨hcycle, habove, hbelow, List.pairwise_iff_forall_sublist.mpr fun {p q} hsub => ?_,
    List.pairwise_iff_forall_sublist.mpr fun {p q} hsub => ?_⟩
  · obtain ⟨htop, hbottom⟩ := hends (fun _ => .inl) hsub
    by_contra hup
    have hback : [q, p].Sublist left.reverse :=
      List.reverse_sublist.mpr (sublist_inner hsub (by omega) htop hbottom)
    have hround : [bottom, q, p].Sublist (right ++ bottom :: left.reverse) :=
      (hback.cons_cons bottom).trans (List.sublist_append_right _ _)
    exact not_zigzag h hcycle hround ⟨by omega, by omega, by omega, by omega⟩
  · obtain ⟨htop, hbottom⟩ := hends (fun _ => .inr) hsub
    by_contra hup
    have hdown : [p, q].Sublist right := sublist_inner hsub (by omega) htop hbottom
    have hround : ([p, q] ++ [bottom]).Sublist (right ++ bottom :: left.reverse) :=
      hdown.append ((List.nil_sublist _).cons_cons bottom)
    exact not_zigzag h hcycle hround ⟨by omega, by omega, by omega, by omega⟩

theorem sidesOn_chain {inner : List Point} (hdown : Downhill (chain top inner bottom)) {y : Int}
    (htop : top.y ≤ y) (hbottom : y < bottom.y) : ∃ s, sidesOn (chain top inner bottom) y = [s] :=
  sidesOn_of_downhill hdown htop (hbottom.trans_eq (congrArg Point.y (getLast_chain top inner bottom)).symm)

/-- The sides on a row are those of the two chains. -/
theorem Chains.perm_sides {left right : List Point} (h : Chains pts top bottom left right) (y : Int) :
    ((sides pts).filter (Crosses y)).Perm
      (sidesOn (chain top left bottom) y ++ sidesOn (chain top right bottom) y) := by
  have hpairs : neighbours (top :: right ++ bottom :: left.reverse) =
      pairs (chain top right bottom) ++ ((pairs (chain top left bottom)).map Prod.swap).reverse := by
    rw [← pairs_around, ← pairs_reverse]
    have haround : around (top :: right ++ bottom :: left.reverse) =
        top :: right ++ bottom :: (left.reverse ++ [top]) := by simp [around]
    rw [haround, pairs_append]
    simp [chain]
  obtain ⟨k, rfl⟩ := h.cycle
  refine ((perm_sides_rotate _ k).filter _).trans ?_
  rw [sides, hpairs, List.filterMap_append, List.filter_append]
  refine List.perm_append_comm.trans (List.Perm.append ?_ (.of_eq (filter_downward h.right_down)))
  refine (((List.reverse_perm _).filterMap _).filter _).trans (.of_eq ?_)
  rw [List.filterMap_map, ← filter_downward h.left_down]
  exact congrArg _ (List.filterMap_congr fun s _ => downward?_swap s)

/-- Only the rows between the topmost and the bottommost vertex are crossed. -/
theorem Chains.row_of_crosses {left right : List Point} (h : Chains pts top bottom left right) {s : Point × Point}
    (hs : s ∈ sides pts) {y : Int} (hcross : Crosses y s) : top.y ≤ y ∧ y < bottom.y :=
  ⟨(h.above _ (mem_of_mem_sides hs).1).trans hcross.1, hcross.2.trans_le (h.below _ (mem_of_mem_sides hs).2)⟩

/-- The two sides on such a row, one of each chain. -/
theorem Chains.perm_pair {left right : List Point} (h : Chains pts top bottom left right) {y : Int}
    (htop : top.y ≤ y) (hbottom : y < bottom.y) :
    ∃ d e, ((sides pts).filter (Crosses y)).Perm [d, e] ∧
      columnOn (chain top left bottom) y = column y d ∧ columnOn (chain top right bottom) y = column y e := by
  obtain ⟨d, hd⟩ := sidesOn_chain h.left_down htop hbottom
  obtain ⟨e, he⟩ := sidesOn_chain h.right_down htop hbottom
  have hperm := h.perm_sides y
  rw [hd, he] at hperm
  exact ⟨d, e, hperm, columnOn_of_eq hd, columnOn_of_eq he⟩

/-- The edges of the chains that go down are sides. -/
theorem Chains.mem_sides {left right : List Point} (h : Chains pts top bottom left right) {s : Point × Point}
    (hs : s ∈ pairs (chain top left bottom) ∨ s ∈ pairs (chain top right bottom)) (hlt : s.1.y < s.2.y) :
    s ∈ sides pts := by
  have hcross : decide (Crosses s.1.y s) = true := decide_eq_true ⟨Int.le_refl _, hlt⟩
  refine List.mem_of_mem_filter ((h.perm_sides s.1.y).mem_iff.mpr ?_)
  exact List.mem_append.mpr (hs.imp (fun h => List.mem_filter.mpr ⟨h, hcross⟩) fun h =>
    List.mem_filter.mpr ⟨h, hcross⟩)

theorem rotateLeft_eq_rotate (pts : List Point) (k : Nat) : pts.rotateLeft k = pts.rotate k := by
  rw [List.rotateLeft]
  split
  · match pts, ‹pts.length ≤ 1› with
    | [], _ => simp
    | [p], _ => simp
  · exact List.rotate_eq_drop_append_take_mod.symm

theorem firstOnRow_spec {y : Int} (h : ∃ p ∈ pts, p.y = y) :
    ∃ hlt : firstOnRow pts y < pts.length, pts[firstOnRow pts y].y = y := by
  have hlt : firstOnRow pts y < pts.length := by
    rw [firstOnRow, List.findIdx_lt_length]
    simpa using h
  exact ⟨hlt, beq_iff_eq.mp (List.findIdx_getElem (w := hlt))⟩

/-- The place `j` of a cycle of `n` places, counted from the place `i` on. -/
theorem place_from {i j n : Nat} (hi : i < n) (hj : j < n) (hne : i ≠ j) :
    0 < (j + n - i) % n ∧ (j + n - i) % n < n ∧ ((j + n - i) % n + i) % n = j := by
  rcases Nat.lt_or_ge j i with h | h
  · rw [Nat.mod_eq_of_lt (by omega)]
    refine ⟨by omega, by omega, ?_⟩
    rw [show j + n - i + i = j + n by omega, Nat.add_mod_right, Nat.mod_eq_of_lt hj]
  · rw [show j + n - i = j - i + n by omega, Nat.add_mod_right, Nat.mod_eq_of_lt (by omega)]
    refine ⟨by omega, by omega, ?_⟩
    rw [show j - i + i = j by omega, Nat.mod_eq_of_lt hj]

/-- The cycle from one vertex on, cut at another. -/
theorem exists_cycle {i j : Nat} (hi : i < pts.length) (hj : j < pts.length) (hne : i ≠ j) :
    ∃ right back, pts.rotateLeft i = pts[i] :: right ++ pts[j] :: back ∧
      (j + pts.length - i) % pts.length = right.length + 1 := by
  obtain ⟨hpos, hlt, hj'⟩ := place_from hi hj hne
  generalize hm : (j + pts.length - i) % pts.length = m at hpos hlt hj'
  let cycle := pts.rotate i
  have hlength : cycle.length = pts.length := List.length_rotate pts i
  have hfirst : cycle[0] = pts[i] := by
    rw [List.getElem_rotate]
    simp only [Nat.zero_add, Nat.mod_eq_of_lt hi]
  have hsecond : cycle[m] = pts[j] := by
    rw [List.getElem_rotate]
    simp only [hj']
  refine ⟨(cycle.drop 1).take (m - 1), cycle.drop (m + 1), ?_, ?_⟩
  · have hrest : (cycle.drop 1).drop (m - 1) = pts[j] :: cycle.drop (m + 1) := by
      rw [List.drop_drop, show 1 + (m - 1) = m by omega, List.drop_eq_getElem_cons (by omega), hsecond]
    calc pts.rotateLeft i = pts[i] :: cycle.drop 1 := by
          rw [rotateLeft_eq_rotate, ← hfirst, ← List.drop_eq_getElem_cons (by omega), List.drop_zero]
      _ = pts[i] :: ((cycle.drop 1).take (m - 1) ++ pts[j] :: cycle.drop (m + 1)) := by
          rw [← hrest, List.take_append_drop]
  · rw [List.length_take, List.length_drop]
    omega

theorem take_forward (p q : Point) (right back : List Point) :
    (p :: right ++ q :: back).take (right.length + 1 + 1) = chain p right q := by
  simp [chain, List.take_append]

theorem take_backward (p q : Point) (right back : List Point) :
    ((p :: right ++ q :: back).take 1 ++ ((p :: right ++ q :: back).drop 1).reverse).take
      ((p :: right ++ q :: back).length - (right.length + 1) + 1) = chain p back.reverse q := by
  have hlength : (p :: right ++ q :: back).length - (right.length + 1) = back.length + 1 := by
    simp only [List.length_append, List.length_cons]
    omega
  rw [hlength]
  simp [chain, List.take_append]

end Cycle

/-! ## The runs -/

theorem topRow_eq (p : Point) (rest : List Point) : topRow p rest = least p.y (rest.map Point.y) := by
  rw [topRow, least, List.foldl_map]

theorem bottomRow_eq (p : Point) (rest : List Point) : bottomRow p rest = greatest p.y (rest.map Point.y) := by
  rw [bottomRow, greatest, List.foldl_map]

theorem topRow_spec (p : Point) (rest : List Point) :
    (∀ q ∈ p :: rest, topRow p rest ≤ q.y) ∧ ∃ q ∈ p :: rest, q.y = topRow p rest := by
  have hle := least_le p.y (rest.map Point.y)
  have hmem := least_mem p.y (rest.map Point.y)
  rw [← topRow_eq, List.forall_mem_map] at hle
  rw [← topRow_eq, ← List.map_cons] at hmem
  exact ⟨List.forall_mem_cons.mpr hle, List.mem_map.mp hmem⟩

theorem bottomRow_spec (p : Point) (rest : List Point) :
    (∀ q ∈ p :: rest, q.y ≤ bottomRow p rest) ∧ ∃ q ∈ p :: rest, q.y = bottomRow p rest := by
  have hle := le_greatest p.y (rest.map Point.y)
  have hmem := greatest_mem p.y (rest.map Point.y)
  rw [← bottomRow_eq, List.forall_mem_map] at hle
  rw [← bottomRow_eq, ← List.map_cons] at hmem
  exact ⟨List.forall_mem_cons.mpr hle, List.mem_map.mp hmem⟩

theorem chainColumns_chain {top bottom : Point} {inner : List Point} (hdown : Downhill (chain top inner bottom))
    (hfits : ∀ s ∈ pairs (chain top inner bottom), s.1.y < s.2.y → SideFits s) :
    chainColumns (chain top inner bottom) =
      (irange top.y (bottom.y - 1)).map (columnOn (chain top inner bottom)) := by
  have hcolumns : chainColumns (top :: (inner ++ [bottom])) = _ := chainColumns_eq hdown hfits
  rwa [getLast_chain] at hcolumns

theorem map_irange {α : Type} (f : Int → α) (lo hi : Int) :
    (irange lo (hi - 1)).map f = (List.range (hi - lo).toNat).map fun i : Nat => f (lo + i) := by
  rw [irange, List.map_map, show hi - 1 - lo + 1 = hi - lo by omega]
  rfl

theorem getD_map_irange (f : Int → Int) (lo hi : Int) {i : Nat} (h : i < (hi - lo).toNat) :
    ((irange lo (hi - 1)).map f).toArray.getD i 0 = f (lo + i) := by
  rw [map_irange, Array.getD_eq_getD_getElem?, List.getElem?_toArray, List.getElem?_map, List.getElem?_range h]
  rfl

/-- A polygon on one row goes from its first vertex to its second, and back along the others. -/
theorem chains_of_level {p q : Point} {rest : List Point} (h : isMonotone (p :: q :: rest) = true)
    (hsame : ∀ a ∈ p :: q :: rest, ∀ b ∈ p :: q :: rest, a.y = b.y) :
    Chains (p :: q :: rest) p q rest.reverse [] := by
  refine chains_of_cycle h ?_ (fun a ha => (hsame p (by simp) a ha).le) fun a ha => (hsame a ha q (by simp)).le
  rw [List.reverse_reverse]
  exact .refl _

/-- A polygon that turns only twice has its runs between its two chains, if its sides fit in 32 bits. -/
theorem monotoneRuns_eq_chains {pts : List Point} (hpts : 3 ≤ pts.length) (h : isMonotone pts = true) :
    ∃ top bottom left right, Chains pts top bottom left right ∧ ((∀ s ∈ sides pts, SideFits s) →
      monotoneRuns pts = (irange top.y (bottom.y - 1)).map fun y =>
        ⟨columnOn (chain top left bottom) y, columnOn (chain top right bottom) y, y⟩) := by
  match pts, hpts with
  | p :: rest, hpts =>
    obtain ⟨habove, hexistsTop⟩ := topRow_spec p rest
    obtain ⟨hbelow, hexistsBottom⟩ := bottomRow_spec p rest
    by_cases hlevel : topRow p rest = bottomRow p rest
    · match rest, hpts with
      | q :: rest, _ =>
        have hsame : ∀ a ∈ p :: q :: rest, ∀ b ∈ p :: q :: rest, a.y = b.y := fun a ha b hb => by
          have := habove a ha
          have := hbelow a ha
          have := habove b hb
          have := hbelow b hb
          omega
        have hpq := hsame p (by simp) q (by simp)
        refine ⟨p, q, rest.reverse, [], chains_of_level h hsame, fun _ => ?_⟩
        rw [irange_eq_nil (by omega), monotoneRuns, if_pos (.inr hlevel)]
        rfl
    · obtain ⟨htop, hytop⟩ := firstOnRow_spec hexistsTop
      obtain ⟨hbottom, hybottom⟩ := firstOnRow_spec hexistsBottom
      have hne : firstOnRow (p :: rest) (topRow p rest) ≠ firstOnRow (p :: rest) (bottomRow p rest) := by
        intro heq
        simp only [heq] at hytop
        exact hlevel (hytop.symm.trans hybottom)
      obtain ⟨right, back, hcycle, hplace⟩ := exists_cycle htop hbottom hne
      generalize (p :: rest)[firstOnRow (p :: rest) (topRow p rest)] = top at hcycle hytop
      generalize (p :: rest)[firstOnRow (p :: rest) (bottomRow p rest)] = bottom at hcycle hybottom
      have hrotated : (top :: right ++ bottom :: back.reverse.reverse).IsRotated (p :: rest) := by
        rw [List.reverse_reverse, ← hcycle, rotateLeft_eq_rotate]
        exact .forall _ _
      have hchains := chains_of_cycle h hrotated (hytop ▸ habove) (hybottom ▸ hbelow)
      have hlength : (p :: rest).length = (top :: right ++ bottom :: back).length := by
        rw [← hcycle, rotateLeft_eq_rotate, List.length_rotate]
      refine ⟨top, bottom, back.reverse, right, hchains, fun hfits => ?_⟩
      have hleft := chainColumns_chain hchains.left_down fun s hs hlt => hfits s (hchains.mem_sides (.inl hs) hlt)
      have hright := chainColumns_chain hchains.right_down fun s hs hlt => hfits s (hchains.mem_sides (.inr hs) hlt)
      rw [monotoneRuns, if_neg (not_or.mpr ⟨by omega, hlevel⟩)]
      simp only [hcycle, hplace]
      rw [hlength, take_forward, take_backward, hleft, hright, ← hytop, ← hybottom]
      refine (List.map_congr_left fun i hi => ?_).trans (map_irange _ top.y bottom.y).symm
      have hrow := List.mem_range.mp hi
      rw [getD_map_irange _ _ _ hrow, getD_map_irange _ _ _ hrow]

/-- A row crosses at most two sides of a polygon that turns only twice. -/
theorem countP_crosses_le_two {pts : List Point} (h : isMonotone pts = true) (y : Int) :
    (sides pts).countP (Crosses y) ≤ 2 := by
  rcases Nat.lt_or_ge pts.length 3 with hfew | hpts
  · have hsides : (sides pts).length ≤ pts.length :=
      (List.length_filterMap_le downward? _).trans_eq (length_neighbours pts)
    have hcount := (sides pts).countP_le_length (p := fun s => decide (Crosses y s))
    omega
  · obtain ⟨top, bottom, left, right, hchains, -⟩ := monotoneRuns_eq_chains hpts h
    rw [List.countP_eq_length_filter]
    by_cases hcross : ∃ s ∈ sides pts, Crosses y s
    · obtain ⟨s, hs, hcross⟩ := hcross
      obtain ⟨htop, hbottom⟩ := hchains.row_of_crosses hs hcross
      obtain ⟨d, e, hperm, -⟩ := hchains.perm_pair htop hbottom
      exact hperm.length_eq.le
    · rw [List.filter_eq_nil_iff.mpr fun s hs hon => hcross ⟨s, hs, of_decide_eq_true hon⟩]
      exact Nat.zero_le _

/-- A triangle with a side from one end of the 32-bit range to the other half. -/
def wideTriangle : List Point := [⟨-1500000000, 0⟩, ⟨1500000000, 2⟩, ⟨-1500000000, 2⟩]

end Rasterizer.Polygon
