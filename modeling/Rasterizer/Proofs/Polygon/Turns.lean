import Rasterizer.Polygon.Monotone
import Rasterizer.Proofs.Polygon.Sides

/-! # Turns between up and down

Leaving points out of a walk never adds turns (`directions_cons_sublist`, `changes_sublist`), and round a closed polygon
the turns are even in number, wherever the walk begins. A polygon that passes for one with one run a row turns only
twice all the way round, so no walk round it goes down, up, down and up again (`not_zigzag`). A map that
keeps or reverses the order of the rows adds no turns either (`isMonotone_map`). -/

namespace Rasterizer.Polygon

/-- The direction from one point to another, if there is one. -/
def heading (p q : Point) : List Int := [(q.y - p.y).sign].filter (· ≠ 0)

theorem heading_of_lt {p q : Point} (h : p.y < q.y) : heading p q = [1] := by
  rw [heading, Int.sign_eq_one_of_pos (by omega)]
  rfl

theorem heading_of_gt {p q : Point} (h : q.y < p.y) : heading p q = [-1] := by
  rw [heading, Int.sign_eq_neg_one_of_neg (by omega)]
  rfl

theorem heading_of_eq {p q : Point} (h : p.y = q.y) : heading p q = [] := by
  rw [heading, show q.y - p.y = 0 by omega]
  rfl

theorem directions_cons_cons (p q : Point) (ps : List Point) :
    directions (p :: q :: ps) = heading p q ++ directions (q :: ps) := by
  simp only [directions, heading, List.tail_cons, List.zipWith_cons_cons]
  rw [← List.filter_append, List.singleton_append]

theorem changes_cons_cons (a b : Int) (ds : List Int) :
    changes (a :: b :: ds) = changes (b :: ds) + if a = b then 0 else 1 := by
  simp only [changes, List.tail_cons, List.zipWith_cons_cons, List.countP_cons, id_eq, bne_iff_ne, ne_eq, ite_not]

/-! ## Leaving points out -/

/-- A walk that goes up or down over a stop does so before or after it. -/
theorem heading_sublist (p q r : Point) : (heading p r).Sublist (heading p q ++ heading q r) := by
  rcases Int.lt_trichotomy p.y r.y with h | h | h
  · rw [heading_of_lt h, List.singleton_sublist, List.mem_append]
    rcases Int.lt_or_le p.y q.y with hq | hq
    · exact .inl (by simp [heading_of_lt hq])
    · exact .inr (by simp [heading_of_lt (show q.y < r.y by omega)])
  · rw [heading_of_eq h]
    exact List.nil_sublist _
  · rw [heading_of_gt h, List.singleton_sublist, List.mem_append]
    rcases Int.lt_or_le q.y p.y with hq | hq
    · exact .inl (by simp [heading_of_gt hq])
    · exact .inr (by simp [heading_of_gt (show r.y < q.y by omega)])

theorem directions_cons_sublist {ps qs : List Point} (h : ps.Sublist qs) (p : Point) :
    (directions (p :: ps)).Sublist (directions (p :: qs)) := by
  induction h generalizing p with
  | slnil => exact .refl _
  | @cons ps qs q h ih =>
    rw [directions_cons_cons]
    cases ps with
    | nil => exact List.nil_sublist _
    | cons r ps =>
      have hrest := (ih q).append_left (heading p q)
      rw [directions_cons_cons, ← List.append_assoc] at hrest
      rw [directions_cons_cons]
      exact ((heading_sublist p q r).append_right _).trans hrest
  | @cons_cons ps qs q h ih =>
    rw [directions_cons_cons, directions_cons_cons]
    exact (ih q).append_left _

theorem changes_cons_sublist {ds es : List Int} (h : ds.Sublist es) (a : Int) :
    changes (a :: ds) ≤ changes (a :: es) := by
  induction h generalizing a with
  | slnil => exact Nat.le_refl _
  | @cons ds es b h ih =>
    rw [changes_cons_cons]
    cases ds with
    | nil => exact Nat.zero_le _
    | cons c ds =>
      have hrest := ih b
      rw [changes_cons_cons] at hrest ⊢
      split <;> split <;> split at hrest <;> omega
  | @cons_cons ds es b h ih =>
    have hrest := ih b
    rw [changes_cons_cons, changes_cons_cons]
    omega

/-- Leaving directions out never adds changes. -/
theorem changes_sublist {ds es : List Int} (h : ds.Sublist es) : changes ds ≤ changes es := by
  induction h with
  | slnil => exact Nat.le_refl _
  | @cons ds es b h ih =>
    cases es with
    | nil => exact ih
    | cons c es =>
      rw [changes_cons_cons]
      omega
  | cons_cons b h => exact changes_cons_sublist h b

/-! ## All the way round -/

theorem changes_eq (ds : List Int) : changes ds = (pairs ds).countP fun p => p.1 != p.2 := by
  rw [changes, ← List.map_uncurry_zip_eq_zipWith, List.countP_map]
  rfl

theorem changes_around (ds : List Int) : changes (around ds) = (neighbours ds).countP fun p => p.1 != p.2 := by
  rw [changes_eq, pairs_around]

theorem changes_around_le (ds : List Int) : changes (around ds) ≤ changes ds + 1 := by
  cases ds with
  | nil => exact Nat.zero_le _
  | cons a ds =>
    rw [changes_around, neighbours_cons, List.countP_append, changes_eq]
    exact Nat.add_le_add_left List.countP_le_length _

theorem directions_eq (pts : List Point) :
    directions pts = ((pairs pts).map fun s => (s.2.y - s.1.y).sign).filter (· ≠ 0) := by
  rw [directions, ← List.map_uncurry_zip_eq_zipWith]
  rfl

theorem directions_around (pts : List Point) :
    directions (around pts) = ((neighbours pts).map fun s => (s.2.y - s.1.y).sign).filter (· ≠ 0) := by
  rw [directions_eq, pairs_around]

/-- The step that closes a closed list goes nowhere. -/
theorem directions_around_of_closed {pts : List Point} (h : pts.head? = pts.getLast?) :
    directions (around pts) = directions pts := by
  cases pts with
  | nil => rfl
  | cons a pts =>
    have hlast : (a :: pts).getLast (List.cons_ne_nil a pts) = a := by
      rw [List.head?_cons, List.getLast?_eq_some_getLast (List.cons_ne_nil a pts)] at h
      exact (Option.some.inj h).symm
    rw [directions_around, neighbours_cons, hlast, List.map_append, List.filter_append, directions_eq]
    simp

theorem eq_or_eq_of_mem_directions {pts : List Point} {d : Int} (h : d ∈ directions pts) : d = 1 ∨ d = -1 := by
  rw [directions_eq] at h
  obtain ⟨hmem, hne⟩ := List.mem_filter.mp h
  obtain ⟨s, -, rfl⟩ := List.mem_map.mp hmem
  have := of_decide_eq_true hne
  rcases Int.lt_trichotomy (s.2.y - s.1.y) 0 with h | h | h
  · exact .inr (Int.sign_eq_neg_one_of_neg h)
  · simp [h] at this
  · exact .inl (Int.sign_eq_one_of_pos h)

/-- All the way round a polygon turns down as often as up. -/
theorem even_changes_around (pts : List Point) : Even (changes (around (directions pts))) := by
  have heven := even_changes (fun d : Int => decide (0 < d)) (directions pts)
  rw [changes_around]
  refine (congrArg Even (List.countP_congr fun s hs => ?_)).mp heven
  obtain ⟨h1, h2⟩ := List.of_mem_zip hs
  rw [List.mem_rotate] at h2
  rcases eq_or_eq_of_mem_directions h1 with h1 | h1 <;> rcases eq_or_eq_of_mem_directions h2 with h2 | h2 <;>
    simp [h1, h2]

theorem changes_around_directions_le {pts : List Point} (h : isMonotone pts = true) :
    changes (around (directions (around pts))) ≤ 2 := by
  have heven := even_changes_around (around pts)
  have hle : changes (around (directions (around pts))) ≤ 3 := by
    rw [isMonotone, Bool.or_eq_true, Bool.and_eq_true, decide_eq_true_eq, decide_eq_true_eq] at h
    rcases h with hfew | ⟨hclosed, hturns⟩
    · have hlength : (directions (around pts)).length ≤ pts.length := by
        rw [directions_around]
        refine (List.length_filter_le _ _).trans ?_
        rw [List.length_map, length_neighbours]
      have hchanges := (changes_around (directions (around pts))).le.trans List.countP_le_length
      rw [length_neighbours] at hchanges
      omega
    · rw [directions_around_of_closed (beq_iff_eq.mp hclosed)]
      exact (changes_around_le _).trans (by omega)
  obtain ⟨k, hk⟩ := heven
  omega

/-- Round the polygon there are as many turns wherever the walk begins. -/
theorem changes_around_rotate (pts : List Point) (k : Nat) :
    changes (around (directions (around (pts.rotate k)))) = changes (around (directions (around pts))) := by
  obtain ⟨j, hj⟩ : (directions (around pts)).IsRotated (directions (around (pts.rotate k))) := by
    rw [directions_around, directions_around, neighbours_rotate, List.map_rotate]
    exact isRotated_filter_rotate _ _ k
  rw [← hj, changes_around, changes_around, neighbours_rotate]
  exact (List.rotate_perm _ j).countP_eq _

/-- A polygon that passes for one with one run a row does not go down, up, down and up again. -/
theorem not_zigzag {pts rest : List Point} {p q r s : Point} (h : isMonotone pts = true)
    (hpts : (p :: rest).IsRotated pts) (hsub : [q, r, s].Sublist rest) :
    ¬(p.y < q.y ∧ r.y < q.y ∧ r.y < s.y ∧ p.y < s.y) := by
  rintro ⟨hpq, hrq, hrs, hps⟩
  have hturns : changes (directions [p, q, r, s, p]) = 3 := by
    simp only [directions_cons_cons, heading_of_lt hpq, heading_of_gt hrq, heading_of_lt hrs, heading_of_gt hps]
    rfl
  have hmore : changes (directions [p, q, r, s, p]) ≤ changes (directions (around (p :: rest))) :=
    changes_sublist (directions_cons_sublist (hsub.append_right [p]) p)
  have hall : changes (directions (around (p :: rest))) ≤ changes (around (directions (around (p :: rest)))) :=
    changes_sublist (List.sublist_append_left _ _)
  obtain ⟨k, rfl⟩ := hpts
  have hle := changes_around_directions_le h
  rw [changes_around_rotate] at hle
  omega

/-! ## Maps -/

theorem changes_map {f : Int → Int} (hf : Function.Injective f) (ds : List Int) :
    changes (ds.map f) = changes ds := by
  induction ds with
  | nil => rfl
  | cons a ds ih =>
    cases ds with
    | nil => rfl
    | cons b ds =>
      rw [List.map_cons, List.map_cons, changes_cons_cons, changes_cons_cons, ← List.map_cons, ih]
      simp only [hf.eq_iff]

theorem directions_map_sublist {f : Point → Point} {g : Int → Int} {pts : List Point}
    (h : ∀ p ∈ pts, ∀ q ∈ pts, (heading (f p) (f q)).Sublist ((heading p q).map g)) :
    (directions (pts.map f)).Sublist ((directions pts).map g) := by
  induction pts with
  | nil => exact .refl _
  | cons p pts ih =>
    cases pts with
    | nil => exact .refl _
    | cons q pts =>
      rw [List.map_cons, List.map_cons, directions_cons_cons, directions_cons_cons, List.map_append]
      exact (h p (by simp) q (by simp)).append
        (ih fun a ha b hb => h a (List.mem_cons_of_mem p ha) b (List.mem_cons_of_mem p hb))

/-- Where the order of the rows is kept, at most level ways come about. -/
theorem heading_mono {p q p' q' : Point} (hpq : p.y ≤ q.y → p'.y ≤ q'.y) (hqp : q.y ≤ p.y → q'.y ≤ p'.y) :
    (heading p' q').Sublist (heading p q) := by
  rcases Int.lt_trichotomy p'.y q'.y with h | h | h
  · rw [heading_of_lt h, heading_of_lt (by omega)]
  · rw [heading_of_eq h]
    exact List.nil_sublist _
  · rw [heading_of_gt h, heading_of_gt (by omega)]

theorem heading_swap (p q : Point) : heading q p = (heading p q).map (- ·) := by
  rcases Int.lt_trichotomy p.y q.y with h | h | h
  · rw [heading_of_lt h, heading_of_gt h]
    rfl
  · rw [heading_of_eq h, heading_of_eq h.symm]
    rfl
  · rw [heading_of_gt h, heading_of_lt h]
    rfl

/-- A map that keeps or reverses the order of the rows adds no turns. -/
theorem isMonotone_map {f : Point → Point} {pts : List Point} (h : isMonotone pts = true)
    (hf : (∀ p ∈ pts, ∀ q ∈ pts, p.y ≤ q.y → (f p).y ≤ (f q).y) ∨
      ∀ p ∈ pts, ∀ q ∈ pts, p.y ≤ q.y → (f q).y ≤ (f p).y) : isMonotone (pts.map f) = true := by
  have hturns : changes (directions (pts.map f)) ≤ changes (directions pts) := by
    rcases hf with hf | hf
    · have hsub : (directions (pts.map f)).Sublist ((directions pts).map id) :=
        directions_map_sublist fun p hp q hq => by
          rw [List.map_id]
          exact heading_mono (hf p hp q hq) (hf q hq p hp)
      rw [List.map_id] at hsub
      exact changes_sublist hsub
    · have hsub : (directions (pts.map f)).Sublist ((directions pts).map (- ·)) :=
        directions_map_sublist fun p hp q hq => by
          rw [← heading_swap]
          exact heading_mono (hf q hq p hp) (hf p hp q hq)
      exact (changes_sublist hsub).trans_eq (changes_map (fun _ _ => Int.neg_inj.mp) _)
  simp only [isMonotone, Bool.or_eq_true, Bool.and_eq_true, decide_eq_true_eq, beq_iff_eq] at h ⊢
  rw [List.length_map, List.head?_map, List.getLast?_map]
  rcases h with hfew | ⟨hclosed, hle⟩
  · exact .inl hfew
  · exact .inr ⟨congrArg _ hclosed, hturns.trans hle⟩

end Rasterizer.Polygon
