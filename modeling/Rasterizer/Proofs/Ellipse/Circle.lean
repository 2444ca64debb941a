import Rasterizer.Ellipse
import Mathlib.Algebra.Order.Round
import Mathlib.Analysis.Real.Sqrt
import Mathlib.Tactic.Linarith

/-! # The pixels of a circle

In the octant between an axis and a diagonal the walk takes at each step aside the pixel nearest
to the circle. Its decision value is that of the midpoint of the two candidates, so one bound on
each side of the radius is kept (`Octant.Sound.next`), and the walk stops where no later step aside
has a pixel in the octant (`mem_octantRuns`). The pixels of a circle are those whose offsets are
`Near`, and they meet each of its rows (`runs_near`). -/

namespace Rasterizer

theorem mem_mirroredRuns {c p : Point} {a b : Int} (ha : 0 ≤ a) (hb : 0 ≤ b) :
    (∃ run ∈ mirroredRuns c a b, p = ⟨run.x1, run.y⟩ ∨ p = ⟨run.x2, run.y⟩) ↔
      |p.x - c.x| = a ∧ |p.y - c.y| = b := by
  obtain ⟨x, y⟩ := p
  rw [abs_eq ha, abs_eq hb, mirroredRuns]
  by_cases hzero : b = 0
  · simp [hzero]
    omega
  · simp [hzero]
    omega

theorem exists_mirroredRuns_row (c : Point) (a : Int) {b d : Int} (hd : d = b ∨ d = -b) :
    ∃ run ∈ mirroredRuns c a b, run.y = c.y + d := by
  rw [mirroredRuns]
  by_cases hzero : b = 0
  · simp [hzero]
    omega
  · simp [hzero]
    omega

namespace Circle

/-! ## Nearest offsets -/

/-- `b` is the offset nearest to the circle of radius `r` at the offset `a` of the other axis. -/
def Nearest (r a b : Int) : Prop := b * b - b < r * r - a * a ∧ r * r - a * a ≤ b * b + b

/-- The longer offset is the nearest one for the shorter. -/
def Near (r dx dy : Int) : Prop := Nearest r (min |dx| |dy|) (max |dx| |dy|)

instance (r dx dy : Int) : Decidable (Near r dx dy) := by
  unfold Near Nearest
  infer_instance

theorem Nearest.unique {r a b b' : Int} (hb : 0 ≤ b) (hb' : 0 ≤ b') (h : Nearest r a b)
    (h' : Nearest r a b') : b = b' := by
  obtain ⟨hlow, hhigh⟩ := h
  obtain ⟨hlow', hhigh'⟩ := h'
  by_contra hne
  rcases Int.lt_or_gt_of_ne hne with hlt | hlt
  · nlinarith [mul_nonneg hb hb']
  · nlinarith [mul_nonneg hb hb']

/-- An integer above another one is above it by a quarter at least. -/
theorem add_quarter_le_iff {m n : Int} : (m : ℝ) + 1 / 4 ≤ n ↔ m < n := by
  constructor
  · intro h
    have : (m : ℝ) < n := by linarith
    exact_mod_cast this
  · intro h
    have : ((m + 1 : Int) : ℝ) ≤ n := by exact_mod_cast h
    push_cast at this
    linarith

/-- The two bounds lie half a pixel below and above the root. -/
theorem nearest_iff_round {r a b : Int} (hb : 1 ≤ b) :
    Nearest r a b ↔ b = round (√((r * r - a * a : Int) : ℝ)) := by
  have hb' : (1 : ℝ) ≤ b := by exact_mod_cast hb
  generalize hn : r * r - a * a = n
  have hlow : (b : ℝ) ≤ √(n : ℝ) + 1 / 2 ↔ b * b - b < n := by
    calc (b : ℝ) ≤ √(n : ℝ) + 1 / 2
        ↔ (b : ℝ) - 1 / 2 ≤ √(n : ℝ) := by constructor <;> intro h <;> linarith
      _ ↔ ((b * b - b : Int) : ℝ) + 1 / 4 ≤ n := by
          rw [Real.le_sqrt' (by linarith)]
          push_cast
          constructor <;> intro h <;> linarith
      _ ↔ b * b - b < n := add_quarter_le_iff
  have hhigh : √(n : ℝ) + 1 / 2 < b + 1 ↔ n ≤ b * b + b := by
    calc √(n : ℝ) + 1 / 2 < b + 1
        ↔ √(n : ℝ) < (b : ℝ) + 1 / 2 := by constructor <;> intro h <;> linarith
      _ ↔ (n : ℝ) < ((b * b + b : Int) : ℝ) + 1 / 4 := by
          rw [Real.sqrt_lt' (by linarith)]
          push_cast
          constructor <;> intro h <;> linarith
      _ ↔ n ≤ b * b + b := by rw [← not_le, add_quarter_le_iff, not_lt]
  rw [Nearest, hn, eq_comm, round_eq, Int.floor_eq_iff, hlow, hhigh]

theorem near_iff_round {r : Int} (hr : 1 ≤ r) (dx dy : Int) :
    Near r dx dy ↔
      max |dx| |dy| = round (√((r * r - min |dx| |dy| * min |dx| |dy| : Int) : ℝ)) := by
  by_cases hcentre : max |dx| |dy| = 0
  · -- the centre is no pixel of the circle, and its longer offset no root
    have hmin : min |dx| |dy| = 0 :=
      le_antisymm (hcentre ▸ min_le_max) (le_min (abs_nonneg _) (abs_nonneg _))
    have hr' : (0 : ℝ) ≤ r := by exact_mod_cast (by omega : 0 ≤ r)
    have hround : round (√((r * r - 0 * 0 : Int) : ℝ)) = r := by
      push_cast
      rw [sub_zero, Real.sqrt_mul_self hr', round_intCast]
    rw [Near, hmin, hcentre, hround, Nearest]
    constructor
    · rintro ⟨-, hhigh⟩
      nlinarith
    · omega
  · have hpos : 0 ≤ max |dx| |dy| := le_max_of_le_left (abs_nonneg _)
    exact nearest_iff_round (by omega)

/-! ## The walk -/

/-- What holds along the walk: the midpoint is that of the candidates of the next step, and as long
as the place lies in the octant it is the nearest one. -/
structure Octant.Sound (r : Int) (o : Octant) : Prop where
  decision : o.decision = (o.x + 1) * (o.x + 1) + o.y * o.y - o.y - r * r
  side : o.side = 2 * o.x + 3
  diagonal : o.diagonal = 2 * o.x - 2 * o.y + 5
  x_nonneg : 0 ≤ o.x
  y_nonneg : 0 ≤ o.y
  below : o.x ≤ o.y → o.y * o.y - o.y < r * r - o.x * o.x
  above : r * r - o.x * o.x ≤ o.y * o.y + o.y

theorem Octant.sound_start {r : Int} (hr : 1 ≤ r) : (Octant.start r).Sound r where
  decision := by
    simp only [start]
    ring
  side := rfl
  diagonal := by
    simp only [start]
    ring
  x_nonneg := le_rfl
  y_nonneg := by
    simp only [start]
    omega
  below _ := by
    simp only [start]
    linarith
  above := by
    simp only [start]
    linarith

theorem Octant.Sound.next {r : Int} {o : Octant} (h : o.Sound r) (hxy : o.x ≤ o.y) :
    o.next.Sound r := by
  have hx := h.x_nonneg
  have hbelow := h.below hxy
  have habove := h.above
  have hdecision := h.decision
  by_cases hinside : o.decision < 0
  · rw [Octant.next, if_pos hinside]
    constructor
    case decision => linarith [h.side]
    case side => linarith [h.side]
    case diagonal => linarith [h.diagonal]
    case x_nonneg => dsimp only; omega
    case y_nonneg => dsimp only; omega
    case below => intro _; dsimp only; linarith
    case above => dsimp only; linarith
  · rw [Octant.next, if_neg hinside]
    constructor
    case decision => linarith [h.diagonal]
    case side => linarith [h.side]
    case diagonal => linarith [h.diagonal]
    case x_nonneg => dsimp only; omega
    case y_nonneg => dsimp only; omega
    case below => intro hxy'; dsimp only at hxy' ⊢; linarith
    case above => dsimp only; linarith

/-- Behind the diagonal there is no pixel of the octant. -/
theorem Octant.Sound.le_of_nearest {r a b : Int} {o : Octant} (h : o.Sound r) (ha : o.x ≤ a) (hab : a ≤ b)
    (hnear : Nearest r a b) : o.x ≤ o.y := by
  have hx := h.x_nonneg
  have hy := h.y_nonneg
  have habove := h.above
  obtain ⟨hlow, -⟩ := hnear
  by_contra hlt
  nlinarith [mul_nonneg (show 0 ≤ b - o.y - 1 by omega) (show 0 ≤ b + o.y by omega),
    mul_nonneg (show 0 ≤ a - o.x by omega) (show 0 ≤ a + o.x by omega)]

theorem Octant.mem_runs {c p : Point} {o : Octant} (hx : 0 ≤ o.x) (hxy : o.x ≤ o.y) :
    (∃ run ∈ o.runs c, p = ⟨run.x1, run.y⟩ ∨ p = ⟨run.x2, run.y⟩) ↔
      min |p.x - c.x| |p.y - c.y| = o.x ∧ max |p.x - c.x| |p.y - c.y| = o.y := by
  have hmirrored : (∃ run ∈ o.runs c, p = ⟨run.x1, run.y⟩ ∨ p = ⟨run.x2, run.y⟩) ↔
      |p.x - c.x| = o.x ∧ |p.y - c.y| = o.y ∨ |p.x - c.x| = o.y ∧ |p.y - c.y| = o.x := by
    have hy := hx.trans hxy
    simp only [runs, List.mem_append, or_and_right, exists_or, mem_mirroredRuns hx hy]
    by_cases hdiagonal : o.x = o.y
    · simp [hdiagonal]
    · simp only [hdiagonal, if_false, mem_mirroredRuns hy hx]
  rw [hmirrored]
  omega

/-- The walk from a place on reports the pixels of the octant that lie as far to the side at least. -/
theorem mem_octantRuns {c p : Point} {r : Int} (hr : 0 ≤ r) {n : Nat} {o : Octant} (h : o.Sound r)
    (hn : r < o.x + n) :
    (∃ run ∈ octantRuns c n o, p = ⟨run.x1, run.y⟩ ∨ p = ⟨run.x2, run.y⟩) ↔
      o.x ≤ min |p.x - c.x| |p.y - c.y| ∧ Near r (p.x - c.x) (p.y - c.y) := by
  have hsides := min_le_max (a := |p.x - c.x|) (b := |p.y - c.y|)
  induction n generalizing o with
  | zero =>
    have hend : r * r < o.x * o.x := mul_lt_mul'' (by omega) (by omega) hr hr
    have hout : ¬o.x ≤ o.y := fun hxy => by nlinarith [h.below hxy, h.y_nonneg]
    simp only [octantRuns, List.not_mem_nil, false_and, exists_false, false_iff, not_and]
    exact fun ha hnear => hout (h.le_of_nearest ha hsides hnear)
  | succ n ih =>
    rw [octantRuns]
    by_cases hxy : o.x ≤ o.y
    · have hnext : o.next.x = o.x + 1 := by rw [Octant.next]; split <;> rfl
      have hrest := ih (h.next hxy) (by omega)
      rw [if_pos hxy]
      simp only [List.mem_append, or_and_right, exists_or, hrest, hnext, Octant.mem_runs h.x_nonneg hxy]
      constructor
      · rintro (⟨ha, hb⟩ | ⟨ha, hnear⟩)
        · refine ⟨ha.ge, ?_⟩
          rw [Near, ha, hb]
          exact ⟨h.below hxy, h.above⟩
        · exact ⟨by omega, hnear⟩
      · rintro ⟨ha, hnear⟩
        rcases ha.eq_or_lt with ha | ha
        · refine .inl ⟨ha.symm, ?_⟩
          rw [Near, ← ha] at hnear
          exact hnear.unique (le_max_of_le_left (abs_nonneg _)) h.y_nonneg ⟨h.below hxy, h.above⟩
        · exact .inr ⟨ha, hnear⟩
    · rw [if_neg hxy]
      simp only [List.not_mem_nil, false_and, exists_false, false_iff, not_and]
      exact fun ha hnear => hxy (h.le_of_nearest ha hsides hnear)

/-- The rows between the two offsets of a place are met from there on. -/
theorem exists_octantRuns_row (c : Point) {n : Nat} {o : Octant} {d : Int} (hn : o.y - o.x < n)
    (hx : o.x ≤ |d|) (hy : |d| ≤ o.y) : ∃ run ∈ octantRuns c n o, run.y = c.y + d := by
  induction n generalizing o with
  | zero => omega
  | succ n ih =>
    rw [octantRuns, if_pos (hx.trans hy)]
    simp only [List.mem_append, or_and_right, exists_or]
    by_cases hhere : |d| = o.x ∨ |d| = o.y
    · left
      simp only [Octant.runs, List.mem_append, or_and_right, exists_or]
      by_cases hrow : |d| = o.y
      · exact .inl (exists_mirroredRuns_row c o.x (eq_or_eq_neg_of_abs_eq hrow))
      · have hrow' := hhere.resolve_right hrow
        rw [if_neg (by omega)]
        exact .inr (exists_mirroredRuns_row c o.y (eq_or_eq_neg_of_abs_eq hrow'))
    · right
      have hnext : o.next.x = o.x + 1 ∧ o.y - 1 ≤ o.next.y ∧ o.next.y ≤ o.y := by
        rw [Octant.next]
        split <;> simp
      exact ih (by omega) (by omega) (by omega)

/-- The ends of the runs of a circle are the pixels whose longer offset is the root of what the shorter
leaves of the radius, rounded. Offsets may change sign and places, and every row is met. -/
theorem runs_near (c : Point) {r : Int} (hr : 1 ≤ r) :
    (∀ p : Point, (∃ run ∈ runs c r, p = ⟨run.x1, run.y⟩ ∨ p = ⟨run.x2, run.y⟩) ↔
      Near r (p.x - c.x) (p.y - c.y)) ∧
    (∀ dx dy, Near r dx dy ↔
      max |dx| |dy| = round (√((r * r - min |dx| |dy| * min |dx| |dy| : Int) : ℝ))) ∧
    (∀ dx dy, Near r dx dy → Near r (-dx) dy ∧ Near r dx (-dy) ∧ Near r dy dx) ∧
    ∀ y, c.y - r ≤ y → y ≤ c.y + r → ∃ run ∈ runs c r, run.y = y := by
  have hruns : runs c r = octantRuns c (r.toNat + 1) (.start r) := if_neg (by omega)
  have hx : (Octant.start r).x = 0 := rfl
  have hy : (Octant.start r).y = r := rfl
  refine ⟨fun p => ?_, near_iff_round hr, fun dx dy h => ?_, fun y hlow hhigh => ?_⟩
  · have hfuel : r < (Octant.start r).x + (r.toNat + 1 : Nat) := by omega
    rw [hruns, mem_octantRuns (by omega) (Octant.sound_start hr) hfuel, hx]
    exact and_iff_right (le_min (abs_nonneg _) (abs_nonneg _))
  · exact ⟨by rwa [Near, abs_neg], by rwa [Near, abs_neg], by rwa [Near, min_comm, max_comm]⟩
  · rw [hruns, show y = c.y + (y - c.y) by omega]
    exact exists_octantRuns_row c (by omega) (abs_nonneg _) (abs_le.mpr (by omega))

/-- A circle of radius three has a pixel on its diagonals, two away from each axis. -/
theorem runs_near_three :
    Near 3 (-2) 2 ∧
      (∃ run ∈ runs ⟨5, 5⟩ 3, (⟨3, 7⟩ : Point) = ⟨run.x1, run.y⟩ ∨ (⟨3, 7⟩ : Point) = ⟨run.x2, run.y⟩) ∧
      ¬(∃ run ∈ runs ⟨5, 5⟩ 3, (⟨2, 7⟩ : Point) = ⟨run.x1, run.y⟩ ∨ (⟨2, 7⟩ : Point) = ⟨run.x2, run.y⟩) ∧
      ∃ run ∈ runs ⟨5, 5⟩ 3, run.y = 8 := by
  obtain ⟨hpixels, -, -, hrows⟩ := runs_near ⟨5, 5⟩ (show (1 : Int) ≤ 3 by decide)
  exact ⟨by decide, (hpixels ⟨3, 7⟩).mpr (by decide), fun h => absurd ((hpixels ⟨2, 7⟩).mp h) (by decide),
    hrows 8 (by decide) (by decide)⟩

end Circle

end Rasterizer
