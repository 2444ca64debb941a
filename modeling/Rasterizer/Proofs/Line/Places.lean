import Rasterizer.Line.Walk
import Rasterizer.Scalar
import Mathlib.Tactic.Linarith
import Mathlib.Tactic.Ring

/-! # The places of a walk

The error of a walk is the remainder, and the number of its steps along the shorter axis
the quotient, of one division. The place after `k` moves therefore has a closed form
(`points_eq`), and a walk entered at a later move goes on through the places that the
whole walk has from there (`points_window`). -/

namespace Rasterizer.LineWalk

/-- The place `k` moves from `p`, of which `m` also went along the shorter axis. -/
def displaced (w : LineWalk) (p : Point) (k m : Int) : Point :=
  if w.alongX then ⟨p.x + w.signX * k, p.y + w.signY * m⟩
  else ⟨p.x + w.signX * m, p.y + w.signY * k⟩

/-- How many of `k` moves also go along the shorter axis when the first carries the error `e`. -/
def aside (w : LineWalk) (e k : Int) : Int := (e + k * w.minor) / w.major

/-- The place of a walk after `k` moves. -/
def place (w : LineWalk) (k : Int) : Point := w.displaced w.start k (w.aside w.error k)

/-- The error stays below the longer distance; where there is none, there are no moves. -/
structure Steady (w : LineWalk) : Prop where
  minor_nonneg : 0 ≤ w.minor
  minor_le : w.minor ≤ w.major
  error_nonneg : 0 ≤ w.error
  error_lt : w.error < w.major ∨ w.major = 0 ∧ w.moves = 0

theorem displaced_zero (w : LineWalk) (p : Point) : w.displaced p 0 0 = p := by
  unfold displaced
  split <;> simp

theorem displaced_displaced (w : LineWalk) (p : Point) (k m k' m' : Int) :
    w.displaced (w.displaced p k m) k' m' = w.displaced p (k + k') (m + m') := by
  unfold displaced
  split <;> simp only [Point.mk.injEq] <;> constructor <;> ring

theorem step_eq_displaced (w : LineWalk) (p : Point) (both : Bool) :
    w.step p both = w.displaced p 1 (if both then 1 else 0) := by
  unfold step displaced
  cases both <;> cases w.alongX <;> simp

theorem aside_zero {w : LineWalk} {e : Int} (h0 : 0 ≤ e) (h : e < w.major) : w.aside e 0 = 0 := by
  rw [aside, zero_mul, add_zero]
  exact Int.ediv_eq_zero_of_lt h0 h

/-- A move hands the sum of its error and the shorter distance to the next one. -/
theorem aside_succ (w : LineWalk) (e k : Int) : w.aside e (k + 1) = w.aside (e + w.minor) k := by
  unfold aside
  congr 1
  ring

/-- A step along the shorter axis takes one longer distance off the error. -/
theorem aside_add_major {w : LineWalk} (h : w.major ≠ 0) (e k : Int) :
    w.aside (e + w.major) k = w.aside e k + 1 := by
  unfold aside
  rw [show e + w.major + k * w.minor = e + k * w.minor + 1 * w.major by ring,
    Int.add_mul_ediv_right _ _ h]

/-- The moves from `p`, the first of which carries the error `e`. -/
theorem trail_eq {w : LineWalk} (hm : 0 ≤ w.minor) (hle : w.minor ≤ w.major) (n : Nat) (p : Point)
    {e : Int} (h0 : 0 ≤ e) (h : e < w.major) :
    w.trail n p e = (List.range (n + 1)).map fun k : Nat => w.displaced p k (w.aside e k) := by
  induction n generalizing p e with
  | zero => simp [trail, aside_zero h0 h, displaced_zero]
  | succ n ih =>
    -- the head is `p` itself, and the rest is a trail of its own with the error handed on
    rw [List.range_succ_eq_map, List.map_cons, List.map_map]
    simp only [trail, Nat.cast_zero, aside_zero h0 h, displaced_zero]
    split
    next hstep =>
      rw [ih _ (by omega) (by omega), step_eq_displaced]
      refine congrArg (p :: ·) (List.map_congr_left ?_)
      intro k _
      have hk : w.aside e ((k : Int) + 1) = w.aside (e + w.minor - w.major) k + 1 := by
        rw [aside_succ, ← aside_add_major (by omega), sub_add_cancel]
      simp only [Function.comp_apply, Nat.succ_eq_add_one, Nat.cast_add, Nat.cast_one, hk,
        displaced_displaced, if_true]
      rw [add_comm 1 (k : Int), add_comm 1 (w.aside _ _)]
    next hstep =>
      rw [ih _ (by omega) (by omega), step_eq_displaced]
      refine congrArg (p :: ·) (List.map_congr_left ?_)
      intro k _
      simp only [Function.comp_apply, Nat.succ_eq_add_one, Nat.cast_add, Nat.cast_one,
        aside_succ, displaced_displaced, Bool.false_eq_true, if_false]
      rw [add_comm 1 (k : Int), zero_add]

/-- The points of a walk are its places after none, one and so on up to all moves. -/
theorem points_eq {w : LineWalk} (hw : w.Steady) : w.points = (irange 0 w.moves).map w.place := by
  have hr : irange 0 w.moves = (List.range (w.moves + 1)).map fun k : Nat => (k : Int) := by
    simp only [irange, Int.sub_zero, zero_add]
    congr 2
  rw [hr, List.map_map]
  rcases hw.error_lt with h | ⟨hz, hn⟩
  · exact trail_eq hw.minor_nonneg hw.minor_le _ _ hw.error_nonneg h
  · rw [points, hn]
    simp [trail, place, aside, hz, displaced_zero]

theorem steady_between (p q : Point) : (between p q).Steady where
  minor_nonneg := by simp only [between]; omega
  minor_le := by simp only [between]; omega
  error_nonneg := by simp only [between]; omega
  error_lt := by simp only [between]; omega

/-- A walk comes to no point twice: along the longer axis it goes on with every move. -/
theorem place_inj {w : LineWalk} (hx : w.signX ≠ 0) (hy : w.signY ≠ 0) {k l : Int}
    (h : w.place k = w.place l) : k = l := by
  simp only [place, displaced] at h
  cases halong : w.alongX <;> simp only [halong, if_true] at h <;> injection h with hx' hy'
  · exact mul_left_cancel₀ hy (add_left_cancel hy')
  · exact mul_left_cancel₀ hx (add_left_cancel hx')

theorem signs_between (p q : Point) : (between p q).signX ≠ 0 ∧ (between p q).signY ≠ 0 := by
  simp only [between]
  constructor <;> split <;> decide

theorem nodup_points (p q : Point) : (between p q).points.Nodup := by
  obtain ⟨hx, hy⟩ := signs_between p q
  rw [points_eq (steady_between p q), List.Nodup, List.pairwise_map]
  exact (pairwise_irange _ _).imp fun hlt h => Int.ne_of_lt hlt (place_inj hx hy h)

/-- Entering a walk after `first` moves: the place is the one it has there, and the error is what
the division leaves. -/
theorem window_eq {w : LineWalk} (hw : w.Steady) (hz : w.major ≠ 0) {first : Int} (h : 0 ≤ first)
    (last : Int) : w.window first last =
      { w with
        start := w.place first
        moves := (last - first).toNat
        error := (w.error + first * w.minor) % w.major } := by
  have htotal : 0 ≤ w.error + first * w.minor :=
    add_nonneg hw.error_nonneg (mul_nonneg h hw.minor_nonneg)
  simp only [window, hz, if_false, place, displaced, aside, Int.tdiv_eq_ediv_of_nonneg htotal,
    Int.tmod_eq_emod_of_nonneg htotal]

theorem steady_window {w : LineWalk} (hw : w.Steady) {first : Int} (h : 0 ≤ first) (last : Int) :
    (w.window first last).Steady := by
  by_cases hz : w.major = 0
  · rwa [show w.window first last = w by simp [window, hz]]
  · have hpos : 0 < w.major := by have := hw.minor_nonneg; have := hw.minor_le; omega
    rw [window_eq hw hz h]
    exact ⟨hw.minor_nonneg, hw.minor_le, Int.emod_nonneg _ hz, .inl (Int.emod_lt_of_pos _ hpos)⟩

/-- A walk entered after `first` moves has the places of the whole walk from there on. -/
theorem place_window {w : LineWalk} (hw : w.Steady) (hz : w.major ≠ 0) {first : Int}
    (h : 0 ≤ first) (last k : Int) : (w.window first last).place k = w.place (first + k) := by
  have haside : w.aside w.error (first + k) =
      w.aside w.error first + w.aside ((w.error + first * w.minor) % w.major) k := by
    have hdiv := Int.mul_ediv_add_emod (w.error + first * w.minor) w.major
    have hsum : w.error + (first + k) * w.minor =
        (w.error + first * w.minor) % w.major + k * w.minor +
          (w.error + first * w.minor) / w.major * w.major := by
      linarith [add_mul first k w.minor, mul_comm w.major ((w.error + first * w.minor) / w.major)]
    simp only [aside]
    rw [hsum, Int.add_mul_ediv_right _ _ hz, add_comm]
  rw [window_eq hw hz h]
  change w.displaced (w.displaced w.start first (w.aside w.error first)) k (w.aside _ k) = _
  rw [displaced_displaced, ← haside]
  rfl

/-- The points of a walk from its place after `first` moves to the one after `last`. -/
theorem points_window {w : LineWalk} (hw : w.Steady) {first last : Int} (h0 : 0 ≤ first)
    (h : first ≤ last) (hlast : last ≤ w.moves) :
    (w.window first last).points = (irange first last).map w.place := by
  by_cases hz : w.major = 0
  · have hmoves : w.moves = 0 := by
      rcases hw.error_lt with he | he
      · have := hw.error_nonneg; omega
      · exact he.2
    obtain ⟨rfl, rfl⟩ : first = 0 ∧ last = 0 := by omega
    rw [show w.window 0 0 = w by simp [window, hz], points_eq hw, hmoves]
    rfl
  · have hmoves : ((w.window first last).moves : Int) = last - first := by
      rw [window_eq hw hz h0]
      exact Int.toNat_of_nonneg (by omega)
    rw [points_eq (steady_window hw h0 last), hmoves,
      List.map_congr_left fun k _ => place_window hw hz h0 last k,
      show (fun k => w.place (first + k)) = w.place ∘ (first + ·) from rfl, ← List.map_map,
      map_add_irange]
    congr 2 <;> ring

end Rasterizer.LineWalk
