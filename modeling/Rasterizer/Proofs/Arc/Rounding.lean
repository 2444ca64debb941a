import Rasterizer.Proofs.Arc.Walk
import Mathlib.Analysis.SpecialFunctions.Trigonometric.Basic

/-! # The rounded points of a circle

The pixel at an angle is a rounding of the point of the circle there. Its quadrant, counted on over the
turns (`quadrantAt`), is that of the angle, but on the half axes, which belong to one of the quadrants
beside them. As the angle grows the counted quadrant does not fall (`Rounds.quadrantAt_le`), and within
one the pixel moves from the axis behind to the axis ahead (`Rounds.ahead_quadrantAt`). A quarter turn is
5760 units. -/

namespace Rasterizer.CircleArc

/-- The angle in radians. -/
noncomputable def radians (angle : Int) : ℝ := angle / 64 * (Real.pi / 180)

/-- Each coordinate of the pixel is one of the integers nearest to that of the point of the circle at the
angle. -/
structure Rounds (r angle : Int) (p : Point) : Prop where
  x : |r * Real.cos (radians angle) - p.x| ≤ 1 / 2
  y : |-(r * Real.sin (radians angle)) - p.y| ≤ 1 / 2

/-! ## Directions -/

variable {a a' b b' k : Int}

theorem radians_quarters (a k : Int) : radians (a - 5760 * k) = radians a - k * (Real.pi / 2) := by
  unfold radians
  push_cast
  ring

theorem radians_neg (a : Int) : radians (-a) = -radians a := by
  unfold radians
  push_cast
  ring

theorem radians_le (h : a ≤ b) : radians a ≤ radians b := by
  have : (a : ℝ) ≤ b := by exact_mod_cast h
  unfold radians
  have := Real.pi_pos
  gcongr

theorem radians_lt (h : a < b) : radians a < radians b := by
  have : (a : ℝ) < b := by exact_mod_cast h
  unfold radians
  have := Real.pi_pos
  gcongr

theorem radians_zero : radians 0 = 0 := by simp [radians]

theorem radians_quarter : radians 5760 = Real.pi / 2 := by
  unfold radians
  push_cast
  ring

theorem radians_half : radians 11520 = Real.pi := by
  unfold radians
  push_cast
  ring

theorem cos_nonneg (h : -5760 ≤ b) (h' : b ≤ 5760) : 0 ≤ Real.cos (radians b) := by
  have hlo := radians_le h
  have hhi := radians_le h'
  rw [radians_neg, radians_quarter] at hlo
  rw [radians_quarter] at hhi
  exact Real.cos_nonneg_of_neg_pi_div_two_le_of_le hlo hhi

theorem cos_lt (h : 0 ≤ b) (hlt : b < b') (h' : b' ≤ 11520) :
    Real.cos (radians b') < Real.cos (radians b) := by
  have hlo := radians_le h
  have hhi := radians_le h'
  rw [radians_zero] at hlo
  rw [radians_half] at hhi
  exact Real.cos_lt_cos_of_nonneg_of_le_pi hlo hhi (radians_lt hlt)

/-- An eighth of a turn away from an axis a point is still more than half a radius along it. -/
theorem half_lt_cos (h : -2880 ≤ b) (h' : b ≤ 2880) : 1 / 2 < Real.cos (radians b) := by
  have hthird : radians 3840 = Real.pi / 3 := by
    unfold radians
    push_cast
    ring
  rw [← Real.cos_pi_div_three, ← hthird]
  by_cases hneg : b < 0
  · rw [← Real.cos_neg (radians b), ← radians_neg]
    exact cos_lt (by omega) (by omega) (by omega)
  · exact cos_lt (by omega) (by omega) (by omega)

theorem sq_add_sq (b : Int) : Real.cos (radians b) ^ 2 + Real.cos (radians (b - 5760)) ^ 2 = 1 := by
  have h := radians_quarters b 1
  rw [Int.mul_one, Int.cast_one, one_mul] at h
  rw [h, Real.cos_sub_pi_div_two]
  exact Real.cos_sq_add_sin_sq _

/-! ## Rounding -/

variable {r : Int} {p q : Point}

/-- A pixel lies along an axis as the point of the circle does, up to half a pixel. -/
theorem Rounds.near_axis (h : Rounds r a p) (k : Int) :
    |r * Real.cos (radians (a - 5760 * k)) - along k p| ≤ 1 / 2 := by
  have hturns : radians (a - 5760 * k) =
      radians a - (k % 4 : Int) * (Real.pi / 2) - (k / 4 : Int) * (2 * Real.pi) := by
    have hk : (k : ℝ) = (k % 4 : Int) + 4 * (k / 4 : Int) := by exact_mod_cast (Int.emod_add_mul_ediv k 4).symm
    rw [radians_quarters, hk]
    ring
  rw [hturns, Real.cos_sub_int_mul_two_pi]
  obtain ⟨hk, -⟩ | ⟨hk, -⟩ | ⟨hk, -⟩ | ⟨hk, -⟩ := quadrant_cases k <;>
    simp only [along, hk]
  · simpa using h.x
  · have hy := h.y
    rw [← abs_neg] at hy
    simpa [Real.cos_sub_pi_div_two, add_comm] using hy
  · have hx := h.x
    rw [← abs_neg] at hx
    have : radians a - (2 : Int) * (Real.pi / 2) = radians a - Real.pi := by push_cast; ring
    rw [this, Real.cos_sub_pi]
    simpa [sub_eq_add_neg, add_comm] using hx
  · have : radians a - (3 : Int) * (Real.pi / 2) = radians a - Real.pi - Real.pi / 2 := by push_cast; ring
    rw [this, Real.cos_sub_pi_div_two, Real.sin_sub_pi]
    simpa using h.y

theorem le_of_rounded {v : ℝ} {t n : Int} (h : |v - t| ≤ 1 / 2) (hv : v < n + 1 / 2) : t ≤ n := by
  rw [abs_le] at h
  have : (t : ℝ) < n + 1 := by linarith
  exact Int.le_of_lt_add_one (by exact_mod_cast this)

theorem le_of_rounded' {v : ℝ} {t n : Int} (h : |v - t| ≤ 1 / 2) (hv : n - 1 / 2 < v) : n ≤ t := by
  rw [abs_le] at h
  have : (n : ℝ) < t + 1 := by linarith
  exact Int.le_of_lt_add_one (by exact_mod_cast this)

/-- A point of the circle that rounds to the axis at one coordinate has the whole radius at the other. -/
theorem whole_of_rounded {u v : ℝ} {g : Int} (hr : 1 ≤ r) (hcircle : u ^ 2 + v ^ 2 = (r : ℝ) ^ 2)
    (hu : |u| ≤ 1 / 2) (hv : 0 ≤ v) (hg : |v - g| ≤ 1 / 2) : r ≤ g := by
  have hone : (1 : ℝ) ≤ r := by exact_mod_cast hr
  have hsmall : u ^ 2 ≤ (1 / 2) ^ 2 := sq_le_sq' (abs_le.mp hu).1 (abs_le.mp hu).2
  refine le_of_rounded' hg ?_
  by_contra hle
  nlinarith

/-- What is known of a pixel at the part of a quarter turn `part`, where `t` is left of the axis behind
and `g` is gained of the axis ahead. -/
structure Rounded (r part t g : Int) : Prop where
  left : 0 ≤ t ∧ t ≤ r
  gained : 0 ≤ g ∧ g ≤ r
  early : part ≤ 2880 → 1 ≤ t
  late : 2880 ≤ part → 1 ≤ g
  whole_left : g = 0 → t = r
  whole_gained : t = 0 → g = r

theorem rounded_of_near {part t g : Int} (hr : 1 ≤ r) (h0 : 0 ≤ part) (h1 : part < 5760)
    (ht : |r * Real.cos (radians part) - t| ≤ 1 / 2)
    (hg : |r * Real.cos (radians (part - 5760)) - g| ≤ 1 / 2) : Rounded r part t g := by
  have hone : (1 : ℝ) ≤ r := by exact_mod_cast hr
  have hu := cos_nonneg (b := part) (by omega) (by omega)
  have hv := cos_nonneg (b := part - 5760) (by omega) (by omega)
  have hu' := Real.cos_le_one (radians part)
  have hv' := Real.cos_le_one (radians (part - 5760))
  have hcircle : (r * Real.cos (radians part)) ^ 2 + (r * Real.cos (radians (part - 5760))) ^ 2 = (r : ℝ) ^ 2 := by
    have := sq_add_sq part
    linear_combination (r : ℝ) ^ 2 * this
  have hbounds : ∀ {c : ℝ} {n : Int}, 0 ≤ c → c ≤ 1 → |r * c - n| ≤ 1 / 2 → 0 ≤ n ∧ n ≤ r := by
    intro c n hc hc' hn
    refine ⟨le_of_rounded' hn ?_, le_of_rounded hn ?_⟩
    · have : 0 ≤ r * c := by positivity
      push_cast
      linarith
    · nlinarith
  have hhalf : ∀ {c : ℝ} {n : Int}, 1 / 2 < c → |r * c - n| ≤ 1 / 2 → 1 ≤ n := by
    intro c n hc hn
    refine le_of_rounded' hn ?_
    push_cast
    nlinarith
  refine ⟨hbounds hu hu' ht, hbounds hv hv' hg, fun hearly => ?_, fun hlate => ?_, fun hzero => ?_,
    fun hzero => ?_⟩
  · exact hhalf (half_lt_cos (by omega) hearly) ht
  · exact hhalf (half_lt_cos (by omega) (by omega)) hg
  · refine Int.le_antisymm (hbounds hu hu' ht).2
      (whole_of_rounded hr ((add_comm _ _).trans hcircle) ?_ (by positivity) ht)
    simpa [hzero] using hg
  · refine Int.le_antisymm (hbounds hv hv' hg).2 (whole_of_rounded hr hcircle ?_ (by positivity) hg)
    simpa [hzero] using ht

/-- The part of a quarter turn that an angle is past the axis behind it. -/
theorem Rounds.rounded (h : Rounds r a p) (hr : 1 ≤ r) :
    Rounded r (a % 5760) (along (a / 5760) p) (along (a / 5760 + 1) p) := by
  have ht := h.near_axis (a / 5760)
  have hg := h.near_axis (a / 5760 + 1)
  rw [show a - 5760 * (a / 5760) = a % 5760 by omega] at ht
  rw [show a - 5760 * (a / 5760 + 1) = a % 5760 - 5760 by omega] at hg
  exact rounded_of_near hr (by omega) (by omega) ht hg

/-! ## The quadrant of an angle -/

/-- The point `q` lies in the quadrant `k` where `p` does or further on. -/
def Ahead (k : Int) (p q : Point) : Prop := along k q ≤ along k p ∧ along (k + 1) p ≤ along (k + 1) q

theorem le_of_rounded_of_lt {v v' : ℝ} {t t' : Int} (h : |v - t| ≤ 1 / 2) (h' : |v' - t'| ≤ 1 / 2)
    (hlt : v < v') : t ≤ t' := by
  have := (abs_le.mp h').2
  exact le_of_rounded h (by linarith)

/-- Within a quarter turn the pixels go from the axis behind to the axis ahead. -/
theorem Rounds.ahead (h : Rounds r a p) (h' : Rounds r a' q) (hr : 1 ≤ r) (hlt : a < a')
    (hquarter : a / 5760 = a' / 5760) : Ahead (a / 5760) p q := by
  have hpos : (0 : ℝ) < r := by exact_mod_cast (show 0 < r by omega)
  constructor
  · refine le_of_rounded_of_lt (h'.near_axis _) (h.near_axis _) (mul_lt_mul_of_pos_left ?_ hpos)
    exact cos_lt (by omega) (by omega) (by omega)
  · refine le_of_rounded_of_lt (h.near_axis _) (h'.near_axis _) (mul_lt_mul_of_pos_left ?_ hpos)
    rw [← Real.cos_neg, ← Real.cos_neg (radians (a' - _)), ← radians_neg, ← radians_neg]
    exact cos_lt (by omega) (by omega) (by omega)

/-- The quadrant of the pixel at an angle, counted on over the turns. -/
def quadrantAt (a : Int) (p : Point) : Int :=
  a / 5760 - 1 + (quadrant p - (a / 5760 - 1)) % 4

theorem quadrantAt_emod (a : Int) (p : Point) : quadrantAt a p % 4 = quadrant p := by
  have := quadrant_range p
  unfold quadrantAt
  omega

/-- The half axis above the centre belongs to the quadrant before it, those on the left and below to the
quadrant after. -/
theorem Rounds.quadrantAt_eq (h : Rounds r a p) (hr : 1 ≤ r) : quadrantAt a p =
    if a / 5760 % 4 = 1 ∧ along (a / 5760 + 1) p = 0 then a / 5760 - 1
    else if a / 5760 % 4 ≠ 0 ∧ along (a / 5760) p = 0 then a / 5760 + 1
    else a / 5760 := by
  obtain ⟨hleft, hgained, -, -, hwhole, hwhole'⟩ := h.rounded hr
  unfold quadrantAt
  generalize a / 5760 = m at *
  obtain ⟨hm, hm'⟩ | ⟨hm, hm'⟩ | ⟨hm, hm'⟩ | ⟨hm, hm'⟩ := quadrant_cases m <;>
    simp only [along, hm, hm', Int.reduceEq, ↓reduceIte, ne_eq, not_true_eq_false, not_false_eq_true,
      true_and, false_and] at hleft hgained hwhole hwhole' ⊢ <;>
    simp only [quadrant] <;> split_ifs <;> omega

/-- The counted quadrant is that of the angle, or the pixel stands at the beginning of the one after or at
the end of the one before. -/
theorem Rounds.quadrantAt_cases (h : Rounds r a p) (hr : 1 ≤ r) :
    quadrantAt a p = a / 5760 ∨
    quadrantAt a p = a / 5760 + 1 ∧ 2880 < a % 5760 ∧
      along (quadrantAt a p) p = r ∧ along (quadrantAt a p + 1) p = 0 ∨
    quadrantAt a p = a / 5760 - 1 ∧ a % 5760 < 2880 ∧
      along (quadrantAt a p) p = 0 ∧ along (quadrantAt a p + 1) p = r := by
  obtain ⟨-, -, hearly, hlate, hwhole, hwhole'⟩ := h.rounded hr
  rw [h.quadrantAt_eq hr]
  split_ifs with hbefore hafter
  · have hopposite := along_opposite (a / 5760 - 1) p
    rw [Int.sub_add_cancel] at hopposite ⊢
    omega
  · have hopposite := along_opposite (a / 5760) p
    omega
  · exact .inl rfl

theorem Rounds.along_quadrantAt (h : Rounds r a p) (hr : 1 ≤ r) :
    (0 ≤ along (quadrantAt a p) p ∧ along (quadrantAt a p) p ≤ r) ∧
      0 ≤ along (quadrantAt a p + 1) p ∧ along (quadrantAt a p + 1) p ≤ r := by
  obtain hsame | ⟨-, -, hleft, hgained⟩ | ⟨-, -, hleft, hgained⟩ := h.quadrantAt_cases hr
  · rw [hsame]
    exact ⟨(h.rounded hr).left, (h.rounded hr).gained⟩
  · omega
  · omega

/-- As the angle grows the counted quadrant does not fall. -/
theorem Rounds.quadrantAt_le (h : Rounds r a p) (h' : Rounds r a' q) (hr : 1 ≤ r) (hlt : a < a') :
    quadrantAt a p ≤ quadrantAt a' q := by
  rw [h.quadrantAt_eq hr, h'.quadrantAt_eq hr]
  by_cases hquarter : a / 5760 = a' / 5760
  · obtain ⟨hless, hmore⟩ := h.ahead h' hr hlt hquarter
    obtain ⟨hleft, hgained, -, -, hwhole, -⟩ := h'.rounded hr
    have hbefore := (h.rounded hr).gained
    rw [← hquarter] at hleft hgained hwhole ⊢
    split_ifs <;> omega
  · split_ifs <;> omega

/-- Within a counted quadrant the pixels go ahead as the angle grows. -/
theorem Rounds.ahead_quadrantAt (h : Rounds r a p) (h' : Rounds r a' q) (hr : 1 ≤ r) (hlt : a < a')
    (hsame : quadrantAt a p = quadrantAt a' q) : Ahead (quadrantAt a' q) p q := by
  obtain ⟨hp, hp'⟩ := h.along_quadrantAt hr
  obtain ⟨hq, hq'⟩ := h'.along_quadrantAt hr
  rw [hsame] at hp hp'
  obtain hat | ⟨-, -, hbegin, hbegin'⟩ | ⟨hpast, -⟩ := h.quadrantAt_cases hr
  · obtain hat' | ⟨hpast', -⟩ | ⟨-, -, hend, hend'⟩ := h'.quadrantAt_cases hr
    · have hahead := h.ahead h' hr hlt (by omega)
      rwa [← hat, hsame] at hahead
    · omega
    · constructor <;> omega
  · rw [hsame] at hbegin hbegin'
    constructor <;> omega
  · obtain hat' | ⟨hpast', -⟩ | ⟨-, -, hend, hend'⟩ := h'.quadrantAt_cases hr
    · omega
    · omega
    · constructor <;> omega

/-- Half a turn ahead the counted quadrant is less than four further on. -/
theorem Rounds.quadrantAt_lt (h : Rounds r a p) (h' : Rounds r a' q) (hr : 1 ≤ r) (hhalf : a' - a ≤ 11520) :
    quadrantAt a' q < quadrantAt a p + 4 := by
  have hp := h.quadrantAt_cases hr
  have hq := h'.quadrantAt_cases hr
  omega

theorem Rounds.sub_turn (h : Rounds r a p) : Rounds r (a - 23040) p := by
  have hturn : radians (a - 23040) = radians a - 2 * Real.pi := by
    unfold radians
    push_cast
    ring
  constructor
  · rw [hturn, Real.cos_sub_two_pi]
    exact h.x
  · rw [hturn, Real.sin_sub_two_pi]
    exact h.y

theorem quadrantAt_sub_turn (a : Int) (p : Point) : quadrantAt (a - 23040) p = quadrantAt a p - 4 := by
  unfold quadrantAt
  omega

end Rasterizer.CircleArc
