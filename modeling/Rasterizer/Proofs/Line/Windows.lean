import Rasterizer.Proofs.Line.Steps

/-! # Walks entered later

A cursor is set on to a later place by one division: the quotient says how often it has gone along the
shorter axis, and the remainder is the error that it carries there. Of its end only the coordinate along
the longer axis is replaced (`LineCursor.window`). From there on it goes through the places that the whole
walk has between the two moves (`LineCursor.Begins.window`, `LineCursor.window_resumes`). -/

namespace Rasterizer

/-- The integer with the same low 64 bits that lies in the signed 64-bit range. -/
def wrap64 (v : Int) : Int := Int.bmod v 18446744073709551616

theorem wrap64_of_range {v : Int} (lo : -9223372036854775808 ≤ v) (hi : v < 9223372036854775808) :
    wrap64 v = v := by
  unfold wrap64
  apply Int.bmod_eq_of_le <;> omega

namespace LineCursor

/-- The cursor after `first` moves, to end after `last` of them. It divides in 64 bits and keeps the low 32 bits
of what the division gives. -/
def window (c : LineCursor) (first last : Int) : LineCursor :=
  let (major, minor) := if c.deltaY ≤ c.deltaX then (c.deltaX, c.deltaY) else (c.deltaY, c.deltaX)
  if major = 0 then c
  else
    let total := wrap64 (c.error + first * minor)
    let aside := wrap32 (total.tdiv major)
    let error := wrap32 (total.tmod major)
    if c.deltaY ≤ c.deltaX then
      { c with
        place := ⟨c.place.x + c.signX * first, c.place.y + c.signY * aside⟩
        stop := { c.stop with x := c.place.x + c.signX * last }
        error := error }
    else
      { c with
        place := ⟨c.place.x + c.signX * aside, c.place.y + c.signY * first⟩
        stop := { c.stop with y := c.place.y + c.signY * last }
        error := error }

end LineCursor

namespace LineWalk

variable {w : LineWalk} {first last : Int}

/-- No bit of the division is lost when the longer distance fits into 32 bits. -/
theorem wide_division (hw : w.Steady) (hz : w.major ≠ 0) (hfit : w.major < 2147483648) (h0 : 0 ≤ first)
    (h : first ≤ w.major) :
    let total := wrap64 (w.error + first * w.minor)
    wrap32 (total.tdiv w.major) = w.aside w.error first ∧
      wrap32 (total.tmod w.major) = (w.error + first * w.minor) % w.major := by
  intro total
  -- a product of two distances is below 2 ^ 62, the quotient at most the shorter distance
  have hm := hw.minor_nonneg
  have hle := hw.minor_le
  have he := hw.error_nonneg
  have hlt : w.error < w.major := by have := hw.error_lt; omega
  have hprod : 0 ≤ first * w.minor := Int.mul_nonneg h0 hm
  have hbound : first * w.minor ≤ w.minor * w.major :=
    Int.mul_comm w.minor w.major ▸ Int.mul_le_mul_of_nonneg_right h hm
  have hwide : w.minor * w.major ≤ 2147483647 * 2147483647 :=
    Int.mul_le_mul (by omega) (by omega) (by omega) (by decide)
  have htotal : total = w.error + first * w.minor := wrap64_of_range (by omega) (by omega)
  have haside : w.aside w.error first < w.minor + 1 := by
    rw [aside, Int.ediv_lt_iff_lt_mul (by omega), Int.add_mul]
    omega
  have haside' : 0 ≤ w.aside w.error first := Int.ediv_nonneg (by omega) (by omega)
  have hrest := Int.emod_nonneg (w.error + first * w.minor) hz
  have hrest' := Int.emod_lt_of_pos (w.error + first * w.minor) (show 0 < w.major by omega)
  rw [htotal, Int.tdiv_eq_ediv_of_nonneg (by omega), Int.tmod_eq_emod_of_nonneg (by omega), ← aside]
  exact ⟨wrap32_of_range (by omega) (by omega), wrap32_of_range (by omega) (by omega)⟩

theorem signs_window (w : LineWalk) (first last : Int) :
    (w.window first last).signX = w.signX ∧ (w.window first last).signY = w.signY := by
  rw [window]
  split <;> exact ⟨rfl, rfl⟩

theorem major_between (p q : Point) : (between p q).major = longer p q := by
  simp only [between, longer, Nat.cast_max]

/-- The points of a part of a walk are the points of the walk with these numbers. -/
theorem points_window_eq_extract (hw : w.Steady) {first last : Nat} (h : first ≤ last) (hlast : last ≤ w.moves) :
    (w.window first last).points = w.points.extract first (last + 1) := by
  have hbefore : ((irange 0 ((first : Int) - 1)).map w.place).length = first := by
    rw [List.length_map, length_irange]
    omega
  have hpart : ((irange first last).map w.place).length = last + 1 - first := by
    rw [List.length_map, length_irange]
    omega
  have hsplit : irange 0 w.moves =
      irange 0 ((first : Int) - 1) ++ (irange first last ++ irange ((last : Int) + 1) w.moves) := by
    have hall := irange_append (show (0 : Int) ≤ first - 1 + 1 by omega) (show (first : Int) - 1 ≤ w.moves by omega)
    rw [irange_append (by omega) (by omega), ← hall, Int.sub_add_cancel]
  rw [points_window hw (by omega) (by omega) (by omega), points_eq hw, hsplit, List.map_append, List.map_append,
    List.extract_eq_take_drop, List.drop_left' hbefore, List.take_left' hpart]

end LineWalk

namespace LineCursor

variable {w : LineWalk} {c : LineCursor} {first last : Int}

/-- A cursor that has been set on stands where the walk is after `first` moves, with the error that the walk
has there. -/
theorem Begins.window_eq (h : c.Begins w) (hw : w.Steady) (hz : w.major ≠ 0) (hfit : w.major < 2147483648)
    (h0 : 0 ≤ first) (hfirst : first ≤ w.major) :
    c.window first last = { c with
      place := w.place first
      stop := if w.alongX then { c.stop with x := w.start.x + w.signX * last }
        else { c.stop with y := w.start.y + w.signY * last }
      error := (w.error + first * w.minor) % w.major } := by
  obtain ⟨haside, hrest⟩ := LineWalk.wide_division hw hz hfit h0 hfirst
  have halong := h.follows.alongX
  have hmajor := h.follows.major
  have hminor := h.follows.minor
  have hx : c.signX = w.signX := h.follows.signX
  have hy : c.signY = w.signY := h.follows.signY
  dsimp only at halong hmajor hminor
  rw [LineWalk.place, LineWalk.displaced, halong]
  by_cases hxy : c.deltaY ≤ c.deltaX
  · rw [max_eq_left hxy] at hmajor
    rw [min_eq_right hxy] at hminor
    simp only [LineCursor.window, hxy, decide_true, if_true]
    simp only [← hmajor, ← hminor, if_neg hz, h.error, h.place, hx, hy, haside, hrest]
  · rw [max_eq_right (by omega)] at hmajor
    rw [min_eq_left (by omega)] at hminor
    simp only [LineCursor.window, hxy, decide_false, Bool.false_eq_true, if_false]
    simp only [← hmajor, ← hminor, if_neg hz, h.error, h.place, hx, hy, haside, hrest]

/-- Where there is no distance at all, a cursor stays as it is. -/
theorem Begins.window_of_major_eq_zero (h : c.Begins w) (hz : w.major = 0) : c.window first last = c := by
  have hmajor : w.major = max c.deltaX c.deltaY := h.follows.major
  by_cases hxy : c.deltaY ≤ c.deltaX
  · simp only [LineCursor.window, if_pos hxy]
    exact if_pos (by omega)
  · simp only [LineCursor.window, if_neg hxy]
    exact if_pos (by omega)

/-- A cursor that has been set on begins the part of the walk between the two moves. -/
theorem Begins.window (h : c.Begins w) (hw : w.Steady) (hfit : w.major < 2147483648) (h0 : 0 ≤ first)
    (hfirst : first ≤ w.major) (hlast : first ≤ last) : (c.window first last).Begins (w.window first last) := by
  by_cases hz : w.major = 0
  · rwa [h.window_of_major_eq_zero hz, LineWalk.window, if_pos hz]
  rw [h.window_eq hw hz hfit h0 hfirst, LineWalk.window_eq hw hz h0]
  refine ⟨h.fresh, rfl, rfl, ⟨rfl, h.follows.alongX, h.follows.major, h.follows.minor, h.follows.signX,
    h.follows.signY, ?_⟩⟩
  -- the end that has been replaced is the only one that the cursor looks at
  have hmoves : (((last - first).toNat : Nat) : Int) = last - first := Int.toNat_of_nonneg (by omega)
  simp only [hmoves, LineWalk.place, LineWalk.displaced]
  cases w.alongX <;> simp only [if_true, if_false, Bool.false_eq_true, Int.mul_sub] <;> omega

/-- On a line whose distances fit into 32 bits, a cursor that is set on to the moves from `first` to `last` yields
the points of the whole walk with these numbers, in their order, and then ends. -/
theorem window_resumes {p q : Point} {first last : Nat} (h : first ≤ last) (hlast : last ≤ LineWalk.longer p q)
    (hfit : LineWalk.longer p q < 2147483648) :
    let whole := (LineWalk.between p q).points
    let part := whole.extract first (last + 1)
    let c := (between p q).window first last
    (∀ ps, (between p q).Walks p ps ↔ ps = whole) ∧ whole.length = LineWalk.longer p q + 1 ∧
      (∀ ps, c.Walks c.place ps ↔ ps = part) ∧ part.length = last + 1 - first ∧
      ((LineWalk.between p q).window first last).points = part := by
  intro whole part c
  have hmoves := LineWalk.moves_between p q
  have hmajor := LineWalk.major_between p q
  have hsteady := LineWalk.steady_between p q
  obtain ⟨hx, hy⟩ := LineWalk.signs_between p q
  have hlength : whole.length = LineWalk.longer p q + 1 := by rw [LineWalk.length_points, hmoves]
  have hpart : ((LineWalk.between p q).window first last).points = part :=
    LineWalk.points_window_eq_extract hsteady h (by omega)
  have hbegins : c.Begins ((LineWalk.between p q).window first last) :=
    (begins_between p q).window hsteady (by omega) (by omega) (by omega) (by omega)
  refine ⟨walks_between p q, hlength, fun ps => ?_, ?_, hpart⟩
  · obtain ⟨hsignX, hsignY⟩ := (LineWalk.between p q).signs_window first last
    rw [← hpart]
    exact hbegins.walks_iff (hsignX ▸ hx) (hsignY ▸ hy) ps
  · have hdrop : part = (whole.drop first).take (last + 1 - first) := List.extract_eq_take_drop
    rw [hdrop, List.length_take, List.length_drop]
    omega

/-- Three places of a steep line, entered in the middle. -/
theorem window_resumes_steep :
    (2 ≤ 4 ∧ 4 ≤ LineWalk.longer ⟨0, 0⟩ ⟨2, -5⟩ ∧ LineWalk.longer ⟨0, 0⟩ ⟨2, -5⟩ < 2147483648) ∧
      let c := (between ⟨0, 0⟩ ⟨2, -5⟩).window 2 4
      (∀ ps, c.Walks ⟨1, -2⟩ ps ↔ ps = [⟨1, -2⟩, ⟨1, -3⟩, ⟨2, -4⟩]) ∧
        ((LineWalk.between ⟨0, 0⟩ ⟨2, -5⟩).window 2 4).points = [⟨1, -2⟩, ⟨1, -3⟩, ⟨2, -4⟩] := by
  have hplace : ((between ⟨0, 0⟩ ⟨2, -5⟩).window 2 4).place = ⟨1, -2⟩ := by decide
  have hpart : (LineWalk.between ⟨0, 0⟩ ⟨2, -5⟩).points.extract 2 5 = [⟨1, -2⟩, ⟨1, -3⟩, ⟨2, -4⟩] := by decide
  obtain ⟨-, -, hwalks, -, hpoints⟩ :=
    @window_resumes ⟨0, 0⟩ ⟨2, -5⟩ 2 4 (by decide) (by decide) (by decide)
  rw [hpart] at hpoints
  refine ⟨⟨by decide, by decide, by decide⟩, fun ps => ?_, hpoints⟩
  rw [← hpart, ← hplace]
  exact hwalks ps

end LineCursor

end Rasterizer
