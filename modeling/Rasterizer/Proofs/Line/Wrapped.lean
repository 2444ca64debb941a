import Rasterizer.Proofs.Line.Clip
import Rasterizer.Proofs.Line.Steps

/-! # Walks of 32-bit numbers

While the distances and the errors of a walk fit in 32 bits, wrapping them changes nothing: the walk, and
each part of it that a rectangle cuts out, meets the places of the exact one (`clipped32?_cases`). -/

namespace Rasterizer.LineWalk

variable {w : LineWalk} {p q : Point} {clip : Rect}

theorem Fits.symm (h : Fits p q) : Fits q p := by
  rcases h with hx | hy | ⟨⟨hp, hq⟩, hsum⟩
  · exact .inl hx.symm
  · exact .inr (.inl hy.symm)
  · exact .inr (.inr ⟨⟨hq, hp⟩, by omega⟩)

/-- No error on the way reaches the sum of the distances. -/
theorem trail32_eq (hm : 0 ≤ w.minor) (hle : w.minor ≤ w.major) (hfit : w.major + w.minor ≤ 2147483648)
    (n : Nat) {p : Point} {e : Int} (h0 : 0 ≤ e) (he : e < w.major) (hpts : ∀ a ∈ w.trail n p e, a.Fits) :
    w.trail32 n p e = w.trail n p e := by
  induction n generalizing p e with
  | zero => rfl
  | succ n ih =>
    have hsum : wrap32 (e + w.minor) = e + w.minor := wrap32_of_range (by omega) (by omega)
    have hhead : ∀ (q : Point) (e' : Int), (∀ a ∈ w.trail n q e', a.Fits) → q.wrap = q := fun q e' h =>
      (h q (by rw [trail_eq_cons]; exact List.mem_cons_self)).wrap
    simp only [trail32, trail, hsum] at hpts ⊢
    split at hpts
    next hboth =>
      have hrest := (List.forall_mem_cons.mp hpts).2
      have hkept : wrap32 (e + w.minor - w.major) = e + w.minor - w.major :=
        wrap32_of_range (by omega) (by omega)
      rw [if_pos hboth, if_pos hboth, hhead _ _ hrest, hkept, ih (by omega) (by omega) hrest]
    next hone =>
      have hrest := (List.forall_mem_cons.mp hpts).2
      rw [if_neg hone, if_neg hone, hhead _ _ hrest, ih (by omega) (by omega) hrest]

theorem points32_eq (hw : w.Steady) (hfit : w.major + w.minor ≤ 2147483648) (hpts : ∀ a ∈ w.points, a.Fits) :
    w.points32 = w.points := by
  rcases hw.error_lt with he | ⟨-, hn⟩
  · exact trail32_eq hw.minor_nonneg hw.minor_le hfit _ hw.error_nonneg he hpts
  · rw [points32, points, hn]
    rfl

theorem distances_window (w : LineWalk) (first last : Int) :
    (w.window first last).major = w.major ∧ (w.window first last).minor = w.minor := by
  rw [window]
  split <;> exact ⟨rfl, rfl⟩

/-- A part of a walk begins at one of its places. -/
theorem window32_eq (hw : w.Steady) (hfit : w.major ≤ 2147483647) (hmoves : (w.moves : Int) ≤ w.major)
    {first last : Int} (h0 : 0 ≤ first) (h : first ≤ last) (hlast : last ≤ w.moves)
    (hstart : (w.place first).Fits) : w.window32 first last = w.window first last := by
  by_cases hz : w.major = 0
  · simp only [window32, window, hz, if_true]
  · have hfirst : wrap32 first = first := wrap32_of_range (by omega) (by omega)
    have hlast : wrap32 last = last := wrap32_of_range (by omega) (by omega)
    have hpos : 0 < w.major := by have := hw.minor_nonneg; have := hw.minor_le; omega
    have herror := Int.emod_nonneg (w.error + first * w.minor) hz
    have herror' := Int.emod_lt_of_pos (w.error + first * w.minor) hpos
    have hcount : ((last - first) % 4294967296).toNat = (last - first).toNat := by omega
    have hkept : wrap32 ((w.error + first * w.minor) % w.major) = (w.error + first * w.minor) % w.major :=
      wrap32_of_range (by omega) (by omega)
    rw [window32, if_neg hz, hfirst, hlast, window_eq hw hz h0]
    simp only [hstart.wrap, hcount, hkept]

/-- Neither a point of the walk nor an error on the way leaves 32 bits. -/
structure Narrow (p q : Point) : Prop where
  start : p.Fits
  stop : q.Fits
  sum : (q.x - p.x).natAbs + (q.y - p.y).natAbs ≤ 2147483648
  deltaX : (q.x - p.x).natAbs < 2147483648
  deltaY : (q.y - p.y).natAbs < 2147483648

theorem Fits.narrow (h : Fits p q) (hx : p.x ≠ q.x) (hy : p.y ≠ q.y) : Narrow p q := by
  obtain ⟨⟨hp, hq⟩, hsum⟩ := (h.resolve_left hx).resolve_left hy
  exact ⟨hp, hq, hsum, by omega, by omega⟩

namespace Narrow

theorem fits_points (h : Narrow p q) : ∀ a ∈ (between p q).points, a.Fits := by
  obtain ⟨⟨hpx, hpy⟩, ⟨hqx, hqy⟩, -⟩ := h
  simp only [Fits32] at hpx hpy hqx hqy
  intro a ha
  obtain ⟨k, ⟨h0, hk⟩, rfl⟩ := mem_points.mp ha
  have hbox := place_in_box h0 hk
  exact ⟨⟨by omega, by omega⟩, by omega, by omega⟩

theorem between_fit (h : Narrow p q) : (between p q).major + (between p q).minor ≤ 2147483648 := by
  have := h.sum
  simp only [between]
  omega

theorem between32_eq (h : Narrow p q) : between32 p q = between p q := by
  have hdistance : ∀ d : Int, d.natAbs < 2147483648 → wrap32 (wrap32 d).natAbs = d.natAbs := by
    intro d hd
    rw [wrap32_of_range (v := d) (by omega) (by omega)]
    exact wrap32_of_range (by omega) (by omega)
  have hmoves : (if ((q.y - p.y).natAbs : Int) ≤ (q.x - p.x).natAbs then (q.x - p.x).natAbs
      else (q.y - p.y).natAbs) = (max ((q.x - p.x).natAbs : Int) (q.y - p.y).natAbs).toNat := by
    split <;> omega
  simp only [between32, hdistance _ h.deltaX, hdistance _ h.deltaY, hmoves]
  rfl

/-- The part of the walk that a rectangle cuts out meets the places of the exact part. -/
theorem points32_window (h : Narrow p q) {m : Int × Int} (hm : visibleMoves? p q clip = some m) :
    ((between p q).window32 m.1 m.2).points32 = ((between p q).window m.1 m.2).points := by
  obtain ⟨h0, hle, hlast⟩ := visibleMoves?_range hm
  have hsteady := steady_between p q
  have hmajor : (between p q).major ≤ 2147483647 := by
    have := h.deltaX
    have := h.deltaY
    simp only [between]
    omega
  have hmoves : ((between p q).moves : Int) ≤ (between p q).major := by
    simp only [between]
    omega
  have hstart := h.fits_points _ (mem_points.mpr ⟨m.1, ⟨h0, by omega⟩, rfl⟩)
  rw [window32_eq hsteady hmajor hmoves h0 hle hlast hstart]
  refine points32_eq (steady_window hsteady h0 _) ?_ fun a ha => ?_
  · obtain ⟨hsame, hsame'⟩ := distances_window (between p q) m.1 m.2
    rw [hsame, hsame']
    exact h.between_fit
  · rw [points_window_visible hm, List.mem_filter] at ha
    exact h.fits_points a ha.1

/-- Clipping by 32-bit numbers leaves the points that exact clipping leaves. -/
theorem clipped32?_cases (h : Narrow p q) (clip : Rect) :
    (clipped32? p q clip = none ∧ clipped? p q clip = none) ∨
      ∃ w v, clipped32? p q clip = some w ∧ clipped? p q clip = some v ∧ w.points32 = v.points := by
  have hwhole := points32_eq (steady_between p q) h.between_fit h.fits_points
  rw [clipped32?, clipped?, h.between32_eq]
  unfold cut?
  dsimp only
  split
  next => exact .inl ⟨rfl, rfl⟩
  next =>
    split
    next => exact .inr ⟨_, _, rfl, rfl, hwhole⟩
    next =>
      cases hm : visibleMoves? p q clip with
      | none => exact .inl ⟨rfl, rfl⟩
      | some m => exact .inr ⟨_, _, rfl, rfl, h.points32_window hm⟩

end Narrow

end Rasterizer.LineWalk
