import Rasterizer.Proofs.Arc.Rounding

/-! # Longer sweeps of a circle

Two walks from one start go the same way until the first of them ends (`Ends.isPrefix`), so a longer sweep
draws no less when its walk does not end earlier. Where a walk ends is told by the quadrants of the two
ends of its sweep, which see neither whole turns nor whether an end in the quadrant of the start lies
ahead of the start or behind it. Where that leaves no doubt (`Counted`) a longer sweep draws no less
(`pointsFrom_grow`); in general it may draw less (`pointsFrom_shrink`). -/

namespace Rasterizer.CircleArc

variable {r last last' : Int} {w : Place} {stop stop' stopped stopped' first : Point}
  {met met' : List Point}

/-! ## The shorter of two walks -/

theorem Ahead.congr {k l : Int} {p q : Point} (h : Ahead k p q) (hkl : k % 4 = l % 4) : Ahead l p q := by
  obtain ⟨hless, hmore⟩ := h
  rw [along_congr hkl, along_congr hkl] at hless
  rw [along_congr (show (k + 1) % 4 = (l + 1) % 4 by omega),
    along_congr (show (k + 1) % 4 = (l + 1) % 4 by omega)] at hmore
  exact ⟨hless, hmore⟩

/-- A walk to `stop'` in the quadrant `last'` ends no earlier than one to `stop` in the quadrant `last`. -/
def Later (last last' : Int) (stop stop' : Point) : Prop :=
  last < last' ∨ last = last' ∧ Ahead last stop stop'

theorem halts_of_later (hlater : Later last last' stop stop') (h : Sound r w) (hlast : w.quadrant ≤ last)
    (hhalts : w.Halts stop' last') : w.Halts stop last := by
  by_contra hgoes
  have hturned := quadrant_turned_le hgoes hlast
  obtain ⟨haxis, hquadrant⟩ | ⟨hquadrant, hreached⟩ := hhalts
  · rw [turned_of_axis ((onAxis_iff w).mp haxis), quadrant_turn] at hturned
    obtain hlt | ⟨heq, -⟩ := hlater <;> omega
  · obtain hlt | ⟨heq, hless, hmore⟩ := hlater
    · omega
    · have hq : w.turned.quadrant = last := by omega
      refine hgoes (.inr ⟨hq, h.turned.reached_iff.mpr ?_⟩)
      have hreached := h.turned.reached_iff.mp hreached
      rw [hq] at hreached ⊢
      omega

/-- The places of a walk are the first ones of a walk from the same place that ends no earlier. -/
theorem Ends.isPrefix (hends : Ends r stop last w met stopped) (hends' : Ends r stop' last' w met' stopped')
    (hlater : Later last last' stop stop') (hr : 1 ≤ r) (h : Sound r w) (hlast : w.quadrant ≤ last) :
    met ++ [stopped] <+: met' ++ [stopped'] := by
  induction hends generalizing met' with
  | halt =>
    cases hends' with
    | halt => exact List.prefix_rfl
    | step => exact ⟨_, rfl⟩
  | step hgoes hrest ih =>
    cases hends' with
    | halt hhalts => exact absurd (halts_of_later hlater h hlast hhalts) hgoes
    | step _ hrest' =>
      refine List.cons_prefix_cons.mpr ⟨rfl, ?_⟩
      exact ih hrest' (h.turned.next hr h.left_turned) (quadrant_turned_le hgoes hlast)

/-- The offsets reported are all those of the walk. -/
theorem exists_mem_offsets (hr : 1 ≤ r) (hstart : Sound r (.start first)) (stop : Point) (wraps : Bool) :
    ∃ met stopped, Ends r stop (lastQuadrant first stop wraps) (.start first) met stopped ∧
      ∀ p, p ∈ offsets r first stop wraps ↔ p ∈ met ++ [stopped] := by
  obtain ⟨met, stopped, hends, heq⟩ := terminates hr hstart stop wraps
  refine ⟨met, stopped, hends, fun p => ?_⟩
  have hfirst := List.mem_of_mem_head? (head?_offsets hr hstart stop wraps)
  rw [heq] at hfirst ⊢
  split_ifs at hfirst ⊢ with hreported
  · rfl
  · -- a walk that comes back to its start has reported it before
    rw [List.append_nil] at hfirst ⊢
    rw [not_not.mp (not_or.mp hreported).1]
    simpa using fun heq => heq ▸ hfirst

theorem offsets_subset (hr : 1 ≤ r) (hstart : Sound r (.start first)) {wraps wraps' : Bool}
    (hlater : Later (lastQuadrant first stop wraps) (lastQuadrant first stop' wraps') stop stop') :
    offsets r first stop wraps ⊆ offsets r first stop' wraps' := by
  obtain ⟨met, stopped, hends, hmem⟩ := exists_mem_offsets hr hstart stop wraps
  obtain ⟨met', stopped', hends', hmem'⟩ := exists_mem_offsets hr hstart stop' wraps'
  intro p hp
  have hinitial := hends.isPrefix hends' hlater hr hstart (quadrant_le_lastQuadrant first stop wraps).1
  exact (hmem' p).mpr (hinitial.subset ((hmem p).mp hp))

/-! ## How far a sweep goes -/

variable {a s : Int} {p q : Point}

/-- The quadrants that the pixels of a sweep pass, by the angles of its ends. -/
theorem quadrants_passed (hp : Rounds r a p) (hq : Rounds r (a + s) q) (hr : 1 ≤ r) (hs : 0 ≤ s)
    (hnone : s = 0 → p = q) :
    (s < 23040 → 0 ≤ quadrantAt (a + s) q - quadrantAt a p ∧ quadrantAt (a + s) q - quadrantAt a p ≤ 4) ∧
    (s ≤ 11520 → quadrantAt (a + s) q - quadrantAt a p < 4) ∧
    (23040 ≤ s → 2 ≤ quadrantAt (a + s) q - quadrantAt a p) ∧
    (23040 ≤ s → s ≤ 34560 → quadrantAt (a + s) q - quadrantAt a p < 8) := by
  -- the end seen one turn earlier
  have hback := hq.sub_turn
  have hturn := quadrantAt_sub_turn (a + s) q
  refine ⟨fun hlt => ⟨?_, ?_⟩, fun hhalf => ?_, fun hfull => ?_, fun hfull hhalf => ?_⟩
  · by_cases hzero : s = 0
    · rw [← hnone hzero, hzero]
      simp
    · have := hp.quadrantAt_le hq hr (by omega)
      omega
  · have := hback.quadrantAt_le hp hr (by omega)
    omega
  · have := hp.quadrantAt_lt hq hr (by omega)
    omega
  · by_cases hturned : s = 23040
    · have := hp.quadrantAt_cases hr
      have := hback.quadrantAt_cases hr
      omega
    · have := hp.quadrantAt_le hback hr (by omega)
      omega
  · have := hp.quadrantAt_lt hback hr (by omega)
    omega

/-- The quadrants of its two ends tell how far a sweep goes: when they differ it stays below a full turn,
and when they are the same it stays below two and goes at most half a turn past a whole one, so that its
end lies ahead of its start. -/
def Counted (first last sweep : Int) : Prop :=
  if first = last then sweep < 2 * Angle.fullTurn ∧ 2 * (sweep % Angle.fullTurn) ≤ Angle.fullTurn
  else sweep < Angle.fullTurn

instance (first last sweep : Int) : Decidable (Counted first last sweep) := by
  unfold Counted
  infer_instance

theorem lastQuadrant_eq (p q : Point) (wraps : Prop) [Decidable wraps] : lastQuadrant p q wraps =
    if quadrant q < quadrant p then quadrant q + 4
    else if quadrant p = quadrant q ∧ wraps then quadrant q + 4 else quadrant q := by
  simp [lastQuadrant]

/-- A walk never goes further than its sweep. -/
theorem lastQuadrant_le (hp : Rounds r a p) (hq : Rounds r (a + s) q) (hr : 1 ≤ r) (hs : 0 ≤ s)
    (hnone : s = 0 → p = q) :
    lastQuadrant p q (Angle.fullTurn ≤ s) ≤ quadrant p + (quadrantAt (a + s) q - quadrantAt a p) := by
  have hpassed := quadrants_passed hp hq hr hs hnone
  have := quadrant_range p
  have := quadrant_range q
  have := quadrantAt_emod a p
  have := quadrantAt_emod (a + s) q
  rw [lastQuadrant_eq, Angle.fullTurn, Angle.unitsPerDegree]
  split_ifs <;> omega

theorem lastQuadrant_of_counted (hp : Rounds r a p) (hq : Rounds r (a + s) q) (hr : 1 ≤ r) (hs : 0 ≤ s)
    (hnone : s = 0 → p = q) (hcounted : Counted (quadrant p) (quadrant q) s) :
    lastQuadrant p q (Angle.fullTurn ≤ s) = quadrant p + (quadrantAt (a + s) q - quadrantAt a p) := by
  have hpassed := quadrants_passed hp hq hr hs hnone
  have := quadrant_range p
  have := quadrant_range q
  have := quadrantAt_emod a p
  have := quadrantAt_emod (a + s) q
  simp only [Counted, Angle.fullTurn, Angle.unitsPerDegree] at hcounted
  rw [lastQuadrant_eq, Angle.fullTurn, Angle.unitsPerDegree]
  split_ifs at hcounted ⊢ <;> omega

/-! ## Longer sweeps draw no less -/

theorem Rounds.nearCircle (h : Rounds r a p) : NearCircle r p := by
  refine ⟨r * Real.cos (radians a), -(r * Real.sin (radians a)), ?_, h.x, h.y⟩
  linear_combination (r : ℝ) ^ 2 * Real.cos_sq_add_sin_sq (radians a)

/-- A sweep that is not negative and no longer than one whose quadrants tell how far it goes draws no
pixel that the longer one does not draw. -/
theorem pointsFrom_grow {ends : Int → Point} {start s s' : Int} (hr : 1 ≤ r)
    (hends : ∀ a, Rounds r a (ends a)) (hs : 0 ≤ s) (hle : s ≤ s')
    (hcounted : Counted (quadrant (ends start)) (quadrant (ends (start + s'))) s') (c : Point) :
    pointsFrom ends c r start s ⊆ pointsFrom ends c r start s' := by
  obtain rfl | hlt := Int.le_iff_eq_or_lt.mp hle
  · exact List.Subset.refl _
  have hstart := (hends start).nearCircle.sound_start hr
  have hless := lastQuadrant_le (hends start) (hends (start + s)) hr hs (fun h => by rw [h, Int.add_zero])
  have hlast := lastQuadrant_of_counted (hends start) (hends (start + s')) hr (by omega)
    (fun h => by rw [h, Int.add_zero]) hcounted
  have hmono := (hends (start + s)).quadrantAt_le (hends (start + s')) hr (by omega)
  rw [pointsFrom_eq, pointsFrom_eq, min_eq_left (by omega), max_eq_right (by omega),
    min_eq_left (by omega), max_eq_right (by omega), abs_of_nonneg hs, abs_of_nonneg (by omega)]
  refine List.map_subset _ (offsets_subset hr hstart ?_)
  by_cases hsame : lastQuadrant (ends start) (ends (start + s)) (Angle.fullTurn ≤ s) =
      lastQuadrant (ends start) (ends (start + s')) (Angle.fullTurn ≤ s')
  · refine .inr ⟨hsame, ?_⟩
    have hahead := (hends (start + s)).ahead_quadrantAt (hends (start + s')) hr (by omega) (by omega)
    have hturns := quadrantAt_emod start (ends start)
    rw [hsame, hlast]
    exact hahead.congr (by omega)
  · exact .inl (by omega)

/-! ## A sweep that draws less than a shorter one -/

/-- The point of the circle at an angle, each coordinate rounded to a nearest integer. -/
noncomputable def nearest (r angle : Int) : Point :=
  ⟨round (r * Real.cos (radians angle)), round (-(r * Real.sin (radians angle)))⟩

theorem rounds_nearest (r angle : Int) : Rounds r angle (nearest r angle) :=
  ⟨abs_sub_round _, abs_sub_round _⟩

theorem nearest_eq {angle x y : Int} (hx : r * Real.cos (radians angle) = x)
    (hy : -(r * Real.sin (radians angle)) = y) : nearest r angle = ⟨x, y⟩ := by
  rw [nearest, hx, hy, round_intCast, round_intCast]

theorem nearest_quarter (r : Int) : nearest r 5760 = ⟨0, -r⟩ := by
  apply nearest_eq <;> simp [radians_quarter]

theorem nearest_three_quarters (r : Int) : nearest r 17280 = ⟨0, r⟩ := by
  have hangle : radians 17280 = Real.pi / 2 + Real.pi := by
    unfold radians
    push_cast
    ring
  apply nearest_eq <;> simp [hangle, Real.cos_add_pi, Real.sin_add_pi]

theorem nearest_full (r : Int) : nearest r 23040 = ⟨r, 0⟩ := by
  have hangle : radians 23040 = 2 * Real.pi := by
    unfold radians
    push_cast
    ring
  apply nearest_eq <;> simp [hangle]

/-- From the top of a circle three quarters of a turn draw less than a half. -/
theorem pointsFrom_shrink : ¬∀ (ends : Int → Point) (c : Point) (r start s s' : Int), 1 ≤ r →
    (∀ a, Rounds r a (ends a)) → 0 ≤ s → s ≤ s' →
    pointsFrom ends c r start s ⊆ pointsFrom ends c r start s' := by
  intro hgrow
  have hsubset := hgrow (nearest 1) ⟨0, 0⟩ 1 5760 11520 17280 (by decide) (rounds_nearest 1) (by decide)
    (by decide)
  have hhalf : pointsFrom (nearest 1) ⟨0, 0⟩ 1 5760 11520 = [⟨0, -1⟩, ⟨-1, 0⟩, ⟨0, 1⟩] := by
    rw [pointsFrom_eq, show min (5760 : Int) (5760 + 11520) = 5760 from rfl,
      show max (5760 : Int) (5760 + 11520) = 17280 from rfl, nearest_quarter, nearest_three_quarters]
    decide
  have hthree : pointsFrom (nearest 1) ⟨0, 0⟩ 1 5760 17280 = [⟨0, -1⟩] := by
    rw [pointsFrom_eq, show min (5760 : Int) (5760 + 17280) = 5760 from rfl,
      show max (5760 : Int) (5760 + 17280) = 23040 from rfl, nearest_quarter, nearest_full]
    decide
  rw [hhalf, hthree] at hsubset
  exact absurd hsubset (by decide)

/-- From the top half a turn draws what three quarters of a turn draw. -/
theorem pointsFrom_grow_half : (1 : Int) ≤ 3 ∧ (∀ a, Rounds 3 a (nearest 3 a)) ∧ (0 : Int) ≤ 5760 ∧
    (5760 : Int) ≤ 11520 ∧
    Counted (quadrant (nearest 3 5760)) (quadrant (nearest 3 (5760 + 11520))) 11520 ∧
    pointsFrom (nearest 3) ⟨0, 0⟩ 3 5760 5760 ⊆ pointsFrom (nearest 3) ⟨0, 0⟩ 3 5760 11520 := by
  have hcounted : Counted (quadrant (nearest 3 5760)) (quadrant (nearest 3 (5760 + 11520))) 11520 := by
    rw [nearest_quarter, show (5760 + 11520 : Int) = 17280 from rfl, nearest_three_quarters]
    decide
  exact ⟨by decide, rounds_nearest 3, by decide, by decide, hcounted,
    pointsFrom_grow (by decide) (rounds_nearest 3) (by decide) (by decide) hcounted ⟨0, 0⟩⟩

end Rasterizer.CircleArc
