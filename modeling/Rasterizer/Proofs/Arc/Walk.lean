import Rasterizer.Arc.Circle
import Mathlib.Data.List.Chain
import Mathlib.Data.Real.Basic
import Mathlib.Tactic.Linarith
import Mathlib.Tactic.Ring

/-! # The walk along a circle

A quadrant begins at one half axis and ends at the next, and the walk goes from the one to the other:
what a place has left of the first axis never grows, what it has gained of the second never shrinks, and
each step changes one of the two at least (`Sound.steps`). A place never gains more than the radius, for
a step that left the circle further behind is never the nearest, and it does not meet the next axis in
the centre (`Sound.next`). So a walk takes fewer than two radii of steps in a quadrant, and ends by its
own test (`ends_trail`). -/

namespace Rasterizer.CircleArc

/-! ## Places seen from the axes of their quadrant -/

/-- How far a point lies in the direction of the half axis at which the quadrant `k` begins. -/
def along (k : Int) (p : Point) : Int :=
  if k % 4 = 0 then p.x else if k % 4 = 1 then -p.y else if k % 4 = 2 then -p.x else p.y

theorem quadrant_cases (k : Int) : k % 4 = 0 ∧ (k + 1) % 4 = 1 ∨ k % 4 = 1 ∧ (k + 1) % 4 = 2 ∨
    k % 4 = 2 ∧ (k + 1) % 4 = 3 ∨ k % 4 = 3 ∧ (k + 1) % 4 = 0 := by omega

theorem along_congr {k k' : Int} (h : k % 4 = k' % 4) (p : Point) : along k p = along k' p := by
  simp only [along, h]

theorem along_opposite (k : Int) (p : Point) : along (k + 1 + 1) p = -along k p := by
  obtain ⟨h, h'⟩ | ⟨h, h'⟩ | ⟨h, h'⟩ | ⟨h, h'⟩ := quadrant_cases k <;>
    simp [along, h, show (k + 1 + 1) % 4 = (k % 4 + 2) % 4 by omega]

/-- The direction in which a place goes on. -/
def Place.heading (w : Place) : Point := ⟨w.dx, w.dy⟩

/-- What holds of the places of a walk around the circle of radius `r`: it leaves the axis behind and
nears the axis ahead. -/
structure Sound (r : Int) (w : Place) : Prop where
  leaves : along w.quadrant w.heading = -1
  nears : along (w.quadrant + 1) w.heading = 1
  left : 0 ≤ along w.quadrant w.offset ∧ along w.quadrant w.offset ≤ r
  gained : 0 ≤ along (w.quadrant + 1) w.offset ∧ along (w.quadrant + 1) w.offset ≤ r
  off_centre : 0 < along w.quadrant w.offset + along (w.quadrant + 1) w.offset

/-! ## One step -/

/-- By how much the square of the distance misses the square of the radius. -/
def miss (r x y : Int) : Nat := (x * x + (y * y - r * r)).natAbs

theorem miss_congr {r x y t g : Int} (h : x * x + y * y = t * t + g * g) : miss r x y = miss r t g :=
  congrArg Int.natAbs (by linarith)

theorem offset_next (r : Int) (w : Place) : (w.next r).offset =
    ⟨if min (miss r (w.offset.x + w.dx) w.offset.y) (miss r (w.offset.x + w.dx) (w.offset.y + w.dy)) ≤
        miss r w.offset.x (w.offset.y + w.dy) then w.offset.x + w.dx else w.offset.x,
      if min (miss r (w.offset.x + w.dx) (w.offset.y + w.dy)) (miss r w.offset.x (w.offset.y + w.dy)) <
        miss r (w.offset.x + w.dx) w.offset.y then w.offset.y + w.dy else w.offset.y⟩ := rfl

/-- The step of a place with `t` left of one axis and `g` gained of the next leads to one with `t'` and
`g'`. It goes straight on toward the next axis when that misses least, and not so when the diagonal
misses less. -/
structure Steps (r t g t' g' : Int) : Prop where
  left : t' = t ∨ t' = t - 1
  gained : g' = g ∨ g' = g + 1
  moves : t' - g' < t - g
  straight : miss r (t - 1) g < miss r (t - 1) (g + 1) → miss r (t - 1) g < miss r t (g + 1) → g' = g
  aslant : miss r (t - 1) (g + 1) < miss r (t - 1) g → g' = g + 1

variable {r : Int} {w : Place}

theorem Sound.steps (h : Sound r w) :
    Steps r (along w.quadrant w.offset) (along (w.quadrant + 1) w.offset)
      (along w.quadrant (w.next r).offset) (along (w.quadrant + 1) (w.next r).offset) := by
  obtain ⟨⟨x, y⟩, q, dx, dy⟩ := w
  have hleaves := h.leaves
  have hnears := h.nears
  rw [offset_next]
  simp only [Place.heading] at hleaves hnears
  obtain ⟨hq, hq'⟩ | ⟨hq, hq'⟩ | ⟨hq, hq'⟩ | ⟨hq, hq'⟩ := quadrant_cases q <;>
    simp only [along, hq, hq', Int.reduceEq, ↓reduceIte] at hleaves hnears ⊢
  · obtain ⟨rfl, rfl⟩ : dx = -1 ∧ dy = -1 := by omega
    have hstraight : miss r (x + -1) y = miss r (x - 1) (-y) := miss_congr (by ring)
    have haslant : miss r (x + -1) (y + -1) = miss r (x - 1) (-y + 1) := miss_congr (by ring)
    have haside : miss r x (y + -1) = miss r x (-y + 1) := miss_congr (by ring)
    rw [hstraight, haslant, haside]
    refine ⟨?_, ?_, ?_, ?_, ?_⟩ <;> split_ifs <;> omega
  · obtain ⟨rfl, rfl⟩ : dx = -1 ∧ dy = 1 := by omega
    have hstraight : miss r x (y + 1) = miss r (-y - 1) (-x) := miss_congr (by ring)
    have haslant : miss r (x + -1) (y + 1) = miss r (-y - 1) (-x + 1) := miss_congr (by ring)
    have haside : miss r (x + -1) y = miss r (-y) (-x + 1) := miss_congr (by ring)
    rw [hstraight, haslant, haside]
    refine ⟨?_, ?_, ?_, ?_, ?_⟩ <;> split_ifs <;> omega
  · obtain ⟨rfl, rfl⟩ : dx = 1 ∧ dy = 1 := by omega
    have hstraight : miss r (x + 1) y = miss r (-x - 1) y := miss_congr (by ring)
    have haslant : miss r (x + 1) (y + 1) = miss r (-x - 1) (y + 1) := miss_congr (by ring)
    have haside : miss r x (y + 1) = miss r (-x) (y + 1) := miss_congr (by ring)
    rw [hstraight, haslant, haside]
    refine ⟨?_, ?_, ?_, ?_, ?_⟩ <;> split_ifs <;> omega
  · obtain ⟨rfl, rfl⟩ : dx = 1 ∧ dy = -1 := by omega
    have hstraight : miss r x (y + -1) = miss r (y - 1) x := miss_congr (by ring)
    have haslant : miss r (x + 1) (y + -1) = miss r (y - 1) (x + 1) := miss_congr (by ring)
    have haside : miss r (x + 1) y = miss r y (x + 1) := miss_congr (by ring)
    rw [hstraight, haslant, haside]
    refine ⟨?_, ?_, ?_, ?_, ?_⟩ <;> split_ifs <;> omega

theorem miss_straight {t g : Int} (ht : 1 ≤ t) (hr : 1 ≤ r) (hg : g = r) :
    miss r (t - 1) g < miss r (t - 1) (g + 1) ∧ miss r (t - 1) g < miss r t (g + 1) := by
  subst hg
  have hout : (g + 1) * (g + 1) = g * g + 2 * g + 1 := by ring
  have hless : (t - 1) * (t - 1) ≤ t * t := by nlinarith
  have hsquare : 0 ≤ (t - 1) * (t - 1) := mul_self_nonneg _
  simp only [miss]
  omega

theorem miss_aslant (hr : 1 ≤ r) : miss r 0 1 < miss r 0 0 := by
  have hsquare : 1 ≤ r * r := by nlinarith
  simp only [miss]
  omega

@[simp] theorem quadrant_next (r : Int) (w : Place) : (w.next r).quadrant = w.quadrant := rfl

@[simp] theorem heading_next (r : Int) (w : Place) : (w.next r).heading = w.heading := rfl

/-- A step keeps within the quadrant. -/
theorem Sound.next (h : Sound r w) (hr : 1 ≤ r) (hleft : 0 < along w.quadrant w.offset) :
    Sound r (w.next r) := by
  have hstep := h.steps
  have hless := hstep.left
  have hmore := hstep.gained
  refine ⟨h.leaves, h.nears, ?_, ?_, ?_⟩ <;> rw [quadrant_next]
  · have := h.left
    omega
  · have := h.gained
    by_cases hfull : along (w.quadrant + 1) w.offset = r
    · obtain ⟨hlt, hlt'⟩ := miss_straight hleft hr hfull
      have := hstep.straight hlt hlt'
      omega
    · omega
  · have := h.gained
    by_cases hlast : along w.quadrant w.offset = 1 ∧ along (w.quadrant + 1) w.offset = 0
    · obtain ⟨h1, h0⟩ := hlast
      have := hstep.aslant (by rw [h1, h0]; exact miss_aslant hr)
      omega
    · omega

/-! ## Turning at an axis -/

theorem onAxis_iff (w : Place) : w.onAxis = true ↔ along w.quadrant w.offset = 0 := by
  obtain ⟨h, -⟩ | ⟨h, -⟩ | ⟨h, -⟩ | ⟨h, -⟩ := quadrant_cases w.quadrant
  · simp [Place.onAxis, along, h, show w.quadrant % 2 = 0 by omega]
  · simp [Place.onAxis, along, h, show w.quadrant % 2 = 1 by omega]
  · simp [Place.onAxis, along, h, show w.quadrant % 2 = 0 by omega]
  · simp [Place.onAxis, along, h, show w.quadrant % 2 = 1 by omega]

@[simp] theorem offset_turn (w : Place) : w.turn.offset = w.offset := by
  unfold Place.turn
  split <;> rfl

@[simp] theorem quadrant_turn (w : Place) : w.turn.quadrant = w.quadrant + 1 := by
  unfold Place.turn
  split <;> rfl

/-- Seen from the next quadrant the place leaves the axis that it has neared, and nears the one opposite
to the axis that it has left. -/
theorem along_heading_turn (w : Place) :
    along (w.quadrant + 1) w.turn.heading = -along (w.quadrant + 1) w.heading ∧
      along (w.quadrant + 1 + 1) w.turn.heading = -along w.quadrant w.heading := by
  rw [along_opposite]
  obtain ⟨h, h'⟩ | ⟨h, h'⟩ | ⟨h, h'⟩ | ⟨h, h'⟩ := quadrant_cases w.quadrant
  · simp [Place.turn, Place.heading, along, h, h', show w.quadrant % 2 = 0 by omega]
  · simp [Place.turn, Place.heading, along, h, h', show w.quadrant % 2 = 1 by omega]
  · simp [Place.turn, Place.heading, along, h, h', show w.quadrant % 2 = 0 by omega]
  · simp [Place.turn, Place.heading, along, h, h', show w.quadrant % 2 = 1 by omega]

/-- A place on the axis ahead stands at the beginning of the next quadrant. -/
theorem Sound.turn (h : Sound r w) (haxis : along w.quadrant w.offset = 0) : Sound r w.turn := by
  obtain ⟨hleaves, hnears⟩ := along_heading_turn w
  have := h.leaves
  have := h.nears
  have := h.gained
  have := h.off_centre
  constructor <;> simp only [quadrant_turn, offset_turn, along_opposite w.quadrant w.offset] <;> omega

/-- The place from which the walk goes on: seen from the quadrant that follows, when it stands on the
axis ahead. -/
def Place.turned (w : Place) : Place := if w.onAxis then w.turn else w

@[simp] theorem offset_turned (w : Place) : w.turned.offset = w.offset := by
  unfold Place.turned
  split <;> simp

theorem turned_of_axis (haxis : along w.quadrant w.offset = 0) : w.turned = w.turn :=
  if_pos ((onAxis_iff w).mpr haxis)

theorem turned_of_not_axis (haxis : along w.quadrant w.offset ≠ 0) : w.turned = w :=
  if_neg (mt (onAxis_iff w).mp haxis)

theorem Sound.turned (h : Sound r w) : Sound r w.turned := by
  by_cases haxis : along w.quadrant w.offset = 0
  · rw [turned_of_axis haxis]
    exact h.turn haxis
  · rwa [turned_of_not_axis haxis]

theorem Sound.left_turned (h : Sound r w) : 0 < along w.turned.quadrant w.turned.offset := by
  by_cases haxis : along w.quadrant w.offset = 0
  · have := h.off_centre
    rw [turned_of_axis haxis, quadrant_turn, offset_turn]
    omega
  · have := h.left
    rw [turned_of_not_axis haxis]
    omega

/-- A place has come as far as another point when it has no more left of the axis behind and has gained
no less of the axis ahead. -/
theorem Sound.reached_iff (h : Sound r w) {stop : Point} : w.reached stop = true ↔
    along w.quadrant w.offset ≤ along w.quadrant stop ∧
      along (w.quadrant + 1) stop ≤ along (w.quadrant + 1) w.offset := by
  have hleaves := h.leaves
  have hnears := h.nears
  obtain ⟨hq, hq'⟩ | ⟨hq, hq'⟩ | ⟨hq, hq'⟩ | ⟨hq, hq'⟩ := quadrant_cases w.quadrant <;>
    simp only [along, Place.heading, hq, hq', Int.reduceEq, ↓reduceIte] at hleaves hnears ⊢ <;>
    simp only [Place.reached, Bool.and_eq_true] <;> split_ifs <;> simp only [decide_eq_true_eq] <;> omega

/-! ## The walk ends -/

variable {stop stopped : Point} {last : Int} {met : List Point}

/-- The walk ends here: on the axis at the end of its last quadrant, or in that quadrant as far as `stop`. -/
def Place.Halts (w : Place) (stop : Point) (last : Int) : Prop :=
  w.onAxis = true ∧ w.quadrant = last ∨ w.turned.quadrant = last ∧ w.turned.reached stop = true

/-- The walk from a place ends by its own test: it meets the offsets `met` and ends at `stopped`. -/
inductive Ends (r : Int) (stop : Point) (last : Int) : Place → List Point → Point → Prop
  | halt {w : Place} (hhalts : w.Halts stop last) : Ends r stop last w [] w.offset
  | step {w : Place} {met : List Point} {stopped : Point} (hgoes : ¬w.Halts stop last)
    (hrest : Ends r stop last (w.turned.next r) met stopped) :
    Ends r stop last w (w.offset :: met) stopped

theorem trail_of_halts {n : Nat} (h : w.Halts stop last) :
    trail r stop last (n + 1) w = ([], w.offset) := by
  rw [trail]
  by_cases haxis : w.onAxis = true ∧ w.quadrant = last
  · rw [if_pos haxis]
  · rw [if_neg haxis]
    have hreached := h.resolve_left haxis
    change (if w.turned.quadrant = last ∧ w.turned.reached stop = true then ([], w.turned.offset)
      else _) = _
    rw [if_pos hreached, offset_turned]

theorem trail_of_not_halts {n : Nat} (h : ¬w.Halts stop last) :
    trail r stop last (n + 1) w =
      (w.offset :: (trail r stop last n (w.turned.next r)).1, (trail r stop last n (w.turned.next r)).2) := by
  obtain ⟨haxis, hreached⟩ := not_or.mp h
  rw [trail, if_neg haxis]
  change (if w.turned.quadrant = last ∧ w.turned.reached stop = true then ([], w.turned.offset)
    else (w.turned.offset :: (trail r stop last n (w.turned.next r)).1,
      (trail r stop last n (w.turned.next r)).2)) = _
  rw [if_neg hreached, offset_turned]

/-- A bound on the steps that are left to the end of the quadrant `last`. -/
def Place.togo (w : Place) (r last : Int) : Int :=
  (last - w.quadrant) * (2 * r) + along w.quadrant w.offset + (r - along (w.quadrant + 1) w.offset)

theorem Sound.togo_turned_le (h : Sound r w) (last : Int) : w.turned.togo r last ≤ w.togo r last := by
  by_cases haxis : along w.quadrant w.offset = 0
  · have := h.gained
    simp only [turned_of_axis haxis, Place.togo, quadrant_turn, offset_turn, along_opposite, haxis]
    linarith
  · rw [turned_of_not_axis haxis]

theorem Sound.togo_next_lt (h : Sound r w) (last : Int) : (w.next r).togo r last < w.togo r last := by
  have := h.steps.moves
  simp only [Place.togo, quadrant_next]
  omega

theorem Sound.togo_nonneg (h : Sound r w) (hlast : w.quadrant ≤ last) : 0 ≤ w.togo r last := by
  have := h.left
  have := h.gained
  have := mul_nonneg (show 0 ≤ last - w.quadrant by omega) (show 0 ≤ 2 * r by omega)
  unfold Place.togo
  omega

/-- A walk that goes on has not come to the end of its last quadrant. -/
theorem quadrant_turned_le (hgoes : ¬w.Halts stop last) (hlast : w.quadrant ≤ last) :
    w.turned.quadrant ≤ last := by
  by_cases haxis : along w.quadrant w.offset = 0
  · have hne : w.quadrant ≠ last := fun heq => hgoes (.inl ⟨(onAxis_iff w).mpr haxis, heq⟩)
    rw [turned_of_axis haxis, quadrant_turn]
    omega
  · rwa [turned_of_not_axis haxis]

theorem ends_trail (hr : 1 ≤ r) {n : Nat} (h : Sound r w) (hlast : w.quadrant ≤ last)
    (hn : w.togo r last < n) :
    Ends r stop last w (trail r stop last n w).1 (trail r stop last n w).2 := by
  induction n generalizing w with
  | zero =>
    have := h.togo_nonneg hlast
    omega
  | succ n ih =>
    by_cases hhalts : w.Halts stop last
    · rw [trail_of_halts hhalts]
      exact .halt hhalts
    · rw [trail_of_not_halts hhalts]
      have hturned := h.togo_turned_le last
      have hnext := h.turned.togo_next_lt last
      exact .step hhalts (ih (h.turned.next hr h.left_turned) (quadrant_turned_le hhalts hlast) (by omega))

/-! ## The walk has no holes -/

/-- Two points of which each is one of the eight around the other. -/
def Adjacent (p q : Point) : Prop := p ≠ q ∧ |p.x - q.x| ≤ 1 ∧ |p.y - q.y| ≤ 1

theorem offset_next_cases (r : Int) (w : Place) :
    ((w.next r).offset.x = w.offset.x + w.dx ∨ (w.next r).offset.x = w.offset.x) ∧
      ((w.next r).offset.y = w.offset.y + w.dy ∨ (w.next r).offset.y = w.offset.y) := by
  rw [offset_next]
  exact ⟨ite_eq_or_eq .., ite_eq_or_eq ..⟩

theorem Sound.adjacent_next (h : Sound r w) : Adjacent w.offset (w.next r).offset := by
  have hmoves := h.steps.moves
  have hleaves := h.leaves
  have hnears := h.nears
  have hcases := offset_next_cases r w
  have hunit : (w.dx = 1 ∨ w.dx = -1) ∧ (w.dy = 1 ∨ w.dy = -1) := by
    obtain ⟨hq, hq'⟩ | ⟨hq, hq'⟩ | ⟨hq, hq'⟩ | ⟨hq, hq'⟩ := quadrant_cases w.quadrant <;>
      simp only [along, Place.heading, hq, hq', Int.reduceEq, ↓reduceIte] at hleaves hnears <;> omega
  refine ⟨fun heq => ?_, abs_le.mpr (by omega), abs_le.mpr (by omega)⟩
  rw [← heq] at hmoves
  omega

theorem Ends.isChain (hends : Ends r stop last w met stopped) (hr : 1 ≤ r) (h : Sound r w) :
    (met ++ [stopped]).IsChain Adjacent := by
  induction hends with
  | halt => simp
  | @step w met stopped hgoes hrest ih =>
    have hadjacent := h.turned.adjacent_next
    have hrest' := ih (h.turned.next hr h.left_turned)
    rw [offset_turned] at hadjacent
    cases hrest with
    | halt => simpa using hadjacent
    | step => exact hrest'.cons_cons hadjacent

theorem Ends.head? (hends : Ends r stop last w met stopped) : (met ++ [stopped]).head? = some w.offset := by
  cases hends <;> rfl

/-! ## From the start on -/

variable {first : Point}

theorem quadrant_range (p : Point) : 0 ≤ quadrant p ∧ quadrant p < 4 := by
  unfold quadrant
  split_ifs <;> omega

theorem quadrant_le_lastQuadrant (first stop : Point) (wraps : Bool) :
    quadrant first ≤ lastQuadrant first stop wraps ∧
      lastQuadrant first stop wraps ≤ quadrant first + 4 := by
  have := quadrant_range first
  have := quadrant_range stop
  simp only [lastQuadrant]
  split_ifs <;> omega

theorem sound_start (hx : |first.x| ≤ r) (hy : |first.y| ≤ r) (hcentre : first.x ≠ 0 ∨ first.y ≠ 0) :
    Sound r (.start first) := by
  rw [abs_le] at hx hy
  by_cases hright : 0 ≤ first.x
  · by_cases hup : first.y ≤ 0
    · have hq : quadrant first = 0 := by simp [quadrant, hright, hup]
      constructor <;> simp [Place.start, Place.heading, along, hq] <;> omega
    · have hq : quadrant first = 3 := by simp [quadrant, hright, hup]
      constructor <;> simp [Place.start, Place.heading, along, hq] <;> omega
  · by_cases hup : first.y < 0
    · have hq : quadrant first = 1 := by simp [quadrant, hright, hup]
      constructor <;> simp [Place.start, Place.heading, along, hq] <;> omega
    · have hq : quadrant first = 2 := by simp [quadrant, hright, hup]
      constructor <;> simp [Place.start, Place.heading, along, hq] <;> omega

@[simp] theorem offset_start (p : Point) : (Place.start p).offset = p := rfl

@[simp] theorem quadrant_start (p : Point) : (Place.start p).quadrant = quadrant p := rfl

/-- Only a walk that starts straight above the centre starts on the axis ahead. -/
theorem start_on_axis (haxis : along (quadrant first) first = 0) : quadrant first = 0 ∧ first.x = 0 := by
  unfold quadrant at haxis ⊢
  split_ifs at haxis ⊢ <;> simp [along] at haxis ⊢ <;> omega

theorem x_neg_of_quadrant {p : Point} (h : quadrant p = 1) : p.x < 0 := by
  unfold quadrant at h
  split_ifs at h <;> omega

/-- A walk that ends where it starts ends in the quadrant of its start. -/
theorem quadrant_eq_of_halts {wraps : Bool} (hstart : Sound r (.start first))
    (h : (Place.start first).Halts stop (lastQuadrant first stop wraps)) :
    quadrant first = lastQuadrant first stop wraps := by
  obtain ⟨-, hlast⟩ | ⟨hlast, hreached⟩ := h
  · exact hlast
  by_cases haxis : along (quadrant first) first = 0
  · exfalso
    obtain ⟨hq, hx⟩ := start_on_axis haxis
    have hreached := hstart.turned.reached_iff.mp hreached
    rw [turned_of_axis haxis, quadrant_turn, quadrant_start, hq] at hlast hreached
    -- the end lies in the second quadrant, left of the start
    have hstop : quadrant stop = 1 := by
      have := quadrant_range stop
      simp only [hq, lastQuadrant] at hlast
      split_ifs at hlast <;> omega
    have := x_neg_of_quadrant hstop
    simp [along, hx] at hreached
    omega
  · rwa [turned_of_not_axis haxis] at hlast

/-- The point is the rounding of a point at distance `r` from the centre: each of its coordinates lies
within half a pixel. -/
def NearCircle (r : Int) (p : Point) : Prop :=
  ∃ u v : ℝ, u ^ 2 + v ^ 2 = (r : ℝ) ^ 2 ∧ |u - p.x| ≤ 1 / 2 ∧ |v - p.y| ≤ 1 / 2

theorem abs_le_of_near {u : ℝ} {x : Int} (hr : 0 ≤ r) (hu : u ^ 2 ≤ (r : ℝ) ^ 2) (hx : |u - x| ≤ 1 / 2) :
    |x| ≤ r := by
  have habs : |u| ≤ r := abs_le_of_sq_le_sq hu (by exact_mod_cast hr)
  rw [abs_le] at habs hx ⊢
  constructor
  · have : -(r : ℝ) - 1 < x := by linarith
    have : -r - 1 < x := by exact_mod_cast this
    omega
  · have : (x : ℝ) < r + 1 := by linarith
    have : x < r + 1 := by exact_mod_cast this
    omega

theorem NearCircle.sound_start (h : NearCircle r first) (hr : 1 ≤ r) : Sound r (.start first) := by
  obtain ⟨u, v, hcircle, hu, hv⟩ := h
  refine CircleArc.sound_start (abs_le_of_near (by omega) (by nlinarith [sq_nonneg v]) hu)
    (abs_le_of_near (by omega) (by nlinarith [sq_nonneg u]) hv) ?_
  by_contra hcentre
  obtain ⟨hx, hy⟩ := not_or.mp hcentre
  rw [not_not.mp hx, Int.cast_zero, sub_zero, abs_le] at hu
  rw [not_not.mp hy, Int.cast_zero, sub_zero, abs_le] at hv
  have : (1 : ℝ) ≤ r := by exact_mod_cast hr
  nlinarith

/-! ## The arc -/

/-- The walk from `first` to `stop` ends by its own test, and what it meets is reported with its end, but
for the end of a walk that comes back to its start. -/
def Terminates (r : Int) (first stop : Point) (wraps : Bool) : Prop :=
  ∃ met stopped, Ends r stop (lastQuadrant first stop wraps) (.start first) met stopped ∧
    offsets r first stop wraps =
      met ++ if stopped ≠ first ∨ quadrant first = lastQuadrant first stop wraps then [stopped] else []

theorem terminates (hr : 1 ≤ r) (hstart : Sound r (.start first)) (stop : Point) (wraps : Bool) :
    Terminates r first stop wraps := by
  refine ⟨_, _, ends_trail (n := trailBound r) hr hstart (quadrant_le_lastQuadrant first stop wraps).1 ?_, rfl⟩
  have hleft := hstart.left
  have hgained := hstart.gained
  have hturns := (quadrant_le_lastQuadrant first stop wraps).2
  rw [quadrant_start, offset_start] at hleft hgained
  have hcount : (lastQuadrant first stop wraps - quadrant first) * (2 * r) ≤ 4 * (2 * r) :=
    mul_le_mul_of_nonneg_right (by omega) (by omega)
  simp only [Place.togo, quadrant_start, offset_start, trailBound]
  omega

/-- The offsets of a walk begin with its start, which is reported even when the walk ends there. -/
theorem head?_offsets (hr : 1 ≤ r) (hstart : Sound r (.start first)) (stop : Point) (wraps : Bool) :
    (offsets r first stop wraps).head? = some first := by
  obtain ⟨met, stopped, hends, heq⟩ := terminates hr hstart stop wraps
  rw [heq]
  cases hends with
  | halt hhalts => simp [quadrant_eq_of_halts hstart hhalts]
  | step => rfl

theorem isChain_offsets (hr : 1 ≤ r) (hstart : Sound r (.start first)) (stop : Point) (wraps : Bool) :
    (offsets r first stop wraps).IsChain Adjacent := by
  obtain ⟨met, stopped, hends, heq⟩ := terminates hr hstart stop wraps
  have hchain := hends.isChain hr hstart
  rw [heq]
  split_ifs
  · exact hchain
  · rw [List.append_nil]
    exact hchain.left_of_append

/-- The arc of a sweep is the walk between the two ends of the sweep. -/
theorem pointsFrom_eq (ends : Int → Point) (c : Point) (r angle extent : Int) :
    pointsFrom ends c r angle extent =
      (offsets r (ends (min angle (angle + extent))) (ends (max angle (angle + extent)))
        (Angle.fullTurn ≤ |extent|)).map c.shift := by
  unfold pointsFrom
  by_cases h : extent < 0
  · rw [min_eq_right (by omega), max_eq_left (by omega), abs_of_neg h]
    simp [h, Point.shift, show ¬angle < angle + extent by omega]
  · rw [min_eq_left (by omega), max_eq_right (by omega), abs_of_nonneg (by omega), Int.add_comm angle]
    simp [h, Point.shift, show ¬extent + angle < angle by omega]

theorem Adjacent.shift {p q : Point} (h : Adjacent p q) (c : Point) : Adjacent (c.shift p) (c.shift q) := by
  obtain ⟨hne, hx, hy⟩ := h
  refine ⟨fun heq => hne ?_, ?_, ?_⟩
  · obtain ⟨px, py⟩ := p
    obtain ⟨qx, qy⟩ := q
    simpa [Point.shift] using heq
  · simpa [Point.shift] using hx
  · simpa [Point.shift] using hy

theorem pointsFrom_connected {ends : Int → Point} {angle extent : Int} (hr : 1 ≤ r)
    (hstart : NearCircle r (ends (min angle (angle + extent)))) (c : Point) :
    Terminates r (ends (min angle (angle + extent))) (ends (max angle (angle + extent)))
        (Angle.fullTurn ≤ |extent|) ∧
      (pointsFrom ends c r angle extent).head? = some (c.shift (ends (min angle (angle + extent)))) ∧
      (pointsFrom ends c r angle extent).IsChain Adjacent := by
  have hsound := hstart.sound_start hr
  rw [pointsFrom_eq]
  refine ⟨terminates hr hsound _ _, ?_, ?_⟩
  · rw [List.head?_map, head?_offsets hr hsound]
    rfl
  · rw [List.isChain_map]
    exact (isChain_offsets hr hsound _ _).imp fun p q hadjacent => hadjacent.shift c

end Rasterizer.CircleArc
