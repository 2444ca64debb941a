import Rasterizer.Proofs.Line.Places

/-! # Lines drawn step by step

A line is drawn by asking a cursor for one step after another until the cursor is at the end
along the longer axis (`LineCursor.Walks`). The steps lead through the places of the walk
between the two ends (`walks_between`), and of all pixels those places are the nearest to the
straight line: after each move they are half a pixel off at most (`points_nearest`). -/

namespace Rasterizer

/-- A line that is being drawn. -/
structure LineCursor where
  place : Point
  stop : Point
  signX : Int
  signY : Int
  /-- The distance between the ends along each axis. -/
  deltaX : Int
  deltaY : Int
  error : Int
  started : Bool

namespace LineWalk

/-- A move that carries the error also goes along the shorter axis. -/
def stepsAside (w : LineWalk) (error : Int) : Bool := w.major ≤ error + w.minor

/-- The error that such a move hands on to the next one. -/
def handedOn (w : LineWalk) (error : Int) : Int :=
  if w.major ≤ error + w.minor then error + w.minor - w.major else error + w.minor

theorem trail_succ (w : LineWalk) (n : Nat) (p : Point) (e : Int) :
    w.trail (n + 1) p e = p :: w.trail n (w.step p (w.stepsAside e)) (w.handedOn e) := by
  rw [trail, stepsAside, handedOn]
  split
  next hboth => rw [decide_eq_true hboth]
  next hboth => rw [decide_eq_false hboth]

theorem trail_eq_cons (w : LineWalk) (n : Nat) (p : Point) (e : Int) :
    w.trail n p e = p :: (w.trail n p e).tail := by
  cases n with
  | zero => rfl
  | succ n => rw [trail_succ, List.tail_cons]

theorem step_eq_shift (w : LineWalk) (p : Point) (both : Bool) : w.step p both = p.shift (w.step ⟨0, 0⟩ both) := by
  simp only [step, Point.shift]
  cases both <;> cases w.alongX <;> simp

end LineWalk

namespace LineCursor

def between (p q : Point) : LineCursor :=
  let deltaX : Int := (q.x - p.x).natAbs
  let deltaY : Int := (q.y - p.y).natAbs
  { place := p
    stop := q
    signX := if p.x < q.x then 1 else -1
    signY := if p.y < q.y then 1 else -1
    deltaX := deltaX
    deltaY := deltaY
    error := if deltaY ≤ deltaX then deltaX / 2 else deltaY / 2
    started := false }

/-- The next step, first none at all, and the cursor behind it. -/
def next? (c : LineCursor) : Option (Point × LineCursor) :=
  if c.started = false then some (⟨0, 0⟩, { c with started := true })
  else if c.deltaY ≤ c.deltaX then
    if c.place.x = c.stop.x then none
    else
      let x := c.place.x + c.signX
      let error := c.error + c.deltaY
      if c.deltaX ≤ error then
        some (⟨c.signX, c.signY⟩,
          { c with place := ⟨x, c.place.y + c.signY⟩, error := error - c.deltaX })
      else some (⟨c.signX, 0⟩, { c with place := ⟨x, c.place.y⟩, error := error })
  else
    if c.place.y = c.stop.y then none
    else
      let y := c.place.y + c.signY
      let error := c.error + c.deltaX
      if c.deltaY ≤ error then
        some (⟨c.signX, c.signY⟩,
          { c with place := ⟨c.place.x + c.signX, y⟩, error := error - c.deltaY })
      else some (⟨0, c.signY⟩, { c with place := ⟨c.place.x, y⟩, error := error })

/-- The points met from `p` on when the cursor is asked for steps until it has none. -/
inductive Walks : LineCursor → Point → List Point → Prop where
  | done {c : LineCursor} {p : Point} (h : c.next? = none) : Walks c p []
  | move {c c' : LineCursor} {p d : Point} {ps : List Point} (h : c.next? = some (d, c'))
      (hps : Walks c' (p.shift d) ps) : Walks c p (p.shift d :: ps)

theorem Walks.unique {c : LineCursor} {p : Point} {ps qs : List Point} (hps : c.Walks p ps)
    (hqs : c.Walks p qs) : ps = qs := by
  induction hps generalizing qs with
  | done h =>
    cases hqs with
    | done => rfl
    | move h' => rw [h] at h'; cases h'
  | move h _ ih =>
    cases hqs with
    | done h' => rw [h] at h'; cases h'
    | move h' hqs =>
      rw [h] at h'
      cases h'
      rw [ih hqs]

/-- The cursor is under way on the walk, `n` moves before its end. -/
structure Follows (w : LineWalk) (n : Nat) (c : LineCursor) : Prop where
  started : c.started = true
  alongX : w.alongX = decide (c.deltaY ≤ c.deltaX)
  major : w.major = max c.deltaX c.deltaY
  minor : w.minor = min c.deltaX c.deltaY
  signX : c.signX = w.signX
  signY : c.signY = w.signY
  left : if w.alongX then c.stop.x = c.place.x + w.signX * n else c.stop.y = c.place.y + w.signY * n

variable {w : LineWalk} {c : LineCursor} {n : Nat}

/-- At the end there is no step left. -/
theorem Follows.next?_zero (h : c.Follows w 0) : c.next? = none := by
  have hleft := h.left
  rw [h.alongX] at hleft
  simp only [next?, h.started, Bool.true_eq_false, if_false]
  by_cases halong : c.deltaY ≤ c.deltaX
  · simp_all
  · simp_all

/-- A cursor that has moved once, as the walk does, is one move nearer to the end. -/
theorem Follows.moved (h : c.Follows w (n + 1)) (both : Bool) (error : Int) :
    Follows w n { c with place := w.step c.place both, error := error } := by
  refine { h with left := ?_ }
  have hleft := h.left
  simp only [LineWalk.step]
  cases halong : w.alongX <;> cases both <;> simp [halong, Int.mul_add] at hleft ⊢ <;> omega

/-- Before the end there is a step, the one that the walk makes there. -/
theorem Follows.next?_succ (hx : w.signX ≠ 0) (hy : w.signY ≠ 0) (h : c.Follows w (n + 1)) :
    c.next? = some (w.step ⟨0, 0⟩ (w.stepsAside c.error), { c with
      place := w.step c.place (w.stepsAside c.error), error := w.handedOn c.error }) := by
  have hleft := h.left
  have hahead : ∀ s : Int, s ≠ 0 → s * ((n : Int) + 1) ≠ 0 := fun s hs => Int.mul_ne_zero hs (by omega)
  simp only [next?, h.started, LineWalk.step, LineWalk.stepsAside, LineWalk.handedOn, h.alongX, h.major,
    h.minor, ← h.signX, ← h.signY, Bool.true_eq_false, if_false, Nat.cast_add, Nat.cast_one,
    decide_eq_true_eq, zero_add] at hleft ⊢
  by_cases halong : c.deltaY ≤ c.deltaX
  · have hne : c.place.x ≠ c.stop.x := by
      have := hahead c.signX (h.signX ▸ hx)
      rw [if_pos halong] at hleft
      omega
    rw [max_eq_left halong, min_eq_right halong]
    simp only [halong, if_true, if_neg hne]
    split <;> rfl
  · have hne : c.place.y ≠ c.stop.y := by
      have := hahead c.signY (h.signY ▸ hy)
      rw [if_neg halong] at hleft
      omega
    have hle : c.deltaX ≤ c.deltaY := by omega
    rw [max_eq_right hle, min_eq_left hle]
    simp only [halong, if_false, if_neg hne]
    split <;> rfl

/-- A cursor that follows a walk goes through the rest of its places. -/
theorem Follows.walks (hx : w.signX ≠ 0) (hy : w.signY ≠ 0) (h : c.Follows w n) :
    c.Walks c.place (w.trail n c.place c.error).tail := by
  induction n generalizing c with
  | zero => exact .done h.next?_zero
  | succ n ih =>
    rw [LineWalk.trail_succ, List.tail_cons, LineWalk.trail_eq_cons, LineWalk.step_eq_shift]
    refine .move (h.next?_succ hx hy) ?_
    rw [← LineWalk.step_eq_shift]
    exact ih (h.moved (w.stepsAside c.error) (w.handedOn c.error))

/-- The cursor has not moved yet and stands at the begin of the walk. -/
structure Begins (w : LineWalk) (c : LineCursor) : Prop where
  fresh : c.started = false
  place : c.place = w.start
  error : c.error = w.error
  follows : Follows w w.moves { c with started := true }

/-- A cursor at the begin of a walk yields the places of the walk, and nothing else. -/
theorem Begins.walks_iff (hx : w.signX ≠ 0) (hy : w.signY ≠ 0) (h : c.Begins w) (ps : List Point) :
    c.Walks c.place ps ↔ ps = w.points := by
  have hnone : c.place.shift ⟨0, 0⟩ = c.place := by simp [Point.shift]
  have hfirst : c.next? = some (⟨0, 0⟩, { c with started := true }) := if_pos h.fresh
  have hwalks : c.Walks c.place w.points := by
    have hmove := Walks.move (p := c.place) hfirst (by rw [hnone]; exact h.follows.walks hx hy)
    rw [hnone] at hmove
    rw [LineWalk.points, LineWalk.trail_eq_cons, ← h.place, ← h.error]
    exact hmove
  constructor
  · exact fun h => h.unique hwalks
  · rintro rfl
    exact hwalks

theorem begins_between (p q : Point) : (between p q).Begins (.between p q) := by
  refine ⟨rfl, rfl, ?_, rfl, rfl, rfl, rfl, rfl, rfl, ?_⟩
  · simp only [between, LineWalk.between]
    split <;> congr 1 <;> omega
  · simp only [LineWalk.between, between, decide_eq_true_eq]
    split <;> split <;> omega

/-- A cursor yields the places of the walk between its ends, and nothing else. -/
theorem walks_between (p q : Point) (ps : List Point) :
    (between p q).Walks p ps ↔ ps = (LineWalk.between p q).points :=
  (begins_between p q).walks_iff (LineWalk.signs_between p q).1 (LineWalk.signs_between p q).2 ps

end LineCursor

namespace LineWalk

variable {p q : Point}

/-- The place `k` pixels along the longer distance from `p` to `q` and `m` along the shorter one. -/
def onWay (p q : Point) (k m : Int) : Point :=
  if (q.y - p.y).natAbs ≤ (q.x - p.x).natAbs then
    ⟨p.x + (q.x - p.x).sign * k, p.y + (q.y - p.y).sign * m⟩
  else ⟨p.x + (q.x - p.x).sign * m, p.y + (q.y - p.y).sign * k⟩

/-- How many of the first `k` moves of a walk also go along the shorter axis. -/
def asideOf (major minor k : Nat) : Nat := (major / 2 + k * minor) / major

section Aside

variable {major minor : Nat}

theorem asideOf_step (h : minor ≤ major) (k : Nat) :
    asideOf major minor k ≤ asideOf major minor (k + 1) ∧
      asideOf major minor (k + 1) ≤ asideOf major minor k + 1 := by
  rcases Nat.eq_zero_or_pos major with rfl | hpos
  · simp [asideOf]
  have hsum : major / 2 + (k + 1) * minor = major / 2 + k * minor + minor := by ring
  rw [asideOf, asideOf, hsum, ← Nat.add_div_right _ hpos]
  exact ⟨Nat.div_le_div_right (Nat.le_add_right ..), Nat.div_le_div_right (by omega)⟩

/-- The remainder of the division is what a place is off the straight line, from half a pixel on one side to
half a pixel on the other. -/
theorem asideOf_near (h : minor ≤ major) (k : Nat) :
    2 * ((asideOf major minor k * major : Int) - k * minor).natAbs ≤ major := by
  rcases Nat.eq_zero_or_pos major with rfl | hpos
  · simp [asideOf, Nat.le_zero.mp h]
  have hdiv := Nat.div_add_mod' (major / 2 + k * minor) major
  have hrest := Nat.mod_lt (major / 2 + k * minor) hpos
  rw [asideOf, ← Nat.cast_mul, ← Nat.cast_mul]
  omega

theorem asideOf_zero (major k : Nat) : asideOf major 0 k = 0 := by
  rcases Nat.eq_zero_or_pos major with rfl | hpos
  · simp [asideOf]
  rw [asideOf, Nat.mul_zero, Nat.add_zero, Nat.div_eq_of_lt (by omega)]

theorem asideOf_major (h : minor ≤ major) : asideOf major minor major = minor := by
  rcases Nat.eq_zero_or_pos major with rfl | hpos
  · simp [asideOf, Nat.le_zero.mp h]
  rw [asideOf, Nat.add_mul_div_left _ _ hpos, Nat.div_eq_of_lt (by omega), Nat.zero_add]

end Aside

/-- The longer distance between two points. -/
def longer (p q : Point) : Nat := max (q.x - p.x).natAbs (q.y - p.y).natAbs

/-- The shorter distance between two points. -/
def shorter (p q : Point) : Nat := min (q.x - p.x).natAbs (q.y - p.y).natAbs

theorem moves_between (p q : Point) : (between p q).moves = longer p q := by
  simp only [between, longer]
  omega

/-- The direction of a step matters where there is a distance only. -/
theorem sign_mul {a b : Int} {m : Nat} (h : a = b → m = 0) :
    (if a < b then (1 : Int) else -1) * m = (b - a).sign * m := by
  rcases lt_trichotomy a b with hlt | rfl | hgt
  · rw [if_pos hlt, Int.sign_eq_one_of_pos (by omega)]
  · simp [h rfl]
  · rw [if_neg (by omega), Int.sign_eq_neg_one_of_neg (by omega)]

theorem place_between {k : Nat} (hk : k ≤ longer p q) :
    (between p q).place k = onWay p q k (asideOf (longer p q) (shorter p q) k) := by
  have haside : (between p q).aside (between p q).error k = asideOf (longer p q) (shorter p q) k := by
    simp only [aside, between, asideOf, longer, shorter]
    push_cast
    rfl
  have hnone : shorter p q = 0 → asideOf (longer p q) (shorter p q) k = 0 := fun h => by
    rw [h, asideOf_zero]
  rw [place, haside]
  generalize asideOf (longer p q) (shorter p q) k = m at hnone
  rw [longer] at hk
  rw [shorter] at hnone
  simp only [displaced, onWay, between, Nat.cast_le, decide_eq_true_eq]
  split
  · rw [sign_mul (m := k) (by omega), sign_mul (m := m) (by omega)]
  · rw [sign_mul (m := k) (by omega), sign_mul (m := m) (by omega)]

theorem onWay_longer (p q : Point) : onWay p q (longer p q) (shorter p q) = q := by
  have hx := Int.sign_mul_natAbs (q.x - p.x)
  have hy := Int.sign_mul_natAbs (q.y - p.y)
  rw [onWay]
  split
  next h =>
    rw [longer, shorter, max_eq_left h, min_eq_right h, hx, hy]
    simp
  next h =>
    rw [longer, shorter, max_eq_right (by omega), min_eq_left (by omega), hx, hy]
    simp

/-- The walk between two points has one place more than the longer distance has pixels, begins at the
one and ends at the other. Each move goes one pixel along the longer distance and at most one along
the shorter, and no place is more than half a pixel off the straight line. -/
theorem points_nearest (p q : Point) :
    let points := (between p q).points
    (∀ ps, (LineCursor.between p q).Walks p ps ↔ ps = points) ∧
      points.length = longer p q + 1 ∧ points.head? = some p ∧ points.getLast? = some q ∧
      ∃ f : Nat → Nat, points = (List.range (longer p q + 1)).map (fun k : Nat => onWay p q k (f k)) ∧
        ∀ k, f k ≤ f (k + 1) ∧ f (k + 1) ≤ f k + 1 ∧
          2 * ((f k * longer p q : Int) - k * shorter p q).natAbs ≤ longer p q := by
  intro points
  have hle : shorter p q ≤ longer p q := min_le_max
  have hplaces : points = (List.range (longer p q + 1)).map fun k : Nat =>
      onWay p q k (asideOf (longer p q) (shorter p q) k) := by
    rw [show points = _ from points_eq (steady_between p q), irange, moves_between, List.map_map]
    refine List.map_congr_left fun k hk => ?_
    rw [Function.comp_apply, zero_add, place_between (Nat.le_of_lt_succ (List.mem_range.mp hk))]
  refine ⟨LineCursor.walks_between p q, ?_, ?_, ?_, _, hplaces, fun k => ?_⟩
  · rw [length_points, moves_between]
  · rw [show points = _ from LineWalk.trail_eq_cons ..]
    rfl
  · rw [hplaces, List.range_succ, List.map_append, List.map_singleton, List.getLast?_append, asideOf_major hle,
      onWay_longer]
    rfl
  · exact ⟨(asideOf_step hle k).1, (asideOf_step hle k).2, asideOf_near hle k⟩

end LineWalk

end Rasterizer
