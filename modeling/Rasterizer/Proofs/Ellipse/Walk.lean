import Rasterizer.Ellipse
import Mathlib.Tactic.Linarith

/-! # The walk along an ellipse

The walk turns a position in 64ths by one part of the longer radius at a time, with the quotients
rounded down. Rounding keeps it on the outer side of the turn: `v` has lost at least what the last
turn took from it (`Sound.le`), and so neither offset ever moves by more than a pixel
(`Sound.turn_lt`). With that the two offsets close in on each other without a gap, and meet within
the steps that the walk is given (`closes_marks`). -/

namespace Rasterizer.Ellipse

/-- What holds of the positions of the walk. `v` stays until `u` has reached the radius, and has then
lost the part of `u` that the last turn took. -/
structure Sound (long u v : Int) : Prop where
  nonneg : 0 ≤ u
  whole : u < long → v = 64 * long
  le : v ≤ 64 * long - u / long

namespace Sound

variable {long u v : Int}

theorem start (long : Int) : Sound long 0 (long * 64) where
  nonneg := le_rfl
  whole _ := by omega
  le := by simp; omega

/-- A position short of the diagonal is at least one radius high. -/
theorem long_le (h : Sound long u v) (hlong : 1 ≤ long) (huv : u < v) : long ≤ v := by
  by_cases hu : u < long
  · have := h.whole hu
    omega
  · omega

theorem le_whole (h : Sound long u v) (hlong : 1 ≤ long) : v ≤ 64 * long := by
  have := Int.ediv_nonneg h.nonneg (show 0 ≤ long by omega)
  have := h.le
  omega

theorem next (h : Sound long u v) (hlong : 1 ≤ long) (huv : u < v) :
    Sound long (u + v / long) (v - (u + v / long) / long) := by
  have hu := h.nonneg
  have hturn : 0 ≤ v / long := Int.ediv_nonneg (by omega) (by omega)
  refine ⟨by omega, fun hlt => ?_, ?_⟩
  · rw [Int.ediv_eq_zero_of_lt (by omega) hlt, h.whole (by omega), Int.sub_zero]
  · have := h.le_whole hlong
    omega

/-- The turned `u` is less than 65 radii, so that it takes at most a pixel from `v`. -/
theorem turn_lt (h : Sound long u v) (hlong : 1 ≤ long) (huv : u < v) : u + v / long < 65 * long := by
  have hle := h.le
  have hv : v / long * long ≤ v := Int.ediv_mul_le v (by omega)
  have hu : u < (u / long + 1) * long := Int.lt_ediv_add_one_mul_self u (by omega)
  generalize v / long = p at *
  generalize u / long = q at *
  by_contra hge
  have hshort : q + long + 1 ≤ p := by omega
  have hlost : q ≤ (64 - p) * long := by linarith
  have hreached : 64 * (long - 1) + 1 + (64 - p) ≤ q * long := by linarith
  have hfew : (64 - p) * (long + 1) + long * (long + 1) ≤ 63 := by
    have := mul_le_mul_of_nonneg_right hshort (show 0 ≤ long by omega)
    linarith
  have hmany : 64 * (long - 1) + 1 ≤ (64 - p) * (long + 1) * (long - 1) := by
    have := mul_le_mul_of_nonneg_right hlost (show 0 ≤ long by omega)
    linarith
  have := mul_le_mul_of_nonneg_right hfew (show 0 ≤ long - 1 by omega)
  nlinarith

/-- A step turns `u` on by a pixel at most, and takes a pixel at most from `v`. -/
theorem turns (h : Sound long u v) (hlong : 1 ≤ long) (huv : u < v) :
    1 ≤ v / long ∧ v / long ≤ 64 ∧ 0 ≤ (u + v / long) / long ∧ (u + v / long) / long ≤ 64 := by
  have hu := h.nonneg
  have hle := h.le_whole hlong
  have hturn : 1 ≤ v / long := (Int.le_ediv_iff_mul_le (by omega)).mpr (by
    have := h.long_le hlong huv
    omega)
  exact ⟨hturn, Int.ediv_le_of_le_mul (by omega) (by omega), Int.ediv_nonneg (by omega) (by omega),
    Int.le_of_lt_add_one (Int.ediv_lt_of_lt_mul (by omega) (h.turn_lt hlong huv))⟩

end Sound

/-- The offset of the shorter axis that goes with one of the longer. -/
def scaled (long short k : Int) : Int := (k * short).tdiv long

/-- The place at two offsets of the longer axis. -/
def place (scale : Int → Int) (near far : Int) : Place := ⟨near, far, scale near, scale far⟩

/-- The offsets after a place, or first of all: neither has moved by more than a pixel, and those before
had not met. -/
def Follows (scale : Int → Int) (old : Option Place) (near far : Int) : Prop :=
  match old with
  | none => near < far
  | some o => ∃ near' far', o = place scale near' far' ∧ near' < far' ∧ (near = near' ∨ near = near' + 1) ∧
      (far = far' ∨ far = far' - 1)

/-- The marks of a walk from two offsets on, which close in on each other until they meet. -/
inductive Closes (scale : Int → Int) : Option Place → Int → Int → List Mark → Prop
  | last {old : Option Place} {near far : Int} (hfollows : Follows scale old near far) (hmet : far ≤ near) :
    Closes scale old near far [markAfter old (place scale near far)]
  | step {old : Option Place} {near far near' far' : Int} {ms : List Mark}
    (hfollows : Follows scale old near far) (hshort : near < far)
    (hrest : Closes scale (some (place scale near far)) near' far' ms) :
    Closes scale old near far (markAfter old (place scale near far) :: ms)

/-- A step moves an offset by at most 64 parts. -/
theorem round64_add {v d : Int} (hd : 0 ≤ d) (hd' : d ≤ 64) :
    round64 (v + d) = round64 v ∨ round64 (v + d) = round64 v + 1 := by
  unfold round64
  omega

/-- A step that is not the last moves `u` on, so that `v` bounds how many there are. -/
theorem closes_marks {long : Int} (hlong : 1 ≤ long) (short : Int) {n : Nat} {u v : Int} {old : Option Place}
    (h : Sound long u v) (hfollows : Follows (scaled long short) old (round64 u) (round64 v))
    (hn : 64 * long - u ≤ n) :
    Closes (scaled long short) old (round64 u) (round64 v) (marks long short (n + 1) u v old) := by
  have hplace : placeAt long short u v = place (scaled long short) (round64 u) (round64 v) := rfl
  have hle := h.le_whole hlong
  induction n generalizing u v old with
  | zero =>
    have hmet : round64 v ≤ round64 u := by
      unfold round64
      omega
    rw [marks, hplace]
    simp only [place, hmet, if_true]
    exact .last hfollows hmet
  | succ n ih =>
    rw [marks, hplace]
    by_cases hmet : round64 v ≤ round64 u
    · simp only [place, hmet, if_true]
      exact .last hfollows hmet
    · have huv : u < v := by
        unfold round64 at hmet
        omega
      have hu := h.nonneg
      have hnext := h.next hlong huv
      obtain ⟨hturn, hturn', hlost, hlost'⟩ := h.turns hlong huv
      have hnear := round64_add (v := u) (by omega) hturn'
      have hfar := round64_add (v := v - (u + v / long) / long) hlost hlost'
      rw [Int.sub_add_cancel] at hfar
      rw [Int.tdiv_eq_ediv_of_nonneg (a := v) (by omega), Int.tdiv_eq_ediv_of_nonneg (by omega)]
      simp only [place, hmet, if_false]
      refine .step hfollows (by omega) (ih hnext ?_ (by omega) rfl (by omega))
      exact ⟨_, _, rfl, by omega, hnear, by omega⟩

/-! ## What a walk meets -/

/-- The offsets of a mark before they have met, or when they meet on a place of their own. -/
def Meets (scale : Int → Int) (ms : List Mark) (x y : Int) : Prop :=
  ∃ m ∈ ms, m.place = place scale x y ∧ (x < y ∨ m.newNear = true)

/-- The marks report a place at the offset `a` of the longer axis and `b` of the shorter. -/
def Reports (ms : List Mark) (a b : Int) : Prop :=
  ∃ m ∈ ms, m.newNear = true ∧ a = m.place.near ∧ b = m.place.farScaled ∨
    m.newFar = true ∧ a = m.place.far ∧ b = m.place.nearScaled

section Closes

variable {scale : Int → Int} {old : Option Place} {near far x y x' y' e : Int} {ms : List Mark}

theorem meets_cons {m : Mark} : Meets scale (m :: ms) x y ↔
    m.place = place scale x y ∧ (x < y ∨ m.newNear = true) ∨ Meets scale ms x y := by
  simp [Meets]

theorem reports_cons {m : Mark} {a b : Int} : Reports (m :: ms) a b ↔
    (m.newNear = true ∧ a = m.place.near ∧ b = m.place.farScaled ∨
      m.newFar = true ∧ a = m.place.far ∧ b = m.place.nearScaled) ∨ Reports ms a b := by
  simp [Reports]

@[simp] theorem markAfter_place (p : Place) : (markAfter old p).place = p := by
  cases old <;> rfl

theorem place_inj : place scale x y = place scale x' y' ↔ x = x' ∧ y = y' := by
  simp only [place, Place.mk.injEq]
  constructor
  · exact fun h => ⟨h.1, h.2.1⟩
  · rintro ⟨rfl, rfl⟩
    exact ⟨rfl, rfl, rfl, rfl⟩

/-- Offsets that meet on a place of their own meet exactly. -/
theorem Follows.le_of_newNear (h : Follows scale old near far)
    (hnew : (markAfter old (place scale near far)).newNear = true) : near ≤ far := by
  cases old with
  | none => exact Int.le_of_lt h
  | some o =>
    obtain ⟨near', far', rfl, -, -, hfar⟩ := h
    simp only [markAfter, place, Bool.and_eq_true] at hnew
    have := of_decide_eq_true hnew.2
    omega

theorem Closes.follows (h : Closes scale old near far ms) : Follows scale old near far := by
  cases h <;> assumption

/-- The offsets that come next. -/
theorem Closes.next (h : Closes scale (some (place scale near far)) x y ms) :
    (x = near ∨ x = near + 1) ∧ (y = far ∨ y = far - 1) := by
  obtain ⟨near', far', hplace, -, hx, hy⟩ := h.follows
  obtain ⟨rfl, rfl⟩ := place_inj.mp hplace
  exact ⟨hx, hy⟩

theorem Closes.meets_start (h : Closes scale old near far ms) (hshort : near < far) :
    Meets scale ms near far := by
  cases h with
  | last _ hmet => omega
  | step _ _ _ => exact meets_cons.mpr (.inl ⟨markAfter_place _, .inl hshort⟩)

theorem Closes.bounds (h : Closes scale old near far ms) (hxy : Meets scale ms x y) :
    near ≤ x ∧ x ≤ y ∧ y ≤ far := by
  induction h with
  | last hfollows hmet =>
    simp only [meets_cons, markAfter_place, place_inj] at hxy
    obtain ⟨⟨rfl, rfl⟩, hseen⟩ | ⟨_, hm, -⟩ := hxy
    · exact ⟨le_rfl, hseen.elim Int.le_of_lt hfollows.le_of_newNear, le_rfl⟩
    · cases hm
  | step hfollows hshort hrest ih =>
    simp only [meets_cons, markAfter_place, place_inj] at hxy
    obtain ⟨⟨rfl, rfl⟩, -⟩ | hxy := hxy
    · exact ⟨le_rfl, Int.le_of_lt hshort, le_rfl⟩
    · have := ih hxy
      have := hrest.next
      omega

/-- Of two pairs of offsets one lies between the other. -/
theorem Closes.nested (h : Closes scale old near far ms) (hxy : Meets scale ms x y)
    (hxy' : Meets scale ms x' y') : (x ≤ x' ∧ y' ≤ y) ∨ (x' ≤ x ∧ y ≤ y') := by
  induction h with
  | last hfollows hmet =>
    simp only [meets_cons, markAfter_place, place_inj] at hxy hxy'
    obtain ⟨⟨rfl, rfl⟩, -⟩ | ⟨_, hm, -⟩ := hxy
    · obtain ⟨⟨rfl, rfl⟩, -⟩ | ⟨_, hm, -⟩ := hxy'
      · exact .inl ⟨le_rfl, le_rfl⟩
      · cases hm
    · cases hm
  | step hfollows hshort hrest ih =>
    have hnext := hrest.next
    simp only [meets_cons, markAfter_place, place_inj] at hxy hxy'
    rcases hxy with ⟨⟨rfl, rfl⟩, -⟩ | hxy
    · rcases hxy' with ⟨⟨rfl, rfl⟩, -⟩ | hxy'
      · exact .inl ⟨le_rfl, le_rfl⟩
      · have := hrest.bounds hxy'
        omega
    · rcases hxy' with ⟨⟨rfl, rfl⟩, -⟩ | hxy'
      · have := hrest.bounds hxy
        omega
      · exact ih hxy hxy'

/-- Every offset between the two ends is one of a pair. When both move at once over the last one, they
meet there on a place of their own. -/
theorem Closes.covered (h : Closes scale old near far ms) (hshort : near < far) (hnear : near ≤ e)
    (hfar : e ≤ far) : ∃ x y, Meets scale ms x y ∧ (e = x ∨ e = y) := by
  induction h with
  | last hfollows hmet => omega
  | @step old near far near' far' ms hfollows _ hrest ih =>
    by_cases hend : e = near ∨ e = far
    · exact ⟨near, far, meets_cons.mpr (.inl ⟨markAfter_place _, .inl hshort⟩), hend⟩
    · have hnext := hrest.next
      by_cases hshort' : near' < far'
      · obtain ⟨x, y, hxy, he⟩ := ih hshort' (by omega) (by omega)
        exact ⟨x, y, meets_cons.mpr (.inr hxy), he⟩
      · refine ⟨near', far', meets_cons.mpr (.inr ?_), by omega⟩
        cases hrest with
        | step _ hshort'' => exact absurd hshort'' hshort'
        | last _ hmet =>
          refine meets_cons.mpr (.inl ⟨markAfter_place _, .inr ?_⟩)
          have hnew : near' ≠ near := by omega
          have hlt : near' < far := by omega
          simp [markAfter, place, hnew, hlt]

/-- A mark whose offsets have not met reports both of its places, but for those of the mark before. -/
theorem Follows.reports (h : Follows scale old x y) (hshort : x < y) :
    ((markAfter old (place scale x y)).newNear = true ∨ ∃ o ∈ old, o.near = x ∧ o.farScaled = scale y) ∧
      ((markAfter old (place scale x y)).newFar = true ∨ ∃ o ∈ old, o.far = y ∧ o.nearScaled = scale x) := by
  cases old with
  | none => simp [markAfter, place, hshort]
  | some o =>
    obtain ⟨near', far', rfl, -, -, hfar⟩ := h
    have hlt : x < far' := by omega
    have hmoved : ∀ a b c d : Int, (decide (a ≠ b) || decide (c ≠ d)) = true ∨ b = a ∧ d = c := by
      intro a b c d
      simp only [ne_eq, decide_not, Bool.or_eq_true, Bool.not_eq_true', decide_eq_false_iff_not]
      omega
    simp only [markAfter, place, hshort, hlt, decide_true, Bool.and_true, Option.mem_some_iff,
      exists_eq_left']
    exact ⟨hmoved .., hmoved ..⟩

/-- Both places of a pair of offsets are reported, but for those of the mark before. -/
theorem Closes.reports_of_meets (h : Closes scale old near far ms) (hxy : Meets scale ms x y) :
    (Reports ms x (scale y) ∨ ∃ o ∈ old, o.near = x ∧ o.farScaled = scale y) ∧
      (Reports ms y (scale x) ∨ ∃ o ∈ old, o.far = y ∧ o.nearScaled = scale x) := by
  induction h with
  | @last old near far hfollows hmet =>
    simp only [meets_cons, markAfter_place, place_inj] at hxy
    obtain ⟨⟨rfl, rfl⟩, hlt | hnew⟩ | ⟨_, hm, -⟩ := hxy
    · omega
    · have hxy := le_antisymm (hfollows.le_of_newNear hnew) hmet
      have hreport : Reports [markAfter old (place scale near far)] near (scale far) :=
        reports_cons.mpr (.inl (.inl ⟨hnew, by simp [place], by simp [place]⟩))
      exact ⟨.inl hreport, .inl (by rw [← hxy] at hreport ⊢; exact hreport)⟩
    · cases hm
  | @step old near far near' far' ms hfollows hshort hrest ih =>
    -- the head reports its places, unless the mark before has
    have hhead := hfollows.reports hshort
    have hnear : Reports (markAfter old (place scale near far) :: ms) near (scale far) ∨
        ∃ o ∈ old, o.near = near ∧ o.farScaled = scale far :=
      hhead.1.imp_left fun hnew => reports_cons.mpr (.inl (.inl ⟨hnew, by simp [place], by simp [place]⟩))
    have hfar : Reports (markAfter old (place scale near far) :: ms) far (scale near) ∨
        ∃ o ∈ old, o.far = far ∧ o.nearScaled = scale near :=
      hhead.2.imp_left fun hnew => reports_cons.mpr (.inl (.inr ⟨hnew, by simp [place], by simp [place]⟩))
    simp only [meets_cons, markAfter_place, place_inj] at hxy
    rcases hxy with ⟨⟨rfl, rfl⟩, -⟩ | hxy
    · exact ⟨hnear, hfar⟩
    · obtain ⟨hx, hy⟩ := ih hxy
      refine ⟨hx.elim (fun h => .inl (reports_cons.mpr (.inr h))) ?_,
        hy.elim (fun h => .inl (reports_cons.mpr (.inr h))) ?_⟩
      · rintro ⟨_, ⟨⟩, rfl, hscale⟩
        rwa [← hscale]
      · rintro ⟨_, ⟨⟩, rfl, hscale⟩
        rwa [← hscale]

/-- Nothing but the places of the pairs of offsets is reported. -/
theorem Closes.meets_of_reports (h : Closes scale old near far ms) {a b : Int} (hab : Reports ms a b) :
    ∃ x y, Meets scale ms x y ∧ (a = x ∧ b = scale y ∨ a = y ∧ b = scale x) := by
  have hmark : ∀ {old : Option Place} {near far : Int}, Follows scale old near far →
      (markAfter old (place scale near far)).newFar = true → near < far := by
    intro old near far hfollows hnew
    cases old with
    | none => exact hfollows
    | some o =>
      simp only [markAfter, place, Bool.and_eq_true] at hnew
      exact of_decide_eq_true hnew.2
  induction h with
  | @last old near far hfollows hmet =>
    rcases reports_cons.mp hab with (⟨hnew, ha, hb⟩ | ⟨hnew, ha, hb⟩) | ⟨_, hm, -⟩
    · rw [markAfter_place] at ha hb
      exact ⟨near, far, meets_cons.mpr (.inl ⟨markAfter_place _, .inr hnew⟩), .inl ⟨ha, hb⟩⟩
    · exact absurd (hmark hfollows hnew) (by omega)
    · cases hm
  | @step old near far near' far' ms hfollows hshort hrest ih =>
    rcases reports_cons.mp hab with hhead | hab
    · rw [markAfter_place] at hhead
      exact ⟨near, far, meets_cons.mpr (.inl ⟨markAfter_place _, .inl hshort⟩),
        hhead.imp And.right And.right⟩
    · obtain ⟨x, y, hxy, hab⟩ := ih hab
      exact ⟨x, y, meets_cons.mpr (.inr hxy), hab⟩

/-- The walk ends where the offsets have met. -/
theorem Closes.getLast? (h : Closes scale old near far ms) :
    ∃ m, ms.getLast? = some m ∧ m.place.far ≤ m.place.near := by
  induction h with
  | last hfollows hmet => exact ⟨_, rfl, by simpa [place] using hmet⟩
  | step hfollows hshort hrest ih =>
    obtain ⟨m, hm, hmet⟩ := ih
    exact ⟨m, by rw [List.getLast?_cons, hm]; rfl, hmet⟩

end Closes

end Rasterizer.Ellipse
