import Rasterizer.Fault
import Mathlib.Logic.Equiv.Basic
import Mathlib.Tactic.Ring

/-! # Buffers whose contents are moved about

A step that moves what a buffer holds is known by where each place gets its content from
(`Moves`): steps that draw from the same places are the same, steps one after another draw
through each other, and a step that draws twice from where it drew undoes itself. The places
are those of rows: some moves go along a row (`alongRows`), others take rows as a whole
(`acrossRows`), and those two kinds do not disturb each other. -/

namespace Rasterizer

/-! ## Steps -/

section Moves

variable {α β : Type}

/-- On buffers of `size` elements the step succeeds, and the place `n` then shows what `σ n` showed before. -/
def Moves (view : Array α → Nat → β) (size : Nat) (σ : Nat → Nat)
    (step : Array α → Except Fault (Array α)) : Prop :=
  ∀ data, data.size = size →
    ∃ data', step data = .ok data' ∧ data'.size = size ∧ ∀ n, view data' n = view data (σ n)

/-- Buffers of one size that show the same are equal. -/
def ShowsAll (view : Array α → Nat → β) : Prop :=
  ∀ data data' : Array α, data.size = data'.size → (∀ n, view data n = view data' n) → data = data'

theorem showsAll_getElem? : ShowsAll fun (data : Array α) n => data[n]? :=
  fun _ _ _ h => Array.ext_getElem? h

variable {view : Array α → Nat → β} {size : Nat} {σ τ : Nat → Nat}
  {step step' : Array α → Except Fault (Array α)}

theorem Moves.congr (h : Moves view size σ step) (hστ : ∀ n, σ n = τ n) : Moves view size τ step := by
  obtain rfl : σ = τ := funext hστ
  exact h

/-- What a step does on buffers of another size does not matter. -/
theorem Moves.of_eq (h : Moves view size σ step) (hstep : ∀ data, data.size = size → step' data = step data) :
    Moves view size σ step' := fun data hsize => hstep data hsize ▸ h data hsize

/-- A buffer that is made anew, each element taken from the place that the step draws from. -/
theorem moves_mapIdx {f : Array α → Nat → α → α} (hσ : ∀ n, σ n < size ↔ n < size)
    (hf : ∀ data : Array α, data.size = size →
      ∀ n (hn : n < data.size), f data n data[n] = data.getD (σ n) data[n]) :
    Moves (fun (data : Array α) n => data[n]?) size σ fun data => pure (data.mapIdx (f data)) := by
  rintro data rfl
  refine ⟨_, rfl, Array.size_mapIdx, fun n => ?_⟩
  by_cases hn : n < data.size
  · have hplace := (hσ n).mpr hn
    simp [hn, hplace, hf data rfl n hn, Array.getD]
  · have hplace := (hσ n).not.mpr hn
    simp [hn, hplace]

theorem moves_pure (view : Array α → Nat → β) (size : Nat) : Moves view size id pure :=
  fun data hsize => ⟨data, rfl, hsize, fun _ => rfl⟩

theorem Moves.bind (h : Moves view size σ step) (h' : Moves view size τ step') :
    Moves view size (fun n => σ (τ n)) (fun data => step data >>= step') := by
  intro data hsize
  obtain ⟨mid, hstep, hmid, hview⟩ := h data hsize
  obtain ⟨data', hstep', hsize', hview'⟩ := h' mid hmid
  refine ⟨data', ?_, hsize', fun n => by rw [hview', hview]⟩
  change (step data >>= step') = _
  rw [hstep]
  exact hstep'

/-- A loop draws from where its turns draw, the last one first. -/
theorem Moves.foldlM {m : Nat} {step : Nat → Array α → Except Fault (Array α)} {s : Nat → Nat → Nat}
    (σ : Nat → Nat → Nat) (h : ∀ i < m, Moves view size (s i) (step i)) (hzero : ∀ n, σ 0 n = n)
    (hsucc : ∀ i < m, ∀ n, σ (i + 1) n = σ i (s i n)) :
    Moves view size (σ m) (fun data => (List.range m).foldlM (fun data i => step i data) data) := by
  induction m with
  | zero => exact (moves_pure view size).congr fun n => (hzero n).symm
  | succ m ih =>
    have hturns := ih (fun i hi => h i (by omega)) (fun i hi => hsucc i (by omega))
    have hloop : (fun data => (List.range (m + 1)).foldlM (fun data i => step i data) data) =
        fun data => (List.range m).foldlM (fun data i => step i data) data >>= step m := by
      funext data
      simp [List.range_succ]
    rw [hloop]
    exact (hturns.bind (h m (by omega))).congr fun n => (hsucc m (by omega) n).symm

/-- A step is known by the places that it draws from. -/
theorem Moves.unique (hview : ShowsAll view) (h : Moves view size σ step) (h' : Moves view size σ step')
    {data : Array α} (hsize : data.size = size) : step data = step' data := by
  obtain ⟨out, hstep, hout, hshow⟩ := h data hsize
  obtain ⟨out', hstep', hout', hshow'⟩ := h' data hsize
  rw [hstep, hstep', hview out out' (hout.trans hout'.symm) fun n => by rw [hshow, hshow']]

/-- A step that twice leads back is undone by itself. -/
theorem Moves.undone (hview : ShowsAll view) (h : Moves view size σ step) (hσ : ∀ n, σ (σ n) = n)
    {data : Array α} (hsize : data.size = size) : step data >>= step = .ok data :=
  ((h.bind h).congr hσ).unique hview (moves_pure view size) hsize

theorem Moves.comm (hview : ShowsAll view) (h : Moves view size σ step) (h' : Moves view size τ step')
    (hστ : ∀ n, σ (τ n) = τ (σ n)) {data : Array α} (hsize : data.size = size) :
    step data >>= step' = step' data >>= step :=
  ((h.bind h').congr hστ).unique hview (h'.bind h) hsize

end Moves

/-! ## Places -/

/-- The first `n` places in reverse order. -/
def mirror (n x : Nat) : Nat := if x < n then n - 1 - x else x

/-- The outer `m` places at both ends of `n` places exchanged. -/
def mirrorEnds (n m x : Nat) : Nat := if x < m ∨ (n - m ≤ x ∧ x < n) then n - 1 - x else x

/-- Places move along the row `i` of rows of `p` places. -/
def alongRow (p i : Nat) (g : Nat → Nat) (n : Nat) : Nat := if n / p = i then n / p * p + g (n % p) else n

/-- Places move along the first `r` rows of `p` places. -/
def alongRows (p r : Nat) (g : Nat → Nat) (n : Nat) : Nat := if n / p < r then n / p * p + g (n % p) else n

/-- The `m` places from `s` on in reverse order. -/
def turn (s m n : Nat) : Nat := if s ≤ n ∧ n < s + m then s + (m - 1 - (n - s)) else n

/-- Rows of `p` places move. -/
def acrossRows (p : Nat) (g : Nat → Nat) (n : Nat) : Nat := g (n / p) * p + n % p

section Places

variable {p r i m n x y : Nat} {f g : Nat → Nat}

/-! ### Mirrored places -/

theorem mirror_lt_iff : mirror n x < n ↔ x < n := by
  unfold mirror
  split <;> omega

theorem mirror_mirror (n x : Nat) : mirror n (mirror n x) = x := by
  by_cases hx : x < n
  · have hx' := mirror_lt_iff.mpr hx
    rw [mirror, if_pos hx', mirror, if_pos hx]
    omega
  · rw [mirror, if_neg (mirror_lt_iff.not.mpr hx), mirror, if_neg hx]

theorem swap_lt {a b : Nat} (ha : a < n) (hb : b < n) (hx : x < n) : Equiv.swap a b x < n := by
  rw [Equiv.swap_apply_def]
  split_ifs <;> assumption

theorem mirror_of_le (hx : n ≤ x) : mirror n x = x := if_neg (by omega)

theorem mirror_of_le_one (hn : n ≤ 1) (x : Nat) : mirror n x = x := by
  unfold mirror
  split <;> omega

theorem mirrorEnds_zero (n x : Nat) : mirrorEnds n 0 x = x := if_neg (by omega)

theorem mirrorEnds_succ (hm : m < n / 2) (x : Nat) :
    mirrorEnds n (m + 1) x = mirrorEnds n m (Equiv.swap m (n - 1 - m) x) := by
  rw [Equiv.swap_apply_def]
  unfold mirrorEnds
  split <;> split <;> split <;> first | omega | (split <;> omega)

/-- The place in the middle, if there is one, is its own mirror image. -/
theorem mirrorEnds_half (n x : Nat) : mirrorEnds n (n / 2) x = mirror n x := by
  unfold mirrorEnds mirror
  split <;> split <;> omega

/-! ### Rows of places -/

theorem row_div_mod (hx : x < n) : (y * n + x) / n = y ∧ (y * n + x) % n = x :=
  (Nat.div_mod_unique (by omega)).mpr ⟨by rw [Nat.mul_comm, Nat.add_comm], hx⟩

theorem place_lt (hx : x < n) (hy : y < r) : y * n + x < r * n := by
  have := Nat.mul_le_mul_right n (Nat.succ_le_of_lt hy)
  rw [Nat.succ_mul] at this
  omega

theorem row_le {size : Nat} (hi : i < r) (hr : r * p ≤ size) : i * p + p ≤ size := by
  have := Nat.mul_le_mul_right p (Nat.succ_le_of_lt hi)
  rw [Nat.succ_mul] at this
  omega

theorem inside_row_iff (hx : x < p) : (i * p ≤ y * p + x ∧ y * p + x < (i + 1) * p) ↔ y = i := by
  constructor
  · rintro ⟨hle, hlt⟩
    exact (row_div_mod hx).1.symm.trans (Nat.div_eq_of_lt_le hle hlt)
  · rintro rfl
    rw [Nat.succ_mul]
    omega

theorem alongRows_of_lt (hx : x < p) (hi : i < r) : alongRows p r g (i * p + x) = i * p + g x := by
  rw [alongRows, (row_div_mod hx).1, (row_div_mod hx).2, if_pos hi]

theorem alongRows_of_le (hp : 0 < p) (hn : r * p ≤ n) : alongRows p r g n = n :=
  if_neg (Nat.not_lt.mpr ((Nat.le_div_iff_mul_le hp).mpr hn))

theorem acrossRows_eq (hx : x < p) : acrossRows p g (i * p + x) = g i * p + x := by
  rw [acrossRows, (row_div_mod hx).1, (row_div_mod hx).2]

theorem alongRow_of_lt (hx : x < p) : alongRow p i g (i * p + x) = i * p + g x := by
  rw [alongRow, (row_div_mod hx).1, (row_div_mod hx).2, if_pos rfl]

/-- Two places of a row that change places. -/
theorem swap_eq_alongRow (hx : x < p) (hy : y < p) (n : Nat) :
    Equiv.swap (i * p + x) (i * p + y) n = alongRow p i (Equiv.swap x y) n := by
  by_cases hn : n / p = i
  · obtain ⟨m, hm, rfl⟩ : ∃ m < p, n = i * p + m :=
      ⟨n % p, Nat.mod_lt n (by omega), by rw [← hn, Nat.div_add_mod']⟩
    rw [alongRow_of_lt hm, Equiv.swap_apply_def, Equiv.swap_apply_def]
    simp only [Nat.add_left_cancel_iff, apply_ite (i * p + ·)]
  · rw [alongRow, if_neg hn, Equiv.swap_apply_of_ne_of_ne]
    · rintro rfl
      exact hn (row_div_mod hx).1
    · rintro rfl
      exact hn (row_div_mod hy).1

theorem turn_zero (m x : Nat) : turn 0 m x = mirror m x := by
  unfold turn mirror
  split_ifs <;> omega

/-- Places in reverse order that lie in one row. -/
theorem turn_add (hm : x + m ≤ p) (n : Nat) : turn (i * p + x) m n = alongRow p i (turn x m) n := by
  rcases Nat.eq_zero_or_pos p with rfl | hp
  · have hnone : m = 0 := by omega
    simp [hnone, turn, alongRow, show ∀ a b : Nat, ¬(a ≤ b ∧ b < a) by omega]
  by_cases hn : n / p = i
  · obtain ⟨y, hy, rfl⟩ : ∃ y < p, n = i * p + y := ⟨n % p, Nat.mod_lt n hp, by rw [← hn, Nat.div_add_mod']⟩
    rw [alongRow_of_lt hy]
    unfold turn
    split_ifs <;> omega
  · refine (if_neg fun hin => hn ?_).trans (if_neg hn).symm
    exact (Nat.div_eq_iff hp).mpr (by omega)

theorem turn_mul (hm : m ≤ p) (n : Nat) : turn (i * p) m n = alongRow p i (mirror m) n := by
  rw [← Nat.add_zero (i * p), turn_add (by omega)]
  simp only [alongRow, turn_zero]

theorem alongRow_id (hg : ∀ x, g x = x) (n : Nat) : alongRow p i g n = n := by
  rw [alongRow, hg, Nat.div_add_mod', ite_self]

theorem alongRow_alongRow (hp : 0 < p) (hg : ∀ x < p, g x < p) (n : Nat) :
    alongRow p i f (alongRow p i g n) = alongRow p i (fun x => f (g x)) n := by
  have hlt := hg _ (Nat.mod_lt n hp)
  by_cases hn : n / p = i
  · simp only [alongRow, if_pos hn, (row_div_mod hlt).1, (row_div_mod hlt).2]
  · simp only [alongRow, if_neg hn]

theorem alongRows_zero (p : Nat) (g : Nat → Nat) (n : Nat) : alongRows p 0 g n = n :=
  if_neg (Nat.not_lt_zero _)

theorem alongRows_succ (hp : 0 < p) (hg : ∀ x < p, g x < p) (n : Nat) :
    alongRows p (r + 1) g n = alongRows p r g (alongRow p r g n) := by
  have hlt := hg _ (Nat.mod_lt n hp)
  by_cases hn : n / p = r
  · have hrow : alongRow p r g n = r * p + g (n % p) := by rw [alongRow, if_pos hn, hn]
    rw [hrow, alongRows, if_pos (by omega), hn, alongRows_of_le hp (by omega)]
  · rw [alongRow, if_neg hn, alongRows, alongRows]
    exact if_congr (by omega) rfl rfl

theorem alongRows_alongRows (hp : 0 < p) (hg : ∀ x < p, g x < p) (hgg : ∀ x < p, g (g x) = x) (n : Nat) :
    alongRows p r g (alongRows p r g n) = n := by
  have hx := Nat.mod_lt n hp
  by_cases hn : n / p < r
  · rw [alongRows, alongRows, if_pos hn, (row_div_mod (hg _ hx)).1, (row_div_mod (hg _ hx)).2, if_pos hn, hgg _ hx,
      Nat.div_add_mod']
  · rw [alongRows, alongRows, if_neg hn, if_neg hn]

section Inside

variable {q : Nat} (hq : 0 < q) (hg : ∀ x < q, g x < q)

include hq hg

/-- What moves along a row that lies among `p` places stays among them. -/
theorem alongRow_lt (hi : i * q + q ≤ p) (hx : x < p) : alongRow q i g x < p := by
  by_cases hrow : x / q = i
  · have := hg _ (Nat.mod_lt x hq)
    rw [alongRow, if_pos hrow, hrow]
    omega
  · rwa [alongRow, if_neg hrow]

theorem alongRows_lt_iff (hr : r * q ≤ p) : alongRows q r g x < p ↔ x < p := by
  by_cases hrow : x / q < r
  · have hx := (Nat.div_lt_iff_lt_mul hq).mp hrow
    have hx' := place_lt (hg _ (Nat.mod_lt x hq)) hrow
    rw [alongRows, if_pos hrow]
    omega
  · rw [alongRows, if_neg hrow]

end Inside

theorem acrossRows_acrossRows (p : Nat) (f g : Nat → Nat) (n : Nat) :
    acrossRows p f (acrossRows p g n) = acrossRows p (fun y => f (g y)) n := by
  rcases Nat.eq_zero_or_pos p with rfl | hp
  · simp [acrossRows]
  · rw [show acrossRows p g n = g (n / p) * p + n % p from rfl, acrossRows_eq (Nat.mod_lt n hp), acrossRows]

theorem acrossRows_lt (hf : ∀ y < r, f y < r) (hout : ∀ y, r ≤ y → f y = y) (hr : r * p ≤ n) (hx : x < n) :
    acrossRows p f x < n := by
  rcases Nat.eq_zero_or_pos p with rfl | hp
  · simpa [acrossRows] using hx
  by_cases hrow : x / p < r
  · exact (place_lt (Nat.mod_lt x hp) (hf _ hrow)).trans_le hr
  · rwa [acrossRows, hout _ (Nat.not_lt.mp hrow), Nat.div_add_mod']

theorem acrossRows_lt_iff (hf : ∀ y < r, f y < r) (hout : ∀ y, r ≤ y → f y = y) (hff : ∀ y, f (f y) = y)
    (hr : r * p ≤ n) : acrossRows p f x < n ↔ x < n := by
  refine ⟨fun hx => ?_, acrossRows_lt hf hout hr⟩
  have hback := acrossRows_lt hf hout hr hx
  simp only [acrossRows_acrossRows, hff] at hback
  rwa [acrossRows, Nat.div_add_mod'] at hback

theorem acrossRows_mirror (p r n : Nat) :
    acrossRows p (mirror r) n = if n < r * p then (r - 1 - n / p) * p + n % p else n := by
  rcases Nat.eq_zero_or_pos p with rfl | hp
  · simp [acrossRows]
  rw [acrossRows, mirror]
  by_cases hn : n / p < r
  · rw [if_pos hn, if_pos ((Nat.div_lt_iff_lt_mul hp).mp hn)]
  · rw [if_neg hn, if_neg ((Nat.div_lt_iff_lt_mul hp).not.mp hn), Nat.div_add_mod']

theorem acrossRows_id (p n : Nat) : acrossRows p (fun y => y) n = n := Nat.div_add_mod' n p

/-- Rows that change places among the first ones take along what moves in them. -/
theorem alongRows_acrossRows (hp : 0 < p) (hg : ∀ x < p, g x < p) (hf : ∀ y, f y < r ↔ y < r) (n : Nat) :
    alongRows p r g (acrossRows p f n) = acrossRows p f (alongRows p r g n) := by
  have hx := Nat.mod_lt n hp
  by_cases hn : n / p < r
  · have hrow : alongRows p r g n = n / p * p + g (n % p) := if_pos hn
    rw [hrow, acrossRows_eq (hg _ hx), acrossRows, alongRows_of_lt hx ((hf _).mpr hn)]
  · have hrow : alongRows p r g n = n := if_neg hn
    rw [hrow, acrossRows, alongRows, (row_div_mod hx).1, if_neg ((hf _).not.mpr hn)]

/-- To reverse rows of `p` places together and then each by itself is to reverse their order. -/
theorem mirror_alongRows (hp : 0 < p) (r n : Nat) :
    mirror (r * p) (alongRows p r (mirror p) n) = acrossRows p (mirror r) n := by
  obtain ⟨y, x, hx, rfl⟩ : ∃ y x, x < p ∧ n = y * p + x := ⟨n / p, n % p, Nat.mod_lt n hp, (Nat.div_add_mod' n p).symm⟩
  rw [acrossRows_eq hx]
  by_cases hy : y < r
  · obtain ⟨d, rfl⟩ := Nat.exists_eq_add_of_lt hy
    have hlast := place_lt (mirror_lt_iff.mpr hx) hy
    rw [alongRows_of_lt hx hy, mirror, if_pos hlast, mirror, if_pos hx, mirror, if_pos hy,
      show (y + d + 1) * p = y * p + d * p + p by ring, show y + d + 1 - 1 - y = d by omega]
    omega
  · have hle := Nat.mul_le_mul_right p (Nat.not_lt.mp hy)
    rw [alongRows_of_le hp (by omega), mirror, if_neg (by omega), mirror, if_neg hy]

/-- The bits of bytes that change rows change rows with them. -/
theorem acrossRows_bits (p : Nat) (f : Nat → Nat) (n : Nat) :
    acrossRows p f (n / 8) * 8 + n % 8 = acrossRows (p * 8) f n := by
  rw [acrossRows, acrossRows, Nat.mul_comm p 8, Nat.mod_mul, Nat.div_div_eq_div_mul]
  ring

end Places

end Rasterizer
