import Rasterizer.Proofs.Bitmap.Bits

/-! # Pictures made bit by bit

The loops that widen and magnify a picture set one bit after another and copy rows, in a buffer whose bounds
are checked each time (`expandBoldLoop`, `expandScaleLoop`). `Holds` says which bits the rows of a buffer have. A
step of a loop adds bits to them (`Adds`) or makes one row like another (`Holds.copyRow`), so row by row the buffer
becomes the picture, and the loops end with what widened and magnified pictures are defined to be. -/

namespace Rasterizer

/-! ## The loops -/

/-- Sets a bit of the row of `pitch` bytes that begins at `start`. -/
def setBitOf (start pitch x : Nat) (data : Array UInt8) : Except Fault (Array UInt8) :=
  if start + pitch ≤ data.size ∧ x / 8 < pitch then
    pure (data.modify (start + x / 8) (· ||| 0x80 >>> UInt8.ofNat (x % 8)))
  else throw .outOfRange

/-- Copies `n` bytes to `target`, as they were before. -/
def copyWithin (start n target : Nat) (data : Array UInt8) : Except Fault (Array UInt8) :=
  if start + n ≤ data.size ∧ target + n ≤ data.size then
    pure (data.mapIdx fun i v => if target ≤ i ∧ i < target + n then data.getD (start + (i - target)) 0 else v)
  else throw .outOfRange

/-- The set bits of a row, each with its right neighbour. -/
def boldRow (line : BitRow) (start pitch : Nat) (data : Array UInt8) : Except Fault (Array UInt8) :=
  (List.range line.width).foldlM (fun data (j : Nat) =>
    if line.get j then setBitOf start pitch j data >>= setBitOf start pitch (j + 1) else pure data) data

def expandBoldLoop (buffer data : Array UInt8) (pitch : Nat) (width height : Int) : Except Fault PackedRows :=
  let pitch' := bitPitch (width + 1)
  let out := Buffer.reset buffer (pitch' * height.toNat)
  if pitch' = 0 then throw .emptyRows
  else do
    let out ← (List.range (out.size / pitch')).foldlM (fun out i =>
      boldRow (.ofPicture data pitch i width) (i * pitch') pitch' out) out
    return ⟨width + 1, pitch', out⟩

/-- The set bits of a row, `n` for each, `scale` bits from one to the next. -/
def scaledRow (line : BitRow) (scale n start pitch : Nat) (data : Array UInt8) : Except Fault (Array UInt8) :=
  if start + pitch ≤ data.size then
    (List.range line.width).foldlM (fun data (j : Nat) =>
      if line.get j then
        (List.range n).foldlM (fun data k => setBitOf start pitch (j * scale + k) data) data
      else pure data) data
  else throw .outOfRange

/-- Of the `n` rows from `start` on, all are made like the first. -/
def repeatRow (start pitch n : Nat) (data : Array UInt8) : Except Fault (Array UInt8) :=
  (List.range (n - 1)).foldlM (fun data k => copyWithin start pitch (start + (k + 1) * pitch) data) data

def expandScaleLoop (buffer data : Array UInt8) (pitch : Nat) (width height scale : Int) (bold : Bool) :
    Except Fault PackedRows := do
  let scale := max scale 1
  let width' := (width + if bold then 1 else 0) * scale
  let pitch' := bitPitch width'
  let out ← (List.range (max height 0).toNat).foldlM (fun out i => do
    let first := i * scale.toNat * pitch'
    let out ← scaledRow (.ofPicture data pitch i width) scale.toNat ((if bold then 2 else 1) * scale.toNat)
      first pitch' out
    repeatRow first pitch' scale.toNat out) (Buffer.reset buffer (pitch' * (max height 0 * scale).toNat))
  return ⟨width', pitch', out⟩

/-! ## Buffers of rows -/

/-- The rows of the buffer have these bits, those behind the end of a picture's rows included. -/
structure Holds (pitch rows : Nat) (f : Nat → Nat → Prop) (data : Array UInt8) : Prop where
  size : data.size = rows * pitch
  bit : ∀ {x y : Nat}, x / 8 < pitch → y < rows → (packedBit data (y * pitch) x = true ↔ f x y)

section Holds

variable {pitch rows : Nat} {f g : Nat → Nat → Prop} {data data' : Array UInt8}

theorem Holds.congr (h : Holds pitch rows f data) (hfg : ∀ {x y}, x / 8 < pitch → y < rows → (f x y ↔ g x y)) :
    Holds pitch rows g data :=
  ⟨h.size, fun hx hy => (h.bit hx hy).trans (hfg hx hy)⟩

theorem Holds.row_le (h : Holds pitch rows f data) {y : Nat} (hy : y < rows) : y * pitch + pitch ≤ data.size := by
  have := Nat.mul_le_mul_right pitch (Nat.succ_le_of_lt hy)
  rwa [Nat.succ_mul, ← h.size] at this

theorem holds_reset (buffer : Array UInt8) (pitch rows : Nat) :
    Holds pitch rows (fun _ _ => False) (Buffer.reset buffer (pitch * rows)) := by
  rw [Buffer.reset_eq]
  refine ⟨by rw [Array.size_replicate, Nat.mul_comm], fun hx hy => ?_⟩
  simp [packedBit, Array.getD]

theorem holds_packBits (pitch rows : Nat) (bit : Nat → Nat → Bool) :
    Holds pitch rows (fun x y => bit x y = true) (packBits pitch rows bit) :=
  ⟨by rw [size_packBits, Nat.mul_comm], fun hx hy => by rw [packedBit_packBits bit hx hy]⟩

/-- Bytes with the same eight bits are equal. -/
theorem byte_eq_of_testBit {v w : UInt8} (h : ∀ k < 8, v.toNat.testBit (7 - k) = w.toNat.testBit (7 - k)) :
    v = w := by
  refine UInt8.eq_iff_toBitVec_eq.mpr (BitVec.eq_of_getLsbD_eq fun i hi => ?_)
  have hbit := h (7 - i) (by omega)
  rwa [show 7 - (7 - i) = i by omega] at hbit

/-- The bits of its rows make up a buffer. -/
theorem Holds.unique (h : Holds pitch rows f data) (h' : Holds pitch rows f data') : data = data' := by
  refine Array.ext (h.size.trans h'.size.symm) fun i hi hi' => byte_eq_of_testBit fun k hk => ?_
  have hrows : i < rows * pitch := h.size ▸ hi
  have hpitch : 0 < pitch := Nat.pos_of_ne_zero fun h => by simp [h] at hrows
  have hx : (i % pitch * 8 + k) / 8 < pitch := by
    have := Nat.mod_lt i hpitch
    omega
  have hy : i / pitch < rows := (Nat.div_lt_iff_lt_mul hpitch).mpr hrows
  have hbits := (h.bit hx hy).trans (h'.bit hx hy).symm
  rw [packedBit, packedBit, show (i % pitch * 8 + k) / 8 = i % pitch by omega,
    show (i % pitch * 8 + k) % 8 = k by omega, Nat.div_add_mod'] at hbits
  simpa [Array.getD, hi, hi'] using hbits

/-! ## What a step does -/

theorem testBit_mask {m k : Nat} (hm : m < 8) (hk : k < 8) :
    ((0x80 : UInt8) >>> UInt8.ofNat m).toNat.testBit (7 - k) = decide (k = m) := by
  have h : ∀ m < 8, ∀ k < 8, ((0x80 : UInt8) >>> UInt8.ofNat m).toNat.testBit (7 - k) = decide (k = m) := by decide
  exact h m hm k hk

/-- The steps that add these bits to any buffer of rows, and no others. -/
def Adds (pitch rows : Nat) (S : Nat → Nat → Prop) (step : Array UInt8 → Except Fault (Array UInt8)) : Prop :=
  ∀ f data, Holds pitch rows f data →
    ∃ data', step data = .ok data' ∧ Holds pitch rows (fun x y => f x y ∨ S x y) data'

theorem adds_setBitOf (x₀ : Nat) {y₀ : Nat} (hx₀ : x₀ / 8 < pitch) (hy₀ : y₀ < rows) :
    Adds pitch rows (fun x y => x = x₀ ∧ y = y₀) (setBitOf (y₀ * pitch) pitch x₀) := by
  intro f data h
  refine ⟨_, if_pos ⟨h.row_le hy₀, hx₀⟩, by rw [Array.size_modify, h.size], fun {x y} hx hy => ?_⟩
  have hin : y * pitch + x / 8 < data.size := h.size ▸ row_add_lt hx hy
  have hsame : y₀ * pitch + x₀ / 8 = y * pitch + x / 8 ↔ y = y₀ ∧ x / 8 = x₀ / 8 := by
    constructor
    · intro heq
      have hdiv := congrArg (· / pitch) heq
      have hmod := congrArg (· % pitch) heq
      simp only [row_add_div hx, row_add_div hx₀, row_add_mod hx, row_add_mod hx₀] at hdiv hmod
      exact ⟨hdiv.symm, hmod.symm⟩
    · rintro ⟨rfl, heq⟩
      rw [heq]
  rw [← h.bit hx hy]
  simp only [packedBit, Array.getD, Array.size_modify, hin, dite_true, Array.getInternal_eq_getElem,
    Array.getElem_modify]
  by_cases hbyte : y₀ * pitch + x₀ / 8 = y * pitch + x / 8
  · obtain ⟨rfl, hbyte'⟩ := hsame.mp hbyte
    rw [if_pos hbyte, UInt8.toNat_or, Nat.testBit_or,
      testBit_mask (Nat.mod_lt _ (by decide)) (Nat.mod_lt _ (by decide)), Bool.or_eq_true, decide_eq_true_eq]
    refine or_congr_right ?_
    omega
  · rw [if_neg hbyte, or_iff_left]
    rintro ⟨rfl, rfl⟩
    exact hbyte rfl

/-- A row becomes like another one. -/
theorem Holds.copyRow (h : Holds pitch rows f data) {a b : Nat} (ha : a < rows) (hb : b < rows) :
    ∃ data', copyWithin (a * pitch) pitch (b * pitch) data = .ok data' ∧
      Holds pitch rows (fun x y => f x (if y = b then a else y)) data' := by
  refine ⟨_, if_pos ⟨h.row_le ha, h.row_le hb⟩, by rw [Array.size_mapIdx, h.size], fun {x y} hx hy => ?_⟩
  have hin : y * pitch + x / 8 < data.size := h.size ▸ row_add_lt hx hy
  rw [packedBit, getD_mapIdx hin]
  by_cases hyb : y = b
  · subst hyb
    rw [if_pos (by omega), if_pos rfl, ← h.bit hx ha, Nat.add_sub_cancel_left]
    rfl
  · have hother : ¬(b * pitch ≤ y * pitch + x / 8 ∧ y * pitch + x / 8 < b * pitch + pitch) := by
      rintro ⟨hle, hlt⟩
      refine hyb ?_
      rw [← row_add_div (y := y) hx]
      exact Nat.div_eq_of_lt_le hle (by rwa [Nat.succ_mul])
    rw [if_neg hother, if_neg hyb, ← h.bit hx hy]
    rfl

/-! ## Steps one after another -/

section Adds

variable {S T : Nat → Nat → Prop} {step step' : Array UInt8 → Except Fault (Array UInt8)}

theorem Adds.congr (h : Adds pitch rows S step) (hST : ∀ x y, S x y ↔ T x y) : Adds pitch rows T step := by
  intro f data hdata
  obtain ⟨data', hstep, hholds⟩ := h f data hdata
  exact ⟨data', hstep, hholds.congr fun _ _ => or_congr_right (hST _ _)⟩

theorem Adds.bind (h : Adds pitch rows S step) (h' : Adds pitch rows T step') :
    Adds pitch rows (fun x y => S x y ∨ T x y) (fun data => step data >>= step') := by
  intro f data hdata
  obtain ⟨data', hstep, hholds⟩ := h f data hdata
  obtain ⟨data'', hstep', hholds'⟩ := h' _ data' hholds
  refine ⟨data'', ?_, hholds'.congr fun _ _ => or_assoc⟩
  change step data >>= step' = _
  rw [hstep]
  exact hstep'

theorem Adds.ite {c : Bool} (h : c = true → Adds pitch rows S step) :
    Adds pitch rows (fun x y => c = true ∧ S x y) (fun data => if c then step data else pure data) := by
  intro f data hdata
  cases c with
  | true =>
    obtain ⟨data', hstep, hholds⟩ := h rfl f data hdata
    exact ⟨data', hstep, hholds.congr fun _ _ => or_congr_right (and_iff_right rfl).symm⟩
  | false => exact ⟨data, rfl, hdata.congr fun _ _ => by simp⟩

end Adds

/-- What each turn of a loop keeps holds in the end, and the loop ends. -/
theorem foldlM_range {P : Nat → Array UInt8 → Prop} {step : Array UInt8 → Nat → Except Fault (Array UInt8)}
    {n : Nat}
    (hstep : ∀ i < n, ∀ data, P i data → ∃ data', step data i = .ok data' ∧ P (i + 1) data') (h : P 0 data) :
    ∃ data', (List.range n).foldlM step data = .ok data' ∧ P n data' := by
  induction n with
  | zero => exact ⟨data, rfl, h⟩
  | succ n ih =>
    obtain ⟨mid, hrun, hmid⟩ := ih fun i hi => hstep i (by omega)
    obtain ⟨data', hlast, hdata'⟩ := hstep n (by omega) mid hmid
    refine ⟨data', ?_, hdata'⟩
    rw [List.range_succ, List.foldlM_append, hrun]
    change (step mid n >>= pure) = _
    rw [hlast]
    rfl

theorem Adds.foldlM {S : Nat → Nat → Nat → Prop} {step : Nat → Array UInt8 → Except Fault (Array UInt8)} {n : Nat}
    (h : ∀ j < n, Adds pitch rows (S j) (step j)) :
    Adds pitch rows (fun x y => ∃ j < n, S j x y)
      (fun data => (List.range n).foldlM (fun data j => step j data) data) := by
  intro f data hdata
  refine foldlM_range (P := fun i => Holds pitch rows fun x y => f x y ∨ ∃ j < i, S j x y) (fun i hi mid hmid => ?_)
    (hdata.congr fun _ _ => by simp)
  obtain ⟨data', hstep, hholds⟩ := h i hi _ mid hmid
  refine ⟨data', hstep, hholds.congr fun _ _ => ?_⟩
  simp only [Nat.lt_succ_iff_lt_or_eq, or_and_right, exists_or, exists_eq_left, or_assoc]

/-! ## Rows -/

section Rows

variable {line : BitRow} {x y y₀ : Nat}

theorem boldBit_iff {bold : Bool} {x : Int} :
    boldBit bold line x = true ↔ line.get x = true ∨ bold = true ∧ line.get (x - 1) = true := by
  rw [boldBit, Bool.or_eq_true, Bool.and_eq_true]

/-- A set bit of a row, by its column. -/
theorem BitRow.get_iff_exists {x : Int} :
    line.get x = true ↔ ∃ j < line.width, line.get (j : Nat) = true ∧ x = j := by
  constructor
  · intro hbit
    obtain ⟨hx, hwidth, -⟩ := BitRow.get_iff.mp hbit
    exact ⟨x.toNat, by omega, by rwa [Int.toNat_of_nonneg hx], (Int.toNat_of_nonneg hx).symm⟩
  · rintro ⟨j, -, hbit, rfl⟩
    exact hbit

theorem adds_boldRow (line : BitRow) (hfit : line.width / 8 < pitch) (hy₀ : y₀ < rows) :
    Adds pitch rows (fun x y => y = y₀ ∧ boldBit true line x = true) (boldRow line (y₀ * pitch) pitch) := by
  refine (Adds.foldlM fun j hj => Adds.ite fun _ => (adds_setBitOf j ?_ hy₀).bind
    (adds_setBitOf (j + 1) ?_ hy₀)).congr fun x y => ?_
  · exact Nat.lt_of_le_of_lt (Nat.div_le_div_right (by omega)) hfit
  · exact Nat.lt_of_le_of_lt (Nat.div_le_div_right (by omega)) hfit
  · rw [boldBit_iff, BitRow.get_iff_exists, BitRow.get_iff_exists]
    constructor
    · rintro ⟨j, hj, hbit, ⟨rfl, hy⟩ | ⟨rfl, hy⟩⟩
      · exact ⟨hy, .inl ⟨x, hj, hbit, rfl⟩⟩
      · exact ⟨hy, .inr ⟨rfl, j, hj, hbit, by omega⟩⟩
    · rintro ⟨hy, ⟨j, hj, hbit, hx⟩ | ⟨-, j, hj, hbit, hx⟩⟩
      · exact ⟨j, hj, hbit, .inl ⟨by omega, hy⟩⟩
      · exact ⟨j, hj, hbit, .inr ⟨by omega, hy⟩⟩

/-- The bits that a bit of a row takes in a magnified row, and its neighbour's in bold. -/
theorem exists_offset_iff {scale j : Nat} (hscale : 0 < scale) (bold : Bool) :
    (∃ k < (if bold then 2 else 1) * scale, x = j * scale + k) ↔
      x / scale = j ∨ bold = true ∧ x / scale = j + 1 := by
  have hplace : ∀ n, (∃ k < n, x = j * scale + k) ↔ j * scale ≤ x ∧ x < j * scale + n := by
    intro n
    constructor
    · rintro ⟨k, hk, rfl⟩
      omega
    · intro h
      exact ⟨x - j * scale, by omega, by omega⟩
  rw [hplace, Nat.div_eq_iff hscale, Nat.div_eq_iff hscale, Nat.succ_mul]
  cases bold with
  | true =>
    simp only [if_true, true_and]
    omega
  | false =>
    simp only [Bool.false_eq_true, if_false, false_and, or_false]
    omega

theorem adds_scaledRow {scale : Nat} {bold : Bool} (hscale : 0 < scale)
    (hfit : ∀ j < line.width, ∀ k < (if bold then 2 else 1) * scale, (j * scale + k) / 8 < pitch)
    (hy₀ : y₀ < rows) :
    Adds pitch rows (fun x y => y = y₀ ∧ boldBit bold line ((x : Int) / scale) = true)
      (scaledRow line scale ((if bold then 2 else 1) * scale) (y₀ * pitch) pitch) := by
  have hadds : Adds pitch rows (fun x y => y = y₀ ∧ boldBit bold line ((x : Int) / scale) = true) fun data =>
      (List.range line.width).foldlM (fun data (j : Nat) =>
        if line.get j then
          (List.range ((if bold then 2 else 1) * scale)).foldlM
            (fun data k => setBitOf (y₀ * pitch) pitch (j * scale + k) data) data
        else pure data) data := by
    refine (Adds.foldlM fun j hj => Adds.ite fun _ => Adds.foldlM fun k hk =>
      adds_setBitOf _ (hfit j hj k hk) hy₀).congr fun x y => ?_
    rw [boldBit_iff, BitRow.get_iff_exists, BitRow.get_iff_exists, ← Int.natCast_ediv]
    constructor
    · rintro ⟨j, hj, hbit, k, hk, hx, hy⟩
      rcases (exists_offset_iff hscale bold).mp ⟨k, hk, hx⟩ with hplace | ⟨hbold, hplace⟩
      · exact ⟨hy, .inl ⟨j, hj, hbit, by omega⟩⟩
      · exact ⟨hy, .inr ⟨hbold, j, hj, hbit, by omega⟩⟩
    · rintro ⟨hy, ⟨j, hj, hbit, hplace⟩ | ⟨hbold, j, hj, hbit, hplace⟩⟩
      · obtain ⟨k, hk, hx⟩ := (exists_offset_iff (x := x) (j := j) hscale bold).mpr (.inl (by omega))
        exact ⟨j, hj, hbit, k, hk, hx, hy⟩
      · obtain ⟨k, hk, hx⟩ := (exists_offset_iff (x := x) (j := j) hscale bold).mpr (.inr ⟨hbold, by omega⟩)
        exact ⟨j, hj, hbit, k, hk, hx, hy⟩
  intro f data h
  rw [scaledRow, if_pos (h.row_le hy₀)]
  exact hadds f data h

variable {want : Nat → Nat → Prop}

/-- Behind the rows that are done, one more is done. -/
theorem Holds.next {r : Nat} {T : Nat → Prop}
    (h : Holds pitch rows (fun x y => y < r ∧ want x y ∨ y = r ∧ T x) data) (hT : ∀ x, T x ↔ want x r) :
    Holds pitch rows (fun x y => y < r + 1 ∧ want x y) data := by
  refine h.congr fun {x y} _ _ => ?_
  rw [Nat.lt_succ_iff_lt_or_eq, or_and_right]
  refine or_congr_right (and_congr_right ?_)
  rintro rfl
  exact hT x

/-- The row of a buffer is made into several rows of a picture. -/
theorem holds_repeatRow {a n : Nat} (hn : 0 < n) (hrows : a + n ≤ rows)
    (hsame : ∀ k < n, ∀ x, want x (a + k) ↔ want x a)
    (h : Holds pitch rows (fun x y => y < a + 1 ∧ want x y) data) :
    ∃ data', repeatRow (a * pitch) pitch n data = .ok data' ∧
      Holds pitch rows (fun x y => y < a + n ∧ want x y) data' := by
  -- Each copy overwrites a row that is still clear, the one behind those that are done.
  have hcopies : ∀ k < n - 1, ∀ mid, Holds pitch rows (fun x y => y < a + (k + 1) ∧ want x y) mid →
      ∃ mid', copyWithin (a * pitch) pitch (a * pitch + (k + 1) * pitch) mid = .ok mid' ∧
        Holds pitch rows (fun x y => y < a + (k + 1 + 1) ∧ want x y) mid' := by
    intro k hk mid hmid
    obtain ⟨mid', hcopy, hmid'⟩ := hmid.copyRow (a := a) (b := a + (k + 1)) (by omega) (by omega)
    rw [Nat.add_mul] at hcopy
    refine ⟨mid', hcopy, hmid'.congr fun {x y} _ _ => ?_⟩
    split
    next hy =>
      subst hy
      rw [hsame (k + 1) (by omega)]
      refine and_congr_left fun _ => ?_
      omega
    next hy =>
      refine and_congr_left fun _ => ?_
      omega
  obtain ⟨data', hrun, hdata'⟩ := foldlM_range hcopies h
  exact ⟨data', hrun, by rwa [Nat.sub_add_cancel hn] at hdata'⟩

/-- One turn of the loop that magnifies makes the next `scale` rows of the buffer what they are to be. -/
theorem holds_scaledTurn (line : BitRow) {scale n i : Nat} {bold : Bool} (hscale : 0 < scale) (hi : i < n)
    (hfit : ∀ j < line.width, ∀ k < (if bold then 2 else 1) * scale, (j * scale + k) / 8 < pitch)
    (hwant : ∀ k < scale, ∀ x, want x (i * scale + k) ↔ boldBit bold line ((x : Int) / scale) = true)
    (h : Holds pitch (n * scale) (fun x y => y < i * scale ∧ want x y) data) :
    ∃ data', (scaledRow line scale ((if bold then 2 else 1) * scale) (i * scale * pitch) pitch data >>=
        repeatRow (i * scale * pitch) pitch scale) = .ok data' ∧
      Holds pitch (n * scale) (fun x y => y < (i + 1) * scale ∧ want x y) data' := by
  have hroom := Nat.mul_le_mul_right scale (Nat.succ_le_of_lt hi)
  rw [Nat.succ_mul] at hroom
  obtain ⟨row, hrow, hholds⟩ := adds_scaledRow hscale hfit (show i * scale < n * scale by omega) _ data h
  obtain ⟨data', hrest, hdata'⟩ := holds_repeatRow hscale hroom
    (fun k hk x => (hwant k hk x).trans (hwant 0 hscale x).symm) (hholds.next fun x => (hwant 0 hscale x).symm)
  refine ⟨data', ?_, by rwa [Nat.succ_mul]⟩
  rw [hrow]
  exact hrest

end Rows

end Holds

/-! ## Whole pictures -/

theorem expandBoldLoop_eq (buffer data : Array UInt8) (pitch : Nat) (width height : Int) :
    expandBoldLoop buffer data pitch width height = expandBoldIn buffer data pitch width height := by
  rw [expandBoldIn_eq, expandBoldLoop]
  by_cases hpitch : bitPitch (width + 1) = 0
  · rw [if_pos hpitch, if_pos hpitch]
  -- The buffer falls into as many whole rows as the picture has.
  have hstart := holds_reset buffer (bitPitch (width + 1)) height.toNat
  have hrows : (Buffer.reset buffer (bitPitch (width + 1) * height.toNat)).size / bitPitch (width + 1) =
      height.toNat := by
    rw [hstart.size, Nat.mul_div_cancel _ (Nat.pos_of_ne_zero hpitch)]
  have hfit : width.toNat / 8 < bitPitch (width + 1) := by
    have : bitPitch (width + 1) ≠ 0 := hpitch
    rw [bitPitch] at this ⊢
    omega
  obtain ⟨out, hrun, hout⟩ := foldlM_range (n := height.toNat)
    (P := fun i => Holds (bitPitch (width + 1)) height.toNat fun x y =>
      y < i ∧ boldBit true (.ofPicture data pitch y width) x = true)
    (fun i hi mid hmid => by
      obtain ⟨mid', hrow, hmid'⟩ := adds_boldRow (.ofPicture data pitch i width) hfit hi _ mid hmid
      exact ⟨mid', hrow, hmid'.next fun _ => Iff.rfl⟩)
    (hstart.congr fun _ _ => by simp)
  have hpacked : out = packBits (bitPitch (width + 1)) height.toNat fun x y =>
      boldBit true (.ofPicture data pitch y width) x :=
    (hout.congr fun _ hy => and_iff_right hy).unique (holds_packBits _ _ _)
  simp only [if_neg hpitch, hrows, hrun, hpacked]
  rfl

theorem expandScaleLoop_eq (buffer data : Array UInt8) (pitch : Nat) (width height scale : Int) (bold : Bool) :
    expandScaleLoop buffer data pitch width height scale bold =
      .ok (expandScaleIn buffer data pitch width height scale bold) := by
  obtain ⟨s, hs, hpos⟩ : ∃ s : Nat, max scale 1 = s ∧ 0 < s := ⟨(max scale 1).toNat, by omega, by omega⟩
  obtain ⟨n, hn⟩ : ∃ n : Nat, max height 0 = n := ⟨height.toNat, by omega⟩
  have hrows : ((n : Int) * s).toNat = n * s := by rw [← Int.natCast_mul, Int.toNat_natCast]
  simp only [expandScaleIn_eq, expandScaleLoop, hs, hn, Int.toNat_natCast, hrows]
  generalize hpitch : bitPitch ((width + if bold then 1 else 0) * s) = pitch'
  -- Also the neighbour of the last bit of a row lies in it: the picture is one column wider in bold.
  have hfit : ∀ j < width.toNat, ∀ k < (if bold then 2 else 1) * s, (j * s + k) / 8 < pitch' := by
    intro j hj k hk
    have hle := Int.mul_le_mul_of_nonneg_right (show (j : Int) + 1 ≤ width by omega) (Int.natCast_nonneg s)
    rw [← hpitch]
    refine div_lt_pitch ?_
    cases bold <;> simp only [Bool.false_eq_true, if_true, if_false, Int.add_mul] at hk hle ⊢ <;> omega
  have hplace : ∀ i, ∀ k < s, (i * s + k) / s = i := fun i k hk => by
    rw [Nat.mul_comm, Nat.mul_add_div hpos, Nat.div_eq_of_lt hk, Nat.add_zero]
  obtain ⟨out, hrun, hout⟩ := foldlM_range (n := n)
    (P := fun i => Holds pitch' (n * s) fun x y =>
      y < i * s ∧ boldBit bold (.ofPicture data pitch (y / s) width) ((x : Int) / s) = true)
    (fun i hi mid hmid => holds_scaledTurn (.ofPicture data pitch i width) hpos hi hfit
      (fun k hk x => by rw [hplace i k hk]) hmid)
    ((holds_reset buffer pitch' (n * s)).congr fun _ _ => by simp)
  have hpacked : out = packBits pitch' (n * s) fun x y =>
      boldBit bold (.ofPicture data pitch (y / s) width) ((x : Int) / s) :=
    (hout.congr fun _ hy => and_iff_right hy).unique (holds_packBits _ _ _)
  rw [hrun, hpacked]
  rfl

end Rasterizer
