import Rasterizer.Proofs.Bitmap.Loops
import Rasterizer.Proofs.Bitmap.Moves

/-! # Mirrors in place

The loops that mirror a picture in its buffer: packed rows exchange bits at both ends, rows of
pixels are reversed as a whole and then each pixel by itself, and rows change places with rows.
Each turn of a loop moves the contents of a few places, so that a whole loop moves them to
their mirror images (`flipBitsLoop_eq`, `flipPixelsLoop_eq`, `flipRowsLoop_eq`). -/

namespace Rasterizer

/-! ## The loops -/

/-- The bit of the row of `pitch` bytes that begins at `start`. -/
def bitOf? (start pitch x : Nat) (data : Array UInt8) : Except Fault Bool :=
  if start + pitch ≤ data.size ∧ x / 8 < pitch then
    pure (data.getD (start + x / 8) 0 &&& 0x80 >>> UInt8.ofNat (x % 8) != 0)
  else throw .outOfRange

/-- Turns a bit of such a row over. -/
def toggleBitOf (start pitch x : Nat) (data : Array UInt8) : Except Fault (Array UInt8) :=
  if start + pitch ≤ data.size ∧ x / 8 < pitch then
    pure (data.modify (start + x / 8) (· ^^^ 0x80 >>> UInt8.ofNat (x % 8)))
  else throw .outOfRange

def exchangeBits (start pitch j k : Nat) (data : Array UInt8) : Except Fault (Array UInt8) := do
  let a ← bitOf? start pitch j data
  let b ← bitOf? start pitch k data
  if a != b then toggleBitOf start pitch j data >>= toggleBitOf start pitch k else pure data

def flipBitsLoop (data : Array UInt8) (w h : Int) (pitch : Nat) : Except Fault (Array UInt8) :=
  if pitch = 0 then throw .emptyRows
  else (List.range (wholeRows data.size pitch h)).foldlM (fun data i =>
    (List.range (w.toNat / 2)).foldlM (fun data j =>
      exchangeBits (i * pitch) pitch j (w.toNat - 1 - j) data) data) data

/-- Reverses the order of the `n` bytes from `start` on. -/
def reverseSlice (start n : Nat) (data : Array UInt8) : Except Fault (Array UInt8) :=
  if start + n ≤ data.size then
    pure (data.mapIdx fun i v => if start ≤ i ∧ i < start + n then data.getD (start + (n - 1 - (i - start))) v else v)
  else throw .outOfRange

/-- Mirrors the pixels of the row that begins at `start`. -/
def flipPixelRow (start pitch w bpp : Nat) (data : Array UInt8) : Except Fault (Array UInt8) :=
  if pitch < w * bpp then throw .outOfRange
  else do
    let data ← reverseSlice start (w * bpp) data
    if 1 < bpp then (List.range w).foldlM (fun data j => reverseSlice (start + j * bpp) bpp data) data
    else pure data

def flipPixelsLoop (data : Array UInt8) (w h : Int) (pitch bpp : Nat) : Except Fault (Array UInt8) :=
  if pitch = 0 then throw .emptyRows
  else (List.range (wholeRows data.size pitch h)).foldlM (fun data i =>
    flipPixelRow (i * pitch) pitch w.toNat bpp data) data

/-- Exchanges the row `i` of `pitch` elements with the row `k` behind it. -/
def exchangeRows {α : Type} (pitch i k : Nat) (data : Array α) : Except Fault (Array α) :=
  if (i + 1) * pitch ≤ k * pitch ∧ (k + 1) * pitch ≤ data.size then
    pure (data.mapIdx fun n v =>
      if i * pitch ≤ n ∧ n < (i + 1) * pitch then data.getD (k * pitch + (n - i * pitch)) v
      else if k * pitch ≤ n ∧ n < (k + 1) * pitch then data.getD (i * pitch + (n - k * pitch)) v
      else v)
  else throw .outOfRange

def flipRowsLoop {α : Type} (data : Array α) (h : Int) (pitch : Nat) : Except Fault (Array α) :=
  (List.range (h.toNat / 2)).foldlM (fun data i => exchangeRows pitch i (h.toNat - 1 - i) data) data

/-! ## Bits -/

/-- The bits of a buffer, one after another. -/
def bitAt (data : Array UInt8) (n : Nat) : Bool := packedBit data 0 n

theorem packedBit_eq_bitAt (data : Array UInt8) (start x : Nat) :
    packedBit data start x = bitAt data (start * 8 + x) := by
  rw [bitAt, packedBit, packedBit, show 0 + (start * 8 + x) / 8 = start + x / 8 by omega,
    show (start * 8 + x) % 8 = x % 8 by omega]

theorem bitAt_of_le {data : Array UInt8} {n : Nat} (hn : data.size * 8 ≤ n) : bitAt data n = false := by
  have : ¬n / 8 < data.size := by omega
  simp [bitAt, packedBit, Array.getD, this]

/-- A byte is known by its bits. -/
theorem getElem?_eq_of_bits {data data' : Array UInt8} {i : Nat} (hsize : data.size = data'.size)
    (h : ∀ k < 8, bitAt data (i * 8 + k) = bitAt data' (i * 8 + k)) : data[i]? = data'[i]? := by
  by_cases hi : i < data.size
  · rw [Array.getElem?_eq_getElem hi, Array.getElem?_eq_getElem (hsize ▸ hi)]
    refine congrArg some (byte_eq_of_testBit fun k hk => ?_)
    have hbit := h k hk
    rw [← packedBit_eq_bitAt, ← packedBit_eq_bitAt, packedBit, packedBit] at hbit
    simpa [Array.getD, show k / 8 = 0 by omega, Nat.mod_eq_of_lt hk, hi, hsize ▸ hi] using hbit
  · rw [Array.getElem?_eq_none (by omega), Array.getElem?_eq_none (by omega)]

theorem showsAll_bitAt : ShowsAll bitAt :=
  fun _ _ hsize h => Array.ext_getElem? fun _ => getElem?_eq_of_bits hsize fun _ _ => h _

/-- Bytes take their bits along. -/
theorem Moves.bits {size : Nat} {σ : Nat → Nat} {step : Array UInt8 → Except Fault (Array UInt8)}
    (h : Moves (fun (data : Array UInt8) n => data[n]?) size σ step) :
    Moves bitAt size (fun n => σ (n / 8) * 8 + n % 8) step := by
  intro data hsize
  obtain ⟨out, hstep, hout, hshow⟩ := h data hsize
  refine ⟨out, hstep, hout, fun n => ?_⟩
  have hbyte : out[n / 8]? = data[σ (n / 8)]? := hshow (n / 8)
  dsimp only
  rw [bitAt, bitAt, packedBit, packedBit, Nat.zero_add, Nat.zero_add, Array.getD_eq_getD_getElem?,
    Array.getD_eq_getD_getElem?, hbyte, show (σ (n / 8) * 8 + n % 8) / 8 = σ (n / 8) by omega,
    show (σ (n / 8) * 8 + n % 8) % 8 = n % 8 by omega]

theorem and_mask_ne_zero (v : UInt8) {m : Nat} (hm : m < 8) :
    (v &&& 0x80 >>> UInt8.ofNat m != 0) = v.toNat.testBit (7 - m) := by
  have hbit : ∀ k < 8, (v &&& 0x80 >>> UInt8.ofNat m).toNat.testBit (7 - k) =
      (v.toNat.testBit (7 - k) && decide (k = m)) := by
    intro k hk
    rw [UInt8.toNat_and, Nat.testBit_and, testBit_mask hm hk]
  cases hv : v.toNat.testBit (7 - m) with
  | true =>
    refine bne_iff_ne.mpr fun hzero => ?_
    have := hbit m hm
    simp [hzero, hv] at this
  | false =>
    refine bne_eq_false_iff_eq.mpr (byte_eq_of_testBit fun k hk => ?_)
    rw [hbit k hk]
    by_cases hkm : k = m
    · simp [hkm, hv]
    · simp [hkm]

section Bits

variable {size start pitch j k n : Nat} {data : Array UInt8}

theorem bitOf?_eq (hrow : start + pitch ≤ data.size) (hj : j / 8 < pitch) :
    bitOf? start pitch j data = .ok (bitAt data (start * 8 + j)) := by
  rw [bitOf?, if_pos ⟨hrow, hj⟩, and_mask_ne_zero _ (Nat.mod_lt _ (by decide)), ← packedBit_eq_bitAt, packedBit]
  rfl

theorem exists_toggleBitOf (hrow : start + pitch ≤ data.size) (hj : j / 8 < pitch) :
    ∃ data', toggleBitOf start pitch j data = .ok data' ∧ data'.size = data.size ∧
      ∀ n, bitAt data' n = (bitAt data n ^^ decide (n = start * 8 + j)) := by
  refine ⟨_, if_pos ⟨hrow, hj⟩, Array.size_modify, fun n => ?_⟩
  by_cases hn : n / 8 < data.size
  · simp only [bitAt, packedBit, Array.getD, Array.size_modify, Nat.zero_add, hn, dite_true,
      Array.getInternal_eq_getElem, Array.getElem_modify]
    by_cases hbyte : start + j / 8 = n / 8
    · rw [if_pos hbyte, UInt8.toNat_xor, Nat.testBit_xor,
        testBit_mask (Nat.mod_lt _ (by decide)) (Nat.mod_lt _ (by decide))]
      congr 2
      exact propext (by omega)
    · rw [if_neg hbyte, decide_eq_false (by omega), Bool.xor_false]
  · rw [bitAt_of_le (by rw [Array.size_modify]; omega), bitAt_of_le (by omega), decide_eq_false (by omega)]
    rfl

/-- Two bits that differ are both turned over, so they change places. -/
theorem moves_exchangeBits (hrow : start + pitch ≤ size) (hj : j / 8 < pitch) (hk : k / 8 < pitch) :
    Moves bitAt size (Equiv.swap (start * 8 + j) (start * 8 + k)) (exchangeBits start pitch j k) := by
  rintro data rfl
  simp only [exchangeBits, bitOf?_eq hrow hj, bitOf?_eq hrow hk]
  generalize ha : start * 8 + j = a
  generalize hb : start * 8 + k = b
  by_cases hsame : bitAt data a = bitAt data b
  · refine ⟨data, by simp [hsame, bind, Except.bind, pure, Except.pure], rfl, fun n => ?_⟩
    rw [Equiv.swap_apply_def]
    split_ifs with hna hnb
    · rw [hna, hsame]
    · rw [hnb, hsame]
    · rfl
  · obtain ⟨mid, hmid, hsize, hbits⟩ := exists_toggleBitOf hrow hj
    obtain ⟨out, hout, hsize', hbits'⟩ := exists_toggleBitOf (hsize ▸ hrow) hk
    refine ⟨out, by simp [hsame, bind, Except.bind, hmid, hout], hsize'.trans hsize, fun n => ?_⟩
    have hne : a ≠ b := fun h => hsame (h ▸ rfl)
    have hother : bitAt data b = !bitAt data a := Bool.eq_not.mpr (Ne.symm hsame)
    rw [hbits', hbits, ha, hb, Equiv.swap_apply_def]
    split_ifs with hna hnb
    · simp [hna, hne, hother]
    · simp [hnb, Ne.symm hne, hother]
    · simp [hna, hnb]

end Bits

/-! ## Mirrored rows of bits -/

section FlipBits

variable {size pitch : Nat} {w h : Int} {data : Array UInt8}

theorem moves_exchangeEnds {w i : Nat} (hrow : i * pitch + pitch ≤ size) (hw : w ≤ pitch * 8) :
    Moves bitAt size (alongRow (pitch * 8) i (mirror w)) fun data =>
      (List.range (w / 2)).foldlM (fun data j => exchangeBits (i * pitch) pitch j (w - 1 - j) data) data := by
  refine (Moves.foldlM (s := fun j => alongRow (pitch * 8) i (Equiv.swap j (w - 1 - j)))
    (fun m => alongRow (pitch * 8) i (mirrorEnds w m)) (fun j hj => ?_) (fun n => ?_)
    fun j hj n => ?_).congr fun n => ?_
  · refine (moves_exchangeBits hrow (by omega) (by omega)).congr fun n => ?_
    rw [Nat.mul_assoc]
    exact swap_eq_alongRow (by omega) (by omega) n
  · exact alongRow_id (mirrorEnds_zero w) n
  · rw [alongRow_alongRow (by omega) fun x hx => swap_lt (by omega) (by omega) hx]
    simp only [alongRow, mirrorEnds_succ hj]
  · simp only [alongRow, mirrorEnds_half]

theorem mirror_lt {n p x : Nat} (hn : n ≤ p) (hx : x < p) : mirror n x < p := by
  unfold mirror
  split <;> omega

theorem wholeRows_mul_le (size pitch : Nat) (h : Int) : wholeRows size pitch h * pitch ≤ size :=
  (Nat.mul_le_mul_right pitch (Nat.min_le_left ..)).trans (Nat.div_mul_le_self size pitch)

/-- The rows exchange their bits one after another. -/
theorem moves_flipBitsLoop (hpitch : 0 < pitch) (hfit : 0 < wholeRows size pitch h → w.toNat ≤ pitch * 8) :
    Moves bitAt size (alongRows (pitch * 8) (wholeRows size pitch h) (mirror w.toNat))
      (flipBitsLoop · w h pitch) := by
  have hrows : Moves bitAt size (alongRows (pitch * 8) (wholeRows size pitch h) (mirror w.toNat)) fun data =>
      (List.range (wholeRows size pitch h)).foldlM (fun data i =>
        (List.range (w.toNat / 2)).foldlM (fun data j =>
          exchangeBits (i * pitch) pitch j (w.toNat - 1 - j) data) data) data := by
    refine Moves.foldlM (s := fun i => alongRow (pitch * 8) i (mirror w.toNat))
      (fun r => alongRows (pitch * 8) r (mirror w.toNat)) (fun i hi => ?_) (alongRows_zero _ _) fun i hi n => ?_
    · exact moves_exchangeEnds (row_le hi (wholeRows_mul_le ..)) (hfit (by omega))
    · exact alongRows_succ (by omega) (fun x hx => mirror_lt (hfit (by omega)) hx) n
  refine hrows.of_eq fun data hsize => ?_
  rw [flipBitsLoop, if_neg (Nat.ne_of_gt hpitch), hsize]

theorem moves_flipBits (hpitch : 0 < pitch) (hfit : 0 < wholeRows size pitch h → w.toNat ≤ pitch * 8) :
    Moves bitAt size (alongRows (pitch * 8) (wholeRows size pitch h) (mirror w.toNat))
      (flipBits · w h pitch) := by
  rintro data rfl
  refine ⟨_, (if_neg (Nat.ne_of_gt hpitch)).trans (if_neg (by omega)), Array.size_mapIdx, fun n => ?_⟩
  have hbehind := wholeRows_mul_le data.size pitch h
  generalize wholeRows data.size pitch h = rows at hfit hbehind
  have hrow : n / 8 / pitch = n / (pitch * 8) := by rw [Nat.div_div_eq_div_mul, Nat.mul_comm]
  have hcolumn : n / 8 % pitch * 8 + n % 8 = n % (pitch * 8) := by
    rw [Nat.mul_comm pitch, Nat.mod_mul]
    ring
  by_cases hn : n / 8 < data.size
  · rw [bitAt, packedBit, Nat.zero_add, getD_mapIdx hn, alongRows]
    by_cases hinside : n / (pitch * 8) < rows
    · rw [if_pos (hrow ▸ hinside), if_pos hinside, testBit_packByte _ (Nat.mod_lt _ (by decide)),
        packedBit_eq_bitAt, hcolumn, hrow, Nat.mul_assoc]
      rfl
    · rw [if_neg (hrow ▸ hinside), if_neg hinside, bitAt, packedBit, Nat.zero_add]
  · have hend : rows * (pitch * 8) ≤ n := by
      rw [← Nat.mul_assoc]
      omega
    rw [bitAt_of_le (by rw [Array.size_mapIdx]; omega), alongRows_of_le (by omega) hend, bitAt_of_le (by omega)]

/-- A loop whose first turn fails fails with it. -/
theorem foldlM_range_error {α : Type} {m : Nat} {step : Array α → Nat → Except Fault (Array α)} {data : Array α}
    {fault : Fault} (hm : 0 < m) (h : step data 0 = .error fault) :
    (List.range m).foldlM step data = .error fault := by
  obtain ⟨m, rfl⟩ := Nat.exists_eq_add_of_lt hm
  rw [Nat.zero_add, List.range_succ_eq_map, List.foldlM_cons, h]
  rfl

/-- The loop mirrors packed rows, and fails where a row does not hold the bits that it is to exchange. -/
theorem flipBitsLoop_eq (data : Array UInt8) (w h : Int) (pitch : Nat) :
    flipBitsLoop data w h pitch = flipBits data w h pitch := by
  by_cases hpitch : pitch = 0
  · rw [flipBitsLoop, if_pos hpitch]
    exact (if_pos hpitch).symm
  by_cases hfit : 0 < wholeRows data.size pitch h → w.toNat ≤ pitch * 8
  · exact (moves_flipBitsLoop (by omega) hfit).unique showsAll_bitAt (moves_flipBits (by omega) hfit) rfl
  · obtain ⟨hrows, hwide⟩ := Classical.not_imp.mp hfit
    have hfirst : 0 * pitch + pitch ≤ data.size := row_le hrows (wholeRows_mul_le ..)
    have hfault : exchangeBits (0 * pitch) pitch 0 (w.toNat - 1 - 0) data = .error .outOfRange := by
      rw [exchangeBits, bitOf?_eq hfirst (by omega), bitOf?, if_neg (by omega)]
      rfl
    rw [flipBitsLoop, if_neg hpitch, foldlM_range_error hrows (foldlM_range_error (by omega) hfault)]
    exact ((if_neg hpitch).trans (if_pos ⟨hrows, by omega, by omega⟩)).symm

end FlipBits

/-! ## Mirrored rows of pixels -/

section FlipPixels

variable {size pitch : Nat} {w h : Int} {data : Array UInt8}

theorem moves_reverseSlice {start n : Nat} (hin : start + n ≤ size) :
    Moves (fun (data : Array UInt8) i => data[i]?) size (turn start n) (reverseSlice start n) := by
  have hmoves : Moves (fun (data : Array UInt8) i => data[i]?) size (turn start n) fun data =>
      pure (data.mapIdx fun i v =>
        if start ≤ i ∧ i < start + n then data.getD (start + (n - 1 - (i - start))) v else v) := by
    refine moves_mapIdx (fun i => ?_) fun data _ i hi => ?_
    · unfold turn
      split <;> omega
    · unfold turn
      split
      · rfl
      · simp
  exact hmoves.of_eq fun data hsize => if_pos (by rwa [hsize])

/-- The pixels of a row change places with their bytes in order. -/
theorem moves_flipPixelRow {w i bpp : Nat} (hrow : i * pitch + pitch ≤ size) (hw : w * bpp ≤ pitch)
    (hpitch : 0 < pitch) :
    Moves (fun (data : Array UInt8) n => data[n]?) size (alongRow pitch i (acrossRows bpp (mirror w)))
      (flipPixelRow (i * pitch) pitch w bpp) := by
  have hwhole : Moves (fun (data : Array UInt8) n => data[n]?) size (alongRow pitch i (mirror (w * bpp)))
      (reverseSlice (i * pitch) (w * bpp)) := (moves_reverseSlice (by omega)).congr (turn_mul hw)
  have heach : 1 < bpp → Moves (fun (data : Array UInt8) n => data[n]?) size
      (alongRow pitch i (alongRows bpp w (mirror bpp)))
      fun data => (List.range w).foldlM (fun data j => reverseSlice (i * pitch + j * bpp) bpp data) data := by
    intro hbpp
    have hpixel : ∀ j < w, j * bpp + bpp ≤ pitch := fun j hj => (row_le hj le_rfl).trans hw
    have hmirror : ∀ x < bpp, mirror bpp x < bpp := fun x => mirror_lt_iff.mpr
    refine Moves.foldlM (s := fun j => alongRow pitch i (alongRow bpp j (mirror bpp)))
      (fun m => alongRow pitch i (alongRows bpp m (mirror bpp))) (fun j hj => ?_) (fun n => ?_) fun j hj n => ?_
    · have := hpixel j hj
      refine (moves_reverseSlice (by omega)).congr fun n => ?_
      rw [turn_add (hpixel j hj)]
      simp only [alongRow, turn_mul le_rfl]
    · exact alongRow_id (alongRows_zero _ _) n
    · rw [alongRow_alongRow hpitch fun x hx => alongRow_lt (by omega) hmirror (hpixel j hj) hx]
      simp only [alongRow, alongRows_succ (show 0 < bpp by omega) hmirror]
  have hturned : Moves (fun (data : Array UInt8) n => data[n]?) size (alongRow pitch i (acrossRows bpp (mirror w)))
      fun data => reverseSlice (i * pitch) (w * bpp) data >>= fun data =>
        if 1 < bpp then (List.range w).foldlM (fun data j => reverseSlice (i * pitch + j * bpp) bpp data) data
        else pure data := by
    by_cases hbpp : 1 < bpp
    · simp only [hbpp, if_true]
      refine (hwhole.bind (heach hbpp)).congr fun n => ?_
      rw [alongRow_alongRow hpitch fun x => (alongRows_lt_iff (by omega) (fun x => mirror_lt_iff.mpr) hw).mpr]
      simp only [mirror_alongRows (show 0 < bpp by omega)]
    · simp only [hbpp, if_false]
      refine (hwhole.bind (moves_pure _ size)).congr fun n => ?_
      have hsame : ∀ c, mirror (w * bpp) c = acrossRows bpp (mirror w) c := by
        obtain rfl | rfl : bpp = 0 ∨ bpp = 1 := by omega
        · simp [mirror, acrossRows]
        · simp [acrossRows, Nat.mod_one]
      simp only [alongRow, hsame, id_eq]
  exact hturned.of_eq fun data hsize => if_neg (by omega)

theorem moves_flipPixelsLoop {bpp : Nat} (hpitch : 0 < pitch)
    (hfit : 0 < wholeRows size pitch h → w.toNat * bpp ≤ pitch) :
    Moves (fun (data : Array UInt8) n => data[n]?) size
      (alongRows pitch (wholeRows size pitch h) (acrossRows bpp (mirror w.toNat)))
      (flipPixelsLoop · w h pitch bpp) := by
  have hrows : Moves (fun (data : Array UInt8) n => data[n]?) size
      (alongRows pitch (wholeRows size pitch h) (acrossRows bpp (mirror w.toNat))) fun data =>
        (List.range (wholeRows size pitch h)).foldlM (fun data i =>
          flipPixelRow (i * pitch) pitch w.toNat bpp data) data := by
    refine Moves.foldlM (s := fun i => alongRow pitch i (acrossRows bpp (mirror w.toNat)))
      (fun r => alongRows pitch r (acrossRows bpp (mirror w.toNat))) (fun i hi => ?_) (alongRows_zero _ _)
      fun i hi n => ?_
    · exact moves_flipPixelRow (row_le hi (wholeRows_mul_le ..)) (hfit (by omega)) hpitch
    · exact alongRows_succ hpitch (fun x hx => acrossRows_lt (fun y => mirror_lt_iff.mpr)
        (fun y => mirror_of_le) (hfit (by omega)) hx) n
  refine hrows.of_eq fun data hsize => ?_
  rw [flipPixelsLoop, if_neg (Nat.ne_of_gt hpitch), hsize]

theorem moves_flipPixels {bpp : Nat} (hpitch : 0 < pitch)
    (hfit : 0 < wholeRows size pitch h → w.toNat * bpp ≤ pitch) :
    Moves (fun (data : Array UInt8) n => data[n]?) size
      (alongRows pitch (wholeRows size pitch h) (acrossRows bpp (mirror w.toNat)))
      (flipPixels · w h pitch bpp) := by
  have hbehind := wholeRows_mul_le size pitch h
  have hin : 0 < wholeRows size pitch h → ∀ c < pitch, acrossRows bpp (mirror w.toNat) c < pitch := fun hrows c =>
    acrossRows_lt (fun y => mirror_lt_iff.mpr) (fun y => mirror_of_le) (hfit hrows)
  have hmoves : Moves (fun (data : Array UInt8) n => data[n]?) size
      (alongRows pitch (wholeRows size pitch h) (acrossRows bpp (mirror w.toNat))) fun data =>
        pure (data.mapIdx fun i v =>
          if i / pitch < wholeRows size pitch h ∧ i % pitch < w.toNat * bpp then
            data.getD (i / pitch * pitch + (w.toNat - 1 - i % pitch / bpp) * bpp + i % pitch % bpp) v
          else v) := by
    refine moves_mapIdx (fun n => ?_) fun data _ n hn => ?_
    · rcases Nat.eq_zero_or_pos (wholeRows size pitch h) with hnone | hrows
      · rw [hnone, alongRows_zero]
      · exact alongRows_lt_iff hpitch (hin hrows) hbehind
    · rw [alongRows, acrossRows_mirror]
      by_cases hrow : n / pitch < wholeRows size pitch h
      · by_cases hcolumn : n % pitch < w.toNat * bpp
        · rw [if_pos ⟨hrow, hcolumn⟩, if_pos hrow, if_pos hcolumn, Nat.add_assoc]
        · rw [if_neg fun hboth => hcolumn hboth.2, if_pos hrow, if_neg hcolumn, Nat.div_add_mod']
          simp [hn]
      · rw [if_neg fun hboth => hrow hboth.1, if_neg hrow]
        simp [hn]
  refine hmoves.of_eq fun data hsize => ?_
  subst hsize
  exact (if_neg (Nat.ne_of_gt hpitch)).trans (if_neg (by omega))

theorem flipPixelsLoop_eq (data : Array UInt8) (w h : Int) (pitch bpp : Nat) :
    flipPixelsLoop data w h pitch bpp = flipPixels data w h pitch bpp := by
  by_cases hpitch : pitch = 0
  · rw [flipPixelsLoop, if_pos hpitch]
    exact (if_pos hpitch).symm
  by_cases hfit : 0 < wholeRows data.size pitch h → w.toNat * bpp ≤ pitch
  · exact (moves_flipPixelsLoop (by omega) hfit).unique showsAll_getElem? (moves_flipPixels (by omega) hfit) rfl
  · obtain ⟨hrows, hwide⟩ := Classical.not_imp.mp hfit
    have hfault : flipPixelRow (0 * pitch) pitch w.toNat bpp data = .error .outOfRange := if_pos (by omega)
    rw [flipPixelsLoop, if_neg hpitch, foldlM_range_error hrows hfault]
    exact ((if_neg hpitch).trans (if_pos ⟨hrows, by omega⟩)).symm

end FlipPixels

/-! ## Mirrored rows -/

section FlipRows

variable {α : Type} {size pitch : Nat} {h : Int} {data : Array α}

theorem moves_exchangeRows {i k : Nat} (hik : i < k) (hk : k * pitch + pitch ≤ size) :
    Moves (fun (data : Array α) n => data[n]?) size (acrossRows pitch (Equiv.swap i k)) (exchangeRows pitch i k) := by
  have hroom := Nat.mul_le_mul_right pitch (Nat.succ_le_of_lt hik)
  have hmoves : Moves (fun (data : Array α) n => data[n]?) size (acrossRows pitch (Equiv.swap i k)) fun data =>
      pure (data.mapIdx fun n v =>
        if i * pitch ≤ n ∧ n < (i + 1) * pitch then data.getD (k * pitch + (n - i * pitch)) v
        else if k * pitch ≤ n ∧ n < (k + 1) * pitch then data.getD (i * pitch + (n - k * pitch)) v
        else v) := by
    refine moves_mapIdx (fun n => ?_) fun data _ n hn => ?_
    · exact acrossRows_lt_iff (r := k + 1) (fun y hy => swap_lt (by omega) (by omega) hy)
        (fun y hy => Equiv.swap_apply_of_ne_of_ne (by omega) (by omega)) (Equiv.swap_apply_self i k)
        (by rwa [Nat.succ_mul])
    · rcases Nat.eq_zero_or_pos pitch with rfl | hp
      · simp [acrossRows, hn]
      obtain ⟨y, x, hx, rfl⟩ : ∃ y x, x < pitch ∧ n = y * pitch + x :=
        ⟨n / pitch, n % pitch, Nat.mod_lt n hp, (Nat.div_add_mod' n pitch).symm⟩
      rw [acrossRows_eq hx, Equiv.swap_apply_def]
      simp only [inside_row_iff hx]
      split_ifs with hi hk'
      · rw [show y * pitch + x - i * pitch = x by rw [hi, Nat.add_sub_cancel_left]]
      · rw [show y * pitch + x - k * pitch = x by rw [hk', Nat.add_sub_cancel_left]]
      · simp
  exact hmoves.of_eq fun data hsize => if_pos ⟨hroom, by rwa [Nat.succ_mul, hsize]⟩

theorem moves_flipRowsLoop (hfit : 2 ≤ h → h.toNat * pitch ≤ size) :
    Moves (fun (data : Array α) n => data[n]?) size (acrossRows pitch (mirror h.toNat)) (flipRowsLoop · h pitch) := by
  refine (Moves.foldlM (s := fun i => acrossRows pitch (Equiv.swap i (h.toNat - 1 - i)))
    (fun m => acrossRows pitch (mirrorEnds h.toNat m)) (fun i hi => ?_) (fun n => ?_)
    fun i hi n => ?_).congr fun n => ?_
  · exact moves_exchangeRows (by omega) (row_le (r := h.toNat) (by omega) (hfit (by omega)))
  · simp only [acrossRows, mirrorEnds_zero, Nat.div_add_mod']
  · rw [acrossRows_acrossRows]
    simp only [acrossRows, mirrorEnds_succ hi]
  · simp only [acrossRows, mirrorEnds_half]

theorem moves_flipRows (hfit : 2 ≤ h → h.toNat * pitch ≤ size) :
    Moves (fun (data : Array α) n => data[n]?) size (acrossRows pitch (mirror h.toNat)) (flipRows · h pitch) := by
  have hmoves : Moves (fun (data : Array α) n => data[n]?) size (acrossRows pitch (mirror h.toNat)) fun data =>
      pure (data.mapIdx fun n v =>
        if n / pitch < h.toNat then data.getD ((h.toNat - 1 - n / pitch) * pitch + n % pitch) v else v) := by
    refine moves_mapIdx (fun n => ?_) fun data _ n hn => ?_
    · by_cases hrows : 2 ≤ h
      · exact acrossRows_lt_iff (fun y => mirror_lt_iff.mpr) (fun y => mirror_of_le) (mirror_mirror _) (hfit hrows)
      · simp only [acrossRows, mirror_of_le_one (show h.toNat ≤ 1 by omega), Nat.div_add_mod']
    · rw [acrossRows, mirror]
      by_cases hrow : n / pitch < h.toNat
      · rw [if_pos hrow, if_pos hrow]
      · rw [if_neg hrow, if_neg hrow, Nat.div_add_mod']
        simp [hn]
  refine hmoves.of_eq fun data hsize => if_neg ?_
  rintro ⟨hrows, hshort⟩
  have := hfit (by omega)
  omega

theorem flipRowsLoop_eq (data : Array α) (h : Int) (pitch : Nat) :
    flipRowsLoop data h pitch = flipRows data h pitch := by
  by_cases hfit : 2 ≤ h → h.toNat * pitch ≤ data.size
  · exact (moves_flipRowsLoop hfit).unique showsAll_getElem? (moves_flipRows hfit) rfl
  · obtain ⟨hrows, hshort⟩ := Classical.not_imp.mp hfit
    have hfault : exchangeRows pitch 0 (h.toNat - 1 - 0) data = .error .outOfRange := by
      refine if_neg ?_
      rw [show h.toNat - 1 - 0 + 1 = h.toNat by omega]
      omega
    rw [flipRowsLoop, foldlM_range_error (by omega) hfault]
    exact (if_pos (by omega)).symm

end FlipRows

/-! ## Mirror images -/

/-- The first `rows` rows of `pitch` bytes show their `w` bits from right to left, and the rest is the same. -/
structure BitsMirrored (w rows pitch : Nat) (data out : Array UInt8) : Prop where
  size : out.size = data.size
  bits : ∀ y < rows, ∀ x < w, packedBit out (y * pitch) x = packedBit data (y * pitch) (w - 1 - x)
  padding : ∀ y < rows, ∀ x < 8 * pitch, w ≤ x → packedBit out (y * pitch) x = packedBit data (y * pitch) x
  behind : ∀ i, rows * pitch ≤ i → out[i]? = data[i]?

/-- The first `rows` rows of `pitch` bytes show their `w` pixels of `bpp` bytes from right to left, each
pixel with its bytes in order, and the rest is the same. -/
structure PixelsMirrored (w bpp rows pitch : Nat) (data out : Array UInt8) : Prop where
  size : out.size = data.size
  pixels : ∀ y < rows, ∀ x < w, ∀ b < bpp,
    out[y * pitch + (x * bpp + b)]? = data[y * pitch + ((w - 1 - x) * bpp + b)]?
  padding : ∀ y < rows, ∀ c < pitch, w * bpp ≤ c → out[y * pitch + c]? = data[y * pitch + c]?
  behind : ∀ i, rows * pitch ≤ i → out[i]? = data[i]?

/-- The first `h` rows of `pitch` elements stand from bottom to top, and the rest is the same. -/
structure RowsMirrored {α : Type} (h pitch : Nat) (data out : Array α) : Prop where
  size : out.size = data.size
  rows : ∀ y < h, ∀ x < pitch, out[y * pitch + x]? = data[(h - 1 - y) * pitch + x]?
  behind : ∀ i, h * pitch ≤ i → out[i]? = data[i]?

/-- The step makes what it should of the buffer, and made twice it leaves the buffer as it was. -/
def Mirrors {α : Type} (step : Array α → Except Fault (Array α)) (data : Array α)
    (Mirrored : Array α → Array α → Prop) : Prop :=
  ∃ out, step data = .ok out ∧ Mirrored data out ∧ step out = .ok data

section Mirrors

variable {β : Type} {w h pitch bpp size p : Nat} {data : Array UInt8}

theorem Moves.mirrors {α β : Type} {view : Array α → Nat → β} {σ : Nat → Nat}
    {step : Array α → Except Fault (Array α)} {data : Array α} {Mirrored : Array α → Array α → Prop}
    (hmoves : Moves view data.size σ step) (hview : ShowsAll view) (hσ : ∀ n, σ (σ n) = n)
    (hmirrored : ∀ out : Array α, out.size = data.size → (∀ n, view out n = view data (σ n)) → Mirrored data out) :
    Mirrors step data Mirrored := by
  obtain ⟨out, hstep, hsize, hshow⟩ := hmoves data rfl
  have hback := hmoves.undone hview hσ rfl
  rw [hstep] at hback
  exact ⟨out, hstep, hmirrored out hsize hshow, hback⟩

theorem moves_flipBits_of_le (hpitch : 0 < pitch) (hw : w ≤ 8 * pitch) (h size : Nat) :
    Moves bitAt size (alongRows (pitch * 8) (wholeRows size pitch h) (mirror w)) (flipBits · w h pitch) :=
  moves_flipBits (w := w) hpitch fun _ => by rw [Int.toNat_natCast]; omega

theorem moves_flipPixels_of_le (hpitch : 0 < pitch) (hw : w * bpp ≤ pitch) (h size : Nat) :
    Moves (fun (data : Array UInt8) n => data[n]?) size
      (alongRows pitch (wholeRows size pitch h) (acrossRows bpp (mirror w))) (flipPixels · w h pitch bpp) :=
  moves_flipPixels (w := w) hpitch fun _ => hw

theorem moves_flipRows_of_le {α : Type} (hsize : 2 ≤ h → h * pitch ≤ size) :
    Moves (fun (data : Array α) n => data[n]?) size (acrossRows pitch (mirror h)) (flipRows · h pitch) :=
  moves_flipRows (h := h) fun h2 => hsize (by omega)

theorem mirrors_flipBits (hpitch : 0 < pitch) (hw : w ≤ 8 * pitch) (h : Nat) (data : Array UInt8) :
    Mirrors (flipBits · w h pitch) data (BitsMirrored w (wholeRows data.size pitch h) pitch) := by
  have hmoves := moves_flipBits_of_le hpitch hw h data.size
  generalize wholeRows data.size pitch h = rows at hmoves
  have hplace : ∀ y < rows, ∀ x < 8 * pitch, alongRows (pitch * 8) rows (mirror w) (y * pitch * 8 + x) =
      y * pitch * 8 + mirror w x := by
    intro y hy x hx
    rw [Nat.mul_assoc]
    exact alongRows_of_lt (by omega) hy
  refine hmoves.mirrors showsAll_bitAt ?_ fun out hsize hbits => ⟨hsize, fun y hy x hx => ?_, fun y hy x hx hwx => ?_,
    fun i hi => ?_⟩
  · exact alongRows_alongRows (by omega) (fun x => mirror_lt (by omega)) fun x _ => mirror_mirror w x
  · rw [packedBit_eq_bitAt, packedBit_eq_bitAt, hbits, hplace y hy x (by omega), mirror, if_pos hx]
  · rw [packedBit_eq_bitAt, packedBit_eq_bitAt, hbits, hplace y hy x hx, mirror_of_le hwx]
  · refine getElem?_eq_of_bits hsize fun k hk => ?_
    rw [hbits, alongRows_of_le (by omega)]
    rw [← Nat.mul_assoc]
    omega

theorem mirrors_flipPixels (hpitch : 0 < pitch) (hw : w * bpp ≤ pitch) (h : Nat) (data : Array UInt8) :
    Mirrors (flipPixels · w h pitch bpp) data (PixelsMirrored w bpp (wholeRows data.size pitch h) pitch) := by
  have hmoves := moves_flipPixels_of_le hpitch hw h data.size
  generalize wholeRows data.size pitch h = rows at hmoves
  refine hmoves.mirrors showsAll_getElem? ?_ fun out hsize hshow => ⟨hsize, fun y hy x hx b hb => ?_,
    fun y hy c hc hwc => ?_, fun i hi => ?_⟩
  · refine alongRows_alongRows hpitch (fun c => acrossRows_lt (fun y => mirror_lt_iff.mpr) (fun y => mirror_of_le) hw)
      fun c _ => ?_
    simp only [acrossRows_acrossRows, mirror_mirror, acrossRows_id]
  · have hc := (place_lt hb hx).trans_le hw
    rw [hshow, alongRows_of_lt hc hy, acrossRows_eq hb, mirror, if_pos hx]
  · rw [hshow, alongRows_of_lt hc hy, acrossRows_mirror, if_neg (by omega)]
  · rw [hshow, alongRows_of_le hpitch hi]

theorem mirrors_flipRows {α : Type} {data : Array α} (hsize : h * pitch ≤ data.size) :
    Mirrors (flipRows · h pitch) data (RowsMirrored h pitch) := by
  have hmoves : Moves (fun (data : Array α) n => data[n]?) data.size _ (flipRows · h pitch) :=
    moves_flipRows_of_le fun _ => hsize
  refine hmoves.mirrors showsAll_getElem? (fun n => ?_) fun out hout hshow => ⟨hout, fun y hy x hx => ?_,
    fun i hi => ?_⟩
  · simp only [acrossRows_acrossRows, mirror_mirror, acrossRows_id]
  · rw [hshow, acrossRows_eq hx, mirror, if_pos hy]
  · rw [hshow, acrossRows_mirror, if_neg (by omega)]

theorem wholeRows_eq (hpitch : 0 < pitch) (hsize : h * pitch ≤ size) : wholeRows size pitch h = h :=
  Nat.min_eq_right ((Nat.le_div_iff_mul_le hpitch).mpr hsize)

/-- What moves along the rows and the mirror across them may be made in either order: where rows are
missing, both orders fail. -/
theorem comm_flipRows {view : Array UInt8 → Nat → β} {step : Array UInt8 → Except Fault (Array UInt8)}
    {g : Nat → Nat} (hview : ShowsAll view) (hp : 0 < p) (hg : ∀ x < p, g x < p) (hpitch : 0 < pitch)
    (hstep : Moves view data.size (alongRows p (wholeRows data.size pitch h) g) step)
    (hrows : (2 ≤ h → h * pitch ≤ data.size) →
      Moves view data.size (acrossRows p (mirror h)) (flipRows · h pitch)) :
    (step data >>= (flipRows · h pitch)) = (flipRows data h pitch >>= step) := by
  by_cases hfit : 2 ≤ h → h * pitch ≤ data.size
  · refine hstep.comm hview (hrows hfit) (alongRows_acrossRows hp hg fun y => ?_) rfl
    by_cases h2 : 2 ≤ h
    · rw [wholeRows_eq hpitch (hfit h2)]
      exact mirror_lt_iff
    · rw [mirror_of_le_one (by omega)]
  · have hfault : ∀ out : Array UInt8, out.size = data.size → flipRows out h pitch = .error .outOfRange :=
      fun out hout => if_pos (by simp only [hout, Int.toNat_natCast]; omega)
    obtain ⟨out, hout, hsize, -⟩ := hstep data rfl
    rw [hout, hfault data rfl]
    exact hfault out hsize

theorem flipBits_comm_flipRows (hpitch : 0 < pitch) (hw : w ≤ 8 * pitch) (h : Nat) (data : Array UInt8) :
    (flipBits data w h pitch >>= (flipRows · h pitch)) = (flipRows data h pitch >>= (flipBits · w h pitch)) := by
  have hbits := moves_flipBits_of_le hpitch hw h data.size
  exact comm_flipRows showsAll_bitAt (by omega) (fun x => mirror_lt (by omega)) hpitch hbits fun hfit =>
    (moves_flipRows_of_le hfit).bits.congr (acrossRows_bits pitch (mirror h))

theorem flipPixels_comm_flipRows (hpitch : 0 < pitch) (hw : w * bpp ≤ pitch) (h : Nat) (data : Array UInt8) :
    (flipPixels data w h pitch bpp >>= (flipRows · h pitch)) =
      (flipRows data h pitch >>= (flipPixels · w h pitch bpp)) := by
  have hpixels := moves_flipPixels_of_le hpitch hw h data.size
  exact comm_flipRows showsAll_getElem? hpitch
    (fun x => acrossRows_lt (fun y => mirror_lt_iff.mpr) (fun y => mirror_of_le) hw) hpitch hpixels fun hfit =>
      moves_flipRows_of_le hfit

end Mirrors

/-- The loops are the mirrors. On a buffer of any size a picture is mirrored exactly, padding and what
lies behind its rows stays, a mirror made twice changes nothing, and mirrors along and across the rows
may be made in either order. -/
theorem flips_mirror (w h pitch : Nat) (hpitch : 0 < pitch) (data : Array UInt8) :
    (flipBitsLoop data w h pitch = flipBits data w h pitch ∧
      (∀ bpp, flipPixelsLoop data w h pitch bpp = flipPixels data w h pitch bpp) ∧
      ∀ {α : Type} (elements : Array α), flipRowsLoop elements h pitch = flipRows elements h pitch) ∧
    (w ≤ 8 * pitch →
      Mirrors (flipBits · w h pitch) data (BitsMirrored w (wholeRows data.size pitch h) pitch) ∧
      (flipBits data w h pitch >>= (flipRows · h pitch)) = (flipRows data h pitch >>= (flipBits · w h pitch))) ∧
    (∀ bpp, w * bpp ≤ pitch →
      Mirrors (flipPixels · w h pitch bpp) data (PixelsMirrored w bpp (wholeRows data.size pitch h) pitch) ∧
      (flipPixels data w h pitch bpp >>= (flipRows · h pitch)) =
        (flipRows data h pitch >>= (flipPixels · w h pitch bpp))) ∧
    ∀ {α : Type} (elements : Array α), h * pitch ≤ elements.size →
      Mirrors (flipRows · h pitch) elements (RowsMirrored h pitch) := by
  refine ⟨⟨flipBitsLoop_eq .., flipPixelsLoop_eq data w h pitch, fun elements => flipRowsLoop_eq elements h pitch⟩,
    fun hw => ?_, fun bpp hw => ?_, fun elements => mirrors_flipRows⟩
  · exact ⟨mirrors_flipBits hpitch hw h data, flipBits_comm_flipRows hpitch hw h data⟩
  · exact ⟨mirrors_flipPixels hpitch hw h data, flipPixels_comm_flipRows hpitch hw h data⟩

/-- Two rows of nine bits in two bytes each, which are four pixels as well. -/
theorem flips_mirror_nine :
    0 < 2 ∧ Mirrors (flipBits · 9 2 2) #[0xC0, 0, 0x20, 0] (BitsMirrored 9 2 2) ∧
      Mirrors (flipPixels · 2 2 2 1) #[0xC0, 0, 0x20, 0] (PixelsMirrored 2 1 2 2) ∧
      Mirrors (flipRows · 2 2) (#[0xC0, 0, 0x20, 0] : Array UInt8) (RowsMirrored 2 2) := by
  have hbits := flips_mirror 9 2 2 (by decide) #[0xC0, 0, 0x20, 0]
  have hpixels := flips_mirror 2 2 2 (by decide) #[0xC0, 0, 0x20, 0]
  exact ⟨by decide, (hbits.2.1 (by decide)).1, (hpixels.2.2.1 1 (by decide)).1, hpixels.2.2.2 _ (by decide)⟩

example : flipBits #[0xC0, 0, 0x20, 0] 9 2 2 = .ok #[1, 128, 2, 0] := by decide

end Rasterizer
