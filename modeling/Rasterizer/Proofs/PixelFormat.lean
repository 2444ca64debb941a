import Rasterizer.PixelFormat
import Mathlib.Tactic.IntervalCases

/-! # Packing and unpacking

A channel whose mask is a run of at most eight bits stores the high bits of its colour
(`Channel.toNat_pack`). Spreading what is stored over 0 to 255 keeps it in its bucket (`spread_div`), so
packing a pixel's colour gives back the bits of the pixel that its format uses, and a colour that has been
packed and unpacked once stays as it is (`PixelFormat.packing_round_trip`). -/

namespace Rasterizer

/-! ## Runs of bits -/

theorem testBit_run (low n i : Nat) :
    ((2 ^ n - 1) <<< low).testBit i = decide (low ≤ i ∧ i < low + n) := by
  rw [Nat.testBit_shiftLeft, Nat.testBit_two_pow_sub_one, ← Bool.decide_and, decide_eq_decide]
  omega

theorem countP_run (low n m : Nat) :
    (List.range m).countP (fun i => decide (low ≤ i ∧ i < low + n)) = min m (low + n) - low := by
  induction m with
  | zero => simp
  | succ m ih =>
    rw [List.range_succ, List.countP_append, ih, List.countP_singleton]
    split
    next hm =>
      rw [decide_eq_true_eq] at hm
      omega
    next hm =>
      rw [decide_eq_true_eq] at hm
      omega

/-- Numbers of `n` bits, spread over 0 to 255 and rounded to nearest, are the high bits of what they become. -/
theorem spread_div {n v : Nat} (hn : 1 ≤ n) (hn' : n ≤ 8) (hv : v < 2 ^ n) :
    (v * 255 + (2 ^ n - 1) / 2) / (2 ^ n - 1) < 256 ∧
      (v * 255 + (2 ^ n - 1) / 2) / (2 ^ n - 1) / 2 ^ (8 - n) = v := by
  interval_cases n <;> simp at hv ⊢ <;> omega

theorem toNat_ofNat_mod {n : Nat} (h : n < 32) : (UInt32.ofNat n).toNat % 32 = n := by
  rw [UInt32.toNat_ofNat', Nat.mod_eq_of_lt (by omega : n < 2 ^ 32), Nat.mod_eq_of_lt h]

namespace Channel

/-- The channel takes `n` neighbouring bits of a pixel from `low` on. -/
structure Takes (c : Channel) (low n : Nat) : Prop where
  pos : 1 ≤ n
  le_eight : n ≤ 8
  le_width : low + n ≤ 32
  mask : c.mask.toNat = (2 ^ n - 1) <<< low

instance (c : Channel) (low n : Nat) : Decidable (c.Takes low n) :=
  decidable_of_iff (1 ≤ n ∧ n ≤ 8 ∧ low + n ≤ 32 ∧ c.mask.toNat = (2 ^ n - 1) <<< low)
    ⟨fun h => ⟨h.1, h.2.1, h.2.2.1, h.2.2.2⟩, fun h => ⟨h.pos, h.le_eight, h.le_width, h.mask⟩⟩

/-- The mask is empty or a run of at most eight bits. -/
def IsRun (c : Channel) : Prop := c.mask = 0 ∨ ∃ low < 32, ∃ n < 9, c.Takes low n

instance : DecidablePred IsRun := fun c =>
  inferInstanceAs (Decidable (c.mask = 0 ∨ ∃ low < 32, ∃ n < 9, c.Takes low n))

variable {c : Channel} {low n : Nat}

theorem Takes.testBit (h : c.Takes low n) :
    c.mask.toNat.testBit = fun i => decide (low ≤ i ∧ i < low + n) := by
  funext i
  rw [h.mask, testBit_run]

theorem Takes.mask_ne_zero (h : c.Takes low n) : c.mask ≠ 0 := by
  intro hzero
  have hlow := congrFun h.testBit low
  have := h.pos
  rw [hzero, decide_eq_true (by omega)] at hlow
  simp at hlow

theorem Takes.bits_eq (h : c.Takes low n) : c.bits = n := by
  have := h.le_eight
  have := h.le_width
  rw [c.bits_eq, bitCount, h.testBit, countP_run]
  omega

theorem Takes.shift_eq (h : c.Takes low n) : c.shift = low := by
  have := h.pos
  have := h.le_width
  have hfirst : (List.range 32).find? c.mask.toNat.testBit = some low := by
    rw [h.testBit, List.find?_range_eq_some, List.mem_range]
    refine ⟨decide_eq_true (by omega), by omega, fun j hj => ?_⟩
    rw [decide_eq_false (by omega)]
    rfl
  rw [c.shift_eq, lowestBit, hfirst, Option.getD_some]

/-- What a pixel stores of the channel. -/
theorem Takes.toNat_pack (h : c.Takes low n) (v : UInt8) :
    (c.pack v).toNat = (v.toNat / 2 ^ (8 - n)) <<< low := by
  have hpos := h.pos
  have hle := h.le_eight
  have hwidth := h.le_width
  have hv : v.toNat / 2 ^ (8 - n) < 2 ^ n := by
    rw [Nat.div_lt_iff_lt_mul (Nat.two_pow_pos _), ← Nat.pow_add, Nat.add_sub_cancel' hle]
    exact v.toNat_lt
  have hfits : (v.toNat / 2 ^ (8 - n)) <<< low < 2 ^ 32 := by
    calc (v.toNat / 2 ^ (8 - n)) <<< low = v.toNat / 2 ^ (8 - n) * 2 ^ low := Nat.shiftLeft_eq ..
      _ < 2 ^ n * 2 ^ low := Nat.mul_lt_mul_of_pos_right hv (Nat.two_pow_pos _)
      _ = 2 ^ (n + low) := (Nat.pow_add ..).symm
      _ ≤ 2 ^ 32 := Nat.pow_le_pow_right (by decide) (by omega)
  rw [pack, if_neg h.mask_ne_zero, h.bits_eq, h.shift_eq, UInt32.toNat_and, UInt32.toNat_shiftLeft,
    UInt32.toNat_shiftRight, toNat_ofNat_mod (by omega), toNat_ofNat_mod (by omega), UInt8.toNat_toUInt32,
    Nat.shiftRight_eq_div_pow,
    Nat.mod_eq_of_lt hfits, h.mask, ← Nat.shiftLeft_and_distrib, Nat.and_two_pow_sub_one_eq_mod,
    Nat.mod_eq_of_lt hv]

/-- The number that a pixel stores for the channel. -/
theorem Takes.toNat_stored (h : c.Takes low n) (p : Pixel) :
    ((p &&& c.mask) >>> UInt32.ofNat c.shift).toNat = p.toNat >>> low % 2 ^ n := by
  have hwidth := h.le_width
  have hpos := h.pos
  rw [h.shift_eq, UInt32.toNat_shiftRight, toNat_ofNat_mod (by omega), UInt32.toNat_and, h.mask,
    Nat.shiftRight_and_distrib, Nat.shiftLeft_shiftRight, Nat.and_two_pow_sub_one_eq_mod]

theorem pack_unpack (h : c.IsRun) (p : Pixel) : c.pack (c.unpack p) = p &&& c.mask := by
  rcases h with hzero | ⟨low, -, n, -, h⟩
  · simp [pack, hzero]
  have hlt : p.toNat >>> low % 2 ^ n < 2 ^ n := Nat.mod_lt _ (Nat.two_pow_pos _)
  obtain ⟨hspread, hdiv⟩ := spread_div h.pos h.le_eight hlt
  rw [← UInt32.toNat_inj, h.toNat_pack, unpack, if_neg h.mask_ne_zero]
  dsimp only
  rw [h.toNat_stored, h.bits_eq, Nat.one_shiftLeft, UInt8.toNat_ofNat_of_lt' hspread, hdiv, UInt32.toNat_and,
    h.mask]
  refine Nat.eq_of_testBit_eq fun i => ?_
  rw [Nat.testBit_and, testBit_run, Nat.testBit_shiftLeft, Nat.testBit_mod_two_pow, Nat.testBit_shiftRight]
  by_cases hi : low ≤ i
  · have hin : i - low < n ↔ low ≤ i ∧ i < low + n := by omega
    rw [Nat.add_sub_cancel' hi, decide_eq_true hi, Bool.true_and, Bool.and_comm, decide_eq_decide.mpr hin]
  · simp [hi]

theorem pack_and_mask (c : Channel) (v : UInt8) : c.pack v &&& c.mask = c.pack v := by
  rw [pack]
  split
  next hzero => rw [hzero, UInt32.and_zero]
  next => rw [UInt32.and_assoc, UInt32.and_self]

/-- Other bits than those of the mask do not count. -/
theorem unpack_congr {p q : Pixel} (h : p &&& c.mask = q &&& c.mask) : c.unpack p = c.unpack q := by
  rw [unpack, unpack, h]

/-- What the channel keeps of an intensity. -/
def reduced (c : Channel) (v : UInt8) : UInt8 := c.unpack (c.pack v)

end Channel

/-! ## Words made of parts -/

namespace Pixel

variable {a b m k : Pixel}

theorem and_or_within (ha : a &&& m = a) (hb : b &&& k = b) : (a ||| b) &&& (m ||| k) = a ||| b := by
  rw [← UInt32.toNat_inj] at ha hb ⊢
  simp only [UInt32.toNat_and, UInt32.toNat_or] at ha hb ⊢
  refine Nat.eq_of_testBit_eq fun i => ?_
  have hai := congrArg (Nat.testBit · i) ha
  have hbi := congrArg (Nat.testBit · i) hb
  simp only [Nat.testBit_and, Nat.testBit_or] at hai hbi ⊢
  grind

theorem or_and (a b m : Pixel) : (a ||| b) &&& m = (a &&& m) ||| (b &&& m) := by
  rw [← UInt32.toNat_inj]
  simp only [UInt32.toNat_and, UInt32.toNat_or, Nat.and_or_distrib_right]

theorem and_or (p m k : Pixel) : p &&& (m ||| k) = (p &&& m) ||| (p &&& k) := by
  rw [← UInt32.toNat_inj]
  simp only [UInt32.toNat_and, UInt32.toNat_or, Nat.and_or_distrib_left]

/-- A part that lies within one mask has nothing in a disjoint one. -/
theorem and_eq_zero_of_within (ha : a &&& m = a) (hmk : m &&& k = 0) : a &&& k = 0 := by
  rw [← ha, UInt32.and_assoc, hmk, UInt32.and_zero]

end Pixel

namespace PixelFormat

def channels (f : PixelFormat) : List Channel := [f.red, f.green, f.blue, f.alpha]

/-- All bits of a pixel that mean something. -/
def used (f : PixelFormat) : Pixel := f.red.mask ||| f.green.mask ||| f.blue.mask ||| f.alpha.mask

/-- Each channel has a run of at most eight bits, if any, and no two share a bit. -/
structure Separate (f : PixelFormat) : Prop where
  runs : ∀ c ∈ f.channels, c.IsRun
  disjoint : f.channels.Pairwise fun c d => c.mask &&& d.mask = 0

instance : DecidablePred Separate := fun f =>
  decidable_of_iff ((∀ c ∈ f.channels, c.IsRun) ∧ f.channels.Pairwise fun c d => c.mask &&& d.mask = 0)
    ⟨fun h => ⟨h.1, h.2⟩, fun h => ⟨h.runs, h.disjoint⟩⟩

def presets : List PixelFormat := [indexed8, rgb565, rgb888, argb8888]

variable {f : PixelFormat}

theorem mapRgba_getRgba (h : ∀ c ∈ f.channels, c.IsRun) (p : Pixel) : f.mapRgba (f.getRgba p) = p &&& f.used := by
  simp only [channels, List.forall_mem_cons] at h
  obtain ⟨hred, hgreen, hblue, halpha, -⟩ := h
  have ha : f.alpha.pack (f.getRgba p).a = p &&& f.alpha.mask := by
    simp only [getRgba, hasAlpha, bne_iff_ne]
    split
    next => exact Channel.pack_unpack halpha p
    next hzero =>
      rw [not_not] at hzero
      simp [Channel.pack, hzero]
  simp only [mapRgba, used, Pixel.and_or, ha]
  simp only [getRgba, Channel.pack_unpack hred, Channel.pack_unpack hgreen, Channel.pack_unpack hblue]

theorem mapRgba_and_used (c : Color) : f.mapRgba c &&& f.used = f.mapRgba c :=
  Pixel.and_or_within (Pixel.and_or_within (Pixel.and_or_within (f.red.pack_and_mask _) (f.green.pack_and_mask _))
    (f.blue.pack_and_mask _)) (f.alpha.pack_and_mask _)

/-- The channels of a packed colour do not disturb each other. -/
theorem getRgba_mapRgba (h : f.channels.Pairwise fun c d => c.mask &&& d.mask = 0) (c : Color) :
    f.getRgba (f.mapRgba c) = ⟨f.red.reduced c.r, f.green.reduced c.g, f.blue.reduced c.b,
      if f.hasAlpha then f.alpha.reduced c.a else 255⟩ := by
  have hapart : ∀ {d e : Channel}, d.mask &&& e.mask = 0 →
      (∀ v, d.pack v &&& e.mask = 0) ∧ ∀ v, e.pack v &&& d.mask = 0 := fun hde =>
    ⟨fun v => Pixel.and_eq_zero_of_within (Channel.pack_and_mask _ v) hde,
      fun v => Pixel.and_eq_zero_of_within (Channel.pack_and_mask _ v) (by rw [UInt32.and_comm, hde])⟩
  simp only [channels, List.pairwise_cons, List.forall_mem_cons, List.not_mem_nil, false_implies, implies_true,
    and_true, List.Pairwise.nil] at h
  obtain ⟨⟨hrg, hrb, hra⟩, ⟨hgb, hga⟩, hba⟩ := h
  have hparts : ∀ d ∈ f.channels, ∀ v, d.pack v &&& d.mask = f.mapRgba c &&& d.mask →
      d.unpack (f.mapRgba c) = d.reduced v := fun d _ v hd => Channel.unpack_congr hd.symm
  simp only [channels, List.forall_mem_cons, mapRgba, Pixel.or_and, hapart hrg, hapart hrb, hapart hra, hapart hgb,
    hapart hga, hapart hba, UInt32.or_zero, UInt32.zero_or] at hparts
  obtain ⟨hred, hgreen, hblue, halpha, -⟩ := hparts
  rw [getRgba, mapRgba, hred _ rfl, hgreen _ rfl, hblue _ rfl, halpha _ rfl]

theorem separate_presets : ∀ f ∈ presets, f.Separate := by decide

theorem separate_of_alphaCompanion? {n : Nat} (h : alphaCompanion? n = some f) : f.Separate := by
  unfold alphaCompanion? at h
  split at h <;> cases h <;> decide

/-- Packing the colour of a pixel gives the pixel's used bits. A colour that has been packed and unpacked
stays the same from then on: each channel has what it keeps by itself, and a missing alpha is opaque. -/
theorem packing_round_trip :
    (∀ f ∈ presets, f.Separate) ∧ (∀ n f, alphaCompanion? n = some f → f.Separate) ∧
      ∀ f : PixelFormat, f.Separate →
        (∀ p, f.mapRgba (f.getRgba p) = p &&& f.used) ∧
          ∀ c, let d := f.getRgba (f.mapRgba c)
            f.getRgba (f.mapRgba d) = d ∧
              d = ⟨f.red.reduced c.r, f.green.reduced c.g, f.blue.reduced c.b,
                if f.hasAlpha then f.alpha.reduced c.a else 255⟩ := by
  refine ⟨separate_presets, fun n f => separate_of_alphaCompanion?, fun f h => ?_⟩
  refine ⟨mapRgba_getRgba h.runs, fun c => ⟨?_, getRgba_mapRgba h.disjoint c⟩⟩
  rw [mapRgba_getRgba h.runs, mapRgba_and_used]

/-- Five bits of red, none of green, three of blue and one of alpha, with unused bits between them. -/
theorem packing_round_trip_sparse :
    let f : PixelFormat :=
      ⟨4, .ofMask 0x7C00, .ofMask 0, .ofMask 0x38, .ofMask 0x80000000, by decide, by decide⟩
    f.Separate ∧ f.used = 0x80007C38 ∧ f.getRgba 0xDEADBEEF = ⟨123, 0, 182, 255⟩ ∧
      f.mapRgba ⟨123, 0, 182, 255⟩ = 0x80003C28 ∧
      f.getRgba (f.mapRgba ⟨255, 17, 100, 127⟩) = ⟨255, 0, 109, 0⟩ ∧
      f.getRgba (f.mapRgba ⟨255, 0, 109, 0⟩) = ⟨255, 0, 109, 0⟩ := by
  intro f
  have hf : f.Separate := by decide
  have hpixel : f.getRgba 0xDEADBEEF = ⟨123, 0, 182, 255⟩ := by decide
  have hcolor : f.getRgba (f.mapRgba ⟨255, 17, 100, 127⟩) = ⟨255, 0, 109, 0⟩ := by decide
  obtain ⟨hpixels, hcolors⟩ := packing_round_trip.2.2 f hf
  refine ⟨hf, by decide, hpixel, ?_, hcolor, ?_⟩
  · rw [← hpixel, hpixels]
    decide
  · rw [← hcolor]
    exact (hcolors _).1

end PixelFormat

end Rasterizer
