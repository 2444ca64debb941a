import Rasterizer.Proofs.Bitmap.Bits
import Rasterizer.Proofs.Text.Ink

/-! # The regular weight

The runs of a row are its bits again (`expand_runLengths`), so the marks of a picture touch a place exactly
if the bit that is drawn there is set (`RegularWeight.touched_marks`). Spans of one value leave it on each
pixel that they touch, if it may be touched (`Painter.get?_markAll_of_touches`). -/

namespace Rasterizer

/-! ## Runs -/

/-- The values that runs stand for. -/
def expandRuns (runs : List (Bool × Nat)) : List Bool := runs.flatMap fun r => List.replicate r.2 r.1

theorem expand_runLengths (bs : List Bool) : expandRuns (runLengths bs) = bs := by
  fun_induction runLengths bs with
  | case1 => rfl
  | case2 bs c n rest heq ih =>
    rw [heq] at ih
    rw [← ih]
    simp [expandRuns, List.replicate_succ]
  | case3 b bs c n rest heq hne ih =>
    rw [heq] at ih
    rw [← ih]
    simp [expandRuns]
  | case4 b bs heq ih =>
    rw [heq] at ih
    rw [← ih]
    simp [expandRuns]

theorem BitRow.getElem?_bits (r : BitRow) {x : Int} (hx : 0 ≤ x) :
    r.bits[x.toNat]? = some true ↔ r.get x = true := by
  rw [bits, List.getElem?_map, Option.map_eq_some_iff]
  constructor
  · rintro ⟨k, hk, hbit⟩
    rw [List.getElem?_eq_some_iff] at hk
    obtain ⟨hlt, rfl⟩ := hk
    rwa [List.getElem_range, Int.toNat_of_nonneg hx] at hbit
  · intro hbit
    have hwidth := (BitRow.get_iff.mp hbit).2.1
    exact ⟨x.toNat, by rw [List.getElem?_range (by omega)], by rwa [Int.toNat_of_nonneg hx]⟩

/-- The place of a picture at `origin` that is drawn at `(x, y)`. -/
def Slant.source (slant : Slant) (origin : Point) (x y : Int) : Point :=
  ⟨x - origin.x - slant.shift (y - origin.y), y - origin.y⟩

namespace RegularWeight

variable {origin : Point} {scale row : Int} {slant : Slant} {text : Pixel} {x y : Int}

theorem ediv_eq_iff (hscale : 1 ≤ scale) (a : Int) :
    a / scale = row ↔ row * scale ≤ a ∧ a < row * scale + scale := by
  have hle : row ≤ a / scale ↔ row * scale ≤ a := Int.le_ediv_iff_mul_le (by omega)
  have hlt : a / scale < row + 1 ↔ a < (row + 1) * scale := Int.ediv_lt_iff_lt_mul (by omega)
  rw [Int.add_mul] at hlt
  omega

/-- The marks of one run touch the squares of its bits. -/
theorem touched_runMarks (hscale : 1 ≤ scale) (k : Int) {n : Nat} (hn : 0 < n) :
    (∃ m ∈ runMarks origin scale row slant text k n, m.Touches x y) ↔
      (slant.source origin x y).y / scale = row ∧ k ≤ (slant.source origin x y).x / scale ∧
        (slant.source origin x y).x / scale < k + n := by
  have hwidth := Int.mul_le_mul_of_nonneg_right (show 1 ≤ (n : Int) by omega) (show 0 ≤ scale by omega)
  rw [ediv_eq_iff hscale, Int.le_ediv_iff_mul_le (by omega), Int.ediv_lt_iff_lt_mul (by omega)]
  simp only [runMarks, List.mem_map, mem_irange, Slant.source, Int.add_mul]
  constructor
  · rintro ⟨m, ⟨i, hi, rfl⟩, hy, hx⟩
    rw [show y - origin.y = row * scale + i by omega]
    omega
  · intro h
    refine ⟨_, ⟨y - origin.y - row * scale, by omega, rfl⟩, by omega, ?_⟩
    rw [show row * scale + (y - origin.y - row * scale) = y - origin.y by omega]
    omega

/-- The marks of the runs of a row from the bit `k` on touch the squares of its set bits. -/
theorem touched_rowMarks (hscale : 1 ≤ scale) {k : Int} {runs : List (Bool × Nat)}
    (hruns : ∀ r ∈ runs, 0 < r.2) :
    (∃ m ∈ rowMarks origin scale row slant text k runs, m.Touches x y) ↔
      (slant.source origin x y).y / scale = row ∧ k ≤ (slant.source origin x y).x / scale ∧
        (expandRuns runs)[((slant.source origin x y).x / scale - k).toNat]? = some true := by
  induction runs generalizing k with
  | nil => simp [rowMarks, expandRuns]
  | cons r rest ih =>
    obtain ⟨set, n⟩ := r
    obtain ⟨hn, hrest⟩ := List.forall_mem_cons.mp hruns
    have hrun : (∃ m ∈ runMarks origin scale row slant text k n, m.Touches x y) ↔ _ :=
      touched_runMarks hscale k hn
    have hexpand : expandRuns ((set, n) :: rest) = List.replicate n set ++ expandRuns rest := rfl
    simp only [rowMarks, List.mem_append, or_and_right, exists_or, ih hrest, hexpand, List.getElem?_append,
      List.length_replicate]
    generalize slant.source origin x y = q at hrun ⊢
    generalize q.x / scale = a at hrun ⊢
    by_cases hafter : a < k + n
    · -- the bit belongs to the first run, or lies before it
      have hrest : ¬k + n ≤ a := by omega
      by_cases hk : k ≤ a
      · rw [if_pos (show (a - k).toNat < n by omega), List.getElem?_replicate_of_lt (by omega)]
        cases set with
        | true => simp [hrun, hrest, hk, hafter]
        | false => simp [hrest]
      · cases set with
        | true => simp [hrun, hrest, hk]
        | false => simp [hrest, hk]
    · have hk : k ≤ a := by omega
      have hrest : k + n ≤ a := by omega
      rw [if_neg (show ¬(a - k).toNat < n by omega), show (a - (k + n)).toNat = (a - k).toNat - n by omega]
      cases set with
      | true => simp [hrun, hrest, hk, hafter]
      | false => simp [hrest, hk]

/-- The marks of a row touch the squares of its set bits. -/
theorem touched_runs (hscale : 1 ≤ scale) (r : BitRow) :
    (∃ m ∈ rowMarks origin scale row slant text 0 r.runs, m.Touches x y) ↔
      (slant.source origin x y).y / scale = row ∧ r.get ((slant.source origin x y).x / scale) = true := by
  rw [BitRow.runs, touched_rowMarks hscale fun r => pos_of_mem_runLengths, expand_runLengths, Int.sub_zero]
  refine and_congr_right fun _ => ⟨fun h => (r.getElem?_bits h.1).mp h.2, fun h => ?_⟩
  have hleft := (BitRow.get_iff.mp h).1
  exact ⟨hleft, (r.getElem?_bits hleft).mpr h⟩

/-- The marks of a picture touch the squares of its set bits, each row moved as it leans. -/
theorem touched_marks (hscale : 1 ≤ scale) {b : BitPicture} :
    (∃ m ∈ marks b scale origin slant text, m.Touches x y) ↔
      b.bit ((slant.source origin x y).x / scale) ((slant.source origin x y).y / scale) = true := by
  have hrows : (∃ m ∈ marks b scale origin slant text, m.Touches x y) ↔
      ∃ i, (0 ≤ i ∧ i < b.h) ∧
        ∃ m ∈ rowMarks origin scale i slant text 0 (b.row i).runs, m.Touches x y := by
    simp only [marks, BitPicture.rowNumbers, List.mem_flatMap, mem_irange, max_eq_left hscale]
    constructor
    · rintro ⟨m, ⟨i, hi, hm⟩, htouch⟩
      exact ⟨i, by omega, m, hm, htouch⟩
    · rintro ⟨i, hi, m, hm, htouch⟩
      exact ⟨m, ⟨i, by omega, hm⟩, htouch⟩
  simp only [hrows, touched_runs hscale]
  constructor
  · rintro ⟨i, -, rfl, hbit⟩
    exact hbit
  · intro hbit
    obtain ⟨-, -, hi, hi'⟩ := BitPicture.inside_of_bit hbit
    exact ⟨_, ⟨hi, hi'⟩, rfl, hbit⟩

theorem mem_rowMarks {k : Int} {runs : List (Bool × Nat)} {m : Mark}
    (hm : m ∈ rowMarks origin scale row slant text k runs) : ∃ x1 x2 y, m = .span x1 x2 y text := by
  induction runs generalizing k with
  | nil => cases hm
  | cons r rest ih =>
    rcases List.mem_append.mp hm with hm | hm
    · split at hm
      · obtain ⟨j, -, rfl⟩ := List.mem_map.mp hm
        exact ⟨_, _, _, rfl⟩
      · cases hm
    · exact ih hm

theorem mem_marks {b : BitPicture} {m : Mark} (hm : m ∈ marks b scale origin slant text) :
    ∃ x1 x2 y, m = .span x1 x2 y text := by
  obtain ⟨i, -, hm⟩ := List.mem_flatMap.mp hm
  exact mem_rowMarks hm

end RegularWeight

namespace Painter

/-- Spans of one value leave it where they touch a pixel that may be touched. -/
theorem get?_markAll_of_touches {p : Painter} (hp : p.frame.Sound) (hrop : p.rop = .set) {value : Pixel}
    {ms : List Mark} (hms : ∀ m ∈ ms, ∃ x1 x2 y, m = .span x1 x2 y value) {x y : Int}
    (hreach : p.frame.reaches x y = true) (htouch : ∃ m ∈ ms, m.Touches x y) :
    (p.markAll ms).surface.get? x y = some (p.surface.format.kept value) := by
  induction ms generalizing p with
  | nil => obtain ⟨m, hm, -⟩ := htouch; cases hm
  | cons m ms ih =>
    obtain ⟨⟨x1, x2, y', rfl⟩, hrest⟩ := List.forall_mem_cons.mp hms
    have hdraws := draws_spanOf hp x1 x2 y' value
    have hrop' : (p.spanOf x1 x2 y' value).rop = .set := (congrArg Tool.rop hdraws.tool).trans hrop
    have hformat := (sameShape_of_frame hdraws.frame).format
    have hsound : (p.spanOf x1 x2 y' value).frame.Sound := hdraws.frame ▸ hp
    by_cases hlater : ∃ m ∈ ms, m.Touches x y
    · rw [← hformat]
      exact ih hsound hrop' hrest (hdraws.frame ▸ hreach) hlater
    · obtain ⟨m, hm, hspan⟩ := htouch
      obtain rfl := (List.mem_cons.mp hm).resolve_right fun hm => hlater ⟨m, hm, hspan⟩
      obtain ⟨v, hv⟩ := exists_get?_of_reaches hp hreach
      have hrow : Layer.row y' (stretch x1 x2 fun _ => some value) x y v = some value := by
        rw [Layer.row, if_pos hspan.1, stretch, if_pos hspan.2]
      refine (get?_markAll_of_not_touches hsound fun m hm htouch => hlater ⟨m, hm, htouch⟩).trans ?_
      rw [hdraws.get?, hv, Option.map_some, if_pos hreach, Layer.on, hrow, hrop]
      rfl

end Painter

end Rasterizer
