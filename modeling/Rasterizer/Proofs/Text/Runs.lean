import Rasterizer.Proofs.Text.Regular
import Rasterizer.Proofs.Text.Turned

/-! # Runs of a row

The runs of a row of bits are found by a scan from left to right (`BitRow.Yields`). They stand for the bits of
the row and for nothing else: written out one behind the other they are the bits again, none of them is empty,
and each is followed by one of the other value (`BitRow.yields_iff`, `expand_runLengths`, `isChain_runLengths`).
So the marks of the runs fill the squares of the set bits, each pixel once (`RegularWeight.draws_rowMarks`). -/

namespace Rasterizer

/-! ## Lists of runs -/

theorem head?_runLengths (bs : List Bool) : (runLengths bs).head?.map Prod.fst = bs.head? := by
  fun_induction runLengths bs with
  | case1 => rfl
  | case2 bs c n rest heq ih => rfl
  | case3 b bs c n rest heq hne ih => rfl
  | case4 b bs heq ih => rfl

/-- Equal bits that the next one is unlike are one run. -/
theorem runLengths_replicate_append {b : Bool} {bs : List Bool} (hnext : bs.head? ≠ some b) {n : Nat} (hn : 0 < n) :
    runLengths (List.replicate n b ++ bs) = (b, n) :: runLengths bs := by
  induction n with
  | zero => omega
  | succ n ih =>
    rw [List.replicate_succ, List.cons_append, runLengths]
    rcases Nat.eq_zero_or_pos n with rfl | hpos
    · have hhead := head?_runLengths bs
      rw [List.replicate_zero, List.nil_append]
      cases hruns : runLengths bs with
      | nil => rfl
      | cons r rest =>
        obtain ⟨c, m⟩ := r
        rw [hruns] at hhead
        exact if_neg fun h : b = c => hnext (h ▸ hhead.symm)
    · simp only [ih hpos, if_true]

theorem isChain_runLengths (bs : List Bool) : (runLengths bs).IsChain fun r s => s.1 = !r.1 := by
  fun_induction runLengths bs with
  | case1 => exact .nil
  | case2 bs c n rest heq ih =>
    rw [heq] at ih
    cases rest with
    | nil => exact .singleton _
    | cons s rest => exact List.isChain_cons_cons.mpr (List.isChain_cons_cons.mp ih)
  | case3 b bs c n rest heq hne ih =>
    rw [heq] at ih
    exact List.isChain_cons_cons.mpr ⟨Bool.eq_not.mpr (Ne.symm hne), ih⟩
  | case4 b bs heq ih => exact .singleton _

/-! ## The scan -/

namespace BitRow

variable {r : BitRow} {pos : Int}

/-- The place behind the bits from `pos` on that have the value. -/
def runEnd (r : BitRow) (set : Bool) (pos : Int) : Int :=
  if pos < r.width ∧ r.get pos = set then r.runEnd set (pos + 1) else pos
termination_by (r.width - pos).toNat
decreasing_by omega

/-- The run that begins at `pos`, and the place behind it. -/
def nextRun? (r : BitRow) (pos : Int) : Option ((Bool × Nat) × Int) :=
  if r.width ≤ pos then none
  else
    let stop := r.runEnd (r.get pos) (pos + 1)
    some ((r.get pos, (stop - pos).toNat), stop)

/-- The runs met from `pos` on, until there is none. -/
inductive Yields (r : BitRow) : Int → List (Bool × Nat) → Prop where
  | done {pos : Int} (h : r.nextRun? pos = none) : Yields r pos []
  | next {pos pos' : Int} {run : Bool × Nat} {rest : List (Bool × Nat)} (h : r.nextRun? pos = some (run, pos'))
      (hrest : Yields r pos' rest) : Yields r pos (run :: rest)

theorem Yields.unique {runs runs' : List (Bool × Nat)} (h : r.Yields pos runs) (h' : r.Yields pos runs') :
    runs = runs' := by
  induction h generalizing runs' with
  | done h =>
    cases h' with
    | done => rfl
    | next h' => rw [h] at h'; cases h'
  | next h _ ih =>
    cases h' with
    | done h' => rw [h] at h'; cases h'
    | next h' hrest =>
      rw [h] at h'
      cases h'
      rw [ih hrest]

/-- The scan stops at the end of the row or at a bit of the other value, and passes bits of the value only. -/
theorem runEnd_spec (r : BitRow) (set : Bool) (pos : Int) (h : pos ≤ r.width) :
    pos ≤ r.runEnd set pos ∧ r.runEnd set pos ≤ r.width ∧
      (∀ x, pos ≤ x → x < r.runEnd set pos → r.get x = set) ∧
      (r.runEnd set pos < r.width → r.get (r.runEnd set pos) ≠ set) := by
  fun_induction runEnd r set pos with
  | case1 pos hon ih =>
    obtain ⟨hle, hwidth, hpassed, hstop⟩ := ih (by omega)
    refine ⟨by omega, hwidth, fun x hx hx' => ?_, hstop⟩
    rcases eq_or_lt_of_le hx with rfl | hlt
    · exact hon.2
    · exact hpassed x hlt hx'
  | case2 pos hoff =>
    exact ⟨Int.le_refl pos, h, fun x hx hx' => by omega, fun hlt hbit => hoff ⟨hlt, hbit⟩⟩

/-- The bits from `pos` on: those of the run that begins there, and those behind it. -/
theorem map_get_irange (h : pos < r.width) :
    let stop := r.runEnd (r.get pos) (pos + 1)
    (irange pos (r.width - 1)).map r.get =
      List.replicate (stop - pos).toNat (r.get pos) ++ (irange stop (r.width - 1)).map r.get := by
  intro stop
  obtain ⟨hle, hwidth, hpassed, -⟩ := r.runEnd_spec (r.get pos) (pos + 1) (by omega)
  have hrun : (irange pos (stop - 1)).map r.get = List.replicate (stop - pos).toNat (r.get pos) := by
    refine List.eq_replicate_iff.mpr ⟨?_, fun b hb => ?_⟩
    · rw [List.length_map, length_irange]
      omega
    · obtain ⟨x, hx, rfl⟩ := List.mem_map.mp hb
      rw [mem_irange] at hx
      rcases eq_or_lt_of_le hx.1 with rfl | hlt
      · rfl
      · exact hpassed x hlt (by omega)
  have hsplit := irange_append (show pos ≤ stop - 1 + 1 by omega) (show stop - 1 ≤ r.width - 1 by omega)
  rw [← hsplit, List.map_append, hrun, Int.sub_add_cancel]

theorem yields_from (r : BitRow) (pos : Int) : r.Yields pos (runLengths ((irange pos (r.width - 1)).map r.get)) := by
  by_cases h : r.width ≤ pos
  · rw [irange_eq_nil (by omega)]
    exact .done (if_pos h)
  · obtain ⟨hle, hwidth, -, hstop⟩ := r.runEnd_spec (r.get pos) (pos + 1) (by omega)
    -- where the scan stops no bit goes on with the run, so the bits behind it have runs of their own
    have hnext : ((irange (r.runEnd (r.get pos) (pos + 1)) (r.width - 1)).map r.get).head? ≠ some (r.get pos) := by
      by_cases hend : r.runEnd (r.get pos) (pos + 1) < r.width
      · rw [irange_cons (by omega), List.map_cons, List.head?_cons]
        exact fun h => hstop hend (Option.some.inj h)
      · rw [irange_eq_nil (by omega)]
        simp
    rw [map_get_irange (by omega), runLengths_replicate_append hnext (by omega)]
    exact .next (if_neg h) (r.yields_from _)
termination_by (r.width - pos).toNat

theorem bits_eq (r : BitRow) : r.bits = (irange 0 (r.width - 1)).map r.get := by
  rw [bits, irange, List.map_map, show ((r.width : Int) - 1 - 0 + 1).toNat = r.width by omega]
  simp [Function.comp_def]

/-- The scan of a row meets its runs, and ends. -/
theorem yields_iff (r : BitRow) (runs : List (Bool × Nat)) : r.Yields 0 runs ↔ runs = r.runs := by
  have hyields : r.Yields 0 r.runs := by
    rw [BitRow.runs, bits_eq]
    exact r.yields_from 0
  constructor
  · exact fun h => h.unique hyields
  · rintro rfl
    exact hyields

end BitRow

/-! ## Marks of one value -/

namespace Painter

/-- Spans of one value without a common pixel. -/
theorem draws_markAll {p : Painter} (hp : p.frame.Sound) {value : Pixel} {ms : List Mark}
    (hms : ∀ m ∈ ms, ∃ x1 x2 y, m = .span x1 x2 y value)
    (hapart : ms.Pairwise fun m m' => ∀ x y, m.Touches x y → ¬m'.Touches x y) :
    Draws (fun x y _ => if ∃ m ∈ ms, m.Touches x y then some value else none) p (p.markAll ms) := by
  have hstep : ∀ q : Painter, q.frame = p.frame → q.tool = p.tool → ∀ m ∈ ms,
      Draws (fun x y _ => if m.Touches x y then some value else none) q (q.mark m) := by
    intro q hframe _ m hm
    obtain ⟨x1, x2, y', rfl⟩ := hms m hm
    refine (draws_spanOf (hframe ▸ hp) x1 x2 y' value).congr fun x y v _ => ?_
    rw [Layer.row, stretch, ← ite_and]
    exact if_congr Iff.rfl rfl rfl
  exact Draws.foldl_shapes hstep hapart fun x y _ => Iff.rfl

end Painter

/-! ## The regular weight -/

/-- What the regular weight has for the pixels of one row of bits: ink on the square of each set bit. -/
def BitRow.inkLayer (r : BitRow) (origin : Point) (scale row : Int) (slant : Slant) (text : Pixel) : Layer :=
  fun x y _ =>
    let q := slant.source origin x y
    if row * scale ≤ q.y ∧ q.y < row * scale + scale ∧ r.get (q.x / scale) = true then some text else none

namespace RegularWeight

variable {origin : Point} {scale row : Int} {slant : Slant} {text : Pixel}

theorem apart_runMarks (k : Int) (n : Nat) : (runMarks origin scale row slant text k n).Pairwise fun m m' =>
    ∀ x y, m.Touches x y → ¬m'.Touches x y := by
  refine List.pairwise_map.mpr ((pairwise_irange _ _).imp fun h x y htouch htouch' => ?_)
  have := htouch.1
  have := htouch'.1
  omega

/-- No pixel is touched twice: the runs lie one behind the other, and the marks of one run below each other. -/
theorem apart_rowMarks (hscale : 1 ≤ scale) {k : Int} {runs : List (Bool × Nat)} (hruns : ∀ r ∈ runs, 0 < r.2) :
    (rowMarks origin scale row slant text k runs).Pairwise fun m m' => ∀ x y, m.Touches x y → ¬m'.Touches x y := by
  induction runs generalizing k with
  | nil => exact .nil
  | cons r rest ih =>
    obtain ⟨set, n⟩ := r
    obtain ⟨hn, hrest⟩ := List.forall_mem_cons.mp hruns
    refine List.pairwise_append.mpr ⟨?_, ih hrest, fun m hm m' hm' x y htouch htouch' => ?_⟩
    · split
      · exact apart_runMarks k n
      · exact .nil
    · split at hm
      · have hfirst := (touched_runMarks hscale k hn).mp ⟨m, hm, htouch⟩
        have hlater := (touched_rowMarks hscale hrest).mp ⟨m', hm', htouch'⟩
        omega
      · cases hm

theorem rowMarks_of_lt (hscale : scale < 1) (k : Int) (runs : List (Bool × Nat)) :
    rowMarks origin scale row slant text k runs = [] := by
  induction runs generalizing k with
  | nil => rfl
  | cons r rest ih =>
    rw [rowMarks, ih, runMarks, irange_eq_nil (by omega), List.map_nil, ite_self, List.append_nil]

theorem draws_rowMarks {p : Painter} (hp : p.frame.Sound) (r : BitRow) (origin : Point) (scale row : Int)
    (slant : Slant) (text : Pixel) :
    Painter.Draws (r.inkLayer origin scale row slant text) p
      (p.markAll (rowMarks origin scale row slant text 0 r.runs)) := by
  by_cases hscale : 1 ≤ scale
  · refine (Painter.draws_markAll hp (fun m => mem_rowMarks)
      (apart_rowMarks hscale fun r' => pos_of_mem_runLengths)).congr fun x y v _ => if_congr ?_ rfl rfl
    exact (touched_runs hscale r).trans (by rw [ediv_eq_iff hscale, and_assoc])
  · rw [rowMarks_of_lt (by omega)]
    exact (Painter.draws_blank p).congr fun x y v _ => (if_neg (by omega)).symm

end RegularWeight

/-- Whatever the bytes and the width, the scan of a row meets runs that are its bits again, one behind the other,
none of them empty and each followed by one of the other value. Drawn in the regular weight they put ink on the
squares of the set bits, and on nothing else. -/
theorem BitRow.runs_spell_bits (data : Array UInt8) (start : Nat) (width : Int) :
    let row : BitRow := ⟨data, start, width.toNat⟩
    (∀ runs, row.Yields 0 runs ↔ runs = row.runs) ∧
      expandRuns row.runs = (irange 0 (width - 1)).map row.get ∧
      (∀ r ∈ row.runs, 1 ≤ r.2) ∧ (row.runs.IsChain fun r s => s.1 = !r.1) ∧
      ∀ p : Painter, p.frame.Sound → ∀ (origin : Point) (scale i : Int) (slant : Slant) (text : Pixel),
        Painter.Draws (row.inkLayer origin scale i slant text) p
          (p.markAll (RegularWeight.rowMarks origin scale i slant text 0 row.runs)) := by
  intro row
  refine ⟨row.yields_iff, ?_, fun r => pos_of_mem_runLengths, isChain_runLengths _, fun p hp => ?_⟩
  · have hwidth : ((row.width : Int) - 1 - 0 + 1).toNat = (width - 1 - 0 + 1).toNat := by
      rw [show row.width = width.toNat from rfl]
      omega
    rw [BitRow.runs, expand_runLengths, bits_eq, irange, irange, hwidth]
  · exact RegularWeight.draws_rowMarks hp row

/-- One byte for a row of eleven bits, drawn at twice its size beside the left edge of a clip. -/
theorem BitRow.runs_spell_bits_short :
    let row : BitRow := ⟨#[0xB0], 0, 11⟩
    row.runs = [(true, 1), (false, 1), (true, 2), (false, 7)] ∧
      row.Yields 0 [(true, 1), (false, 1), (true, 2), (false, 7)] ∧
      ∃ p, Painter.open? ⟨8, 2, .indexed8, Array.replicate 16 1, rfl⟩ (Region.Term.rect ⟨1, 0, 8, 2⟩).eval
          ⟨0, 0, 8, 2⟩ = some p ∧ p.frame.Sound ∧
        Painter.Draws (row.inkLayer ⟨0, 0⟩ 2 0 {} 5) p
          (p.markAll (RegularWeight.rowMarks ⟨0, 0⟩ 2 0 {} 5 0 row.runs)) := by
  intro row
  have hsome : (Painter.open? ⟨8, 2, .indexed8, Array.replicate 16 1, rfl⟩ (Region.Term.rect ⟨1, 0, 8, 2⟩).eval
      ⟨0, 0, 8, 2⟩).isSome = true := by decide
  obtain ⟨p, hopen⟩ := Option.isSome_iff_exists.mp hsome
  have hsound := (Painter.opened_of_some (Region.Term.rect ⟨1, 0, 8, 2⟩).built_eval.banded hopen).sound
  have hruns : row.runs = [(true, 1), (false, 1), (true, 2), (false, 7)] := by decide
  obtain ⟨hyields, -, -, -, hdraws⟩ := BitRow.runs_spell_bits #[0xB0] 0 11
  exact ⟨hruns, hruns ▸ (hyields row.runs).mpr rfl, p, hopen, hsound, hdraws p hsound ⟨0, 0⟩ 2 0 {} 5⟩

/-- In a glyph that leans the two rows of one bit, drawn at twice its size, are moved each by its own distance: what
they cover is no square. -/
theorem BitRow.runs_sheared :
    let marks := RegularWeight.rowMarks ⟨0, 0⟩ 2 0 ⟨true, 2, 3, false⟩ 5 0 (BitRow.mk #[0x80] 0 1).runs
    marks = [.span 1 2 0 5, .span 0 1 1 5] ∧
      ¬∃ left top : Int, ∀ x y, (∃ m ∈ marks, m.Touches x y) ↔
        (left ≤ x ∧ x < left + 2) ∧ top ≤ y ∧ y < top + 2 := by
  intro marks
  have hmarks : marks = [.span 1 2 0 5, .span 0 1 1 5] := by decide
  refine ⟨hmarks, ?_⟩
  rintro ⟨left, top, hsquare⟩
  rw [hmarks] at hsquare
  have hfirst := (hsquare 2 0).mp ⟨.span 1 2 0 5, by simp, by decide, by decide, by decide⟩
  have hsecond := (hsquare 0 1).mp ⟨.span 0 1 1 5, by simp, by decide, by decide, by decide⟩
  omega

end Rasterizer
