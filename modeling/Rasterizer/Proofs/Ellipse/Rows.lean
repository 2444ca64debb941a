import Rasterizer.Proofs.Ellipse.Walk
import Rasterizer.Proofs.RowSpans
import Mathlib.Order.Bounds.Basic
import Mathlib.Data.Int.LeastGreatest

/-! # The rows of an ellipse

The pairs of offsets that the walk meets lie one inside the other and use every offset of the longer
axis, and scaling to the shorter one leaves no offset out. So the half widths taper off from row to row
whichever axis is the longer one (`tapers_tall`, `tapers_wide`), and the filled ellipse has one run in
each of its rows (`runs_rows`). -/

namespace Rasterizer.Ellipse

/-! ## The offsets of the shorter axis -/

section Scaled

variable {long short k k' d : Int}

theorem scaled_eq_iff (hlong : 1 ≤ long) (hshort : 0 ≤ short) (hk : 0 ≤ k) :
    scaled long short k = d ↔ d * long ≤ k * short ∧ k * short < (d + 1) * long := by
  rw [scaled, Int.tdiv_eq_ediv_of_nonneg (Int.mul_nonneg hk hshort)]
  constructor
  · rintro rfl
    exact ⟨Int.ediv_mul_le _ (by omega), Int.lt_ediv_add_one_mul_self _ (by omega)⟩
  · rintro ⟨hlow, hhigh⟩
    exact le_antisymm (Int.le_of_lt_add_one (Int.ediv_lt_of_lt_mul (by omega) hhigh))
      ((Int.le_ediv_iff_mul_le (by omega)).mpr hlow)

theorem scaled_mono (hlong : 1 ≤ long) (hshort : 0 ≤ short) (hk : 0 ≤ k) (hkk' : k ≤ k') :
    scaled long short k ≤ scaled long short k' := by
  rw [scaled, scaled, Int.tdiv_eq_ediv_of_nonneg (Int.mul_nonneg hk hshort),
    Int.tdiv_eq_ediv_of_nonneg (Int.mul_nonneg (hk.trans hkk') hshort)]
  exact Int.ediv_le_ediv (by omega) (Int.mul_le_mul_of_nonneg_right hkk' hshort)

theorem scaled_zero : scaled long short 0 = 0 := by simp [scaled]

theorem scaled_long (hlong : 1 ≤ long) : scaled long short long = short :=
  Int.mul_tdiv_cancel_left _ (by omega)

/-- As the axis is not longer, no offset is left out. -/
theorem exists_scaled (hshort : 1 ≤ short) (hle : short ≤ long) (hd : 0 ≤ d) (hd' : d ≤ short) :
    ∃ k, 0 ≤ k ∧ k ≤ long ∧ scaled long short k = d := by
  have hup := Int.mul_nonneg hd (show 0 ≤ long by omega)
  have hlow := Int.lt_ediv_add_one_mul_self (d * long + short - 1) (show 0 < short by omega)
  have hhigh := Int.ediv_mul_le (d * long + short - 1) (show short ≠ 0 by omega)
  have hk : 0 ≤ (d * long + short - 1) / short := Int.ediv_nonneg (by omega) (by omega)
  refine ⟨(d * long + short - 1) / short, hk, ?_, ?_⟩
  · refine Int.le_of_lt_add_one (Int.ediv_lt_of_lt_mul (by omega) ?_)
    nlinarith
  · rw [scaled_eq_iff (by omega) (by omega) hk]
    constructor <;> linarith

end Scaled

/-- The half widths `a` that are reported on the rows `b` away from the centre: the centre row is as wide
as it can be, the last row is met, and rows nearer to the centre are as wide at least. -/
structure Tapers (P : Int → Int → Prop) (width height : Int) : Prop where
  bounds : ∀ {a b}, P a b → 0 ≤ a ∧ a ≤ width ∧ 0 ≤ b ∧ b ≤ height
  centre : P width 0
  last : P 0 height
  nearer : ∀ {a b b'}, P a b → 0 ≤ b' → b' ≤ b → ∃ a', a ≤ a' ∧ P a' b'

/-- The marks of the whole walk. -/
def walk (long short : Int) : List Mark := marks long short (markBound long) 0 (long * 64) none

theorem closes_walk {long : Int} (hlong : 1 ≤ long) (short : Int) :
    Closes (scaled long short) none 0 long (walk long short) := by
  have hfirst : round64 0 = 0 ∧ round64 (long * 64) = long := by
    unfold round64
    omega
  have hfollows : Follows (scaled long short) none (round64 0) (round64 (long * 64)) := by
    rw [hfirst.1, hfirst.2]
    exact hlong
  have h := closes_marks hlong short (n := 64 * long.toNat + 63) (Sound.start long) hfollows (by omega)
  rwa [hfirst.1, hfirst.2] at h

section Walk

variable {long short : Int} (hshort : 1 ≤ short) (hle : short ≤ long)
include hshort hle

theorem reports_walk_iff {a b : Int} : Reports (walk long short) a b ↔
    ∃ x y, Meets (scaled long short) (walk long short) x y ∧
      (a = x ∧ b = scaled long short y ∨ a = y ∧ b = scaled long short x) := by
  have hcloses := closes_walk (by omega : 1 ≤ long) short
  constructor
  · exact hcloses.meets_of_reports
  · rintro ⟨x, y, hxy, ⟨rfl, rfl⟩ | ⟨rfl, rfl⟩⟩
    · simpa using (hcloses.reports_of_meets hxy).1
    · simpa using (hcloses.reports_of_meets hxy).2

theorem reports_start : Reports (walk long short) 0 short ∧ Reports (walk long short) long 0 := by
  have hstart := (closes_walk (by omega : 1 ≤ long) short).meets_start (by omega)
  simp only [reports_walk_iff hshort hle]
  exact ⟨⟨0, long, hstart, .inl ⟨rfl, (scaled_long (by omega)).symm⟩⟩,
    ⟨0, long, hstart, .inr ⟨rfl, scaled_zero.symm⟩⟩⟩

theorem bounds_of_reports {a b : Int} (h : Reports (walk long short) a b) :
    0 ≤ a ∧ a ≤ long ∧ 0 ≤ b ∧ b ≤ short := by
  have hscaled : ∀ k, 0 ≤ k → k ≤ long → 0 ≤ scaled long short k ∧ scaled long short k ≤ short := by
    intro k hk hk'
    have hlow : scaled long short 0 ≤ scaled long short k := scaled_mono (by omega) (by omega) le_rfl hk
    have hhigh : scaled long short k ≤ scaled long short long := scaled_mono (by omega) (by omega) hk hk'
    rw [scaled_zero] at hlow
    rw [scaled_long (by omega)] at hhigh
    exact ⟨hlow, hhigh⟩
  obtain ⟨x, y, hxy, hab⟩ := (reports_walk_iff hshort hle).mp h
  have hbounds := (closes_walk (by omega : 1 ≤ long) short).bounds hxy
  have hx := hscaled x (by omega) (by omega)
  have hy := hscaled y (by omega) (by omega)
  omega

/-- Along the longer axis the offsets of the shorter one taper off. -/
theorem tapers_tall : Tapers (fun a b => Reports (walk long short) b a) short long where
  bounds h := by
    have := bounds_of_reports hshort hle h
    omega
  centre := (reports_start hshort hle).1
  last := (reports_start hshort hle).2
  nearer := by
    have hcloses := closes_walk (by omega : 1 ≤ long) short
    have hmono : ∀ {k k'}, 0 ≤ k → k ≤ k' → scaled long short k ≤ scaled long short k' :=
      scaled_mono (by omega) (by omega)
    simp only [reports_walk_iff hshort hle]
    rintro a b b' ⟨x, y, hxy, hab⟩ hb' hle'
    have hbounds := hcloses.bounds hxy
    rcases hle'.eq_or_lt with rfl | hlt
    · exact ⟨a, le_rfl, x, y, hxy, hab⟩
    · obtain ⟨x', y', hxy', hend⟩ := hcloses.covered (by omega) hb' (by omega : b' ≤ long)
      have hbounds' := hcloses.bounds hxy'
      have hnested := hcloses.nested hxy hxy'
      obtain rfl | rfl := hend
      · refine ⟨scaled long short y', ?_, b', y', hxy', .inl ⟨rfl, rfl⟩⟩
        rcases hab with ⟨rfl, rfl⟩ | ⟨rfl, rfl⟩ <;> exact hmono (by omega) (by omega)
      · refine ⟨scaled long short x', ?_, x', b', hxy', .inr ⟨rfl, rfl⟩⟩
        rcases hab with ⟨rfl, rfl⟩ | ⟨rfl, rfl⟩
        · omega
        · exact hmono (by omega) (by omega)

/-- Along the shorter axis no offset is skipped, and those of the longer one taper off. -/
theorem tapers_wide : Tapers (Reports (walk long short)) long short where
  bounds := bounds_of_reports hshort hle
  centre := (reports_start hshort hle).2
  last := (reports_start hshort hle).1
  nearer := by
    intro a b b' h hb' hle'
    have hbox := bounds_of_reports hshort hle h
    have hcloses := closes_walk (by omega : 1 ≤ long) short
    have hlt_of : ∀ {k k'}, 0 ≤ k' → scaled long short k < scaled long short k' → k < k' := by
      intro k k' hk' hlt
      by_contra hge
      have : scaled long short k' ≤ scaled long short k :=
        scaled_mono (by omega) (by omega) hk' (not_lt.mp hge)
      omega
    rcases hle'.eq_or_lt with rfl | hlt
    · exact ⟨a, le_rfl, h⟩
    · obtain ⟨k, hk, hk', rfl⟩ := exists_scaled hshort hle hb' (by omega)
      obtain ⟨x, y, hxy, hab⟩ := (reports_walk_iff hshort hle).mp h
      obtain ⟨x', y', hxy', hend⟩ := hcloses.covered (by omega) hk hk'
      have hbounds := hcloses.bounds hxy
      have hbounds' := hcloses.bounds hxy'
      have hnested := hcloses.nested hxy hxy'
      simp only [reports_walk_iff hshort hle]
      obtain rfl | rfl := hend
      · refine ⟨y', ?_, k, y', hxy', .inr ⟨rfl, rfl⟩⟩
        rcases hab with ⟨rfl, rfl⟩ | ⟨rfl, rfl⟩
        · omega
        · have := hlt_of hbounds.1 hlt
          omega
      · refine ⟨x', ?_, x', k, hxy', .inl ⟨rfl, rfl⟩⟩
        rcases hab with ⟨rfl, rfl⟩ | ⟨rfl, rfl⟩
        · have := hlt_of (by omega) hlt
          omega
        · have := hlt_of hbounds.1 hlt
          omega

end Walk

/-! ## Runs -/

/-- The run of half width `a` on the row `b` below the centre. -/
def centred (c : Point) (a b : Int) : Run := ⟨c.x - a, c.x + a, c.y + b⟩

theorem centred_inj {c : Point} {a a' b b' : Int} : centred c a b = centred c a' b' ↔ a = a' ∧ b = b' := by
  simp only [centred, Run.mk.injEq]
  omega

theorem covers_centred {c p : Point} {a b : Int} :
    (centred c a b).Covers p ↔ p.y - c.y = b ∧ |p.x - c.x| ≤ a := by
  simp only [centred, Run.Covers, abs_le]
  omega

theorem mem_mirroredRuns_iff {c : Point} {a b : Int} {r : Run} :
    r ∈ mirroredRuns c a b ↔ r = centred c a b ∨ r = centred c a (-b) := by
  rw [mirroredRuns, centred, centred, ← Int.sub_eq_add_neg]
  by_cases hb : b = 0 <;> simp [hb]

theorem mem_wideRuns {c : Point} {ms : List Mark} {r : Run} :
    r ∈ ms.flatMap (Mark.wideRuns c) ↔ ∃ a b, Reports ms a b ∧ r ∈ mirroredRuns c a b := by
  simp only [List.mem_flatMap, Mark.wideRuns, List.mem_append, List.mem_ite_nil_right, Reports]
  constructor
  · rintro ⟨m, hm, ⟨hnew, hr⟩ | ⟨hnew, hr⟩⟩
    · exact ⟨_, _, ⟨m, hm, .inl ⟨hnew, rfl, rfl⟩⟩, hr⟩
    · exact ⟨_, _, ⟨m, hm, .inr ⟨hnew, rfl, rfl⟩⟩, hr⟩
  · rintro ⟨_, _, ⟨m, hm, ⟨hnew, rfl, rfl⟩ | ⟨hnew, rfl, rfl⟩⟩, hr⟩
    · exact ⟨m, hm, .inl ⟨hnew, hr⟩⟩
    · exact ⟨m, hm, .inr ⟨hnew, hr⟩⟩

theorem mem_tallRuns {c : Point} {ms : List Mark} {r : Run} :
    r ∈ ms.flatMap (Mark.tallRuns c) ↔ ∃ a b, Reports ms b a ∧ r ∈ mirroredRuns c a b := by
  simp only [List.mem_flatMap, Mark.tallRuns, List.mem_append, List.mem_ite_nil_right, Reports]
  constructor
  · rintro ⟨m, hm, ⟨hnew, hr⟩ | ⟨hnew, hr⟩⟩
    · exact ⟨_, _, ⟨m, hm, .inr ⟨hnew, rfl, rfl⟩⟩, hr⟩
    · exact ⟨_, _, ⟨m, hm, .inl ⟨hnew, rfl, rfl⟩⟩, hr⟩
  · rintro ⟨_, _, ⟨m, hm, ⟨hnew, rfl, rfl⟩ | ⟨hnew, rfl, rfl⟩⟩, hr⟩
    · exact ⟨m, hm, .inr ⟨hnew, hr⟩⟩
    · exact ⟨m, hm, .inl ⟨hnew, hr⟩⟩

theorem runs_taper (c : Point) {rx ry : Int} (hrx : 1 ≤ rx) (hry : 1 ≤ ry) :
    ∃ P, Tapers P rx ry ∧ ∀ r, r ∈ runs c rx ry ↔ ∃ a b, r = centred c a b ∧ P a |b| := by
  have hmirrored : ∃ P, Tapers P rx ry ∧ ∀ r, r ∈ runs c rx ry ↔ ∃ a b, P a b ∧ r ∈ mirroredRuns c a b := by
    rw [runs, if_neg (by omega)]
    by_cases hwide : ry < rx
    · rw [if_pos hwide]
      exact ⟨_, tapers_wide hry (by omega), fun _ => mem_wideRuns⟩
    · rw [if_neg hwide]
      exact ⟨_, tapers_tall hrx (by omega), fun _ => mem_tallRuns⟩
  obtain ⟨P, htapers, hruns⟩ := hmirrored
  refine ⟨P, htapers, fun r => ?_⟩
  simp only [hruns, mem_mirroredRuns_iff]
  constructor
  · rintro ⟨a, b, hP, hr⟩
    have hb := abs_of_nonneg (htapers.bounds hP).2.2.1
    exact hr.elim (fun hr => ⟨a, b, hr, by rwa [hb]⟩) fun hr => ⟨a, -b, hr, by rwa [abs_neg, hb]⟩
  · rintro ⟨a, b, rfl, hP⟩
    exact ⟨a, |b|, hP, by rcases abs_choice b with h | h <;> simp [h]⟩

/-- The half width of each row. -/
theorem Tapers.widths {P : Int → Int → Prop} {width height : Int} (h : Tapers P width height)
    (hheight : 0 ≤ height) :
    ∃ w : Int → Int, w 0 = width ∧ (∀ b b', |b| ≤ |b'| → |b'| ≤ height → w b' ≤ w b) ∧
      ∀ b, |b| ≤ height → IsGreatest {a | P a |b|} (w b) := by
  have hwidest : ∀ b, ∃ a, |b| ≤ height → IsGreatest {a | P a |b|} a := by
    intro b
    by_cases hb : |b| ≤ height
    · obtain ⟨a, -, ha⟩ := h.nearer h.last (abs_nonneg b) hb
      obtain ⟨w, hw, hmax⟩ := Int.exists_greatest_of_bdd (P := fun a => P a |b|)
        ⟨width, fun a ha => (h.bounds ha).2.1⟩ ⟨a, ha⟩
      exact ⟨w, fun _ => ⟨hw, hmax⟩⟩
    · exact ⟨0, fun hb' => absurd hb' hb⟩
  choose w hw using hwidest
  refine ⟨w, ?_, fun b b' hbb' hb' => ?_, hw⟩
  · have hcentre := hw 0 (by simpa using hheight)
    exact le_antisymm (h.bounds hcentre.1).2.1 (hcentre.2 h.centre)
  · obtain ⟨a, ha, hP⟩ := h.nearer (hw b' hb').1 (abs_nonneg b) hbb'
    exact ha.trans ((hw b (hbb'.trans hb')).2 hP)

/-! ## Row extents -/

/-- The columns of a row with those of one more run. -/
def widen (row : Option (Int × Int)) (r : Run) : Option (Int × Int) :=
  match row with
  | none => some (r.x1, r.x2)
  | some (a, b) => some (min a r.x1, max b r.x2)

theorem widen_centred {x w : Int} {row : Option (Int × Int)} {r : Run}
    (hrow : row = none ∨ ∃ a ≤ w, row = some (x - a, x + a))
    (hr : ∃ a ≤ w, r.x1 = x - a ∧ r.x2 = x + a) :
    ∃ a ≤ w, widen row r = some (x - a, x + a) ∧
      (row = some (x - w, x + w) ∨ r.x1 = x - w → a = w) := by
  obtain ⟨b, hb, hx1, hx2⟩ := hr
  obtain rfl | ⟨a, ha, rfl⟩ := hrow
  · refine ⟨b, hb, by rw [widen, hx1, hx2], ?_⟩
    rintro (h | h)
    · cases h
    · omega
  · refine ⟨max a b, by omega, ?_, ?_⟩
    · simp only [widen, hx1, hx2, Option.some.injEq, Prod.mk.injEq]
      omega
    · simp only [Option.some.injEq, Prod.mk.injEq]
      omega

/-- Of runs around one column the widest is left. -/
theorem foldl_widen {x w : Int} {rs : List Run} {row : Option (Int × Int)}
    (hrow : row = none ∨ ∃ a ≤ w, row = some (x - a, x + a))
    (hrs : ∀ r ∈ rs, ∃ a ≤ w, r.x1 = x - a ∧ r.x2 = x + a)
    (hwidest : row = some (x - w, x + w) ∨ ∃ r ∈ rs, r.x1 = x - w) :
    rs.foldl widen row = some (x - w, x + w) := by
  induction rs generalizing row with
  | nil => simpa using hwidest
  | cons r rs ih =>
    obtain ⟨hr, hrs⟩ := List.forall_mem_cons.mp hrs
    obtain ⟨a, ha, heq, hmax⟩ := widen_centred hrow hr
    refine ih (.inr ⟨a, ha, heq⟩) hrs ?_
    simp only [List.mem_cons, exists_eq_or_imp, ← or_assoc] at hwidest
    refine hwidest.imp_left fun h => ?_
    rw [heq, hmax h]

theorem getElem?_rowExtents {c : Point} {rx ry : Int} {i : Nat} (hi : i < (2 * max ry 0 + 1).toNat) :
    (rowExtents c rx ry)[i]? =
      some (((runs c rx ry).filter fun r => r.y - c.y + max ry 0 = i).foldl widen none) := by
  have hfold : ∀ (rs : List Run) (rows : Array (Option (Int × Int))),
      (rs.foldl (fun rows r => if r.y - c.y + max ry 0 < 0 then rows
        else rows.modify (r.y - c.y + max ry 0).toNat (widen · r)) rows)[i]? =
      rows[i]?.map fun row => (rs.filter fun r => r.y - c.y + max ry 0 = i).foldl widen row := by
    intro rs
    induction rs with
    | nil => simp
    | cons r rs ih =>
      intro rows
      rw [List.foldl_cons, ih]
      by_cases hrow : r.y - c.y + max ry 0 = i
      · rw [List.filter_cons_of_pos (by simpa using hrow), if_neg (by omega), hrow, Int.toNat_natCast,
          Array.getElem?_modify, if_pos rfl, Option.map_map]
        rfl
      · rw [List.filter_cons_of_neg (by simpa using hrow)]
        split
        · rfl
        · rw [Array.getElem?_modify, if_neg (by omega)]
  have hwiden : rowExtents c rx ry = (runs c rx ry).foldl (fun rows r => if r.y - c.y + max ry 0 < 0 then rows
      else rows.modify (r.y - c.y + max ry 0).toNat (widen · r))
      (Array.replicate (2 * max ry 0 + 1).toNat none) := rfl
  rw [hwiden, hfold, Array.getElem?_replicate, if_pos hi]
  rfl

/-! ## Rows -/

/-- The runs are centred, within the rows of the box and mirrored below and above the centre, and on each
row there is a widest one. -/
structure Rows (c : Point) (rx ry : Int) (rs : List Run) (w : Int → Int) : Prop where
  mirrored : ∀ r ∈ rs, ∃ a b, r = centred c a b ∧ 0 ≤ a ∧ a ≤ rx ∧ |b| ≤ ry ∧ centred c a (-b) ∈ rs
  widest : ∀ b, |b| ≤ ry → IsGreatest {a | centred c a b ∈ rs} (w b)

namespace Rows

variable {c : Point} {rx ry : Int} {rs : List Run} {w : Int → Int}

theorem width_nonneg (h : Rows c rx ry rs w) {b : Int} (hb : |b| ≤ ry) : 0 ≤ w b := by
  obtain ⟨a, b', heq, ha, -⟩ := h.mirrored _ (h.widest b hb).1
  rw [(centred_inj.mp heq).1]
  exact ha

theorem runs_covering (h : Rows c rx ry rs w) :
    (RowSpans.covering rs).runs = (irange (-ry) ry).map fun b => centred c (w b) b := by
  have hrows : ∀ b ∈ irange (-ry) ry, |b| ≤ ry := fun b hb => abs_le.mpr (mem_irange.mp hb)
  refine RowSpans.eq_of_covers_iff (RowSpans.gapped_covering _) (RowSpans.nonempty_covering _) ?_ ?_ fun p => ?_
  · refine List.pairwise_map.mpr ((pairwise_irange _ _).imp fun hlt => .inl ?_)
    simp only [centred]
    omega
  · intro r hr
    obtain ⟨b, hb, rfl⟩ := List.mem_map.mp hr
    have := h.width_nonneg (hrows b hb)
    simp only [centred]
    omega
  · have hordered : ∀ r ∈ rs, r.x1 ≤ r.x2 := fun r hr => by
      obtain ⟨a, b, rfl, ha, -⟩ := h.mirrored r hr
      simp only [centred]
      omega
    refine (RowSpans.covers_covering hordered).trans ?_
    constructor
    · rintro ⟨r, hr, hp⟩
      obtain ⟨a, b, rfl, -, -, hb, -⟩ := h.mirrored r hr
      obtain ⟨rfl, ha⟩ := covers_centred.mp hp
      have hle := (h.widest _ hb).2 hr
      exact ⟨_, List.mem_map_of_mem (mem_irange.mpr (abs_le.mp hb)), covers_centred.mpr ⟨rfl, ha.trans hle⟩⟩
    · rintro ⟨r, hr, hp⟩
      obtain ⟨b, hb, rfl⟩ := List.mem_map.mp hr
      exact ⟨_, (h.widest b (hrows b hb)).1, hp⟩

theorem getElem?_rowExtents (h : Rows c rx ry (runs c rx ry) w) {b : Int} (hb : |b| ≤ ry) :
    (rowExtents c rx ry)[(b + ry).toNat]? = some (some (c.x - w b, c.x + w b)) := by
  have hrow := abs_le.mp hb
  rw [Ellipse.getElem?_rowExtents (by omega)]
  refine congrArg some (foldl_widen (.inl rfl) (fun r hr => ?_) (.inr ⟨centred c (w b) b, ?_, rfl⟩))
  · obtain ⟨hmem, hy⟩ := List.mem_filter.mp hr
    obtain ⟨a, b', rfl, -⟩ := h.mirrored r hmem
    have hy' : c.y + b' - c.y + max ry 0 = (b + ry).toNat := of_decide_eq_true hy
    obtain rfl : b' = b := by omega
    exact ⟨a, (h.widest b' hb).2 hmem, rfl, rfl⟩
  · refine List.mem_filter.mpr ⟨(h.widest b hb).1, decide_eq_true ?_⟩
    simp only [centred]
    omega

end Rows

/-- The walk ends where its offsets have met. Its runs have a half width for each row of the box that is as
wide as the box on the centre row and does not grow with the distance from it; the filled ellipse has one
run of that half width on each row, which is the extent of the row. -/
theorem runs_rows (c : Point) {rx ry : Int} (hrx : 1 ≤ rx) (hry : 1 ≤ ry) :
    (∃ m, (walk (max rx ry) (min rx ry)).getLast? = some m ∧ m.place.far ≤ m.place.near) ∧
    ∃ w : Int → Int, Rows c rx ry (runs c rx ry) w ∧
      w 0 = rx ∧ (∀ b b', |b| ≤ |b'| → |b'| ≤ ry → w b' ≤ w b) ∧
      (RowSpans.covering (runs c rx ry)).runs = (irange (-ry) ry).map (fun b => centred c (w b) b) ∧
      ∀ b, |b| ≤ ry →
        (rowExtents c rx ry)[(b + ry).toNat]? = some (some (c.x - w b, c.x + w b)) := by
  refine ⟨(closes_walk (by omega) _).getLast?, ?_⟩
  obtain ⟨P, htapers, hruns⟩ := runs_taper c hrx hry
  obtain ⟨w, hcentre, hmono, hwidest⟩ := htapers.widths (by omega)
  have hmem : ∀ {a b}, centred c a b ∈ runs c rx ry ↔ P a |b| := by
    intro a b
    simp only [hruns, centred_inj]
    constructor
    · rintro ⟨a', b', ⟨rfl, rfl⟩, hP⟩
      exact hP
    · exact fun hP => ⟨a, b, ⟨rfl, rfl⟩, hP⟩
  have hrows : Rows c rx ry (runs c rx ry) w := by
    refine ⟨fun r hr => ?_, fun b hb => ?_⟩
    · obtain ⟨a, b, rfl, hP⟩ := (hruns r).mp hr
      have := htapers.bounds hP
      exact ⟨a, b, rfl, this.1, this.2.1, this.2.2.2, hmem.mpr (by rwa [abs_neg])⟩
    · simp only [hmem]
      exact hwidest b hb
  exact ⟨w, hrows, hcentre, hmono, hrows.runs_covering, fun b => hrows.getElem?_rowExtents⟩

/-- An ellipse three pixels wide and two high on each side has five rows, the middle one of seven pixels. -/
theorem runs_rows_three_two :
    (1 : Int) ≤ 3 ∧ (1 : Int) ≤ 2 ∧ (RowSpans.covering (runs ⟨7, 9⟩ 3 2)).runs.length = 5 ∧
      ⟨4, 10, 9⟩ ∈ (RowSpans.covering (runs ⟨7, 9⟩ 3 2)).runs := by
  obtain ⟨-, w, -, hcentre, -, hruns, -⟩ :=
    runs_rows ⟨7, 9⟩ (show (1 : Int) ≤ 3 by decide) (show (1 : Int) ≤ 2 by decide)
  refine ⟨by decide, by decide, by rw [hruns]; rfl, ?_⟩
  rw [hruns]
  exact List.mem_map.mpr ⟨0, by decide, by rw [hcentre]; rfl⟩

end Rasterizer.Ellipse
