import Rasterizer.Canvas.Area
import Mathlib.Order.Basic

/-! # Sets of pixels as runs

Sorting and joining runs keeps their pixels (`covers_normalize`) and leaves runs that stand apart
(`apart_normalize`), so that each pixel lies in one of them. There are gaps between the runs of a row
(`gapped_normalize`), and with gaps the pixels determine the runs (`eq_of_covers_iff`). -/

namespace Rasterizer

/-- The second run lies behind the first, below it or to its right. -/
def Run.Before (a b : Run) : Prop := a.y < b.y ∨ (a.y = b.y ∧ a.x2 < b.x1)

/-- The second run lies below the first, or to its right with a gap between them. -/
def Run.Gapped (a b : Run) : Prop := a.y < b.y ∨ (a.y = b.y ∧ a.x2 + 1 < b.x1)

theorem Run.Gapped.before {a b : Run} (h : a.Gapped b) : a.Before b :=
  h.imp_right fun h => ⟨h.1, by omega⟩

/-- The first and the last pixel. -/
def Run.ends (r : Run) : List Point := [⟨r.x1, r.y⟩, ⟨r.x2, r.y⟩]

/-- No pixel lies in both runs. -/
def Run.Apart (a b : Run) : Prop := ∀ p, a.Covers p → ¬b.Covers p

theorem Run.Before.apart {a b : Run} (h : a.Before b) : a.Apart b := by
  rintro p ⟨hy, -, hx⟩ ⟨hy', hx', -⟩
  rcases h with h | ⟨-, h⟩ <;> omega

theorem Run.Apart.symm {a b : Run} (h : a.Apart b) : b.Apart a := fun p hb ha => h p ha hb

namespace RowSpans

variable {s : RowSpans} {p : Point}

theorem covers_ofRuns {rs : List Run} : (ofRuns rs).Covers p ↔ ∃ r ∈ rs, r.Covers p := by
  simp only [Covers, ofRuns, List.mem_filter, decide_eq_true_eq]
  constructor
  · rintro ⟨r, ⟨hr, -⟩, hp⟩
    exact ⟨r, hr, hp⟩
  · rintro ⟨r, hr, hp⟩
    exact ⟨r, ⟨hr, Int.le_trans hp.2.1 hp.2.2⟩, hp⟩

/-! ## Normal form -/

theorem runLe_iff {a b : Run} :
    runLe a b = true ↔ a.y < b.y ∨ (a.y = b.y ∧ (a.x1 < b.x1 ∨ (a.x1 = b.x1 ∧ a.x2 ≤ b.x2))) := by
  simp [runLe]

/-- From row to row, and within a row by the left end. -/
def Sorted (rs : List Run) : Prop := rs.Pairwise fun a b => a.y < b.y ∨ (a.y = b.y ∧ a.x1 ≤ b.x1)

theorem sorted_mergeSort (rs : List Run) : Sorted (rs.mergeSort runLe) := by
  refine (List.pairwise_mergeSort ?_ ?_ rs).imp fun {a b} h => ?_
  · intro a b c hab hbc
    rw [runLe_iff] at *
    omega
  · intro a b
    rw [Bool.or_eq_true, runLe_iff, runLe_iff]
    omega
  · have := runLe_iff.mp h
    omega

theorem Sorted.tail {r : Run} {rest : List Run} (h : Sorted (r :: rest)) : Sorted rest :=
  (List.pairwise_cons.mp h).2

theorem Sorted.join {cur r : Run} {rest : List Run} (h : Sorted (cur :: r :: rest)) (x2 : Int) :
    Sorted ({ cur with x2 := x2 } :: rest) :=
  List.pairwise_cons.mpr ⟨fun a ha => (List.pairwise_cons.mp h).1 a (List.mem_cons_of_mem r ha), h.tail.tail⟩

theorem covers_joinRuns {cur : Run} {rest : List Run} (h : Sorted (cur :: rest)) :
    (∃ r ∈ joinRuns cur rest, r.Covers p) ↔ ∃ r ∈ cur :: rest, r.Covers p := by
  induction rest generalizing cur with
  | nil => rfl
  | cons r rest ih =>
    have hr := (List.pairwise_cons.mp h).1 r List.mem_cons_self
    rw [joinRuns]
    split
    next hjoin =>
      rw [ih (h.join _)]
      simp only [List.mem_cons, exists_eq_or_imp]
      rw [← or_assoc]
      refine or_congr_left ?_
      simp only [Run.Covers]
      omega
    next => simp only [List.mem_cons, exists_eq_or_imp, ih h.tail]

/-- What is joined begins where the first run begins or later. -/
theorem le_of_mem_joinRuns {cur : Run} {rest : List Run} (h : Sorted (cur :: rest)) {r : Run}
    (hr : r ∈ joinRuns cur rest) : cur.y < r.y ∨ (cur.y = r.y ∧ cur.x1 ≤ r.x1) := by
  induction rest generalizing cur with
  | nil =>
    rw [List.mem_singleton.mp hr]
    omega
  | cons a rest ih =>
    have ha := (List.pairwise_cons.mp h).1 a List.mem_cons_self
    rw [joinRuns] at hr
    split at hr
    · have := ih (h.join (max cur.x2 a.x2)) hr
      exact this
    · rcases List.mem_cons.mp hr with rfl | hr
      · omega
      · have := ih h.tail hr
        omega

theorem gapped_joinRuns {cur : Run} {rest : List Run} (h : Sorted (cur :: rest)) :
    (joinRuns cur rest).Pairwise Run.Gapped := by
  induction rest generalizing cur with
  | nil => exact List.pairwise_singleton ..
  | cons r rest ih =>
    have hr := (List.pairwise_cons.mp h).1 r List.mem_cons_self
    rw [joinRuns]
    split
    · exact ih (h.join _)
    · refine List.pairwise_cons.mpr ⟨fun a ha => ?_, ih h.tail⟩
      have := le_of_mem_joinRuns h.tail ha
      simp only [Run.Gapped]
      omega

theorem covers_normalize (s : RowSpans) : s.normalize.Covers p ↔ s.Covers p := by
  have hmem : ∀ r, r ∈ s.runs.mergeSort runLe ↔ r ∈ s.runs := fun r => List.mem_mergeSort
  have hsorted := sorted_mergeSort s.runs
  simp only [Covers, normalize, ← hmem]
  cases hruns : s.runs.mergeSort runLe with
  | nil => simp [empty]
  | cons r rest => exact covers_joinRuns (hruns ▸ hsorted)

theorem gapped_normalize (s : RowSpans) : s.normalize.runs.Pairwise Run.Gapped := by
  have hsorted := sorted_mergeSort s.runs
  rw [normalize]
  cases hruns : s.runs.mergeSort runLe with
  | nil => exact .nil
  | cons r rest => exact gapped_joinRuns (hruns ▸ hsorted)

theorem before_normalize (s : RowSpans) : s.normalize.runs.Pairwise Run.Before :=
  (gapped_normalize s).imp Run.Gapped.before

theorem apart_normalize (s : RowSpans) : s.normalize.runs.Pairwise Run.Apart :=
  (before_normalize s).imp Run.Before.apart

theorem nonempty_joinRuns {cur : Run} {rest : List Run} (hcur : cur.x1 ≤ cur.x2)
    (hrest : ∀ r ∈ rest, r.x1 ≤ r.x2) : ∀ r ∈ joinRuns cur rest, r.x1 ≤ r.x2 := by
  induction rest generalizing cur with
  | nil => simpa [joinRuns] using hcur
  | cons a rest ih =>
    rw [List.forall_mem_cons] at hrest
    rw [joinRuns]
    split
    · exact ih (Int.le_trans hcur (Int.le_max_left ..)) hrest.2
    · exact List.forall_mem_cons.mpr ⟨hcur, ih hrest.1 hrest.2⟩

theorem nonempty_normalize (h : ∀ r ∈ s.runs, r.x1 ≤ r.x2) : ∀ r ∈ s.normalize.runs, r.x1 ≤ r.x2 := by
  have hsorted : ∀ r ∈ s.runs.mergeSort runLe, r.x1 ≤ r.x2 := fun r hr => h r (List.mem_mergeSort.mp hr)
  rw [normalize]
  cases hruns : s.runs.mergeSort runLe with
  | nil => exact fun r hr => absurd hr List.not_mem_nil
  | cons r rest =>
    rw [hruns, List.forall_mem_cons] at hsorted
    exact nonempty_joinRuns hsorted.1 hsorted.2

theorem nonempty_ofRuns (rs : List Run) : ∀ r ∈ (ofRuns rs).runs, r.x1 ≤ r.x2 := fun r hr => by
  simpa using (List.mem_filter.mp hr).2

/-! ## Runs from their pixels -/

section Gapped

variable {rs rs' : List Run} {r : Run}

/-- Left and right of a run no other one goes on. -/
theorem not_covers_of_gapped (h : rs.Pairwise Run.Gapped) (hne : ∀ r ∈ rs, r.x1 ≤ r.x2) (hr : r ∈ rs) {x : Int}
    (hx : x = r.x1 - 1 ∨ x = r.x2 + 1) : ¬∃ t ∈ rs, t.Covers ⟨x, r.y⟩ := by
  rintro ⟨t, ht, hy, hx1, hx2⟩
  have hwide := hne r hr
  have hsides : r = t ∨ r.Gapped t ∨ t.Gapped r :=
    List.Pairwise.forall_of_forall_of_flip (R := fun a b => a = b ∨ a.Gapped b ∨ b.Gapped a)
      (fun _ _ => .inl rfl) (h.imp fun h => .inr (.inl h)) (h.imp fun h => .inr (.inr h)) hr ht
  simp only [Run.Gapped] at hsides hy hx1 hx2
  rcases hsides with rfl | hsides
  · omega
  · omega

/-- The runs are the stretches of pixels that go on on neither side. -/
theorem mem_iff_of_gapped (h : rs.Pairwise Run.Gapped) (hne : ∀ r ∈ rs, r.x1 ≤ r.x2) : r ∈ rs ↔
    r.x1 ≤ r.x2 ∧ (∀ x, r.x1 ≤ x → x ≤ r.x2 → ∃ t ∈ rs, t.Covers ⟨x, r.y⟩) ∧
      ∀ x, x = r.x1 - 1 ∨ x = r.x2 + 1 → ¬∃ t ∈ rs, t.Covers ⟨x, r.y⟩ := by
  constructor
  · exact fun hr => ⟨hne r hr, fun x hx1 hx2 => ⟨r, hr, rfl, hx1, hx2⟩,
      fun x hx => not_covers_of_gapped h hne hr hx⟩
  · rintro ⟨hwide, hin, hout⟩
    obtain ⟨t, ht, hy, hx1, hx2⟩ := hin r.x1 (Int.le_refl _) hwide
    dsimp only at hy hx1 hx2
    have hstart : t.x1 = r.x1 := by
      by_contra hne
      exact hout (r.x1 - 1) (.inl rfl) ⟨t, ht, hy, by dsimp only; omega, by dsimp only; omega⟩
    have hstop : t.x2 = r.x2 := by
      rcases Int.lt_trichotomy t.x2 r.x2 with hlt | heq | hgt
      · refine absurd (hin (t.x2 + 1) (by omega) (by omega)) ?_
        rw [hy]
        exact not_covers_of_gapped h hne ht (.inr rfl)
      · exact heq
      · exact absurd ⟨t, ht, hy, by dsimp only; omega, by dsimp only; omega⟩ (hout (r.x2 + 1) (.inr rfl))
    have : r = t := by
      cases r
      cases t
      simp only [Run.mk.injEq]
      exact ⟨hstart.symm, hstop.symm, hy⟩
    exact this ▸ ht

/-- Runs with gaps between them are the same when their pixels are. -/
theorem eq_of_covers_iff (h : rs.Pairwise Run.Gapped) (hne : ∀ r ∈ rs, r.x1 ≤ r.x2)
    (h' : rs'.Pairwise Run.Gapped) (hne' : ∀ r ∈ rs', r.x1 ≤ r.x2)
    (hcovers : ∀ p, (∃ r ∈ rs, r.Covers p) ↔ ∃ r ∈ rs', r.Covers p) : rs = rs' := by
  have hmem : ∀ r, r ∈ rs ↔ r ∈ rs' := fun r => by
    rw [mem_iff_of_gapped h hne, mem_iff_of_gapped h' hne']
    simp only [hcovers]
  have hnodup : ∀ {rs : List Run}, rs.Pairwise Run.Gapped → (∀ r ∈ rs, r.x1 ≤ r.x2) → rs.Nodup :=
    fun h hne => h.imp_of_mem fun {a b} ha _ hab heq => by
      have := hne a ha
      subst heq
      simp only [Run.Gapped] at hab
      omega
  refine ((List.perm_ext_iff_of_nodup (hnodup h hne) (hnodup h' hne')).mpr hmem).eq_of_pairwise ?_ h h'
  intro a b ha hb hab hba
  have := hne a ha
  have := hne' b hb
  simp only [Run.Gapped] at hab hba
  omega

end Gapped

/-! ## Differences -/

theorem within_cutRun {y start stop : Int} {cs : List Run} {r : Run} (hr : r ∈ cutRun y start stop cs) :
    r.y = y ∧ start ≤ r.x1 ∧ r.x1 ≤ r.x2 ∧ r.x2 ≤ stop := by
  induction cs generalizing start with
  | nil =>
    rw [cutRun] at hr
    split at hr
    next h => rw [List.mem_singleton.mp hr]; exact ⟨rfl, Int.le_refl _, h, Int.le_refl _⟩
    next => cases hr
  | cons c cs ih =>
    rw [cutRun] at hr
    split at hr
    next => exact ih hr
    next hmeets =>
      rcases List.mem_append.mp hr with hr | hr
      · split at hr
        next h =>
          rw [List.mem_singleton.mp hr]
          exact ⟨rfl, Int.le_refl _, by dsimp only; omega, by dsimp only; omega⟩
        next => cases hr
      · split at hr
        next => cases hr
        next =>
          have := ih hr
          omega

/-- Cutting goes on behind each of the other runs, which must come in order for it. -/
theorem covers_cutRun {y start stop : Int} {cs : List Run} (hne : ∀ c ∈ cs, c.x1 ≤ c.x2)
    (hsorted : cs.Pairwise fun a b => a.x2 < b.x1) :
    (∃ r ∈ cutRun y start stop cs, r.Covers p) ↔
      p.y = y ∧ start ≤ p.x ∧ p.x ≤ stop ∧ ∀ c ∈ cs, ¬(c.x1 ≤ p.x ∧ p.x ≤ c.x2) := by
  induction cs generalizing start with
  | nil =>
    rw [cutRun]
    split
    next => simp [Run.Covers]
    next => simp; omega
  | cons c cs ih =>
    obtain ⟨hc, hne⟩ := List.forall_mem_cons.mp hne
    obtain ⟨hbehind, hsorted⟩ := List.pairwise_cons.mp hsorted
    simp only [List.forall_mem_cons]
    rw [cutRun]
    split
    next hout =>
      rw [ih hne hsorted]
      exact ⟨fun ⟨hy, h₁, h₂, hcs⟩ => ⟨hy, h₁, h₂, by omega, hcs⟩,
        fun ⟨hy, h₁, h₂, _, hcs⟩ => ⟨hy, h₁, h₂, hcs⟩⟩
    next hmeets =>
      -- what lies left of the run is left of all that follow it
      have hleft : p.x < c.x1 → ∀ d ∈ cs, ¬(d.x1 ≤ p.x ∧ p.x ≤ d.x2) := fun hx d hd => by
        have := hbehind d hd
        omega
      have hpiece : (∃ r ∈ (if start < c.x1 then [⟨start, c.x1 - 1, y⟩] else [] : List Run), r.Covers p) ↔
          p.y = y ∧ start ≤ p.x ∧ p.x < c.x1 := by
        split
        next =>
          simp only [List.mem_singleton, exists_eq_left, Run.Covers]
          omega
        next => simp; omega
      have hrest : (∃ r ∈ (if stop < max start (c.x2 + 1) then []
            else cutRun y (max start (c.x2 + 1)) stop cs), r.Covers p) ↔
          p.y = y ∧ max start (c.x2 + 1) ≤ p.x ∧ p.x ≤ stop ∧ ∀ d ∈ cs, ¬(d.x1 ≤ p.x ∧ p.x ≤ d.x2) := by
        split
        next => simp; omega
        next => exact ih hne hsorted
      simp only [List.mem_append, or_and_right, exists_or, hpiece, hrest]
      constructor
      · rintro (⟨hy, h₁, h₂⟩ | ⟨hy, h₁, h₂, hcs⟩)
        · exact ⟨hy, h₁, by omega, by omega, hleft h₂⟩
        · exact ⟨hy, by omega, h₂, by omega, hcs⟩
      · rintro ⟨hy, h₁, h₂, hout, hcs⟩
        by_cases hx : p.x < c.x1
        · exact .inl ⟨hy, h₁, hx⟩
        · exact .inr ⟨hy, by omega, h₂, hcs⟩

/-- Between the parts that are left on its two sides lies the run that was cut away. -/
theorem gapped_cutRun {y start stop : Int} {cs : List Run} (hne : ∀ c ∈ cs, c.x1 ≤ c.x2) :
    (cutRun y start stop cs).Pairwise Run.Gapped := by
  induction cs generalizing start with
  | nil =>
    rw [cutRun]
    split
    · exact List.pairwise_singleton ..
    · exact .nil
  | cons c cs ih =>
    obtain ⟨hc, hne⟩ := List.forall_mem_cons.mp hne
    rw [cutRun]
    split
    next => exact ih hne
    next =>
      refine List.pairwise_append.mpr ⟨?_, ?_, fun a ha b hb => ?_⟩
      · split
        · exact List.pairwise_singleton ..
        · exact .nil
      · split
        · exact .nil
        · exact ih hne
      · split at ha
        case isFalse => cases ha
        case isTrue =>
          split at hb
          case isTrue => cases hb
          case isFalse =>
            have := within_cutRun hb
            rw [List.mem_singleton.mp ha]
            exact .inr ⟨by dsimp only; omega, by dsimp only; omega⟩

variable {other : RowSpans}

theorem covers_subtract (hne : ∀ r ∈ other.runs, r.x1 ≤ r.x2) (hbefore : other.runs.Pairwise Run.Before) :
    (s.subtract other).Covers p ↔ s.Covers p ∧ ¬other.Covers p := by
  have hcut : ∀ r : Run, (∃ t ∈ cutRun r.y r.x1 r.x2 (other.runs.filter fun c => c.y = r.y), t.Covers p) ↔
      r.Covers p ∧ ¬other.Covers p := by
    intro r
    rw [covers_cutRun (fun c hc => hne c (List.mem_filter.mp hc).1)]
    · simp only [List.mem_filter, decide_eq_true_eq, Covers, Run.Covers, not_exists, not_and]
      constructor
      · rintro ⟨hy, hx1, hx2, hout⟩
        exact ⟨⟨hy, hx1, hx2⟩, fun c hc hcy => hout c ⟨hc, by omega⟩⟩
      · rintro ⟨⟨hy, hx1, hx2⟩, hout⟩
        exact ⟨hy, hx1, hx2, fun c hc => hout c hc.1 (by omega)⟩
    · refine (hbefore.filter _).imp_of_mem fun {a b} ha hb hab => ?_
      have hay := of_decide_eq_true (List.mem_filter.mp ha).2
      have hby := of_decide_eq_true (List.mem_filter.mp hb).2
      rcases hab with hab | hab <;> omega
  have hsplit : (s.subtract other).Covers p ↔ ∃ r ∈ s.runs,
      ∃ t ∈ cutRun r.y r.x1 r.x2 (other.runs.filter fun c => c.y = r.y), t.Covers p := by
    simp only [Covers, subtract, List.mem_flatMap]
    constructor
    · rintro ⟨t, ⟨r, hr, ht⟩, hp⟩
      exact ⟨r, hr, t, ht, hp⟩
    · rintro ⟨r, hr, t, ht, hp⟩
      exact ⟨t, ⟨r, hr, ht⟩, hp⟩
  simp only [hsplit, hcut]
  exact ⟨fun ⟨r, hr, hp, hout⟩ => ⟨⟨r, hr, hp⟩, hout⟩, fun ⟨⟨r, hr, hp⟩, hout⟩ => ⟨r, hr, hp, hout⟩⟩

theorem nonempty_subtract (s other : RowSpans) : ∀ r ∈ (s.subtract other).runs, r.x1 ≤ r.x2 := by
  intro r hr
  obtain ⟨t, -, hr⟩ := List.mem_flatMap.mp hr
  exact (within_cutRun hr).2.2.1

theorem gapped_subtract (hne : ∀ r ∈ other.runs, r.x1 ≤ r.x2) (hgapped : s.runs.Pairwise Run.Gapped) :
    (s.subtract other).runs.Pairwise Run.Gapped := by
  refine List.pairwise_flatMap.mpr ⟨?_, hgapped.imp ?_⟩
  · intro r _
    exact gapped_cutRun fun c hc => hne c (List.mem_filter.mp hc).1
  · intro r r' hrr' a ha b hb
    have ha := within_cutRun ha
    have hb := within_cutRun hb
    unfold Run.Gapped at *
    omega

/-! ## Lists and bounds -/

theorem apart_toList (h : s.runs.Pairwise Run.Apart) : s.toList.Pairwise Run.Apart :=
  ((List.mergeSort_perm _ _).pairwise_iff Run.Apart.symm).mpr h

theorem mem_toList {r : Run} : r ∈ s.toList ↔ r ∈ s.runs := List.mem_mergeSort

theorem contains_foldl_extend {rc : Rect} {rs : List Run}
    (h : rc.contains p.x p.y = true ∨ ∃ r ∈ rs, r.Covers p) :
    (rs.foldl extend rc).contains p.x p.y = true := by
  induction rs generalizing rc with
  | nil => simpa using h
  | cons r rs ih =>
    refine ih ?_
    simp only [List.mem_cons, exists_eq_or_imp, ← or_assoc] at h
    refine h.imp_left fun h => ?_
    simp only [Rect.contains_iff, Run.Covers, extend] at h ⊢
    omega

/-- The bound holds every pixel that is covered. -/
theorem contains_bound (h : s.Covers p) : ∃ rc, s.bound? = some rc ∧ rc.contains p.x p.y = true := by
  rw [Covers] at h
  rw [bound?]
  cases hruns : s.runs with
  | nil => simp [hruns] at h
  | cons r rest =>
    simp only [hruns, List.mem_cons, exists_eq_or_imp] at h
    refine ⟨_, rfl, contains_foldl_extend (h.imp_left fun h => ?_)⟩
    simp only [Rect.contains_iff, Run.Covers] at h ⊢
    omega

/-! ## Coverings -/

theorem ordered_eq {r : Run} (h : r.x1 ≤ r.x2) : r.ordered = r := by
  rw [Run.ordered, Int.min_eq_left h, Int.max_eq_right h]

theorem covers_covering_ordered {rs : List Run} :
    (covering rs).Covers p ↔ ∃ r ∈ rs, r.ordered.Covers p := by
  rw [covering, covers_normalize, covers_ofRuns]
  simp only [List.mem_map, exists_exists_and_eq_and]

theorem covers_covering {rs : List Run} (h : ∀ r ∈ rs, r.x1 ≤ r.x2) :
    (covering rs).Covers p ↔ ∃ r ∈ rs, r.Covers p := by
  rw [covers_covering_ordered]
  exact exists_congr fun r => and_congr_right fun hr => by rw [ordered_eq (h r hr)]

theorem covers_ofPoints {ps : List Point} : (ofPoints ps).Covers p ↔ p ∈ ps := by
  have hpoint : ∀ q : Point, (⟨q.x, q.x, q.y⟩ : Run).ordered.Covers p ↔ q = p := by
    rintro ⟨x, y⟩
    rw [ordered_eq (Int.le_refl x)]
    cases p
    simp only [Run.Covers, Point.mk.injEq]
    omega
  simp [ofPoints, covers_covering_ordered, hpoint]

theorem covers_ofEnds {rs : List Run} : (ofEnds rs).Covers p ↔ p ∈ rs.flatMap Run.ends := by
  rw [← covers_ofPoints, ofPoints, ofEnds, List.map_flatMap]
  rfl

theorem apart_covering (rs : List Run) : (covering rs).runs.Pairwise Run.Apart := apart_normalize _

theorem gapped_covering (rs : List Run) : (covering rs).runs.Pairwise Run.Gapped := gapped_normalize _

theorem nonempty_covering (rs : List Run) : ∀ r ∈ (covering rs).runs, r.x1 ≤ r.x2 :=
  nonempty_normalize (nonempty_ofRuns _)

end RowSpans

end Rasterizer
