import Rasterizer.Proofs.Flood.Log

/-! # A fill paints the connected area, each run once

The runs filled so far are maximal runs of the area, no two are the same, and beside each
of them either the rows are still to be looked at or every pixel of the area there is held
by a run (`Complete`). When the passes end nothing is left to be looked at, so the runs
hold whatever is connected with the first pixel. -/

namespace Rasterizer.Flood

variable {σ : Type} {t : FloodTarget σ} {origin : σ} {dst : Rect} {start : Point}

/-- A fill of a target that keeps a log, under way. -/
structure Filling (t : FloodTarget σ) (origin : σ) (dst : Rect) (start : Point)
    (s : State (σ × List Run)) : Prop where
  tidy : Tidy dst s
  /-- The log is what the table holds. -/
  log : ∀ r, r ∈ s.target.2 ↔
    ∃ (c : Nat) (g : Segment), s.table[c]? = some g ∧ g.inUse = true ∧ g.run = r
  nodup : s.target.2.Nodup
  maximal : ∀ r ∈ s.target.2, MaximalRun (Area (t.isCandidate origin) dst start) r
  /-- Outside of the runs filled the target is as it was. -/
  kept : ∀ p : Point, (∀ r ∈ s.target.2, ¬ r.Covers p) →
    t.isCandidate s.target.1 p.x p.y = t.isCandidate origin p.x p.y

variable {s : State (σ × List Run)} {x y : Int}

namespace Filling

theorem holds_iff (h : Filling t origin dst start s) {p : Point} :
    s.Holds p ↔ ∃ r ∈ s.target.2, r.Covers p := by
  constructor
  · rintro ⟨c, g, hg, huse, hp⟩
    exact ⟨g.run, (h.log g.run).mpr ⟨c, g, hg, huse, rfl⟩, hp⟩
  · rintro ⟨r, hr, hp⟩
    obtain ⟨c, g, hg, huse, rfl⟩ := (h.log r).mp hr
    exact ⟨c, g, hg, huse, hp⟩

theorem candidate_eq (h : Filling t origin dst start s) {p : Point} (hopen : ¬ s.Holds p) :
    t.isCandidate s.target.1 p.x p.y = t.isCandidate origin p.x p.y :=
  h.kept p fun r hr hc => hopen (h.holds_iff.mpr ⟨r, hr, hc⟩)

/-- Beside an open pixel of the area no pixel of the row is held: the run that held it would be
longer. -/
theorem not_holds_beside (h : Filling t origin dst start s) {p q : Point}
    (hp : Area (t.isCandidate origin) dst start p) (hopen : ¬ s.Holds p)
    (hrow : q.y = p.y) (hbeside : q.x = p.x - 1 ∨ q.x = p.x + 1) : ¬ s.Holds q := by
  rw [h.holds_iff]
  rintro ⟨r, hr, hy, hl, hr'⟩
  have hout : ¬ r.Covers p := fun hc => hopen (h.holds_iff.mpr ⟨r, hr, hc⟩)
  have hpy : p.y = r.y := hrow.symm.trans hy
  have hpx : ¬ (r.x1 ≤ p.x ∧ p.x ≤ r.x2) := fun hx => hout ⟨hpy, hx⟩
  obtain ⟨px, py⟩ := p
  dsimp only at hpy hpx hbeside
  subst hpy
  rcases (show px = r.x1 - 1 ∨ px = r.x2 + 1 by omega) with rfl | rfl
  · exact (h.maximal r hr).left hp
  · exact (h.maximal r hr).right hp

/-- From an open pixel of the area on, as long as the target has candidates, the row is open and
belongs to the area. -/
theorem beside (h : Filling t origin dst start s) {p q : Point}
    (hp : Area (t.isCandidate origin) dst start p) (hopen : ¬ s.Holds p)
    (hrow : q.y = p.y) (hbeside : q.x = p.x - 1 ∨ q.x = p.x + 1) (hq : dst.contains q.x q.y = true)
    (hc : t.isCandidate s.target.1 q.x q.y = true) :
    Area (t.isCandidate origin) dst start q ∧ ¬ s.Holds q := by
  have hnot := h.not_holds_beside hp hopen hrow hbeside
  have hin : Inside (t.isCandidate origin) dst q :=
    ⟨hq, by rwa [← h.candidate_eq hnot]⟩
  exact ⟨.step hp (.inl ⟨hrow, hbeside⟩) hin, hnot⟩

/-- Where the target has no candidate beside an open pixel of the area, the area ends. -/
theorem ends_beside (h : Filling t origin dst start s) {p q : Point}
    (hp : Area (t.isCandidate origin) dst start p) (hopen : ¬ s.Holds p)
    (hrow : q.y = p.y) (hbeside : q.x = p.x - 1 ∨ q.x = p.x + 1)
    (hstop : dst.contains q.x q.y = true → t.isCandidate s.target.1 q.x q.y = false) :
    ¬ Area (t.isCandidate origin) dst start q := by
  intro hq
  have hc := hq.inside.2
  rw [← h.candidate_eq (h.not_holds_beside hp hopen hrow hbeside), hstop hq.inside.1] at hc
  cases hc

theorem leftwards (h : Filling t origin dst start s)
    (hp : Area (t.isCandidate origin) dst start ⟨x, y⟩) (hopen : ¬ s.Holds ⟨x, y⟩) {lo : Int}
    (hlo : dst.left ≤ lo) (hc : ∀ z, lo ≤ z → z < x → t.isCandidate s.target.1 z y = true) (z : Int)
    (hz : z ≤ x) : lo ≤ z → Area (t.isCandidate origin) dst start ⟨z, y⟩ ∧ ¬ s.Holds ⟨z, y⟩ := by
  have hrect := Rect.contains_iff.mp hp.inside.1
  dsimp only at hrect
  induction z, hz using Int.leInductionDown with
  | base => exact fun _ => ⟨hp, hopen⟩
  | pred z hz ih =>
    intro hle
    obtain ⟨harea, hnot⟩ := ih (by omega)
    refine h.beside harea hnot rfl (.inl rfl) ?_ (hc (z - 1) hle (by omega))
    rw [Rect.contains_iff]
    dsimp only
    omega

theorem rightwards (h : Filling t origin dst start s)
    (hp : Area (t.isCandidate origin) dst start ⟨x, y⟩) (hopen : ¬ s.Holds ⟨x, y⟩) {hi : Int}
    (hhi : hi < dst.right) (hc : ∀ z, x < z → z ≤ hi → t.isCandidate s.target.1 z y = true) (z : Int)
    (hz : x ≤ z) : z ≤ hi → Area (t.isCandidate origin) dst start ⟨z, y⟩ ∧ ¬ s.Holds ⟨z, y⟩ := by
  have hrect := Rect.contains_iff.mp hp.inside.1
  dsimp only at hrect
  induction z, hz using Int.leInduction with
  | base => exact fun _ => ⟨hp, hopen⟩
  | succ z hz ih =>
    intro hle
    obtain ⟨harea, hnot⟩ := ih (by omega)
    refine h.beside harea hnot rfl (.inr rfl) ?_ (hc (z + 1) (by omega) hle)
    rw [Rect.contains_iff]
    dsimp only
    omega

/-- The run through an open pixel of the area is a maximal run of the area. -/
theorem runThrough_maximal (h : Filling t origin dst start s)
    (hp : Area (t.isCandidate origin) dst start ⟨x, y⟩) (hopen : ¬ s.Holds ⟨x, y⟩) :
    MaximalRun (Area (t.isCandidate origin) dst start) (runThrough t.logged dst s x y) := by
  have hrect := Rect.contains_iff.mp hp.inside.1
  dsimp only at hrect
  have hends := le_runThrough t.logged dst s x y
  have hwithin := runThrough_within (t := t.logged) (s := s) (y := y) hrect.1 hrect.2.1
  obtain ⟨hleft, hleftEnd⟩ := runThrough_left (t := t.logged) (s := s) (y := y) hrect.1
  obtain ⟨hright, hrightEnd⟩ := runThrough_right (t := t.logged) (s := s) (y := y) hrect.2.1
  have hy : (runThrough t.logged dst s x y).y = y := rfl
  generalize runThrough t.logged dst s x y = run at *
  refine ⟨hends.1.trans hends.2, ?_, ?_, ?_⟩
  · intro p hc
    obtain ⟨px, py⟩ := p
    obtain ⟨hpy, hpx⟩ := hc
    dsimp only at hpy hpx
    rw [hpy, hy]
    rcases le_total px x with hle | hle
    · exact (h.leftwards hp hopen hwithin.1 hleft px hle hpx.1).1
    · exact (h.rightwards hp hopen hwithin.2 hright px hle hpx.2).1
  · rw [hy]
    obtain ⟨harea, hnot⟩ := h.leftwards hp hopen hwithin.1 hleft run.x1 hends.1 le_rfl
    refine h.ends_beside harea hnot rfl (.inl rfl) fun hin => hleftEnd.resolve_left fun hedge => ?_
    have := (Rect.contains_iff.mp hin).1
    dsimp only at this
    omega
  · rw [hy]
    obtain ⟨harea, hnot⟩ := h.rightwards hp hopen hwithin.2 hright run.x2 hends.2 le_rfl
    refine h.ends_beside harea hnot rfl (.inr rfl) fun hin => hrightEnd.resolve_left fun hedge => ?_
    have := (Rect.contains_iff.mp hin).2.1
    dsimp only at this
    omega

theorem within {run : Run} (hrun : MaximalRun (Area (t.isCandidate origin) dst start) run) :
    (dst.left ≤ run.x1 ∧ run.x2 < dst.right) ∧ dst.top ≤ run.y ∧ run.y < dst.bottom := by
  have hleft := Rect.contains_iff.mp hrun.left_mem.inside.1
  have hright := Rect.contains_iff.mp
    (hrun.mem ⟨run.x2, run.y⟩ ⟨rfl, hrun.nonempty, le_rfl⟩).inside.1
  dsimp only at hleft hright
  omega

/-- Filling a maximal run of the area through an open pixel keeps all that. -/
theorem record (ht : t.Local) (h : Filling t origin dst start s) {run : Run}
    (hrun : MaximalRun (Area (t.isCandidate origin) dst start) run)
    (hx : run.x1 ≤ x ∧ x ≤ run.x2) (hopen : ¬ s.Holds ⟨x, run.y⟩) :
    Filling t origin dst start
      (({ s with target := t.logged.fill s.target run } : State (σ × List Run)).record dst
        (entryOf dst run)) := by
  obtain ⟨hcols, hy⟩ := within hrun
  let s₁ : State (σ × List Run) := { s with target := t.logged.fill s.target run }
  have h₁ : Tidy dst s₁ := ⟨h.tidy.linked, h.tidy.todo, h.tidy.size⟩
  have hnew : run ∉ s.target.2 := fun hr => hopen (h.holds_iff.mpr ⟨run, hr, rfl, hx⟩)
  have hlog : ∀ r, r ∈ s.target.2 ++ [run] ↔ r ∈ s.target.2 ∨ r = run := fun r => by
    rw [List.mem_append, List.mem_singleton]
  refine ⟨(tidy_record h₁ hcols hx hy hopen).1, fun r => (hlog r).trans ⟨?_, ?_⟩, ?_, fun r hr => ?_,
    fun p hp => ?_⟩
  · rintro (hr | rfl)
    · obtain ⟨c, g, hg, huse, rfl⟩ := (h.log r).mp hr
      obtain ⟨g', hg', he⟩ := entry_record (s := s₁) dst (entryOf dst run) hg huse
      exact ⟨c, g', hg', (inUse_of_unlinked he).trans huse, run_of_unlinked he⟩
    · obtain ⟨c, hc⟩ := exists_entry_record (s := s₁) (entryOf dst r)
        ((exists_head h₁.linked hy).1.trans_le h₁.linked.size)
      exact ⟨c, _, hc, rfl, rfl⟩
  · rintro ⟨c, g, hg, huse, rfl⟩
    obtain rfl | ⟨g₀, hg₀, he⟩ := entry_of_record hg
    · exact .inr rfl
    · rw [inUse_of_unlinked he] at huse
      exact .inl ((h.log _).mpr ⟨c, g₀, hg₀, huse, (run_of_unlinked he).symm⟩)
  · exact h.nodup.append (List.nodup_singleton _) (by simpa using hnew)
  · rcases (hlog r).mp hr with hr | rfl
    · exact h.maximal r hr
    · exact hrun
  · have hout : ¬ run.Covers p := hp run ((hlog run).mpr (.inr rfl))
    exact (ht s.target.1 run p hout).trans
      (h.kept p fun r hr => hp r ((hlog r).mpr (.inl hr)))

/-- One run, or none where the pixel is no candidate. The part of the row dealt with is held as far
as it belongs to the area. -/
theorem fillRun (ht : t.Local) (h : Filling t origin dst start s)
    (hy : dst.top ≤ y ∧ y < dst.bottom) (hx : dst.left ≤ x ∧ x < dst.right)
    (hopen : ¬ s.Holds ⟨x, y⟩)
    (hreach : Inside (t.isCandidate origin) dst ⟨x, y⟩ → Area (t.isCandidate origin) dst start ⟨x, y⟩) :
    Filling t origin dst start (fillRun t.logged dst s x y).1 ∧
      ∀ z, x ≤ z → z < (Flood.fillRun t.logged dst s x y).2 →
        Area (t.isCandidate origin) dst start ⟨z, y⟩ →
        (Flood.fillRun t.logged dst s x y).1.Holds ⟨z, y⟩ := by
  have hnow : t.logged.isCandidate s.target x y = t.isCandidate origin x y :=
    h.candidate_eq (p := ⟨x, y⟩) hopen
  rw [fillRun_eq, hnow]
  cases hc : t.isCandidate origin x y with
  | false =>
    refine ⟨h, ?_⟩
    intro z hz hlt harea
    obtain rfl : z = x := by
      change z < x + 1 at hlt
      omega
    rw [harea.inside.2] at hc
    cases hc
  | true =>
    have harea := hreach ⟨Rect.contains_iff.mpr ⟨hx.1, hx.2, hy⟩, hc⟩
    have hrun := h.runThrough_maximal harea hopen
    have hends := le_runThrough t.logged dst s x y
    have hnext := h.record ht hrun hends hopen
    refine ⟨hnext, ?_⟩
    intro z hz hlt hin
    refine (holds_record_entryOf (s := { s with target := _ }) h.tidy.linked hy).mpr
      (.inr ⟨rfl, ?_⟩)
    change (runThrough t.logged dst s x y).x1 ≤ z ∧ z ≤ (runThrough t.logged dst s x y).x2
    -- the pixel after the run is not in the area
    have hne : z ≠ (runThrough t.logged dst s x y).x2 + 1 := fun he => hrun.right (he ▸ hin)
    change z < (runThrough t.logged dst s x y).x2 + 2 at hlt
    omega

/-- Looking along the row beside a run of the area, every pixel of the area there comes to be held. -/
theorem lookAlong (ht : t.Local) (hy : dst.top ≤ y ∧ y < dst.bottom) {right : Int}
    (hright : right < dst.right) (n : Nat) {s : State (σ × List Run)} {x : Int} (found : Bool)
    (hn : right - x < n) (hx : dst.left ≤ x) (h : Filling t origin dst start s)
    (hreach : ∀ z, x ≤ z → z ≤ right → Inside (t.isCandidate origin) dst ⟨z, y⟩ →
      Area (t.isCandidate origin) dst start ⟨z, y⟩) :
    Filling t origin dst start (lookAlong t.logged dst y right n s x found).1 ∧
      Extends dst s (Flood.lookAlong t.logged dst y right n s x found).1 ∧
      ∀ z, x ≤ z → z ≤ right → Inside (t.isCandidate origin) dst ⟨z, y⟩ →
        (Flood.lookAlong t.logged dst y right n s x found).1.Holds ⟨z, y⟩ := by
  induction n generalizing s x found with
  | zero => exact ⟨h, .refl s, fun z h₀ h₁ => by simp only [Nat.cast_zero] at hn; omega⟩
  | succ n ih =>
    rw [Nat.cast_succ] at hn
    simp only [Flood.lookAlong]
    split
    next hlt => exact ⟨h, .refl s, fun z h₀ h₁ => by omega⟩
    next hle =>
      split
      next r hr =>
        obtain ⟨c, g, hg, huse, ⟨hgy, hgx⟩, rfl⟩ := run_of_filledTo? h.tidy.linked hy hr
        have hrun := h.maximal g.run ((h.log g.run).mpr ⟨c, g, hg, huse, rfl⟩)
        change y = g.y at hgy
        change g.left ≤ x ∧ x ≤ g.right at hgx
        subst hgy
        obtain ⟨hF, hE, hC⟩ := ih (x := g.right + 2) found (by omega) (by omega) h
          fun z hz => hreach z (by omega)
        refine ⟨hF, hE, ?_⟩
        intro z h₀ h₁ hin
        rcases lt_or_ge z (g.right + 2) with hz | hz
        · have hne : z ≠ g.right + 1 := fun he => hrun.right (he ▸ hreach z h₀ h₁ hin)
          have hz' : g.left ≤ z ∧ z ≤ g.right := by omega
          exact hE.holds _ ⟨c, g, hg, huse, rfl, hz'⟩
        · exact hC z hz h₁ hin
      next hnone =>
        have hnext := lt_fillRun_next t.logged dst s x y
        have hopen := (filledTo?_eq_none_iff h.tidy.linked hy).mp hnone
        obtain ⟨hF₁, hC₁⟩ := h.fillRun ht hy ⟨hx, by omega⟩ hopen (hreach x le_rfl (by omega))
        obtain ⟨hF, hE, hC⟩ := ih (x := (Flood.fillRun t.logged dst s x y).2) true
          (by omega) (by omega) hF₁ fun z hz => hreach z (by omega)
        refine ⟨hF, (extends_fillRun h.tidy.linked hy).trans hE, ?_⟩
        intro z h₀ h₁ hin
        rcases lt_or_ge z (Flood.fillRun t.logged dst s x y).2 with hz | hz
        · exact hE.holds _ (hC₁ z h₀ hz (hreach z h₀ h₁ hin))
        · exact hC z hz h₁ hin

theorem mark (h : Filling t origin dst start s) (side : Side) (c : Nat) :
    Filling t origin dst start (s.mark c (·.settle side)) := by
  refine ⟨tidy_mark h.tidy side c, fun r => (h.log r).trans ⟨?_, ?_⟩, h.nodup, h.maximal, h.kept⟩
  · rintro ⟨i, g, hg, huse, rfl⟩
    obtain ⟨g', hg', he⟩ := entry_mark (c := c) side hg
    exact ⟨i, g', hg', (inUse_of_settled he).trans huse, run_of_settled he⟩
  · rintro ⟨i, g, hg, huse, rfl⟩
    obtain ⟨g₀, hg₀, he⟩ := entry_of_mark hg
    exact ⟨i, g₀, hg₀, (inUse_of_settled he).symm.trans huse, (run_of_settled he).symm⟩

/-- The entries of the table have their pixels in the area. -/
theorem area (h : Filling t origin dst start s) {c : Nat} {g : Segment} (hg : s.table[c]? = some g)
    (hx : g.left ≤ x ∧ x ≤ g.right) : Area (t.isCandidate origin) dst start ⟨x, g.y⟩ := by
  have huse : g.inUse = true := eq_true_of_ne_false fun hidle => by
    have := (h.tidy.linked.idle c g hg hidle).1
    omega
  exact (h.maximal g.run ((h.log g.run).mpr ⟨c, g, hg, huse, rfl⟩)).mem ⟨x, g.y⟩ ⟨rfl, hx⟩

end Filling

/-- On that side of the run every pixel of the area is held. -/
def SettledIn (candidate : Int → Int → Bool) (dst : Rect) (s : State σ) (r : Run)
    (side : Side) : Prop :=
  ∀ z, r.x1 ≤ z → z ≤ r.x2 → Inside candidate dst ⟨z, side.row r.y⟩ → s.Holds ⟨z, side.row r.y⟩

/-- Beside each entry the row is still to be looked at or settled. -/
def Complete (candidate : Int → Int → Bool) (dst : Rect) (s : State σ) : Prop :=
  ∀ (c : Nat) g side, s.table[c]? = some g →
    g.todo side = true ∨ SettledIn candidate dst s g.run side

/-- The entry of a run just filled is to be looked at on each side that has a row. -/
theorem todo_or_settled_entryOf (candidate : Int → Int → Bool) (s : State σ) (r : Run)
    (side : Side) : (entryOf dst r).todo side = true ∨ SettledIn candidate dst s r side := by
  by_cases hrow : dst.top ≤ side.row r.y ∧ side.row r.y < dst.bottom
  · left
    cases side <;> simp only [Side.row] at hrow <;>
      simp only [entryOf, Segment.todo, decide_eq_true_eq] <;> omega
  · exact .inr fun z _ _ hin => absurd hin.rows hrow

theorem SettledIn.mono {candidate : Int → Int → Bool} {s s' : State σ} {r : Run}
    {side : Side} (h : SettledIn candidate dst s r side) (hkeep : ∀ p, s.Holds p → s'.Holds p) :
    SettledIn candidate dst s' r side :=
  fun z h₀ h₁ hin => hkeep _ (h z h₀ h₁ hin)

theorem todo_settle_of_ne {g : Segment} {side side' : Side} (hne : side' ≠ side)
    (h : g.todo side' = true) : (g.settle side).todo side' = true := by
  cases side <;> cases side' <;> simp_all [Segment.settle, Segment.todo]

/-- Once a side of an entry is marked as looked at, only that side may be neither. -/
theorem Complete.of_mark {candidate : Int → Int → Bool} {s : State σ} (hc : Complete candidate dst s)
    {side : Side} (side' : Side) {c i : Nat} {g g₁ : Segment} (hg : s.table[c]? = some g)
    (h₁ : (s.mark c (·.settle side)).table[i]? = some g₁) :
    g₁.todo side' = true ∨ SettledIn candidate dst s g₁.run side' ∨
      (side' = side ∧ g₁.run = g.run) := by
  rw [getElem?_mark] at h₁
  split at h₁
  next hi =>
    subst hi
    rw [hg] at h₁
    obtain rfl : g.settle side = g₁ := Option.some.inj h₁
    have hrun := run_of_settled (settled_settle g side)
    by_cases hside : side' = side
    · exact .inr (.inr ⟨hside, hrun⟩)
    · rcases hc c g side' hg with htodo | hsettled
      · exact .inl (todo_settle_of_ne hside htodo)
      · exact .inr (.inl (by rwa [hrun]))
  next =>
    rcases hc i g₁ side' h₁ with htodo | hsettled
    · exact .inl htodo
    · exact .inr (.inl hsettled)

/-- A visit settles its side of its entry, keeps what was settled and gives no pixel back. -/
theorem complete_visit (ht : t.Local) (h : Filling t origin dst start s)
    (hc : Complete (t.isCandidate origin) dst s) (side : Side) (c : Nat) :
    Filling t origin dst start (visit t.logged dst side s c).1 ∧
      Complete (t.isCandidate origin) dst (visit t.logged dst side s c).1 ∧
      ∀ p, s.Holds p → (visit t.logged dst side s c).1.Holds p := by
  rcases visit_cases t.logged dst side s c with ⟨-, hv⟩ | ⟨g, hg, htodo, hv⟩
  · rw [hv]
    exact ⟨h, hc, fun _ => id⟩
  · rw [hv]
    obtain ⟨hcols, hrow⟩ := h.tidy.todo c g side hg htodo
    -- a pixel beside the run hangs together with it
    have hreach : ∀ z, g.left ≤ z → z ≤ g.right →
        Inside (t.isCandidate origin) dst ⟨z, side.row g.y⟩ →
        Area (t.isCandidate origin) dst start ⟨z, side.row g.y⟩ := by
      intro z h₀ h₁ hin
      refine .step (h.area hg ⟨h₀, h₁⟩) (.inr ⟨rfl, ?_⟩) hin
      cases side
      · exact .inl rfl
      · exact .inr rfl
    obtain ⟨hF, hE, hC⟩ := (h.mark side c).lookAlong ht hrow hcols.2
      (g.right - g.left + 1).toNat false (by omega) hcols.1 hreach
    have hkeep : ∀ p, s.Holds p →
        (lookBeside t.logged dst (s.mark c (·.settle side)) g (side.row g.y)).1.Holds p :=
      fun p hp => hE.holds p ((holds_mark s side c p).mpr hp)
    refine ⟨hF, ?_, hkeep⟩
    intro i g' side' hg'
    rcases hE.entries i g' hg' with ⟨g₁, hg₁, he⟩ | ⟨r, he⟩
    · rw [todo_of_unlinked he, run_of_unlinked he]
      rcases hc.of_mark side' hg hg₁ with htodo' | hsettled | ⟨rfl, hrun⟩
      · exact .inl htodo'
      · exact .inr (hsettled.mono hkeep)
      · rw [hrun]
        exact .inr hC
    · have he' : g'.unlinked = (entryOf dst r).unlinked := he
      rw [todo_of_unlinked he', run_of_unlinked he']
      exact todo_or_settled_entryOf _ _ r side'

/-! ## The whole fill -/

theorem filling_start (t : FloodTarget σ) (origin : σ) (dst : Rect) (start : Point) (y : Int) :
    Filling t origin dst start (State.start dst (origin, []) y) where
  tidy := tidy_start dst _ y
  log r := by
    refine ⟨fun hr => absurd hr List.not_mem_nil, ?_⟩
    rintro ⟨c, g, hg, huse, -⟩
    rw [getElem?_start hg] at huse
    cases huse
  nodup := List.nodup_nil
  maximal r hr := absurd hr List.not_mem_nil
  kept p _ := rfl

/-- A state of the fill once the first pixel is dealt with. -/
structure Underway (t : FloodTarget σ) (origin : σ) (dst : Rect) (start : Point)
    (s : State (σ × List Run)) : Prop extends Filling t origin dst start s where
  complete : Complete (t.isCandidate origin) dst s
  first : Inside (t.isCandidate origin) dst start → s.Holds start

theorem underway_afterFirst (ht : t.Local) (origin : σ) (start : Point)
    (h : dst.contains start.x start.y = true) :
    Underway t origin dst start (State.afterFirst t.logged (origin, []) dst start.x start.y) := by
  obtain ⟨hl, hr, htop, hbottom⟩ := Rect.contains_iff.mp h
  have hstart := filling_start t origin dst start start.y
  obtain ⟨hF, hC⟩ := hstart.fillRun ht ⟨htop, hbottom⟩ ⟨hl, hr⟩ (not_holds_start dst _ _ _) Area.start
  refine ⟨hF, ?_, ?_⟩
  · intro c g side hg
    rcases (extends_fillRun hstart.tidy.linked ⟨htop, hbottom⟩).entries c g hg with
      ⟨g₀, hg₀, he⟩ | ⟨r, he⟩
    · -- an entry that is not in use has no pixels
      rw [getElem?_start hg₀] at he
      rw [run_of_unlinked he]
      right
      intro z h₀ h₁
      simp only [Segment.run, Segment.unused] at h₀ h₁
      omega
    · have he' : g.unlinked = (entryOf dst r).unlinked := he
      rw [todo_of_unlinked he', run_of_unlinked he']
      exact todo_or_settled_entryOf _ _ r side
  · intro hin
    exact hC start.x le_rfl (lt_fillRun_next _ _ _ _ _) (.start hin)

theorem underway_final (ht : t.Local) (origin : σ) (start : Point)
    (h : dst.contains start.x start.y = true) :
    Underway t origin dst start (State.final t.logged (origin, []) dst start.x start.y) := by
  refine passes_preserves ?_ _ _ _ (underway_afterFirst ht origin start h)
  intro side s c hs
  obtain ⟨hF, hC, hkeep⟩ := complete_visit ht hs.toFilling hs.complete side c
  exact ⟨hF, hC, fun hin => hkeep _ (hs.first hin)⟩

/-- Where nothing is left to be looked at, a pixel of the area is held once one beside it is. -/
theorem Underway.holds_adjacent (hU : Underway t origin dst start s)
    (hquiet : ∀ (c : Nat) g side, s.table[c]? = some g → g.todo side = false) {p q : Point}
    (hheld : s.Holds p) (hadj : Adjacent p q) (hq : Area (t.isCandidate origin) dst start q) :
    s.Holds q := by
  obtain ⟨r, hr, hc⟩ := hU.holds_iff.mp hheld
  have hrun := hU.maximal r hr
  obtain ⟨px, py⟩ := p
  obtain ⟨qx, qy⟩ := q
  obtain ⟨hy, hl, hr'⟩ := hc
  dsimp only at hy hl hr'
  subst hy
  rcases hadj with ⟨hrow, hx⟩ | ⟨hx, hrow⟩
  · -- on the row of the run it is one of its pixels
    dsimp only at hrow hx
    subst hrow
    have hne₁ : qx ≠ r.x1 - 1 := fun he => hrun.left (he ▸ hq)
    have hne₂ : qx ≠ r.x2 + 1 := fun he => hrun.right (he ▸ hq)
    exact hU.holds_iff.mpr ⟨r, hr, rfl, by dsimp only; omega, by dsimp only; omega⟩
  · -- on a row beside it the entry of the run is settled
    dsimp only at hrow hx
    subst hx
    obtain ⟨c, g, hg, -, rfl⟩ := (hU.log r).mp hr
    obtain ⟨side, rfl⟩ : ∃ side : Side, qy = side.row g.y := by
      rcases hrow with rfl | rfl
      · exact ⟨.above, rfl⟩
      · exact ⟨.below, rfl⟩
    rcases hU.complete c g side hg with htodo | hsettled
    · rw [hquiet c g side hg] at htodo
      cases htodo
    · exact hsettled qx hl hr' hq.inside

/-- At the end the runs hold the whole area. -/
theorem holds_final (ht : t.Local) (h : dst.contains start.x start.y = true) {p : Point}
    (hp : Area (t.isCandidate origin) dst start p) :
    (State.final t.logged (origin, []) dst start.x start.y).Holds p := by
  have hU := underway_final ht origin start h
  induction hp with
  | start hin => exact hU.first hin
  | step hp hadj hq ih =>
    exact hU.holds_adjacent (fun c g side hg => final_settled _ _ h hg side) ih hadj
      (hp.step hadj hq)

/-- The runs asked for are the maximal runs of the area and no others. -/
theorem mem_calls_iff (ht : t.Local) (origin : σ) (dst : Rect) (x y : Int) (r : Run) :
    r ∈ calls t origin dst x y ↔
      MaximalRun (Area (t.isCandidate origin) dst.normalized ⟨x, y⟩) r := by
  rw [calls, fill_eq]
  by_cases h : dst.normalized.contains x y = true
  · rw [if_pos h]
    have hU := underway_final ht origin ⟨x, y⟩ h
    refine ⟨hU.maximal r, ?_⟩
    intro hr
    -- the run that holds the first pixel of a maximal run is that run
    have hheld := holds_final ht h hr.left_mem
    obtain ⟨r', hr', hc⟩ := hU.holds_iff.mp hheld
    rwa [hr.eq_of_covers (hU.maximal r' hr') ⟨rfl, le_rfl, hr.nonempty⟩ hc]
  · rw [if_neg h]
    exact ⟨fun hr => absurd hr List.not_mem_nil, fun hr => absurd hr.left_mem.inside_start.1 h⟩

theorem nodup_calls (ht : t.Local) (origin : σ) (dst : Rect) (x y : Int) :
    (calls t origin dst x y).Nodup := by
  rw [calls, fill_eq]
  split
  next h => exact (underway_final ht origin ⟨x, y⟩ h).nodup
  next => exact List.nodup_nil

/-- The runs asked for cover the area. -/
theorem area_iff_covered (ht : t.Local) (origin : σ) (dst : Rect) (x y : Int) (p : Point) :
    Area (t.isCandidate origin) dst.normalized ⟨x, y⟩ p ↔ ∃ r ∈ calls t origin dst x y, r.Covers p := by
  constructor
  · intro hp
    have hstart : dst.normalized.contains x y = true := hp.inside_start.1
    rw [calls, fill_eq, if_pos hstart]
    exact (underway_final ht origin ⟨x, y⟩ hstart).holds_iff.mp (holds_final ht hstart hp)
  · rintro ⟨r, hr, hp⟩
    exact ((mem_calls_iff ht origin dst x y r).mp hr).mem p hp

/-- A square around one closed pixel. The pixels of its middle row stay candidates when they are
filled. -/
def ringTarget : FloodTarget (List Run) where
  isCandidate s x y :=
    (0 ≤ x && x ≤ 2 && 0 ≤ y && y ≤ 2 && !(x == 1 && y == 1)) &&
      !s.any fun r => r.y != 1 && r.Covers ⟨x, y⟩
  fill s r := r :: s

theorem ringTarget_local : ringTarget.Local := by
  intro s r p hr
  simp [ringTarget, hr]

end Rasterizer.Flood
