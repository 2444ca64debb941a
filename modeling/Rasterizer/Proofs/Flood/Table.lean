import Rasterizer.Proofs.Flood.Links
import Mathlib.Algebra.Order.Ring.Int

/-! # The table of a fill

What one filled run does to the table, and from it what a look along a row and a visit
of an entry do. A step lemma about `fillRun` is all that a property of a whole fill
needs (`passes_preserves`). -/

namespace Rasterizer.Flood

variable {σ : Type} {t : FloodTarget σ} {dst : Rect} {s : State σ} {x y : Int}

def Segment.run (g : Segment) : Run := ⟨g.left, g.right, g.y⟩

/-- A filled run holds the pixel. -/
def State.Holds (s : State σ) (p : Point) : Prop :=
  ∃ (c : Nat) (g : Segment), s.table[c]? = some g ∧ g.inUse = true ∧ g.run.Covers p

theorem le_of_filledTo? {r : Int} (h : s.filledTo? dst x y = some r) : x ≤ r := by
  obtain ⟨_, g, -, -, hx, rfl⟩ := heldFrom?_some h
  exact hx.2

theorem exists_head (hs : Linked dst s.table) (hy : dst.top ≤ y ∧ y < dst.bottom) :
    rowIndex dst y < dst.height.toNat ∧ dst.top + (rowIndex dst y : Int) = y ∧
      ∃ g, s.table[rowIndex dst y]? = some g := by
  have hrow : rowIndex dst y < dst.height.toNat := by
    unfold rowIndex Rect.height
    omega
  refine ⟨hrow, by unfold rowIndex; omega, _, Array.getElem?_eq_getElem (hrow.trans_le hs.size)⟩

/-- What the walk along the links of a row finds is a run of that row. -/
theorem run_of_filledTo? (hs : Linked dst s.table) (hy : dst.top ≤ y ∧ y < dst.bottom) {r : Int}
    (h : s.filledTo? dst x y = some r) :
    ∃ (c : Nat) (g : Segment), s.table[c]? = some g ∧ g.inUse = true ∧ g.run.Covers ⟨x, y⟩ ∧
      g.right = r := by
  obtain ⟨d, g, hr, hg, hx, hright⟩ := heldFrom?_some h
  obtain ⟨hrow, htop, g₀, hg₀⟩ := exists_head hs hy
  have huse : g.inUse = true := eq_true_of_ne_false fun hidle => by
    have := (hs.idle d g hg hidle).1
    omega
  have huse₀ : g₀.inUse = true := by
    cases hr with
    | here => rwa [← Option.some.inj (hg.symm.trans hg₀)]
    | link hc hnext => rw [← Option.some.inj (hc.symm.trans hg₀), hs.inUse_of_link hc hnext]
  have hgy : g.y = y := by rw [hs.y_of_reaches hr hg₀ hg, hs.heads _ _ hg₀ huse₀ hrow, htop]
  exact ⟨d, g, hg, huse, ⟨hgy.symm, hx⟩, hright⟩

/-- The walk finds a run whenever one holds the pixel. -/
theorem filledTo?_eq_none_iff (hs : Linked dst s.table) (hy : dst.top ≤ y ∧ y < dst.bottom) :
    s.filledTo? dst x y = none ↔ ¬ s.Holds ⟨x, y⟩ := by
  constructor
  · rintro hnone ⟨c, g, hg, huse, hrow, hx⟩
    have hr := hs.reaches hg huse
    rw [show g.y = y from hrow.symm] at hr
    exact hs.not_held (Nat.le_add_left ..) hnone hr hg hx
  · intro hopen
    refine Option.eq_none_iff_forall_ne_some.mpr fun r hr => hopen ?_
    obtain ⟨c, g, hg, huse, hx, -⟩ := run_of_filledTo? hs hy hr
    exact ⟨c, g, hg, huse, hx⟩

/-! ## Reaching out from a candidate -/

theorem reachLeft_spec (candidate : Int → Bool) (n : Nat) (x : Int) :
    (x - n ≤ reachLeft candidate n x ∧ reachLeft candidate n x ≤ x) ∧
      (∀ z, reachLeft candidate n x ≤ z → z < x → candidate z = true) ∧
      (reachLeft candidate n x = x - n ∨ candidate (reachLeft candidate n x - 1) = false) := by
  induction n generalizing x with
  | zero =>
    simp only [reachLeft]
    exact ⟨by omega, fun z h1 h2 => by omega, .inl (by omega)⟩
  | succ n ih =>
    simp only [reachLeft]
    split
    next hc =>
      obtain ⟨hrange, hall, hend⟩ := ih (x - 1)
      refine ⟨by omega, ?_, hend.imp_left fun h => by omega⟩
      intro z h1 h2
      rcases eq_or_ne z (x - 1) with rfl | hne
      · exact hc
      · exact hall z h1 (by omega)
    next hc => exact ⟨by omega, fun z h1 h2 => by omega, .inr (by simpa using hc)⟩

theorem reachRight_spec (candidate : Int → Bool) (n : Nat) (x : Int) :
    (x ≤ reachRight candidate n x ∧ reachRight candidate n x ≤ x + n) ∧
      (∀ z, x < z → z ≤ reachRight candidate n x → candidate z = true) ∧
      (reachRight candidate n x = x + n ∨ candidate (reachRight candidate n x + 1) = false) := by
  induction n generalizing x with
  | zero =>
    simp only [reachRight]
    exact ⟨by omega, fun z h1 h2 => by omega, .inl (by omega)⟩
  | succ n ih =>
    simp only [reachRight]
    split
    next hc =>
      obtain ⟨hrange, hall, hend⟩ := ih (x + 1)
      refine ⟨by omega, ?_, hend.imp_left fun h => by omega⟩
      intro z h1 h2
      rcases eq_or_ne z (x + 1) with rfl | hne
      · exact hc
      · exact hall z (by omega) h2
    next hc => exact ⟨by omega, fun z h1 h2 => by omega, .inr (by simpa using hc)⟩

/-! ## One run -/

/-- The run through `(x, y)` that a fill finds, and its entry. -/
def runThrough (t : FloodTarget σ) (dst : Rect) (s : State σ) (x y : Int) : Run :=
  ⟨reachLeft (fun x => t.isCandidate s.target x y) (x - dst.left).toNat x,
    reachRight (fun x => t.isCandidate s.target x y) (dst.right - 1 - x).toNat x, y⟩

/-- The entry of a run just filled. -/
def entryOf (dst : Rect) (r : Run) : Segment :=
  ⟨true, r.x1, r.x2, r.y, dst.top < r.y, r.y + 1 < dst.bottom, 0⟩

theorem fillRun_eq (t : FloodTarget σ) (dst : Rect) (s : State σ) (x y : Int) :
    fillRun t dst s x y =
      if t.isCandidate s.target x y then
        (({ s with target := t.fill s.target (runThrough t dst s x y) }).record dst
          (entryOf dst (runThrough t dst s x y)), (runThrough t dst s x y).x2 + 2)
      else (s, x + 1) := rfl

theorem le_runThrough (t : FloodTarget σ) (dst : Rect) (s : State σ) (x y : Int) :
    (runThrough t dst s x y).x1 ≤ x ∧ x ≤ (runThrough t dst s x y).x2 :=
  ⟨(reachLeft_spec _ _ x).1.2, (reachRight_spec _ _ x).1.1⟩

theorem runThrough_within (hl : dst.left ≤ x) (hr : x < dst.right) :
    dst.left ≤ (runThrough t dst s x y).x1 ∧ (runThrough t dst s x y).x2 < dst.right := by
  have h1 := (reachLeft_spec (fun x => t.isCandidate s.target x y) (x - dst.left).toNat x).1.1
  have h2 := (reachRight_spec (fun x => t.isCandidate s.target x y) (dst.right - 1 - x).toNat x).1.2
  rw [Int.toNat_of_nonneg (by omega)] at h1 h2
  unfold runThrough
  constructor <;> dsimp only <;> omega

/-- To the left the run reaches as far as the target has candidates. -/
theorem runThrough_left (hl : dst.left ≤ x) :
    (∀ z, (runThrough t dst s x y).x1 ≤ z → z < x → t.isCandidate s.target z y = true) ∧
      ((runThrough t dst s x y).x1 = dst.left ∨
        t.isCandidate s.target ((runThrough t dst s x y).x1 - 1) y = false) := by
  obtain ⟨-, hall, hend⟩ :=
    reachLeft_spec (fun x => t.isCandidate s.target x y) (x - dst.left).toNat x
  rw [Int.toNat_of_nonneg (by omega), sub_sub_cancel] at hend
  exact ⟨hall, hend⟩

theorem runThrough_right (hr : x < dst.right) :
    (∀ z, x < z → z ≤ (runThrough t dst s x y).x2 → t.isCandidate s.target z y = true) ∧
      ((runThrough t dst s x y).x2 = dst.right - 1 ∨
        t.isCandidate s.target ((runThrough t dst s x y).x2 + 1) y = false) := by
  obtain ⟨-, hall, hend⟩ :=
    reachRight_spec (fun x => t.isCandidate s.target x y) (dst.right - 1 - x).toNat x
  rw [Int.toNat_of_nonneg (by omega), add_sub_cancel] at hend
  exact ⟨hall, hend⟩

theorem lt_fillRun_next (t : FloodTarget σ) (dst : Rect) (s : State σ) (x y : Int) :
    x < (fillRun t dst s x y).2 := by
  rw [fillRun_eq]
  split
  · have := (le_runThrough t dst s x y).2
    dsimp only
    omega
  · exact Int.lt_succ x

/-! ## One entry more -/

/-- The entry but for its link. -/
def Segment.unlinked (g : Segment) : Segment := { g with next := 0 }

section Unlinked

variable {g g' : Segment} (h : g.unlinked = g'.unlinked)
include h

theorem run_of_unlinked : g.run = g'.run := by
  change g.unlinked.run = g'.unlinked.run
  rw [h]

theorem inUse_of_unlinked : g.inUse = g'.inUse := by
  change g.unlinked.inUse = g'.unlinked.inUse
  rw [h]

theorem todo_of_unlinked (side : Side) : g.todo side = g'.todo side := by
  have htodo : ∀ g : Segment, g.unlinked.todo side = g.todo side := fun g => by cases side <;> rfl
  rw [← htodo g, h, htodo]

end Unlinked

theorem record_of_inUse {seg g : Segment} (hg : s.table[rowIndex dst seg.y]? = some g)
    (huse : g.inUse = true) : (s.record dst seg).table =
      appendTo s.table (lastFrom s.table s.table.size (rowIndex dst seg.y)) seg := by
  simp only [State.record, hg, Option.any_some, huse, if_true]

theorem record_of_idle {seg g : Segment} (hg : s.table[rowIndex dst seg.y]? = some g)
    (hidle : g.inUse = false) :
    (s.record dst seg).table = s.table.setIfInBounds (rowIndex dst seg.y) seg := by
  simp only [State.record, hg, Option.any_some, hidle, Bool.false_eq_true, if_false]

theorem linked_record (hs : Linked dst s.table) {seg : Segment}
    (hy : dst.top ≤ seg.y ∧ seg.y < dst.bottom) (huse : seg.inUse = true) (hnext : seg.next = 0) :
    Linked dst (s.record dst seg).table := by
  obtain ⟨hrow, htop, g, hg⟩ := exists_head hs hy
  cases hhead : g.inUse with
  | true =>
    obtain ⟨g₁, hg₁, hend, hy₁, huse₁⟩ := hs.lastFrom_spec (Nat.le_add_left ..) hg
    rw [record_of_inUse hg hhead]
    refine hs.appendTo hg₁ hend (huse₁ hhead) huse hnext ?_
    rw [hy₁, hs.heads _ _ hg hhead hrow, htop]
  | false =>
    rw [record_of_idle hg hhead]
    exact hs.setHead hrow hg hhead huse hnext htop.symm

/-- Recording a run leaves the other entries as they are but for their links. -/
theorem entry_of_record {seg g : Segment} {c : Nat}
    (h : (s.record dst seg).table[c]? = some g) :
    g = seg ∨ ∃ g₀, s.table[c]? = some g₀ ∧ g.unlinked = g₀.unlinked := by
  simp only [State.record] at h
  split at h
  · obtain ⟨-, hg⟩ | ⟨g₀, hg₀, he, -⟩ := appendTo_cases h
    · exact .inl hg
    · exact .inr ⟨g₀, hg₀, by rw [he]; rfl⟩
  · obtain ⟨-, hg⟩ | ⟨-, hg⟩ := setIfInBounds_cases h
    · exact .inl hg
    · exact .inr ⟨g, hg, rfl⟩

/-- An entry in use is not used again. -/
theorem entry_record (dst : Rect) (seg : Segment) {g : Segment} {c : Nat} (hg : s.table[c]? = some g)
    (huse : g.inUse = true) :
    ∃ g', (s.record dst seg).table[c]? = some g' ∧ g'.unlinked = g.unlinked := by
  simp only [State.record]
  split
  next =>
    obtain ⟨next, hnew, -⟩ := appendTo_old _ seg hg
    exact ⟨_, hnew, rfl⟩
  next hidle =>
    have hne : rowIndex dst seg.y ≠ c := by
      rintro rfl
      exact hidle (by rw [hg, Option.any_some, huse])
    exact ⟨g, by rw [Array.getElem?_setIfInBounds, if_neg hne, hg], rfl⟩

theorem exists_entry_record (seg : Segment) (h : rowIndex dst seg.y < s.table.size) :
    ∃ c : Nat, (s.record dst seg).table[c]? = some seg := by
  simp only [State.record]
  split
  · exact ⟨s.table.size, by rw [getElem?_appendTo, if_pos rfl]⟩
  · exact ⟨rowIndex dst seg.y, by rw [Array.getElem?_setIfInBounds, if_pos rfl, if_pos h]⟩

theorem holds_record {seg : Segment} (h : rowIndex dst seg.y < s.table.size)
    (huse : seg.inUse = true) {p : Point} :
    (s.record dst seg).Holds p ↔ s.Holds p ∨ seg.run.Covers p := by
  constructor
  · rintro ⟨c, g, hg, huse, hp⟩
    obtain rfl | ⟨g₀, hg₀, he⟩ := entry_of_record hg
    · exact .inr hp
    · rw [inUse_of_unlinked he] at huse
      rw [run_of_unlinked he] at hp
      exact .inl ⟨c, g₀, hg₀, huse, hp⟩
  · rintro (⟨c, g, hg, huse, hp⟩ | hp)
    · obtain ⟨g', hg', he⟩ := entry_record dst seg hg huse
      exact ⟨c, g', hg', (inUse_of_unlinked he).trans huse, by rwa [run_of_unlinked he]⟩
    · obtain ⟨c, hc⟩ := exists_entry_record seg h
      exact ⟨c, seg, hc, huse, hp⟩

/-! ## One side settled -/

/-- The entry but for what is still to be looked at. -/
def Segment.settled (g : Segment) : Segment := { g with todoAbove := false, todoBelow := false }

theorem settled_settle (g : Segment) (side : Side) : (g.settle side).settled = g.settled := by
  cases side <;> rfl

theorem getElem?_mark {f : Segment → Segment} {c i : Nat} :
    (s.mark c f).table[i]? = if c = i then (s.table[i]?).map f else s.table[i]? := by
  rw [State.mark, Array.getElem?_modify]

/-- Settling a side leaves the entries as they are but for what is to be looked at. -/
theorem entry_of_mark {side : Side} {c i : Nat} {g : Segment}
    (h : (s.mark c (·.settle side)).table[i]? = some g) :
    ∃ g₀, s.table[i]? = some g₀ ∧ g.settled = g₀.settled := by
  rw [getElem?_mark] at h
  split at h
  · obtain ⟨g₀, hg₀, rfl⟩ := Option.map_eq_some_iff.mp h
    exact ⟨g₀, hg₀, settled_settle g₀ side⟩
  · exact ⟨g, h, rfl⟩

theorem entry_mark {c i : Nat} {g : Segment} (side : Side) (h : s.table[i]? = some g) :
    ∃ g', (s.mark c (·.settle side)).table[i]? = some g' ∧ g'.settled = g.settled := by
  rw [getElem?_mark, h]
  split
  · exact ⟨_, rfl, settled_settle g side⟩
  · exact ⟨g, rfl, rfl⟩

section Settled

variable {g g' : Segment} (h : g.settled = g'.settled)
include h

theorem run_of_settled : g.run = g'.run := by
  change g.settled.run = g'.settled.run
  rw [h]

theorem inUse_of_settled : g.inUse = g'.inUse := by
  change g.settled.inUse = g'.settled.inUse
  rw [h]

theorem next_of_settled : g.next = g'.next := by
  change g.settled.next = g'.settled.next
  rw [h]

end Settled

theorem linked_mark (hs : Linked dst s.table) (side : Side) (c : Nat) :
    Linked dst (s.mark c (·.settle side)).table := by
  refine ⟨?_, ?_, ?_, ?_, ?_⟩
  · rw [State.mark, Array.size_modify]
    exact hs.size
  · intro i g hi hg hrow
    obtain ⟨g₀, hg₀, he⟩ := entry_of_mark hi
    rw [inUse_of_settled he] at hg
    exact (congrArg Run.y (run_of_settled he)).trans (hs.heads i g₀ hg₀ hg hrow)
  · intro i g hi hg
    obtain ⟨g₀, hg₀, he⟩ := entry_of_mark hi
    rw [inUse_of_settled he] at hg
    obtain ⟨hempty, hend⟩ := hs.idle i g₀ hg₀ hg
    have hrun := run_of_settled he
    have hleft : g.left = g₀.left := congrArg Run.x1 hrun
    have hright : g.right = g₀.right := congrArg Run.x2 hrun
    exact ⟨by omega, (next_of_settled he).trans hend⟩
  · intro i g hi hg
    obtain ⟨g₀, hg₀, he⟩ := entry_of_mark hi
    rw [next_of_settled he] at hg ⊢
    obtain ⟨hlt, g₁, hg₁, hy, huse⟩ := hs.forward i g₀ hg₀ hg
    obtain ⟨g', hg', he'⟩ := entry_mark (c := c) side hg₁
    have hrow : g'.y = g₁.y := congrArg Run.y (run_of_settled he')
    have hrow₀ : g.y = g₀.y := congrArg Run.y (run_of_settled he)
    exact ⟨hlt, g', hg', by omega, (inUse_of_settled he').trans huse⟩
  · intro d g hd hrow
    obtain ⟨g₀, hg₀, he⟩ := entry_of_mark hd
    obtain ⟨huse, i, g₁, hlt, hg₁, hnext⟩ := hs.linked d g₀ hg₀ hrow
    obtain ⟨g', hg', he'⟩ := entry_mark (c := c) side hg₁
    exact ⟨(inUse_of_settled he).trans huse, i, g', hlt, hg', (next_of_settled he').trans hnext⟩

theorem holds_mark (s : State σ) (side : Side) (c : Nat) (p : Point) :
    (s.mark c (·.settle side)).Holds p ↔ s.Holds p := by
  constructor
  · rintro ⟨i, g, hg, huse, hp⟩
    obtain ⟨g₀, hg₀, he⟩ := entry_of_mark hg
    rw [inUse_of_settled he] at huse
    rw [run_of_settled he] at hp
    exact ⟨i, g₀, hg₀, huse, hp⟩
  · rintro ⟨i, g, hg, huse, hp⟩
    obtain ⟨g', hg', he⟩ := entry_mark (c := c) side hg
    exact ⟨i, g', hg', (inUse_of_settled he).trans huse, by rwa [run_of_settled he]⟩

/-! ## Looking along a row -/

/-- What the table of a later state has kept of an earlier one: no pixel is given back, and an
entry that was not there is that of a run just filled. -/
structure Extends (dst : Rect) (s s' : State σ) : Prop where
  holds : ∀ p, s.Holds p → s'.Holds p
  entries : ∀ (c : Nat) g, s'.table[c]? = some g →
    (∃ g₀, s.table[c]? = some g₀ ∧ g.unlinked = g₀.unlinked) ∨ ∃ r, g.unlinked = entryOf dst r

theorem Extends.refl (s : State σ) : Extends dst s s :=
  ⟨fun _ => id, fun _ g hg => .inl ⟨g, hg, rfl⟩⟩

theorem Extends.trans {s' s'' : State σ} (h : Extends dst s s') (h' : Extends dst s' s'') :
    Extends dst s s'' := by
  refine ⟨fun p hold => h'.holds p (h.holds p hold), ?_⟩
  intro c g hg
  rcases h'.entries c g hg with ⟨g', hg', he'⟩ | hnew
  · rcases h.entries c g' hg' with ⟨g₀, hg₀, he⟩ | ⟨r, he⟩
    · exact .inl ⟨g₀, hg₀, he'.trans he⟩
    · exact .inr ⟨r, he'.trans he⟩
  · exact .inr hnew

theorem extends_fillRun (hs : Linked dst s.table) (hy : dst.top ≤ y ∧ y < dst.bottom) :
    Extends dst s (fillRun t dst s x y).1 := by
  have hhead := (exists_head hs hy).1.trans_le hs.size
  rw [fillRun_eq]
  split
  · refine ⟨fun p hold => (holds_record hhead rfl).mpr (.inl hold), ?_⟩
    intro c g hg
    obtain rfl | hold := entry_of_record hg
    · exact .inr ⟨_, rfl⟩
    · exact .inl hold
  · exact .refl s

/-- A look along a row keeps whatever the runs keep that it fills: each through a pixel between
its ends that no run held before. -/
theorem lookAlong_preserves {P : State σ → Prop} (lo : Int) {right : Int}
    (hstep : ∀ s x, P s → lo ≤ x → x ≤ right → s.filledTo? dst x y = none →
      P (fillRun t dst s x y).1)
    (n : Nat) {s : State σ} {x : Int} (found : Bool) (hlo : lo ≤ x) (hs : P s) :
    P (lookAlong t dst y right n s x found).1 := by
  induction n generalizing s x found with
  | zero => exact hs
  | succ n ih =>
    simp only [lookAlong]
    split
    · exact hs
    next hx =>
      split
      next r hr =>
        have := le_of_filledTo? hr
        exact ih _ (by omega) hs
      next hnone =>
        have hnext := lt_fillRun_next t dst s x y
        exact ih _ (by omega) (hstep s x hs hlo (by omega) hnone)

theorem lookAlong_found {right : Int} (n : Nat) (s : State σ) (x : Int) :
    (lookAlong t dst y right n s x true).2 = true := by
  induction n generalizing s x with
  | zero => rfl
  | succ n ih =>
    simp only [lookAlong]
    split
    · rfl
    · split <;> exact ih _ _

/-- A look that finds no pixel to be looked at changes nothing. -/
theorem eq_of_lookAlong_quiet {right : Int} {n : Nat} {s : State σ} {x : Int}
    (h : (lookAlong t dst y right n s x false).2 = false) :
    (lookAlong t dst y right n s x false).1 = s := by
  induction n generalizing x with
  | zero => rfl
  | succ n ih =>
    simp only [lookAlong] at h ⊢
    split at h
    next hx => rw [if_pos hx]
    next hx =>
      rw [if_neg hx]
      split at h
      next => exact ih h
      next => rw [lookAlong_found] at h; cases h

end Rasterizer.Flood
