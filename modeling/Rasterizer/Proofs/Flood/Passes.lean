import Rasterizer.Proofs.Flood.Table
import Rasterizer.Scalar
import Mathlib.Data.Finset.Prod
import Mathlib.Tactic.Linarith

/-! # The passes of a fill come to an end

Against any target: a look at a pixel that no run holds leaves fewer such pixels or
none more to look at, so the work still to be done (`work`) bounds the entries that
the passes visit, and `passBound` is never used up (`passes_settled`). When the
passes stop, no entry has a side left to be looked at. -/

namespace Rasterizer.Flood

variable {σ : Type} {t : FloodTarget σ} {dst : Rect} {s : State σ} {x y : Int}

/-! ## Visits -/

theorem visit_cases (t : FloodTarget σ) (dst : Rect) (side : Side) (s : State σ) (c : Nat) :
    ((∀ g, s.table[c]? = some g → g.todo side = false) ∧ visit t dst side s c = (s, false)) ∨
      ∃ g, s.table[c]? = some g ∧ g.todo side = true ∧ visit t dst side s c =
        lookBeside t dst (s.mark c (·.settle side)) g (side.row g.y) := by
  unfold visit
  cases hg : s.table[c]? with
  | none => exact .inl ⟨fun g h => (by cases h), rfl⟩
  | some g =>
    cases htodo : g.todo side with
    | true => exact .inr ⟨g, rfl, htodo, by simp [htodo]⟩
    | false =>
      refine .inl ⟨?_, by simp [htodo]⟩
      intro g' h
      cases h
      exact htodo

theorem passes_preserves {P : State σ → Prop}
    (hvisit : ∀ side s c, P s → P (visit t dst side s c).1) (n : Nat) {s : State σ} (c : Nat)
    (quiet : Bool) (hs : P s) : P (passes t dst n s c quiet) := by
  induction n generalizing s c quiet with
  | zero => exact hs
  | succ n ih =>
    simp only [passes]
    split
    · have hboth := hvisit .above _ c (hvisit .below s c hs)
      split
      · exact ih _ _ hboth
      · exact ih _ _ hboth
    · split
      · exact hs
      · exact ih _ _ hs

theorem todo_settle {g : Segment} {side side' : Side} (h : (g.settle side).todo side' = true) :
    side' ≠ side ∧ g.todo side' = true := by
  cases side <;> cases side' <;> simp_all [Segment.settle, Segment.todo]

/-- A visit that looks at no pixel settles its side of its entry and changes nothing else. -/
theorem visit_quiet {side : Side} {c i : Nat} {g : Segment}
    (hq : (visit t dst side s c).2 = false) (hg : (visit t dst side s c).1.table[i]? = some g) :
    (i = c → g.todo side = false) ∧
      ∃ g', s.table[i]? = some g' ∧ ∀ side', g.todo side' = true → g'.todo side' = true := by
  rcases visit_cases t dst side s c with ⟨hno, hv⟩ | ⟨g₀, -, -, hv⟩
  · rw [hv] at hg
    exact ⟨fun h => hno g (h ▸ hg), g, hg, fun _ => id⟩
  · rw [hv] at hq hg
    rw [lookBeside, eq_of_lookAlong_quiet hq, getElem?_mark] at hg
    split at hg
    next hci =>
      obtain ⟨g', hg', rfl⟩ := Option.map_eq_some_iff.mp hg
      refine ⟨?_, g', hg', fun side' h => (todo_settle h).2⟩
      intro _
      exact Bool.eq_false_iff.mpr fun h => (todo_settle h).1 rfl
    next hci => exact ⟨fun h => absurd h.symm hci, g, hg, fun _ => id⟩

/-! ## The work left -/

/-- The pixels of the rectangle that no filled run holds. -/
def openPixels (dst : Rect) (s : State σ) : Finset (Int × Int) :=
  ((irange dst.left (dst.right - 1)).toFinset ×ˢ
    (irange dst.top (dst.bottom - 1)).toFinset).filter fun p => s.filledTo? dst p.1 p.2 = none

/-- The sides of an entry that are still to be looked at. -/
def Segment.pending (g : Segment) : Nat := g.todoAbove.toNat + g.todoBelow.toNat

def State.pending (s : State σ) : Nat := (s.table.toList.map Segment.pending).sum

/-- Each open pixel may still become a run with two sides to be looked at. -/
def work (dst : Rect) (s : State σ) : Nat := 2 * (openPixels dst s).card + s.pending

/-- The number of entries that the table can come to have. -/
def maxEntries (dst : Rect) : Nat := dst.height.toNat + dst.width.toNat * dst.height.toNat

/-- The rows to be looked at lie in the rectangle, and there is room for the runs to come. -/
structure Tidy (dst : Rect) (s : State σ) : Prop where
  linked : Linked dst s.table
  todo : ∀ (c : Nat) g side, s.table[c]? = some g → g.todo side = true →
    (dst.left ≤ g.left ∧ g.right < dst.right) ∧
      dst.top ≤ side.row g.y ∧ side.row g.y < dst.bottom
  size : s.table.size + (openPixels dst s).card ≤ maxEntries dst

theorem sum_map_modify {α : Type} {f : α → Nat} {g : α → α} {a : α} {l : List α} {i : Nat}
    (h : l[i]? = some a) : ((l.modify i g).map f).sum + f a = (l.map f).sum + f (g a) := by
  induction l generalizing i with
  | nil => cases h
  | cons b l ih =>
    cases i with
    | zero =>
      cases h
      simp only [List.modify_zero_cons, List.map_cons, List.sum_cons]
      omega
    | succ i =>
      have := ih (by simpa using h)
      simp only [List.modify_succ_cons, List.map_cons, List.sum_cons]
      omega

theorem sum_map_modify_of_eq {α : Type} {f : α → Nat} {g : α → α} {l : List α} {i : Nat}
    (h : ∀ a, f (g a) = f a) : ((l.modify i g).map f).sum = (l.map f).sum := by
  cases ha : l[i]? with
  | none => rw [List.modify_eq_self (List.getElem?_eq_none_iff.mp ha)]
  | some a =>
    have := sum_map_modify (f := f) (g := g) ha
    rw [h a] at this
    omega

theorem pending_le (g : Segment) : g.pending ≤ 2 := by
  have := g.todoAbove.toNat_le
  have := g.todoBelow.toNat_le
  unfold Segment.pending
  omega

theorem pending_record (dst : Rect) (s : State σ) (seg : Segment) :
    (s.record dst seg).pending ≤ s.pending + 2 := by
  have hseg := pending_le seg
  simp only [State.pending, State.record]
  split
  · have hlink := sum_map_modify_of_eq (l := s.table.toList)
      (i := lastFrom s.table s.table.size (rowIndex dst seg.y)) (f := Segment.pending)
      (g := fun g => { g with next := s.table.size }) fun _ => rfl
    rw [appendTo, Array.toList_push, Array.toList_modify, List.map_append, List.sum_append, hlink]
    simpa using hseg
  · rw [Array.toList_setIfInBounds, List.set_eq_modify]
    cases hg : s.table.toList[rowIndex dst seg.y]? with
    | none =>
      rw [List.modify_eq_self (List.getElem?_eq_none_iff.mp hg)]
      omega
    | some g =>
      have := sum_map_modify (f := Segment.pending) (g := fun _ => seg) hg
      omega

theorem pending_mark {side : Side} {c : Nat} {g : Segment} (hg : s.table[c]? = some g)
    (htodo : g.todo side = true) : (s.mark c (·.settle side)).pending + 1 = s.pending := by
  have hsum := sum_map_modify (f := Segment.pending) (g := (·.settle side))
    (show s.table.toList[c]? = some g by simpa using hg)
  have hone : (g.settle side).pending + 1 = g.pending := by
    cases side <;> simp_all [Segment.settle, Segment.todo, Segment.pending]
    omega
  simp only [State.pending, State.mark, Array.toList_modify]
  omega

theorem mem_openPixels (hs : Linked dst s.table) {p : Int × Int} : p ∈ openPixels dst s ↔
    (dst.left ≤ p.1 ∧ p.1 < dst.right) ∧ (dst.top ≤ p.2 ∧ p.2 < dst.bottom) ∧
      ¬ s.Holds ⟨p.1, p.2⟩ := by
  rw [openPixels, Finset.mem_filter, Finset.mem_product, List.mem_toFinset, List.mem_toFinset,
    mem_irange, mem_irange, Int.le_sub_one_iff, Int.le_sub_one_iff, and_assoc]
  exact and_congr_right fun _ => and_congr_right fun hy => filledTo?_eq_none_iff hs hy

theorem card_openPixels_le : (openPixels dst s).card ≤ dst.width.toNat * dst.height.toNat := by
  have hside : ∀ lo hi : Int, (irange lo (hi - 1)).toFinset.card ≤ (hi - lo).toNat := fun lo hi => by
    have := List.toFinset_card_le (irange lo (hi - 1))
    rw [length_irange] at this
    omega
  refine (Finset.card_filter_le _ _).trans ?_
  rw [Finset.card_product]
  exact Nat.mul_le_mul (hside _ _) (hside _ _)

theorem linked_record_entryOf (hs : Linked dst s.table) {run : Run}
    (hy : dst.top ≤ run.y ∧ run.y < dst.bottom) : Linked dst (s.record dst (entryOf dst run)).table :=
  linked_record hs hy rfl rfl

theorem holds_record_entryOf (hs : Linked dst s.table) {run : Run}
    (hy : dst.top ≤ run.y ∧ run.y < dst.bottom) {p : Point} :
    (s.record dst (entryOf dst run)).Holds p ↔ s.Holds p ∨ run.Covers p :=
  holds_record ((exists_head hs hy).1.trans_le hs.size) rfl

/-- A run through an open pixel leaves fewer of them. -/
theorem card_openPixels_record (hs : Linked dst s.table) {run : Run}
    (hy : dst.top ≤ run.y ∧ run.y < dst.bottom) (hx : dst.left ≤ x ∧ x < dst.right)
    (hrun : run.x1 ≤ x ∧ x ≤ run.x2) (hopen : ¬ s.Holds ⟨x, run.y⟩) :
    (openPixels dst (s.record dst (entryOf dst run))).card + 1 ≤ (openPixels dst s).card := by
  have hs' := linked_record_entryOf hs hy
  have hsubset : openPixels dst (s.record dst (entryOf dst run)) ⊆ openPixels dst s := by
    intro p hp
    rw [mem_openPixels hs'] at hp
    rw [mem_openPixels hs]
    exact ⟨hp.1, hp.2.1, fun h => hp.2.2 ((holds_record_entryOf hs hy).mpr (.inl h))⟩
  refine Finset.card_lt_card ((Finset.ssubset_iff_of_subset hsubset).mpr ⟨(x, run.y), ?_, ?_⟩)
  · exact (mem_openPixels hs).mpr ⟨hx, hy, hopen⟩
  · intro hp
    exact ((mem_openPixels hs').mp hp).2.2 ((holds_record_entryOf hs hy).mpr (.inr ⟨rfl, hrun⟩))

theorem todo_entryOf {r : Run} {side : Side} (h : (entryOf dst r).todo side = true)
    (hy : dst.top ≤ r.y ∧ r.y < dst.bottom) :
    dst.top ≤ side.row r.y ∧ side.row r.y < dst.bottom := by
  cases side <;> simp only [entryOf, Segment.todo, decide_eq_true_eq] at h <;>
    simp only [Side.row] <;> omega

theorem size_record (dst : Rect) (s : State σ) (seg : Segment) :
    (s.record dst seg).table.size ≤ s.table.size + 1 := by
  simp only [State.record]
  split <;> simp [appendTo]

theorem size_le_record (dst : Rect) (s : State σ) (seg : Segment) :
    s.table.size ≤ (s.record dst seg).table.size := by
  simp only [State.record]
  split <;> simp [appendTo]

/-- Recording a run through an open pixel makes no work. -/
theorem tidy_record (h : Tidy dst s) {run : Run}
    (hcols : dst.left ≤ run.x1 ∧ run.x2 < dst.right) (hx : run.x1 ≤ x ∧ x ≤ run.x2)
    (hy : dst.top ≤ run.y ∧ run.y < dst.bottom) (hopen : ¬ s.Holds ⟨x, run.y⟩) :
    Tidy dst (s.record dst (entryOf dst run)) ∧
      work dst (s.record dst (entryOf dst run)) ≤ work dst s := by
  have hcard : (openPixels dst (s.record dst (entryOf dst run))).card + 1 ≤
      (openPixels dst s).card := card_openPixels_record h.linked hy (by omega) hx hopen
  have hsize := size_record dst s (entryOf dst run)
  have hpending := pending_record dst s (entryOf dst run)
  refine ⟨⟨linked_record_entryOf h.linked hy, ?_, ?_⟩, ?_⟩
  · intro c g side hg htodo
    obtain rfl | ⟨g₀, hg₀, he⟩ := entry_of_record hg
    · exact ⟨hcols, todo_entryOf htodo hy⟩
    · have hrun := run_of_unlinked he
      rw [todo_of_unlinked he] at htodo
      have hplace := h.todo c g₀ side hg₀ htodo
      change (dst.left ≤ g.run.x1 ∧ g.run.x2 < dst.right) ∧
        dst.top ≤ side.row g.run.y ∧ side.row g.run.y < dst.bottom
      rwa [hrun]
  · have := h.size
    omega
  · unfold work
    omega

/-- Filling a run through an open pixel makes no work. -/
theorem tidy_fillRun (t : FloodTarget σ) (h : Tidy dst s) (hx : dst.left ≤ x ∧ x < dst.right)
    (hy : dst.top ≤ y ∧ y < dst.bottom) (hopen : ¬ s.Holds ⟨x, y⟩) :
    Tidy dst (fillRun t dst s x y).1 ∧ work dst (fillRun t dst s x y).1 ≤ work dst s := by
  rw [fillRun_eq]
  split
  · -- filling the target does not touch the table
    let s₁ : State σ := { s with target := t.fill s.target (runThrough t dst s x y) }
    have h₁ : Tidy dst s₁ := ⟨h.linked, h.todo, h.size⟩
    exact tidy_record h₁ (runThrough_within hx.1 hx.2) (le_runThrough t dst s x y) hy hopen
  · exact ⟨h, le_rfl⟩

theorem openPixels_mark (hs : Linked dst s.table) (side : Side) (c : Nat) :
    openPixels dst (s.mark c (·.settle side)) = openPixels dst s := by
  ext p
  rw [mem_openPixels (linked_mark hs side c), mem_openPixels hs, holds_mark]

theorem tidy_mark (h : Tidy dst s) (side : Side) (c : Nat) :
    Tidy dst (s.mark c (·.settle side)) := by
  refine ⟨linked_mark h.linked side c, ?_, ?_⟩
  · intro i g side' hg htodo
    rw [getElem?_mark] at hg
    split at hg
    · obtain ⟨g', hg', rfl⟩ := Option.map_eq_some_iff.mp hg
      have := h.todo i g' side' hg' (todo_settle htodo).2
      cases side <;> exact this
    · exact h.todo i g side' hg htodo
  · rw [openPixels_mark h.linked, State.mark, Array.size_modify]
    exact h.size

/-- No entry is given up. -/
theorem size_le_visit (t : FloodTarget σ) (dst : Rect) (side : Side) (s : State σ) (c : Nat) :
    s.table.size ≤ (visit t dst side s c).1.table.size := by
  rcases visit_cases t dst side s c with ⟨-, hv⟩ | ⟨g, -, -, hv⟩
  · rw [hv]
  · rw [hv]
    have hmark : s.table.size ≤ (s.mark c (·.settle side)).table.size := by
      rw [State.mark, Array.size_modify]
    refine lookAlong_preserves g.left (P := fun s' => s.table.size ≤ s'.table.size) ?_ _ _ le_rfl hmark
    intro s' x hs' _ _ _
    rw [fillRun_eq]
    split
    · exact hs'.trans (size_le_record dst { s' with target := t.fill s'.target _ } _)
    · exact hs'

/-- A visit makes no work, and one that looks at a pixel has done some. -/
theorem tidy_visit (t : FloodTarget σ) (h : Tidy dst s) (side : Side) (c : Nat) :
    Tidy dst (visit t dst side s c).1 ∧
      work dst (visit t dst side s c).1 + (visit t dst side s c).2.toNat ≤ work dst s := by
  rcases visit_cases t dst side s c with ⟨-, hv⟩ | ⟨g, hg, htodo, hv⟩
  · rw [hv]
    exact ⟨h, le_rfl⟩
  · rw [hv]
    obtain ⟨hcols, hrow⟩ := h.todo c g side hg htodo
    have hmark : work dst (s.mark c (·.settle side)) + 1 = work dst s := by
      have := pending_mark hg htodo
      rw [work, work, openPixels_mark h.linked]
      omega
    have hlook : Tidy dst (lookBeside t dst (s.mark c (·.settle side)) g (side.row g.y)).1 ∧
        work dst (lookBeside t dst (s.mark c (·.settle side)) g (side.row g.y)).1 ≤
          work dst (s.mark c (·.settle side)) := by
      refine lookAlong_preserves g.left
        (P := fun s' => Tidy dst s' ∧ work dst s' ≤ work dst (s.mark c (·.settle side)))
        (fun s' x hs' hlo hhi hnone => ?_) _ _ le_rfl ⟨tidy_mark h side c, le_rfl⟩
      have hopen := (filledTo?_eq_none_iff hs'.1.linked hrow).mp hnone
      obtain ⟨htidy, hwork⟩ := tidy_fillRun t hs'.1 ⟨by omega, by omega⟩ hrow hopen
      exact ⟨htidy, hwork.trans hs'.2⟩
    refine ⟨hlook.1, ?_⟩
    have := Bool.toNat_le (lookBeside t dst (s.mark c (·.settle side)) g (side.row g.y)).2
    omega

/-- The two visits of an entry together. -/
theorem tidy_visits (t : FloodTarget σ) (h : Tidy dst s) (c : Nat) :
    Tidy dst (visit t dst .above (visit t dst .below s c).1 c).1 ∧
      work dst (visit t dst .above (visit t dst .below s c).1 c).1 +
        ((visit t dst .below s c).2 || (visit t dst .above (visit t dst .below s c).1 c).2).toNat ≤
          work dst s := by
  obtain ⟨h₁, hw₁⟩ := tidy_visit t h .below c
  obtain ⟨h₂, hw₂⟩ := tidy_visit t h₁ .above c
  refine ⟨h₂, ?_⟩
  have hor : ∀ a b : Bool, (a || b).toNat ≤ a.toNat + b.toNat := by decide
  have := hor (visit t dst .below s c).2 (visit t dst .above (visit t dst .below s c).1 c).2
  omega

/-! ## Enough passes -/

/-- The visits still to come: the work left, a further pass after one that was not quiet, and the
rest of this one. -/
def visitsLeft (dst : Rect) (s : State σ) (c : Nat) (quiet : Bool) : Nat :=
  work dst s * (maxEntries dst + 3) + (if quiet then 0 else maxEntries dst + 1) +
    (maxEntries dst + 1 - c)

/-- Nothing is left to be done for the entries before `c`. -/
def SettledBefore (s : State σ) (c : Nat) : Prop :=
  ∀ i < c, ∀ g, s.table[i]? = some g → ∀ side, g.todo side = false

theorem SettledBefore.visits (t : FloodTarget σ) (dst : Rect) {c : Nat} (h : SettledBefore s c)
    (hbelow : (visit t dst .below s c).2 = false)
    (habove : (visit t dst .above (visit t dst .below s c).1 c).2 = false) :
    SettledBefore (visit t dst .above (visit t dst .below s c).1 c).1 (c + 1) := by
  intro i hi g hg side
  obtain ⟨hside, g', hg', hle'⟩ := visit_quiet habove hg
  obtain ⟨hside', g'', hg'', hle''⟩ := visit_quiet hbelow hg'
  rcases eq_or_ne i c with hic | hne
  · cases side with
    | above => exact hside hic
    | below =>
      apply Bool.eq_false_iff.mpr
      intro htodo
      have := hle' .below htodo
      rw [hside' hic] at this
      cases this
  · apply Bool.eq_false_iff.mpr
    intro htodo
    have := h i (by omega) g'' hg'' side
    rw [hle'' side (hle' side htodo)] at this
    cases this

/-- The two visits of an entry are one fewer to come, even when the pass turns back by one entry, as it
does only after some work. -/
theorem visitsLeft_next {s' : State σ} {c c' : Nat} {found : Bool} (quiet : Bool)
    (hwork : work dst s' + found.toNat ≤ work dst s) (hc : c ≤ maxEntries dst) (hc' : c ≤ c' + 1)
    (hquiet : found = false → c' = c + 1) :
    visitsLeft dst s' c' (quiet && !found) < visitsLeft dst s c quiet := by
  have hmul := Nat.mul_le_mul_right (maxEntries dst + 3) hwork
  cases found with
  | true =>
    rw [Bool.toNat_true, Nat.succ_mul] at hmul
    simp only [visitsLeft, Bool.not_true, Bool.and_false, Bool.false_eq_true, if_false]
    split <;> omega
  | false =>
    rw [hquiet rfl, Bool.not_false, Bool.and_true]
    rw [Bool.toNat_false, Nat.add_zero] at hmul
    unfold visitsLeft
    omega

/-- With as many visits to go as there can be, a property of the passes from a place to where they end
follows from two facts: it holds where a quiet pass is over, and it holds of each place if it holds of the
one that the passes go on to. -/
theorem passes_induct (t : FloodTarget σ) (dst : Rect) {P : State σ → Nat → Bool → State σ → Prop}
    (hvisits : ∀ s c quiet s', Tidy dst s → c < s.table.size →
      P (visit t dst .above (visit t dst .below s c).1 c).1
        (if (visit t dst .above (visit t dst .below s c).1 c).2 ∧ c < dst.height.toNat ∧ 0 < c then c - 1
          else c + 1)
        (quiet && !(visit t dst .below s c).2 &&
          !(visit t dst .above (visit t dst .below s c).1 c).2) s' → P s c quiet s')
    (hagain : ∀ s c s', s.table.size ≤ c → P s 0 true s' → P s c false s')
    (hstop : ∀ s c, s.table.size ≤ c → P s c true s)
    (n : Nat) {s : State σ} {c : Nat} {quiet : Bool} (ht : Tidy dst s) (hc : c ≤ maxEntries dst)
    (hn : visitsLeft dst s c quiet ≤ n) : P s c quiet (passes t dst n s c quiet) := by
  induction n generalizing s c quiet with
  | zero =>
    unfold visitsLeft at hn
    omega
  | succ n ih =>
    simp only [passes]
    split
    next hlt =>
      refine hvisits s c quiet _ ht hlt ?_
      obtain ⟨ht₂, hw⟩ := tidy_visits t ht c
      have hsize := ht.size
      generalize visit t dst .below s c = v₁ at *
      generalize visit t dst .above v₁.1 c = v₂ at *
      have hnext : ∀ c', c ≤ c' + 1 → (v₂.2 = false → c' = c + 1) →
          visitsLeft dst v₂.1 c' (quiet && !v₁.2 && !v₂.2) < visitsLeft dst s c quiet := by
        intro c' hc' hquiet
        rw [Bool.and_assoc, ← Bool.not_or]
        exact visitsLeft_next quiet hw hc hc' fun h => hquiet (Bool.or_eq_false_iff.mp h).2
      split
      next hback =>
        have := hnext (c - 1) (by omega) fun h => by rw [hback.1] at h; cases h
        exact ih ht₂ (by omega) (by omega)
      next =>
        have := hnext (c + 1) (by omega) fun _ => rfl
        exact ih ht₂ (by omega) (by omega)
    next hge =>
      cases quiet with
      | true => exact hstop s c (by omega)
      | false =>
        refine hagain s c _ (by omega) (ih ht (Nat.zero_le _) ?_)
        simp only [visitsLeft, Bool.false_eq_true, if_false, if_true] at hn ⊢
        omega

/-- With as many visits to go as there can be, the passes end with every side of every entry looked
at. -/
theorem passes_settled (t : FloodTarget σ) (n : Nat) {s : State σ} {c : Nat} {quiet : Bool}
    (ht : Tidy dst s) (hc : c ≤ maxEntries dst) (hq : quiet = true → SettledBefore s c)
    (hn : visitsLeft dst s c quiet ≤ n) (i : Nat) (g : Segment)
    (hg : (passes t dst n s c quiet).table[i]? = some g) (side : Side) : g.todo side = false := by
  have hrun : (quiet = true → SettledBefore s c) →
      SettledBefore (passes t dst n s c quiet) (passes t dst n s c quiet).table.size := by
    refine passes_induct t dst
      (P := fun s c quiet s' => (quiet = true → SettledBefore s c) → SettledBefore s' s'.table.size)
      ?_ ?_ ?_ n ht hc hn
    · intro s c quiet s' _ _ hnext hq
      refine hnext ?_
      intro hstill
      obtain ⟨⟨hquiet, hbelow⟩, habove⟩ : (quiet = true ∧ (visit t dst .below s c).2 = false) ∧
          (visit t dst .above (visit t dst .below s c).1 c).2 = false := by
        simpa only [Bool.and_eq_true, Bool.not_eq_true'] using hstill
      rw [if_neg fun h => by rw [habove] at h; cases h.1]
      exact SettledBefore.visits t dst (hq hquiet) hbelow habove
    · intro s c s' _ hnext _
      exact hnext fun _ i hi => absurd hi (Nat.not_lt_zero i)
    · intro s c hle hq i hi
      exact hq rfl i (hi.trans_le hle)
  exact hrun hq i (Array.getElem?_eq_some_iff.mp hg).1 g hg side

/-! ## A whole fill -/

/-- The state after the run through the first pixel. -/
def State.afterFirst (t : FloodTarget σ) (target : σ) (dst : Rect) (x y : Int) : State σ :=
  (fillRun t dst (State.start dst target y) x y).1

/-- The state in which the passes over the table end. -/
def State.final (t : FloodTarget σ) (target : σ) (dst : Rect) (x y : Int) : State σ :=
  passes t dst (passBound dst) (State.afterFirst t target dst x y) 0 true

theorem fill_eq (t : FloodTarget σ) (target : σ) (dst : Rect) (x y : Int) :
    fill t target dst x y =
      if dst.normalized.contains x y then (State.final t target dst.normalized x y).target
      else target := rfl

theorem getElem?_start {target : σ} {y : Int} {c : Nat} {g : Segment}
    (h : (State.start dst target y).table[c]? = some g) : g = Segment.unused y := by
  simp only [State.start, Array.getElem?_replicate] at h
  split at h
  · exact (Option.some.inj h).symm
  · cases h

theorem linked_start (dst : Rect) (target : σ) (y : Int) :
    Linked dst (State.start dst target y).table where
  size := Array.size_replicate.ge
  heads c g hg huse := by
    rw [getElem?_start hg] at huse
    cases huse
  idle c g hg _ := by
    rw [getElem?_start hg]
    exact ⟨Int.zero_lt_one, rfl⟩
  forward c g hg hnext := by
    rw [getElem?_start hg] at hnext
    exact absurd rfl hnext
  linked d g hg hrow := by
    have hlt := (Array.getElem?_eq_some_iff.mp hg).1
    simp only [State.start, Array.size_replicate] at hlt
    omega

theorem not_holds_start (dst : Rect) (target : σ) (y : Int) (p : Point) :
    ¬ (State.start dst target y).Holds p := by
  rintro ⟨c, g, hg, huse, -⟩
  rw [getElem?_start hg] at huse
  cases huse

theorem tidy_start (dst : Rect) (target : σ) (y : Int) : Tidy dst (State.start dst target y) := by
  refine ⟨linked_start dst target y, ?_, ?_⟩
  · intro c g side hg htodo
    rw [getElem?_start hg] at htodo
    cases side <;> cases htodo
  · have hcard : (openPixels dst (State.start dst target y)).card ≤
        dst.width.toNat * dst.height.toNat := card_openPixels_le
    simp only [State.start, Array.size_replicate] at hcard ⊢
    unfold maxEntries
    omega

theorem work_start_le (dst : Rect) (target : σ) (y : Int) :
    work dst (State.start dst target y) ≤ 2 * (dst.width.toNat * dst.height.toNat) := by
  have hcard : (openPixels dst (State.start dst target y)).card ≤
      dst.width.toNat * dst.height.toNat := card_openPixels_le
  have hpending : (State.start dst target y).pending = 0 := by
    refine List.sum_eq_zero ?_
    intro n hn
    obtain ⟨g, hg, rfl⟩ := List.mem_map.mp hn
    obtain ⟨c, hc⟩ := List.getElem?_of_mem hg
    have hunused : g = Segment.unused y := getElem?_start (by simpa using hc)
    rw [hunused]
    rfl
  unfold work
  omega

theorem tidy_afterFirst (t : FloodTarget σ) (target : σ) (h : dst.contains x y = true) :
    Tidy dst (State.afterFirst t target dst x y) ∧
      work dst (State.afterFirst t target dst x y) ≤ 2 * (dst.width.toNat * dst.height.toNat) := by
  obtain ⟨hl, hr, htop, hbottom⟩ := Rect.contains_iff.mp h
  obtain ⟨htidy, hwork⟩ := tidy_fillRun t (tidy_start dst target y) ⟨hl, hr⟩ ⟨htop, hbottom⟩
    (not_holds_start dst target y _)
  exact ⟨htidy, hwork.trans (work_start_le dst target y)⟩

theorem visitsLeft_afterFirst_le (t : FloodTarget σ) (target : σ) (h : dst.contains x y = true) :
    visitsLeft dst (State.afterFirst t target dst x y) 0 true ≤ passBound dst := by
  have hmul := Nat.mul_le_mul_right (maxEntries dst + 3) (tidy_afterFirst t target h).2
  simp only [visitsLeft, passBound, maxEntries, if_true, Nat.add_zero, Nat.sub_zero] at hmul ⊢
  generalize dst.width.toNat * dst.height.toNat = pixels at *
  generalize dst.height.toNat = rows at *
  refine (Nat.add_le_add_right hmul _).trans ?_
  nlinarith [Nat.zero_le (pixels * rows)]

/-- A fill ends, whatever its target, with nothing left to be looked at. -/
theorem final_settled (t : FloodTarget σ) (target : σ) (h : dst.contains x y = true) {i : Nat}
    {g : Segment} (hg : (State.final t target dst x y).table[i]? = some g) (side : Side) :
    g.todo side = false :=
  passes_settled t (passBound dst) (tidy_afterFirst t target h).1 (Nat.zero_le _)
    (fun _ i hi => absurd hi (Nat.not_lt_zero i)) (visitsLeft_afterFirst_le t target h) i g hg side

end Rasterizer.Flood
