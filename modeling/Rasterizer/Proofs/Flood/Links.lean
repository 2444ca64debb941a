import Rasterizer.Proofs.Flood.Area

/-! # The links of the table

A link leads to a later entry of the same row, so following links comes to an end, and
every entry in use but the rows' own has one leading to it (`Linked`). Hence the walk from
a row's own entry meets all runs of the row, and recording a run keeps it so. -/

namespace Rasterizer.Flood

variable {dst : Rect} {table : Array Segment} {c d n : Nat} {g : Segment} {x y : Int}

/-- Links lead from the first entry to the second. -/
inductive Reaches (table : Array Segment) : Nat → Nat → Prop
  | here (c : Nat) : Reaches table c c
  | link {c d : Nat} {g : Segment} : table[c]? = some g → g.next ≠ 0 → Reaches table g.next d →
      Reaches table c d

theorem Reaches.snoc (h : Reaches table c d) (hg : table[d]? = some g) (hnext : g.next ≠ 0) :
    Reaches table c g.next := by
  induction h with
  | here c => exact .link hg hnext (.here _)
  | link hc hne _ ih => exact .link hc hne (ih hg)

/-- The table of a fill inside the rectangle. -/
structure Linked (dst : Rect) (table : Array Segment) : Prop where
  size : dst.height.toNat ≤ table.size
  /-- The first entries are those of the rows. -/
  heads : ∀ (c : Nat) g, table[c]? = some g → g.inUse = true → c < dst.height.toNat →
    g.y = dst.top + (c : Int)
  idle : ∀ (c : Nat) g, table[c]? = some g → g.inUse = false → g.right < g.left ∧ g.next = 0
  forward : ∀ (c : Nat) g, table[c]? = some g → g.next ≠ 0 → c < g.next ∧
    ∃ g', table[g.next]? = some g' ∧ g'.y = g.y ∧ g'.inUse = true
  /-- The further entries are those of runs, each linked with an earlier one. -/
  linked : ∀ (d : Nat) g, table[d]? = some g → dst.height.toNat ≤ d → g.inUse = true ∧
    ∃ c g', c < d ∧ table[c]? = some g' ∧ g'.next = d

/-! ## Following links -/

namespace Linked

theorem inUse_of_link (h : Linked dst table) (hg : table[c]? = some g) (hnext : g.next ≠ 0) :
    g.inUse = true :=
  eq_true_of_ne_false fun huse => hnext (h.idle c g hg huse).2

/-- All entries that links lead to lie on one row. -/
theorem y_of_reaches (h : Linked dst table) (hr : Reaches table c d) {g₀ : Segment}
    (hc : table[c]? = some g₀) (hd : table[d]? = some g) : g.y = g₀.y := by
  induction hr generalizing g₀ with
  | here c => rw [Option.some.inj (hd.symm.trans hc)]
  | link hc' hnext _ ih =>
    obtain ⟨-, g', hg', hy, -⟩ := h.forward _ _ hc' hnext
    rw [ih hg' hd, hy, Option.some.inj (hc'.symm.trans hc)]

/-- Links lead from the row's own entry to every run of the row. -/
theorem reaches (h : Linked dst table) (hd : table[d]? = some g) (huse : g.inUse = true) :
    Reaches table (rowIndex dst g.y) d := by
  induction d using Nat.strongRecOn generalizing g with
  | ind d ih =>
    by_cases hrow : d < dst.height.toNat
    · have hy := h.heads d g hd huse hrow
      have hindex : rowIndex dst g.y = d := by
        unfold rowIndex
        omega
      rw [hindex]
      exact .here d
    · obtain ⟨-, c, g', hlt, hc, rfl⟩ := h.linked d g hd (Nat.le_of_not_lt hrow)
      have hnext : g'.next ≠ 0 := Nat.ne_of_gt (Nat.zero_lt_of_lt hlt)
      obtain ⟨-, g'', hg'', hy, -⟩ := h.forward c g' hc hnext
      rw [Option.some.inj (hd.symm.trans hg''), hy]
      exact (ih c hlt hc (h.inUse_of_link hc hnext)).snoc hc hnext

end Linked

/-! ## The two walks -/

theorem heldFrom?_some {r : Int} (h : heldFrom? table x n c = some r) :
    ∃ d g, Reaches table c d ∧ table[d]? = some g ∧ (g.left ≤ x ∧ x ≤ g.right) ∧ g.right = r := by
  induction n generalizing c with
  | zero => cases h
  | succ n ih =>
    simp only [heldFrom?] at h
    split at h
    next g hg =>
      split at h
      next hx => exact ⟨c, g, .here c, hg, hx, Option.some.inj h⟩
      next =>
        split at h
        next => cases h
        next hnext =>
          obtain ⟨d, g', hr, hd⟩ := ih h
          exact ⟨d, g', .link hg hnext hr, hd⟩
    next => cases h

/-- A walk over enough links passes over no run. -/
theorem Linked.not_held (h : Linked dst table) (hn : table.size ≤ c + n)
    (hnone : heldFrom? table x n c = none) (hr : Reaches table c d) (hd : table[d]? = some g) :
    ¬ (g.left ≤ x ∧ x ≤ g.right) := by
  induction n generalizing c with
  | zero =>
    have hout : table[c]? = none := Array.getElem?_eq_none_iff.mpr (by omega)
    cases hr with
    | here => rw [hd] at hout; cases hout
    | link hc => rw [hc] at hout; cases hout
  | succ n ih =>
    simp only [heldFrom?] at hnone
    cases hr with
    | here =>
      simp only [hd] at hnone
      intro hx
      rw [if_pos hx] at hnone
      cases hnone
    | link hc hnext hr =>
      simp only [hc, if_neg hnext] at hnone
      split at hnone
      next => cases hnone
      next =>
        have := (h.forward _ _ hc hnext).1
        exact ih (by omega) hnone hr

/-- A walk over enough links ends at an entry without one. -/
theorem Linked.lastFrom_spec (h : Linked dst table) (hn : table.size ≤ c + n) {g₀ : Segment}
    (hc : table[c]? = some g₀) : ∃ g, table[lastFrom table n c]? = some g ∧ g.next = 0 ∧
      g.y = g₀.y ∧ (g₀.inUse = true → g.inUse = true) := by
  induction n generalizing c g₀ with
  | zero =>
    have := (Array.getElem?_eq_some_iff.mp hc).1
    omega
  | succ n ih =>
    simp only [lastFrom, hc]
    split
    next hlast => exact ⟨g₀, hc, hlast, rfl, id⟩
    next hnext =>
      obtain ⟨hlt, g', hg', hy, huse'⟩ := h.forward _ _ hc hnext
      obtain ⟨g, hg, hlast, hgy, huse⟩ := ih (by omega) hg'
      exact ⟨g, hg, hlast, hgy.trans hy, fun _ => huse huse'⟩

/-! ## Recording a run -/

theorem getElem?_appendTo (table : Array Segment) (last : Nat) (seg : Segment) (c : Nat) :
    (appendTo table last seg)[c]? = if c = table.size then some seg
      else if last = c then (table[c]?).map fun g => { g with next := table.size }
      else table[c]? := by
  rw [appendTo, Array.getElem?_push, Array.size_modify, Array.getElem?_modify]

/-- But for its link an entry stays as it was. -/
theorem appendTo_old (last : Nat) (seg : Segment) (hc : table[c]? = some g) :
    ∃ next, (appendTo table last seg)[c]? = some { g with next := next } ∧
      (c = last → next = table.size) ∧ (c ≠ last → next = g.next) := by
  have hne : c ≠ table.size := Nat.ne_of_lt (Array.getElem?_eq_some_iff.mp hc).1
  rw [getElem?_appendTo, if_neg hne, hc]
  by_cases hlast : last = c
  · exact ⟨table.size, if_pos hlast, fun _ => rfl, fun h => absurd hlast.symm h⟩
  · exact ⟨g.next, if_neg hlast, fun h => absurd h.symm hlast, fun _ => rfl⟩

theorem appendTo_cases {last : Nat} {seg : Segment} (hc : (appendTo table last seg)[c]? = some g) :
    (c = table.size ∧ g = seg) ∨
      ∃ g₀, table[c]? = some g₀ ∧ g = { g₀ with next := g.next } ∧
        (c = last ∧ g.next = table.size ∨ c ≠ last ∧ g.next = g₀.next) := by
  rw [getElem?_appendTo] at hc
  split at hc
  next hsize => exact .inl ⟨hsize, (Option.some.inj hc).symm⟩
  next =>
    split at hc
    next hlast =>
      obtain ⟨g₀, hg₀, rfl⟩ := Option.map_eq_some_iff.mp hc
      exact .inr ⟨g₀, hg₀, rfl, .inl ⟨hlast.symm, rfl⟩⟩
    next hlast => exact .inr ⟨g, hc, rfl, .inr ⟨Ne.symm hlast, rfl⟩⟩

theorem Linked.appendTo (h : Linked dst table) {last : Nat} {g₁ seg : Segment}
    (hlast : table[last]? = some g₁) (hend : g₁.next = 0) (huse₁ : g₁.inUse = true)
    (huse : seg.inUse = true) (hnext : seg.next = 0) (hy : seg.y = g₁.y) :
    Linked dst (appendTo table last seg) := by
  have hlt : last < table.size := (Array.getElem?_eq_some_iff.mp hlast).1
  have hsize := h.size
  refine ⟨?_, ?_, ?_, ?_, ?_⟩
  · rw [Flood.appendTo, Array.size_push, Array.size_modify]
    omega
  · intro c g hc hg hrow
    obtain ⟨rfl, -⟩ | ⟨g₀, hg₀, he, -⟩ := appendTo_cases hc
    · omega
    · rw [he] at hg ⊢
      exact h.heads c g₀ hg₀ hg hrow
  · intro c g hc hg
    obtain ⟨rfl, rfl⟩ | ⟨g₀, hg₀, he, ⟨rfl, hn⟩ | ⟨hne, hn⟩⟩ := appendTo_cases hc
    · rw [huse] at hg
      cases hg
    · rw [he, ← Option.some.inj (hlast.symm.trans hg₀), huse₁] at hg
      cases hg
    · rw [he] at hg
      have := h.idle c g₀ hg₀ hg
      rw [hn, he]
      exact this
  · intro c g hc hg
    obtain ⟨rfl, rfl⟩ | ⟨g₀, hg₀, he, ⟨rfl, hn⟩ | ⟨hne, hn⟩⟩ := appendTo_cases hc
    · exact absurd hnext hg
    · refine ⟨by omega, seg, ?_, ?_, huse⟩
      · rw [hn, getElem?_appendTo, if_pos rfl]
      · rw [hy, he, Option.some.inj (hlast.symm.trans hg₀)]
    · rw [hn] at hg ⊢
      obtain ⟨hltc, g', hg', hy', huse'⟩ := h.forward c g₀ hg₀ hg
      obtain ⟨next, hold, -⟩ := appendTo_old last seg hg'
      exact ⟨hltc, _, hold, hy'.trans (by rw [he]), huse'⟩
  · intro d g hd hrow
    obtain ⟨rfl, rfl⟩ | ⟨g₀, hg₀, he, -⟩ := appendTo_cases hd
    · obtain ⟨next, hold, hn, -⟩ := appendTo_old last g hlast
      exact ⟨huse, last, _, hlt, hold, hn rfl⟩
    · obtain ⟨huse₀, c, g', hcd, hc, hlink⟩ := h.linked d g₀ hg₀ hrow
      have hne : c ≠ last := by
        rintro rfl
        rw [← Option.some.inj (hlast.symm.trans hc), hend] at hlink
        omega
      obtain ⟨next, hold, -, hn⟩ := appendTo_old last seg hc
      exact ⟨by rw [he]; exact huse₀, c, _, hcd, hold, (hn hne).trans hlink⟩

theorem setIfInBounds_cases {i : Nat} {seg : Segment}
    (hc : (table.setIfInBounds i seg)[c]? = some g) :
    (c = i ∧ g = seg) ∨ (c ≠ i ∧ table[c]? = some g) := by
  rw [Array.getElem?_setIfInBounds] at hc
  split at hc
  next hi =>
    split at hc
    · exact .inl ⟨hi.symm, (Option.some.inj hc).symm⟩
    · cases hc
  next hi => exact .inr ⟨Ne.symm hi, hc⟩

theorem Linked.setHead (h : Linked dst table) {i : Nat} {g₁ seg : Segment}
    (hi : i < dst.height.toNat) (hfree : table[i]? = some g₁) (hidle : g₁.inUse = false)
    (huse : seg.inUse = true) (hnext : seg.next = 0) (hy : seg.y = dst.top + (i : Int)) :
    Linked dst (table.setIfInBounds i seg) := by
  have hother : ∀ {c g}, c ≠ i → table[c]? = some g → (table.setIfInBounds i seg)[c]? = some g :=
    fun hne hc => by rw [Array.getElem?_setIfInBounds, if_neg (Ne.symm hne), hc]
  refine ⟨?_, ?_, ?_, ?_, ?_⟩
  · rw [Array.size_setIfInBounds]
    exact h.size
  · intro c g hc hg hrow
    obtain ⟨rfl, rfl⟩ | ⟨-, hc⟩ := setIfInBounds_cases hc
    · exact hy
    · exact h.heads c g hc hg hrow
  · intro c g hc hg
    obtain ⟨rfl, rfl⟩ | ⟨-, hc⟩ := setIfInBounds_cases hc
    · rw [huse] at hg
      cases hg
    · exact h.idle c g hc hg
  · intro c g hc hg
    obtain ⟨rfl, rfl⟩ | ⟨-, hc⟩ := setIfInBounds_cases hc
    · exact absurd hnext hg
    · obtain ⟨hlt, g', hg', hy', huse'⟩ := h.forward c g hc hg
      have hne : g.next ≠ i := by
        rintro rfl
        rw [Option.some.inj (hfree.symm.trans hg'), huse'] at hidle
        cases hidle
      exact ⟨hlt, g', hother hne hg', hy', huse'⟩
  · intro d g hd hrow
    obtain ⟨rfl, rfl⟩ | ⟨-, hd⟩ := setIfInBounds_cases hd
    · omega
    · obtain ⟨huse', c, g', hcd, hc, hlink⟩ := h.linked d g hd hrow
      have hne : c ≠ i := by
        rintro rfl
        rw [Option.some.inj (hfree.symm.trans hc)] at hidle
        have := (h.idle c g' hc hidle).2
        omega
      exact ⟨huse', c, g', hcd, hother hne hc, hlink⟩

end Rasterizer.Flood
